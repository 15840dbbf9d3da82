import StudyCode.Http.Delivery
import StudyCode.Lib.StringEdit

/-!
# The buffer that a request is read into

`handleClient` clears an array of `BUFFER_SIZE` bytes, lets `read` fill up to all
of it, and makes a `std::string` of the bytes before the first NUL. Where there is none
in the array, the constructor reads on behind it.
-/
namespace StudyCode.HttpServer
open StudyCode.ByteString StudyCode.SessionManager

/-- What `read(client_fd, buffer, sizeof(buffer))` does: it fails, or it stores
bytes from the front of the array on. -/
inductive ReadResult where
  | failed
  | received (stored : Str) (fits : stored.length ≤ bufferSize)

def ReadResult.stored : ReadResult → Str
  | .failed => []
  | .received stored _ => stored

theorem ReadResult.fits (r : ReadResult) : r.stored.length ≤ bufferSize := by
  cases r with
  | failed => exact Nat.zero_le _
  | received stored fits => exact fits

/-- The array after `char buffer[BUFFER_SIZE] = {0}` and the `read`. -/
def ReadResult.buffer (r : ReadResult) : Str :=
  r.stored ++ List.replicate (bufferSize - r.stored.length) 0

/-- The whole array is filled, and no byte of it is a NUL. -/
def ReadResult.FillsBuffer (r : ReadResult) : Prop :=
  r.stored.length = bufferSize ∧ 0 ∉ r.stored

theorem ReadResult.mem_buffer (r : ReadResult) : 0 ∈ r.buffer ↔ ¬ r.FillsBuffer := by
  have fits := r.fits
  simp only [ReadResult.buffer, List.mem_append, List.mem_replicate, ReadResult.FillsBuffer,
    and_true, ne_eq]
  constructor
  · rintro (nul | room) ⟨full, plain⟩
    · exact plain nul
    · omega
  · intro ended
    by_cases nul : 0 ∈ r.stored
    · exact .inl nul
    · have more : r.stored.length ≠ bufferSize := fun full => ended ⟨full, nul⟩
      exact .inr (by omega)

/-- Unless the array is full, the request is what was stored before the first NUL. -/
theorem cString_buffer {r : ReadResult} (ended : ¬ r.FillsBuffer) :
    cString 0 r.buffer = some (r.stored.takeWhile (· != 0)) :=
  cString_padded 0 r.stored (r.mem_buffer.mpr ended)

/-- The request string is built from inside the array. -/
def BuiltInside (r : ReadResult) : Prop :=
  0 ∈ r.buffer ∧ (0 ∉ r.stored → cString 0 r.buffer = some r.stored)

/-- For every result of `read`: the terminating NUL is in the array, and bytes without
a NUL make up exactly the string, if and only if the bytes do not fill the array
without a NUL among them. -/
theorem built_inside_iff (r : ReadResult) : BuiltInside r ↔ ¬ r.FillsBuffer := by
  rw [← r.mem_buffer]
  refine and_iff_left_of_imp fun nul plain => ?_
  rw [cString_buffer (r.mem_buffer.mp nul), Option.some.injEq, List.takeWhile_eq_self_iff]
  intro c hc
  rw [bne_iff_ne]
  rintro rfl
  exact plain hc

/-- A request of 4096 bytes or more: the string is not ended inside the array. -/
theorem full_buffer_unended :
    ∃ r : ReadResult, r.stored = List.replicate 4096 65 ∧ ¬ 0 ∈ r.buffer ∧
      cString 0 r.buffer = none := by
  have stored : (0 : UInt8) ∉ List.replicate 4096 (65 : UInt8) := by
    rw [List.mem_replicate]
    decide
  have length : (List.replicate 4096 (65 : UInt8)).length = bufferSize := List.length_replicate
  have full : (ReadResult.received _ (Nat.le_of_eq length)).FillsBuffer := ⟨length, stored⟩
  have unended := mt (ReadResult.mem_buffer _).mp (not_not.mpr full)
  exact ⟨_, rfl, unended, if_neg unended⟩

/-- What `handleClient` reads of what is available is the string in the array. -/
theorem readRequest_of_stored {r : ReadResult} {available : Str}
    (read : r.stored = available.take bufferSize) (ended : ¬ r.FillsBuffer) :
    cString 0 r.buffer = some (readRequest available) := by
  rw [cString_buffer ended, read]
  rfl

end StudyCode.HttpServer

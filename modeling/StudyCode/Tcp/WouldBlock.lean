import StudyCode.Tcp.Replies

/-!
# A result that only says "not now"

The client sockets do not block, so `recv` and `send` return -1 also where they
would have to wait or were interrupted. `Connection` closes on every -1. A
connection is closed for a reason that is final exactly in the runs in which no
call that is made has to wait.
-/
namespace StudyCode.Tcp
open StudyCode.ByteString StudyCode.Scheduled

/-- What `recv` reports; `wouldBlock` is `EAGAIN`, `EWOULDBLOCK` or `EINTR`. -/
inductive RecvResult where
  | data (b : UInt8) (bs : Str)
  | endOfStream
  | wouldBlock
  | hardError
  deriving DecidableEq, Repr

inductive SendResult where
  | count (n : ℕ)
  | wouldBlock
  | hardError
  deriving DecidableEq, Repr

/-- What the caller of `recv` sees: both kinds of errors are -1. -/
def RecvResult.value : RecvResult → Option Str
  | .data b bs => some (b :: bs)
  | .endOfStream => some []
  | .wouldBlock => none
  | .hardError => none

def SendResult.value : SendResult → Option ℕ
  | .count n => some n
  | .wouldBlock => none
  | .hardError => none

inductive Call where
  | readData (received : RecvResult) (sent : SendResult)
  | sendData (msg : Str) (sent : SendResult)
  | closeConnection
  deriving DecidableEq, Repr

def Call.run (p : ℕ) : Call → Action
  | .readData received sent => Tcp.readData p received.value sent.value
  | .sendData msg sent => Tcp.sendData p msg sent.value
  | .closeConnection => Tcp.closeConnection p

/-- The call meets the end of the stream or a hard error, or is the explicit close. -/
def Call.final : Call → Bool
  | .readData .endOfStream _ => true
  | .readData .hardError _ => true
  | .readData (.data _ _) .hardError => true
  | .sendData _ .hardError => true
  | .closeConnection => true
  | _ => false

/-- A system call that is made has to wait. -/
def Call.waits : Call → Bool
  | .readData .wouldBlock _ => true
  | .readData (.data _ _) .wouldBlock => true
  | .sendData _ .wouldBlock => true
  | _ => false

/-- The host, and whether the connection met a final result while it was open. -/
structure Watched where
  host : Host
  ended : Bool

def watchStep (p : ℕ) (s : Watched) (call : Call) : Option (Watched × List Event) :=
  let r := call.run p s.host
  some ({ host := r.1, ended := s.ended || (call.final && !s.host.closed p) }, r.2)

/-- The calls on the object at `p`. -/
def watch (h : Host) (p : ℕ) : Machine Watched Call Event where
  start := { host := h, ended := false }
  step := watchStep p

/-- The connection is closed exactly after the end of its stream, a hard error
or an explicit close. -/
def ClosedForGood (p : ℕ) (s : Watched) : Prop := s.host.closed p = s.ended

instance (p : ℕ) (s : Watched) : Decidable (ClosedForGood p s) :=
  inferInstanceAs (Decidable (_ = _))

/-- No call on the open connection has to wait. -/
def NeverWaits (p : ℕ) (s : Watched) (call : Call) : Prop :=
  s.host.closed p = false → call.waits = false

variable {h : Host} {p : ℕ} {c : Connection}

theorem sendData_closes (hp : h.heap p = some c) (status : c.status = .connected) (msg : Str)
    (sent : SendResult) : (sendData p msg sent.value h).1.closed p =
      ((Call.sendData msg sent).final || (Call.sendData msg sent).waits) := by
  have closes := (closeConnection_closes hp).1
  cases sent with
  | count n =>
      rw [SendResult.value, sendData_sent hp status]
      exact (closed_eq_false hp).mpr status
  | wouldBlock =>
      rw [SendResult.value, sendData_failed hp status]
      exact closes
  | hardError =>
      rw [SendResult.value, sendData_failed hp status]
      exact closes

/-- A call on an open connection closes it where its result is final, and where
it would have to wait. -/
theorem Call.run_closes (hp : h.heap p = some c) (status : c.status = .connected) (call : Call) :
    (call.run p h).1.closed p = (call.final || call.waits) := by
  have closes := (closeConnection_closes hp).1
  cases call with
  | readData received sent =>
      cases received with
      | data b bs =>
          have reply := sendData_closes hp status (answer (b :: bs)) sent
          rw [Call.run, RecvResult.value, readData_data hp status, reply]
          cases sent <;> rfl
      | endOfStream =>
          rw [Call.run, RecvResult.value, readData_ended hp status (.inr rfl)]
          exact closes
      | wouldBlock =>
          rw [Call.run, RecvResult.value, readData_ended hp status (.inl rfl)]
          exact closes
      | hardError =>
          rw [Call.run, RecvResult.value, readData_ended hp status (.inl rfl)]
          exact closes
  | sendData msg sent => exact sendData_closes hp status msg sent
  | closeConnection => exact closes

theorem Call.run_of_closed (hp : h.heap p = some c) (status : c.status = .closed) (call : Call) :
    call.run p h = (h, []) := by
  cases call with
  | readData received sent => exact readData_of_closed hp status _ _
  | sendData msg sent => exact sendData_of_closed hp status _ _
  | closeConnection => exact closeConnection_closed hp status

theorem Call.run_alive (hp : h.heap p = some c) (call : Call) : (call.run p h).1.heap p ≠ none := by
  have here : h.heap p ≠ none := by simp [hp]
  cases status : c.status with
  | closed =>
      rw [call.run_of_closed hp status]
      exact here
  | connected =>
      cases closes : call.final || call.waits with
      | true => exact Host.heap_of_closed ((call.run_closes hp status).trans closes)
      | false =>
          cases call with
          | readData received sent =>
              cases received <;> cases sent <;> cases closes
              rw [Call.run, RecvResult.value, SendResult.value, readData_data hp status,
                sendData_sent hp status]
              exact here
          | sendData msg sent =>
              cases sent <;> cases closes
              rw [Call.run, SendResult.value, sendData_sent hp status]
              exact here
          | closeConnection => cases closes

/-- The two kinds of results exclude each other. -/
theorem Call.final_of_waits (call : Call) (h : call.waits = true) : call.final = false := by
  cases call with
  | readData received sent => cases received <;> cases sent <;> first | rfl | cases h
  | sendData msg sent => cases sent <;> first | rfl | cases h
  | closeConnection => cases h

theorem watchStep_iff {s t : Watched} {call : Call} {o : List Event} (hp : s.host.heap p ≠ none)
    (kept : ClosedForGood p s) (hs : watchStep p s call = some (t, o)) :
    t.host.heap p ≠ none ∧ (ClosedForGood p t ↔ NeverWaits p s call) := by
  obtain ⟨c, hp⟩ := Option.ne_none_iff_exists'.mp hp
  cases hs
  refine ⟨call.run_alive hp, ?_⟩
  unfold ClosedForGood NeverWaits at *
  cases status : c.status with
  | closed =>
      have gone : s.host.closed p = true := closed_eq_true.mpr ⟨c, hp, status⟩
      rw [call.run_of_closed hp status]
      simp [← kept, gone]
  | connected =>
      have live := (closed_eq_false hp).mpr status
      rw [call.run_closes hp status, ← kept, live]
      cases waits : call.waits with
      | true => simp [call.final_of_waits waits]
      | false => simp

/-- For every connection and every run of `readData`, `sendData` and
`closeConnection` on it, whatever `recv` and `send` report: in all states of the
run the connection is closed exactly after the end of its stream, a hard error
or an explicit close, if and only if no system call on the open connection is
one that would have to wait. -/
theorem closed_for_good_iff (hp : h.heap p = some c) (status : c.status = .connected)
    {calls : List Call} {s : Watched} {es : List Event} (run : (watch h p).Reaches calls s es) :
    (watch h p).Always (ClosedForGood p) calls ↔ (watch h p).Meets (NeverWaits p) calls := by
  have start : ClosedForGood p (watch h p).start := (closed_eq_false hp).mpr status
  exact run.always_iff_meets (J := fun s => s.host.heap p ≠ none ∧ ClosedForGood p s)
    ⟨by simp [watch, hp], start⟩ And.right
    (fun kept hs never => ⟨(watchStep_iff kept.1 kept.2 hs).1,
      (watchStep_iff kept.1 kept.2 hs).2.mpr never⟩)
    fun kept hs not good => not ((watchStep_iff kept.1 kept.2 hs).2.mp good)

/-- A word that is answered, and then the end of the stream. -/
theorem closed_for_good_iff_leaving :
    ∃ calls s es, (watch oneClient 0).Reaches calls s es ∧ s.host.closed 0 = true ∧
      ((watch oneClient 0).Always (ClosedForGood 0) calls ↔
        (watch oneClient 0).Meets (NeverWaits 0) calls) := by
  have run : (watch oneClient 0).Reaches
      [.readData (.data 104 (bytes "ello\n")) (.count 7), .readData .endOfStream (.count 0)]
      _ _ := rfl
  exact ⟨_, _, _, run, by decide, closed_for_good_iff rfl rfl run⟩

/-- A `recv` that has nothing to read yet closes the connection. -/
theorem would_block_closes :
    ¬ ∀ h p c, h.heap p = some c → c.status = .connected → ∀ calls s es,
      (watch h p).Reaches calls s es → ClosedForGood p s := by
  intro claim
  have run : (watch oneClient 0).Reaches [.readData .wouldBlock (.count 0)] _ _ := rfl
  exact absurd (claim oneClient 0 _ rfl rfl _ _ _ run) (by decide)

end StudyCode.Tcp

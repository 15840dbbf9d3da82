import StudyCode.Lib.StringEdit
import StudyCode.Tcp.Segmentation

/-!
# What the dictionary is asked for

`readData` statement by statement, from the array that `recv` writes to up to
the reply. Lower-casing makes no byte blank and no blank byte another, so it
does not matter that the source trims first, and the reply depends on a word
only up to letter case and the white space behind it.
-/
namespace StudyCode.Tcp
open StudyCode.ByteString

/-- `BUFFER_SIZE` -/
def bufferSize : ℕ := 1024

/-- What a `recv` of `sizeof(m_buffer) - 1` bytes writes when it returns more than 0. -/
structure Received where
  data : Str
  filled : 1 ≤ data.length
  fits : data.length ≤ bufferSize - 1

/-- `m_buffer`, which was cleared before. -/
def Received.buffer (r : Received) : Str :=
  r.data ++ List.replicate (bufferSize - r.data.length) 0

/-- From `std::string input(m_buffer)` to `toLower(input)`. -/
def Received.key (r : Received) : Option Str := do
  let input ← cString 0 r.buffer
  let input ← erase input (sizeAdd (orNpos (findLastNotOf isBlank input)) 1) npos
  return overwrite lowerByte input

/-- The `response` that `readData` sends with a newline. -/
def Received.response (r : Received) : Option Str := do
  let key ← r.key
  match gDict.lookup key with
  | some response => return response
  | none => return notFound

/-- No statement reads outside the array or throws. -/
theorem Received.key_eq (r : Received) : r.key = some (Tcp.key r.data) := by
  have fits := r.fits
  have room : bufferSize - r.data.length ≠ 0 := by
    unfold bufferSize at *
    omega
  have ended : 0 ∈ r.data ++ List.replicate (bufferSize - r.data.length) 0 := by
    simp [room]
  have shorter := (List.takeWhile_prefix (l := r.data) (· != 0)).length_le
  have size : (r.data.takeWhile (· != 0)).length ≤ npos := by
    unfold bufferSize at fits
    unfold npos wordSize
    omega
  simp only [Received.key, Received.buffer, cString_padded 0 r.data ended, Option.bind_eq_bind,
    Option.bind_some, erase_last isBlank size, overwrite_eq_map]
  rfl

theorem Received.response_eq (r : Received) : r.response = some (translate r.data) := by
  rw [translate_eq, Received.response, r.key_eq, Option.bind_eq_bind, Option.bind_some, entry]
  cases gDict.lookup (Tcp.key r.data) <;> rfl

theorem Received.data_cons (r : Received) : ∃ b bs, r.data = b :: bs :=
  List.exists_cons_of_length_pos r.filled

/-- `readData` looks at what it received for the reply only. -/
theorem readData_congr {r r' : Received} (same : translate r.data = translate r'.data) (h : Host)
    (p : ℕ) (sent : Option ℕ) :
    readData p (some r.data) sent h = readData p (some r'.data) sent h := by
  obtain ⟨b, bs, eq⟩ := r.data_cons
  obtain ⟨b', bs', eq'⟩ := r'.data_cons
  rw [eq, eq'] at same ⊢
  simp only [readData, same]

theorem replies_readData {h : Host} {p : ℕ} {c : Connection} (hp : h.heap p = some c)
    (status : c.status = .connected) (r : Received) (sent : Option ℕ) :
    replies (readData p (some r.data) sent h).2 = translate r.data ++ bytes "\n" := by
  obtain ⟨b, bs, eq⟩ := r.data_cons
  rw [eq]
  rcases readData_cases hp status (some (b :: bs)) sent with
    ⟨ended | ended, -⟩ | ⟨b', bs', read, said, -⟩
  · cases ended
  · cases ended
  · cases read
    exact said

/-! ## Letter case -/

/-- `upper` is a capital letter and `lower` the small one. -/
def CapitalOf (upper lower : UInt8) : Prop := 65 ≤ upper ∧ upper ≤ 90 ∧ lower = upper + 32

/-- Two words that differ only in the case of letters. -/
def SameButCase (a b : Str) : Prop :=
  List.Forall₂ (fun c d => c = d ∨ CapitalOf c d ∨ CapitalOf d c) a b

theorem lowerByte_eq_iff {c d : UInt8} :
    lowerByte c = lowerByte d ↔ c = d ∨ CapitalOf c d ∨ CapitalOf d c := by
  unfold lowerByte CapitalOf
  split <;> split <;> grind

theorem toLower_eq_iff {a b : Str} : toLower a = toLower b ↔ SameButCase a b := by
  rw [toLower, toLower, map_eq_iff_forall₂]
  simp only [lowerByte_eq_iff, SameButCase]

theorem isBlank_lowerByte (b : UInt8) : isBlank (lowerByte b) = isBlank b := by
  unfold lowerByte isBlank
  split <;> grind

theorem lowerByte_ne_zero (b : UInt8) : (lowerByte b != 0) = (b != 0) := by
  unfold lowerByte
  split <;> grind

/-- The source trims first, but the lower-cased text has the same end. -/
theorem key_toLower (received : Str) :
    key received = (bufferText (toLower received)).rdropWhile isBlank := by
  rw [key, toLower, toLower, bufferText, bufferText, takeWhile_map_of_kept lowerByte_ne_zero,
    rdropWhile_map isBlank_lowerByte]

theorem key_congr {a b : Str} (same : toLower a = toLower b) : key a = key b := by
  rw [key_toLower, key_toLower, same]

/-- A word without NUL bytes and without white space behind it is asked for whole. -/
theorem key_word {word : Str} (plain : 0 ∉ word)
    (trimmed : ∀ b ∈ word.getLast?, isBlank b = false) : key word = toLower word := by
  have text : bufferText word = word := by
    rw [bufferText, List.takeWhile_eq_self_iff]
    intro b hb
    rw [bne_iff_ne]
    rintro rfl
    exact plain hb
  have whole : word.rdropWhile isBlank = word := by
    rw [List.rdropWhile_eq_self_iff]
    intro filled
    rw [trimmed _ (List.getLast?_eq_some_getLast filled)]
    exact Bool.false_ne_true
  rw [key, text, whole]

/-- A reply is in the right column of `g_dict` exactly if the word is in the left one. -/
theorem translate_mem_iff (received : Str) :
    translate received ∈ gDict.map Prod.snd ↔ key received ∈ gDict.map Prod.fst := by
  rw [← not_iff_not, ← entry_eq_none, translate_eq]
  cases found : entry received with
  | none => simp [gDict_found]
  | some response => simp [entry_mem found]

/-- For every word without NUL bytes and without white space behind it, every word that
differs from it in the case of letters only, and white space of any length behind the
two: whatever `recv` wrote, the two calls of `readData` do the same, and reply with a
translation if and only if the lower-case form of the word is in the dictionary. -/
theorem reply_ignores_case_and_blanks {word other blanks blanks' : Str} (plain : 0 ∉ word)
    (trimmed : ∀ b ∈ word.getLast?, isBlank b = false) (same : SameButCase other word)
    (blank : ∀ b ∈ blanks, isBlank b = true) (blank' : ∀ b ∈ blanks', isBlank b = true)
    (r r' : Received) (hr : r.data = other ++ blanks) (hr' : r'.data = word ++ blanks') :
    ∃ reply, r.response = some reply ∧ r'.response = some reply ∧
      (∀ h p sent, readData p (some r.data) sent h = readData p (some r'.data) sent h) ∧
      (∀ h p sent c, h.heap p = some c → c.status = .connected →
        replies (readData p (some r.data) sent h).2 = reply ++ bytes "\n") ∧
      (reply ∈ gDict.map Prod.snd ↔ toLower word ∈ gDict.map Prod.fst) := by
  have key : Tcp.key r.data = Tcp.key word := by
    rw [hr, key_append blank, key_congr (toLower_eq_iff.mpr same)]
  have key' : Tcp.key r'.data = Tcp.key word := by
    rw [hr', key_append blank']
  have reply : translate r.data = translate r'.data := by
    rw [translate_inj, entry, entry, key, key']
  refine ⟨translate r.data, r.response_eq, ?_, ?_, ?_, ?_⟩
  · rw [reply]
    exact r'.response_eq
  · exact readData_congr reply
  · exact fun h p sent c hp status => replies_readData hp status r sent
  · rw [translate_mem_iff, key, key_word plain trimmed]

def shouted : Received where
  data := bytes "HeLLO \r\n"
  filled := by decide +kernel
  fits := by decide +kernel

def spoken : Received where
  data := bytes "hello\t"
  filled := by decide +kernel
  fits := by decide +kernel

/-- The same word, once with capital letters and a line end. -/
theorem reply_ignores_case_and_blanks_hello :
    ∃ reply, shouted.response = some reply ∧ spoken.response = some reply ∧
      reply ∈ gDict.map Prod.snd := by
  have first : shouted.data = bytes "HeLLO" ++ bytes " \r\n" := by decide +kernel
  have second : spoken.data = bytes "hello" ++ bytes "\t" := by decide +kernel
  have same : SameButCase (bytes "HeLLO") (bytes "hello") := toLower_eq_iff.mp (by decide +kernel)
  obtain ⟨reply, said, said', -, -, found⟩ := reply_ignores_case_and_blanks (by decide +kernel)
    (by decide +kernel) same (by decide +kernel) (by decide +kernel) shouted spoken first second
  exact ⟨reply, said, said', found.mpr (by decide +kernel)⟩

end StudyCode.Tcp

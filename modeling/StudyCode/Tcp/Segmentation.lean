import Mathlib.Data.List.Forall2
import StudyCode.Lib.StringEdit
import StudyCode.Lib.TextSearch
import StudyCode.Tcp.Replies

/-!
# One word, one `recv`

`readData` takes what one `recv` wrote for one word. The client gets one answer
for each of its words exactly where TCP cuts the stream into as many pieces as
there are words, and each piece is looked up like its word.
-/
namespace StudyCode.Tcp
open StudyCode.ByteString

/-- The words, each with its newline, in pieces that fit into `m_buffer`. -/
structure Cut (words pieces : List Str) : Prop where
  ended : ∀ word ∈ words, 10 ∉ word
  whole : pieces.flatten = words.flatMap (· ++ bytes "\n")
  sized : ∀ piece ∈ pieces, 1 ≤ piece.length ∧ piece.length ≤ 1023

/-- The calls of `readData` that receive the pieces, with every `send` in full. -/
def readPieces (p : ℕ) : List Str → Action
  | [] => skip
  | piece :: pieces =>
      Action.andThen (readData p (some piece) (some (answer piece).length)) (readPieces p pieces)

/-- The text that `readData` looks up. -/
def key (received : Str) : Str := toLower ((bufferText received).rdropWhile isBlank)

/-- The two are the same text for `g_dict`, or no words of it. -/
def Alike (a b : Str) : Prop :=
  key a = key b ∨ key a ∉ gDict.map Prod.fst ∧ key b ∉ gDict.map Prod.fst

/-- The entry of `g_dict` that `readData` answers from, if there is one. -/
def entry (received : Str) : Option Str := gDict.lookup (key received)

def notFound : Str := bytes "未找到该词条，请重试"

theorem translate_eq (received : Str) : translate received = (entry received).getD notFound := by
  cases found : entry received <;>
    simp only [translate, show gDict.lookup (toLower ((bufferText received).rdropWhile isBlank)) =
      _ from found] <;> rfl

/-- An answer is one line. -/
theorem gDict_lines : ∀ response ∈ notFound :: gDict.map Prod.snd, 10 ∉ response := by
  decide +kernel

theorem gDict_found : notFound ∉ gDict.map Prod.snd := by
  decide +kernel

/-- No two words of `g_dict` have the same answer. -/
theorem gDict_apart : ∀ e ∈ gDict, ∀ e' ∈ gDict, e.2 = e'.2 → e.1 = e'.1 := by
  decide +kernel

theorem key_mem {received response : Str} (h : entry received = some response) :
    (key received, response) ∈ gDict := by
  obtain ⟨before, after, eq, -⟩ := List.lookup_eq_some_iff.mp h
  rw [eq]
  simp

theorem entry_mem {received response : Str} (h : entry received = some response) :
    response ∈ gDict.map Prod.snd :=
  List.mem_map_of_mem (key_mem h)

theorem entry_eq_none {received : Str} :
    entry received = none ↔ key received ∉ gDict.map Prod.fst := by
  rw [entry, List.lookup_eq_none_iff]
  simp only [List.mem_map, not_exists, not_and, bne_iff_ne, ne_eq]
  exact forall₂_congr fun _ _ => not_congr eq_comm

theorem entry_eq_iff {a b : Str} : entry a = entry b ↔ Alike a b := by
  constructor
  · intro same
    cases ha : entry a with
    | none => exact .inr ⟨entry_eq_none.mp ha, entry_eq_none.mp (same.symm.trans ha)⟩
    | some response =>
        have hb := same.symm.trans ha
        exact .inl (gDict_apart _ (key_mem ha) _ (key_mem hb) rfl)
  · rintro (same | ⟨ha, hb⟩)
    · rw [entry, entry, same]
    · rw [entry_eq_none.mpr ha, entry_eq_none.mpr hb]

theorem translate_line (received : Str) : 10 ∉ translate received := by
  rw [translate_eq]
  cases found : entry received with
  | none => exact gDict_lines notFound List.mem_cons_self
  | some response => exact gDict_lines response (List.mem_cons_of_mem _ (entry_mem found))

theorem entry_ne_notFound {received response : Str} (h : entry received = some response) :
    response ≠ notFound := by
  rintro rfl
  exact gDict_found (entry_mem h)

/-- Different entries are answered differently, and none like a word without one. -/
theorem translate_inj {a b : Str} : translate a = translate b ↔ entry a = entry b := by
  constructor
  · intro same
    rw [translate_eq, translate_eq] at same
    cases ha : entry a with
    | none =>
        cases hb : entry b with
        | none => rfl
        | some other =>
            rw [ha, hb, Option.getD_none, Option.getD_some] at same
            exact absurd same.symm (entry_ne_notFound hb)
    | some response =>
        cases hb : entry b with
        | none =>
            rw [ha, hb, Option.getD_none, Option.getD_some] at same
            exact absurd same (entry_ne_notFound ha)
        | some other =>
            rw [ha, hb, Option.getD_some, Option.getD_some] at same
            rw [same]
  · intro same
    rw [translate_eq, translate_eq, same]

variable {h : Host} {p : ℕ} {c : Connection}

/-- Piece by piece, `readData` answers what it received. -/
theorem replies_readPieces (hp : h.heap p = some c) (status : c.status = .connected)
    {pieces : List Str} (filled : ∀ piece ∈ pieces, 1 ≤ piece.length) :
    (readPieces p pieces h).1 = h ∧ replies (readPieces p pieces h).2 = pieces.flatMap answer := by
  induction pieces with
  | nil => exact ⟨rfl, rfl⟩
  | cons piece pieces ih =>
      obtain ⟨same, later⟩ := ih fun q hq => filled q (List.mem_cons_of_mem piece hq)
      cases piece with
      | nil => exact absurd (filled [] List.mem_cons_self) (by decide)
      | cons b bs =>
          rw [readPieces, Action.andThen, readData_data hp status, sendData_sent hp status]
          refine ⟨same, ?_⟩
          rw [List.flatMap_cons, ← later]
          simp [replies, Event.reply]

theorem map_eq_iff_forall₂ {β γ : Type*} (f : β → γ) {l l' : List β} :
    l.map f = l'.map f ↔ List.Forall₂ (fun a b => f a = f b) l l' := by
  rw [← List.forall₂_eq_eq_eq, List.forall₂_map_left_iff, List.forall₂_map_right_iff]

/-- White space behind a word does not change it. -/
theorem key_append {blanks : Str} (blank : ∀ b ∈ blanks, isBlank b = true) (word : Str) :
    key (word ++ blanks) = key word := by
  have text : (bufferText (word ++ blanks)).rdropWhile isBlank =
      (bufferText word).rdropWhile isBlank := by
    unfold bufferText
    rw [List.takeWhile_append]
    split
    · rename_i whole
      rw [(List.takeWhile_prefix (· != 0)).eq_of_length whole]
      exact rdropWhile_append_of_all
        (fun b hb => blank b ((List.takeWhile_prefix _).subset hb)) word
    · rfl
  exact congrArg toLower text

/-- A newline at the end of a word does not change it. -/
theorem alike_line (word : Str) : Alike (word ++ bytes "\n") word :=
  .inl (key_append (by decide +kernel) word)

/-- For every list of words and every way of cutting their stream into pieces:
the replies are the answers to the words in order if and only if there are as
many pieces as words, and each piece is for the dictionary the same text as its
word, or like it no word of the dictionary. -/
theorem answers_words_iff (hp : h.heap p = some c) (status : c.status = .connected)
    {words pieces : List Str} (cut : Cut words pieces) :
    replies (readPieces p pieces h).2 = words.flatMap answer ↔
      List.Forall₂ Alike pieces words := by
  have divided : ∀ received : List Str,
      received.flatMap answer = (received.map translate).flatMap (· ++ [10]) := by
    intro received
    rw [List.flatMap_map]
    rfl
  have lines : ∀ received : List Str, ∀ l ∈ received.map translate, 10 ∉ l := by
    intro received l hl
    obtain ⟨r, -, rfl⟩ := List.mem_map.mp hl
    exact translate_line r
  rw [(replies_readPieces hp status fun piece hm => (cut.sized piece hm).1).2, divided, divided,
    flatMap_line_inj (lines pieces) (lines words), map_eq_iff_forall₂]
  simp only [translate_inj, entry_eq_iff]

/-- Every word in a piece of its own. -/
theorem answers_words_iff_lines :
    replies (readPieces 0 [bytes "hello" ++ bytes "\n", bytes "Bye" ++ bytes "\n"] oneClient).2 =
      [bytes "hello", bytes "Bye"].flatMap answer :=
  (answers_words_iff (c := ⟨5, .connected⟩) rfl rfl
    ⟨by decide +kernel, by decide +kernel, by decide +kernel⟩).mpr
    (.cons (alike_line _) (.cons (alike_line _) .nil))

/-- Two words in one piece get one answer, that they are not in the dictionary. -/
theorem words_joined :
    ¬ ∀ h p c, h.heap p = some c → c.status = .connected → ∀ words pieces, Cut words pieces →
      replies (readPieces p pieces h).2 = words.flatMap answer := by
  intro claim
  have same := claim oneClient 0 _ rfl rfl [bytes "hello", bytes "bye"] [bytes "hello\nbye\n"]
    ⟨by decide +kernel, by decide +kernel, by decide +kernel⟩
  exact absurd same (by decide +kernel)

end StudyCode.Tcp

import Mathlib.Algebra.Group.Nat.Defs
import Mathlib.Data.List.Infix
import Mathlib.Data.List.DropRight
import Mathlib.Data.Int.Notation

/-!
# Byte strings

The operations of a C++ `std::string` on lists of bytes: a search gives the
first position or nothing, and `substr` has no result where it would throw
`out_of_range`. Only the literals are about bytes, the rest is over any type
of characters.
-/
namespace StudyCode.ByteString

abbrev Str := List UInt8

/-- The UTF-8 bytes of a literal. -/
def bytes (s : String) : Str := s.toUTF8.data.toList

def wordSize : ℕ := 2 ^ 64

/-- `std::string::npos`, the largest `size_t`. -/
def npos : ℕ := wordSize - 1

/-- `a - b` in `size_t`. -/
def sizeSub (a b : ℕ) : ℕ := (a + (wordSize - b % wordSize)) % wordSize

/-- An integer as `std::to_string` and `operator<<` print it. -/
def decimal (n : ℤ) : Str :=
  (if n < 0 then bytes "-" else []) ++
    (Nat.toDigits 10 n.natAbs).map Char.toUInt8

section Positions
variable {α : Type*}

/-- `s.substr(pos, len)` -/
def substr (s : List α) (pos len : ℕ) : Option (List α) :=
  if pos ≤ s.length then some ((s.drop pos).take len) else none

theorem substr_isSome (s : List α) (pos len : ℕ) :
    (substr s pos len).isSome = true ↔ pos ≤ s.length := by
  unfold substr
  split <;> simp_all

theorem getElem?_of_prefix_drop {pat s : List α} {p k : ℕ} (h : pat <+: s.drop p)
    (hk : k < pat.length) : s[p + k]? = pat[k]? := by
  obtain ⟨rest, eq⟩ := h
  rw [← List.getElem?_drop, ← eq, List.getElem?_append_left hk]

end Positions

section Search
variable {α : Type*} [DecidableEq α]

/-- `s.find(pat)` -/
def find (pat : List α) : List α → Option ℕ
  | [] => if pat = [] then some 0 else none
  | a :: s => if pat.isPrefixOf (a :: s) then some 0 else (find pat s).map (· + 1)

/-- `s.find(pat, pos)` -/
def findFrom (s pat : List α) (pos : ℕ) : Option ℕ :=
  if pos ≤ s.length then (find pat (s.drop pos)).map (· + pos) else none

/-- The pieces that `std::getline` reads with the delimiter `d`. -/
def getlines (d : α) : List α → List (List α)
  | [] => []
  | a :: s =>
      if a = d then [] :: getlines d s
      else
        match getlines d s with
        | [] => [[a]]
        | piece :: pieces => (a :: piece) :: pieces

theorem find_some_at {pat s : List α} {p : ℕ} (h : find pat s = some p) :
    p ≤ s.length ∧ pat <+: s.drop p := by
  induction s generalizing p with
  | nil =>
      simp only [find] at h
      obtain ⟨rfl, eq⟩ := Option.ite_none_right_eq_some.mp h
      cases eq
      exact ⟨Nat.le_refl 0, List.prefix_refl _⟩
  | cons a s ih =>
      simp only [find] at h
      split at h
      · rename_i first
        cases h
        exact ⟨Nat.zero_le _, List.isPrefixOf_iff_prefix.mp first⟩
      · obtain ⟨q, hq, rfl⟩ := Option.map_eq_some_iff.mp h
        obtain ⟨bound, here⟩ := ih hq
        exact ⟨Nat.succ_le_succ bound, here⟩

/-- The text `pat` ends inside the string in which it was found. -/
theorem find_some_le {pat s : List α} {p : ℕ} (h : find pat s = some p) :
    p + pat.length ≤ s.length := by
  obtain ⟨bound, here⟩ := find_some_at h
  have := here.length_le
  rw [List.length_drop] at this
  omega

theorem find_isSome {pat s : List α} : (find pat s).isSome = true ↔ pat <:+: s := by
  constructor
  · intro h
    obtain ⟨p, hp⟩ := Option.isSome_iff_exists.mp h
    exact (find_some_at hp).2.isInfix.trans (List.drop_suffix p s).isInfix
  · intro h
    induction s with
    | nil => simp [find, List.infix_nil.mp h]
    | cons a s ih =>
        simp only [find]
        split
        · rfl
        · rename_i other
          rcases List.infix_cons_iff.mp h with here | later
          · exact absurd (List.isPrefixOf_iff_prefix.mpr here) other
          · rw [Option.isSome_map]
            exact ih later

theorem findFrom_some {s pat : List α} {pos p : ℕ} (h : findFrom s pat pos = some p) :
    pos ≤ p ∧ pat <+: s.drop p ∧ p + pat.length ≤ s.length := by
  obtain ⟨inside, h⟩ := Option.ite_none_right_eq_some.mp h
  obtain ⟨q, hq, rfl⟩ := Option.map_eq_some_iff.mp h
  have bound := find_some_le hq
  have here := (find_some_at hq).2
  rw [List.length_drop] at bound
  rw [List.drop_drop, Nat.add_comm] at here
  exact ⟨Nat.le_add_left pos q, here, by omega⟩

end Search

end StudyCode.ByteString

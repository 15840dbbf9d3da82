import Mathlib.Data.List.GetD
import StudyCode.Lib.ByteString

/-!
# Editing a `std::string` in place

A position that is not found is `npos`, and `npos + 1` is 0. So erasing from
one behind the last character of a kind leaves nothing where there is none, and
erasing as far as the first of a kind does the same.
-/
namespace StudyCode.ByteString

/-- `a + b` in `size_t`. -/
def sizeAdd (a b : ℕ) : ℕ := (a + b) % wordSize

/-- A position as the `size_t` that a search returns. -/
def orNpos (pos : Option ℕ) : ℕ := pos.getD npos

section
variable {α : Type*}

/-- `s.find_first_not_of(set)` -/
def findFirstNotOf (set : α → Bool) : List α → Option ℕ
  | [] => none
  | a :: s => if set a then (findFirstNotOf set s).map (· + 1) else some 0

/-- `s.find_last_not_of(set)` -/
def findLastNotOf (set : α → Bool) : List α → Option ℕ
  | [] => none
  | a :: s =>
      match findLastNotOf set s with
      | some p => some (p + 1)
      | none => if set a then none else some 0

/-- `s.erase(pos, len)` -/
def erase (s : List α) (pos len : ℕ) : Option (List α) :=
  if pos ≤ s.length then some (s.take pos ++ s.drop (pos + len)) else none

/-- The loop that writes `f(s[i])` to `res[i]`, for each `i` in turn. -/
def overwrite [Inhabited α] (f : α → α) (s : List α) : List α :=
  (List.range s.length).foldl (fun res i => res.set i (f (s.getD i default))) s

/-- `std::string(array)`: the characters before the first terminator `z`. It has no
result where the array has none. -/
def cString [DecidableEq α] (z : α) (array : List α) : Option (List α) :=
  if z ∈ array then some (array.takeWhile (· != z)) else none

variable {set : α → Bool} {s : List α}

theorem erase_all (size : s.length ≤ npos) : erase s 0 npos = some [] := by
  simp [erase, size]

theorem findFirstNotOf_cases (set : α → Bool) (s : List α) :
    (findFirstNotOf set s = none ∧ s.dropWhile set = []) ∨
      ∃ p, findFirstNotOf set s = some p ∧ p < s.length ∧ s.dropWhile set = s.drop p := by
  induction s with
  | nil => exact .inl ⟨rfl, rfl⟩
  | cons a s ih =>
      simp only [findFirstNotOf, List.dropWhile_cons]
      split
      · rcases ih with ⟨none, empty⟩ | ⟨p, found, inside, rest⟩
        · rw [none]
          exact .inl ⟨rfl, empty⟩
        · rw [found]
          exact .inr ⟨p + 1, rfl, Nat.succ_lt_succ inside, rest⟩
      · exact .inr ⟨0, rfl, Nat.succ_pos _, rfl⟩

/-- `s.erase(0, s.find_first_not_of(set))` -/
theorem erase_first (set : α → Bool) (size : s.length ≤ npos) :
    erase s 0 (orNpos (findFirstNotOf set s)) = some (s.dropWhile set) := by
  rcases findFirstNotOf_cases set s with ⟨none, empty⟩ | ⟨p, found, -, rest⟩
  · rw [none, empty]
    exact erase_all size
  · rw [found, rest]
    simp [erase, orNpos]

theorem rdropWhile_cons (set : α → Bool) (a : α) (s : List α) :
    (a :: s).rdropWhile set =
      if s.rdropWhile set = [] then if set a then [] else [a] else a :: s.rdropWhile set := by
  simp only [List.rdropWhile, List.reverse_cons, List.dropWhile_append, List.isEmpty_iff,
    List.reverse_eq_nil_iff]
  split
  · cases blank : set a <;> simp [blank]
  · simp

theorem findLastNotOf_cases (set : α → Bool) (s : List α) :
    (findLastNotOf set s = none ∧ s.rdropWhile set = []) ∨
      ∃ p, findLastNotOf set s = some p ∧ p < s.length ∧ s.rdropWhile set = s.take (p + 1) := by
  induction s with
  | nil => exact .inl ⟨rfl, rfl⟩
  | cons a s ih =>
      rw [findLastNotOf, rdropWhile_cons]
      rcases ih with ⟨none, empty⟩ | ⟨p, found, inside, rest⟩
      · rw [none, if_pos empty]
        cases set a with
        | true => exact .inl ⟨rfl, rfl⟩
        | false => exact .inr ⟨0, rfl, Nat.succ_pos _, rfl⟩
      · have filled : s.rdropWhile set ≠ [] := by
          rw [rest]
          exact List.ne_nil_of_length_pos (by simp; omega)
        rw [found, if_neg filled, rest]
        exact .inr ⟨p + 1, rfl, Nat.succ_lt_succ inside, rfl⟩

/-- `s.erase(s.find_last_not_of(set) + 1)` -/
theorem erase_last (set : α → Bool) (size : s.length ≤ npos) :
    erase s (sizeAdd (orNpos (findLastNotOf set s)) 1) npos = some (s.rdropWhile set) := by
  rcases findLastNotOf_cases set s with ⟨none, empty⟩ | ⟨p, found, inside, rest⟩
  · rw [none, empty]
    exact erase_all size
  · have next : sizeAdd (orNpos (some p)) 1 = p + 1 := by
      refine Nat.mod_eq_of_lt ?_
      simp only [orNpos, Option.getD_some]
      unfold npos wordSize at *
      omega
    rw [found, rest, next, erase, if_pos (by omega), List.drop_of_length_le (by omega),
      List.append_nil]

/-- What is blank at the end is trimmed off, and nothing else. -/
theorem rdropWhile_append_of_all {t : List α} (blank : ∀ a ∈ t, set a = true) (s : List α) :
    (s ++ t).rdropWhile set = s.rdropWhile set := by
  induction t using List.reverseRecOn with
  | nil => rw [List.append_nil]
  | append_singleton t a ih =>
      rw [← List.append_assoc, List.rdropWhile_concat_pos set _ a (blank a (by simp))]
      exact ih fun b hb => blank b (List.mem_append_left _ hb)

/-- A map that keeps the kind of each character commutes with the trimming. -/
theorem rdropWhile_map {f : α → α} (kept : ∀ a, set (f a) = set a) (s : List α) :
    (s.map f).rdropWhile set = (s.rdropWhile set).map f := by
  have same : set ∘ f = set := funext kept
  rw [List.rdropWhile, List.rdropWhile, ← List.map_reverse, List.dropWhile_map, same,
    List.map_reverse]

theorem takeWhile_map_of_kept {f : α → α} (kept : ∀ a, set (f a) = set a) (s : List α) :
    (s.map f).takeWhile set = (s.takeWhile set).map f := by
  have same : set ∘ f = set := funext kept
  rw [List.takeWhile_map, same]

/-! ## Loops -/

/-- After `n` passes of the loop the first `n` characters are replaced. -/
theorem overwrite_first [Inhabited α] (f : α → α) (s : List α) {n : ℕ} (bound : n ≤ s.length) :
    (List.range n).foldl (fun res i => res.set i (f (s.getD i default))) s =
      (s.take n).map f ++ s.drop n := by
  induction n with
  | zero => rfl
  | succ n ih =>
      have done : ((s.take n).map f).length = n := by
        rw [List.length_map, List.length_take_of_le (Nat.le_of_succ_le bound)]
      rw [List.range_succ, List.foldl_append, ih (Nat.le_of_succ_le bound), List.foldl_cons,
        List.foldl_nil, List.getD_eq_getElem s default bound,
        List.set_append_right _ _ (Nat.le_of_eq done), done, Nat.sub_self,
        List.drop_eq_getElem_cons bound, List.set_cons_zero,
        List.take_succ_eq_append_getElem bound, List.map_append, List.append_assoc]
      rfl

theorem overwrite_eq_map [Inhabited α] (f : α → α) (s : List α) : overwrite f s = s.map f := by
  rw [overwrite, overwrite_first f s (Nat.le_refl _)]
  simp

/-! ## Arrays -/

variable [DecidableEq α] {z : α}

theorem takeWhile_padded (z : α) (stored : List α) (k : ℕ) :
    (stored ++ List.replicate k z).takeWhile (· != z) = stored.takeWhile (· != z) := by
  induction stored with
  | nil => cases k <;> simp [List.replicate_succ]
  | cons a stored ih => simp [List.takeWhile_cons, ih]

/-- An array that was cleared before it was written to, with a terminator left in it. -/
theorem cString_padded (z : α) (stored : List α) {k : ℕ}
    (ended : z ∈ stored ++ List.replicate k z) :
    cString z (stored ++ List.replicate k z) = some (stored.takeWhile (· != z)) := by
  rw [cString, if_pos ended, takeWhile_padded]

end
end StudyCode.ByteString

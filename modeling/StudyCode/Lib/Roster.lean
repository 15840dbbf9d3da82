import Mathlib.Data.List.Count

/-!
# Lists of threads

A thread is known by its place in a list. A step replaces one entry, or a new
thread comes at the end, and every other thread keeps its place.
-/
namespace StudyCode.Monitor

variable {P : Type*} {ts : List P} {i j : ℕ} {p q : P}

theorem getElem?_set_here (h : ts[i]? = some p) (q : P) : (ts.set i q)[i]? = some q :=
  List.getElem?_set_self (List.getElem?_eq_some_iff.mp h).1

/-- An entry after a replacement is the new one, or an old one at another place. -/
theorem getElem?_set_cases (h : (ts.set i q)[j]? = some p) :
    i = j ∧ p = q ∨ i ≠ j ∧ ts[j]? = some p := by
  rw [List.getElem?_set] at h
  by_cases own : i = j
  · rw [if_pos own] at h
    obtain ⟨-, eq⟩ := Option.ite_none_right_eq_some.mp h
    exact .inl ⟨own, (Option.some.inj eq).symm⟩
  · rw [if_neg own] at h
    exact .inr ⟨own, h⟩

theorem getElem?_concat_cases (h : (ts ++ [q])[i]? = some p) :
    ts[i]? = some p ∨ i = ts.length ∧ p = q := by
  rcases Nat.lt_trichotomy i ts.length with old | new | beyond
  · rw [List.getElem?_append_left old] at h
    exact .inl h
  · subst new
    rw [List.getElem?_concat_length] at h
    exact .inr ⟨rfl, (Option.some.inj h).symm⟩
  · rw [List.getElem?_eq_none (by simp; omega)] at h
    cases h

/-- Replacing one thread moves a count by that thread only. -/
theorem countP_set_add (f : P → Bool) {ts : List P} {i : ℕ} {p : P} (q : P)
    (h : ts[i]? = some p) :
    (ts.set i q).countP f + (f p).toNat = ts.countP f + (f q).toNat := by
  induction ts generalizing i with
  | nil => simp at h
  | cons t ts ih =>
      cases i with
      | zero =>
          simp only [List.getElem?_cons_zero, Option.some.injEq] at h
          subst h
          simp only [List.set_cons_zero, List.countP_cons]
          cases f t <;> cases f q <;> simp
      | succ i =>
          have := ih (i := i) (by simpa using h)
          simp only [List.set_cons_succ, List.countP_cons]
          omega

/-- Replacing one thread changes what the threads hold by what that thread holds. -/
theorem filterMap_set_perm {A : Type*} (f : P → Option A) {ts : List P} {i : ℕ} {p : P}
    (h : ts[i]? = some p) :
    ∃ rest, (ts.filterMap f).Perm ((f p).toList ++ rest) ∧
      ∀ q, ((ts.set i q).filterMap f).Perm ((f q).toList ++ rest) := by
  have cons : ∀ (t : P) (ts : List P),
      (t :: ts).filterMap f = (f t).toList ++ ts.filterMap f := by
    intro t ts
    cases holds : f t <;> simp [holds]
  induction ts generalizing i with
  | nil => simp at h
  | cons t ts ih =>
      cases i with
      | zero =>
          simp only [List.getElem?_cons_zero, Option.some.injEq] at h
          subst h
          exact ⟨ts.filterMap f, by rw [cons], fun q => by rw [List.set_cons_zero, cons]⟩
      | succ i =>
          obtain ⟨rest, before, after⟩ := ih (i := i) (by simpa using h)
          refine ⟨(f t).toList ++ rest, ?_, fun q => ?_⟩
          · rw [cons]
            exact (before.append_left _).trans (List.perm_append_comm_assoc ..)
          · rw [List.set_cons_succ, cons]
            exact ((after q).append_left _).trans (List.perm_append_comm_assoc ..)

end StudyCode.Monitor

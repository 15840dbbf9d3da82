import Mathlib.Data.List.Induction

/-! Traces that grow at the end, and what holds of each action given its past. -/
namespace StudyCode.Scheduled

variable {ο : Type*}

/-- An action of a trace that just grew is the new one, or is followed by it. -/
theorem snoc_eq_split {os before after : List ο} {a b : ο} :
    os ++ [b] = before ++ a :: after ↔
      before = os ∧ a = b ∧ after = [] ∨
        ∃ rest, after = rest ++ [b] ∧ os = before ++ a :: rest := by
  constructor
  · intro eq
    rcases List.eq_nil_or_concat after with rfl | ⟨rest, c, rfl⟩
    · obtain ⟨rfl, same⟩ := List.append_inj' eq rfl
      cases same
      exact .inl ⟨rfl, rfl, rfl⟩
    · rw [List.concat_eq_append, ← List.cons_append, ← List.append_assoc] at eq
      obtain ⟨rfl, same⟩ := List.append_inj' eq rfl
      cases same
      exact .inr ⟨rest, List.concat_eq_append, rfl⟩
  · rintro (⟨rfl, rfl, rfl⟩ | ⟨rest, rfl, rfl⟩)
    · rfl
    · simp

/-- Every action of the trace meets `Q` with respect to the actions before it. -/
def EachAfter (Q : List ο → ο → Prop) (os : List ο) : Prop :=
  ∀ before a after, os = before ++ a :: after → Q before a

@[simp] theorem eachAfter_nil (Q : List ο → ο → Prop) : EachAfter Q [] := by
  intro before a after h
  simp at h

theorem eachAfter_snoc {Q : List ο → ο → Prop} {os : List ο} {b : ο} :
    EachAfter Q (os ++ [b]) ↔ EachAfter Q os ∧ Q os b := by
  constructor
  · intro h
    refine ⟨fun before a after eq => ?_, h os b [] rfl⟩
    exact h before a (after ++ [b]) (snoc_eq_split.mpr (.inr ⟨after, rfl, eq⟩))
  · rintro ⟨h, hb⟩ before a after eq
    rcases snoc_eq_split.mp eq with ⟨rfl, rfl, -⟩ | ⟨rest, -, eq⟩
    · exact hb
    · exact h before a rest eq

end StudyCode.Scheduled

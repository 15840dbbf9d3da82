import StudyCode.Lib.Machine

/-!
# Who sees what of a machine

An observer sees a part of the state and takes part in some of the inputs. If
the other inputs leave that part alone, and its own do the same in all states
that look alike, then nothing that the others do can be seen.
-/
namespace StudyCode.Scheduled

variable {σ ι ο β : Type*}

structure Observer (M : Machine σ ι ο) (β : Type*) where
  view : σ → β
  concerns : ι → Bool
  /-- The inputs of others do not change the view. -/
  respects : ∀ {s t : σ} {i : ι} {o : List ο},
    concerns i = false → M.step s i = some (t, o) → view t = view s
  /-- States that look alike do the same with an input, and look alike afterwards. -/
  consistent : ∀ {s s' t : σ} {i : ι} {o : List ο},
    concerns i = true → view s = view s' → M.step s i = some (t, o) →
      ∃ t', M.step s' i = some (t', o) ∧ view t' = view t

namespace Observer
variable {M : Machine σ ι ο} (V : Observer M β)

/-- The inputs that concern the observer, with the replies to them. -/
def seen (is : List ι) (os : List ο) : List (ι × ο) := (is.zip os).filter fun r => V.concerns r.1

theorem seen_snoc {is : List ι} {os : List ο} (length : os.length = is.length) (i : ι) (o : ο) :
    V.seen (is ++ [i]) (os ++ [o]) =
      V.seen is os ++ if V.concerns i = true then [(i, o)] else [] := by
  rw [seen, List.zip_append length.symm, List.filter_append]
  by_cases own : V.concerns i = true <;> simp [seen, own]

/-- The run without the inputs of others exists, looks the same at its end, and the
replies in it are those that the observer has seen. -/
theorem purge (one : M.Replies) {is : List ι} {s : σ} {os : List ο} (run : M.Reaches is s os) :
    ∃ s' os', M.Reaches (is.filter V.concerns) s' os' ∧ V.view s' = V.view s ∧
      V.seen (is.filter V.concerns) os' = V.seen is os := by
  induction is using List.reverseRecOn generalizing s os with
  | nil => exact ⟨s, os, run, rfl, rfl⟩
  | append_singleton is i ih =>
      obtain ⟨before, past, now, hb, hs, rfl⟩ := Machine.reaches_snoc.mp run
      obtain ⟨alike, past', hb', same, replies⟩ := ih hb
      obtain ⟨o, rfl⟩ := List.length_eq_one_iff.mp (one _ _ _ _ hs)
      have length := hb.length_of_replies one
      have length' := hb'.length_of_replies one
      rw [List.filter_append, V.seen_snoc length]
      by_cases own : V.concerns i = true
      · obtain ⟨t, step, looks⟩ := V.consistent own same.symm hs
        refine ⟨t, past' ++ [o], ?_, looks, ?_⟩
        · rw [List.filter_cons_of_pos own, List.filter_nil]
          exact hb'.snoc step
        · rw [List.filter_cons_of_pos own, List.filter_nil, V.seen_snoc length', replies]
      · rw [Bool.not_eq_true] at own
        refine ⟨alike, past', ?_, same.trans (V.respects own hs).symm, ?_⟩
        · simpa [own] using hb'
        · simpa [own] using replies

/-- Two runs with the same inputs for the observer are the same to the observer. -/
theorem noninterference (one : M.Replies) {is is' : List ι} {s s' : σ} {os os' : List ο}
    (run : M.Reaches is s os) (run' : M.Reaches is' s' os')
    (same : is.filter V.concerns = is'.filter V.concerns) :
    V.view s = V.view s' ∧ V.seen is os = V.seen is' os' := by
  obtain ⟨t, replies, purged, view, seen⟩ := V.purge one run
  obtain ⟨t', replies', purged', view', seen'⟩ := V.purge one run'
  rw [same] at purged seen
  obtain ⟨rfl, rfl⟩ := purged.unique purged'
  exact ⟨view.symm.trans view', seen.symm.trans seen'⟩

end Observer
end StudyCode.Scheduled

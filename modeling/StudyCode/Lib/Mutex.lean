import Mathlib.Logic.Function.Basic

/-! A mutex and the threads inside the section it guards. -/
namespace StudyCode.Monitor

variable {ι P : Type*}

/-- Exactly the holder of the mutex is away from its idle point. -/
def Guards (idle : P) (pc : ι → P) (holder : Option ι) : Prop :=
  ∀ i, pc i ≠ idle ↔ holder = some i

/-- The state of the thread inside the section, idle when nobody is. -/
def inside (idle : P) (pc : ι → P) : Option ι → P
  | some i => pc i
  | none => idle

@[simp] theorem inside_none (idle : P) (pc : ι → P) : inside idle pc none = idle := rfl

@[simp] theorem inside_some (idle : P) (pc : ι → P) (i : ι) :
    inside idle pc (some i) = pc i := rfl

theorem guards_start (idle : P) : Guards idle (fun _ : ι => idle) none := by
  intro i
  simp

variable [DecidableEq ι] {idle : P} {pc : ι → P} {holder : Option ι} {i : ι}

theorem Guards.lock (h : Guards idle pc holder) (free : holder = none) {p : P}
    (hp : p ≠ idle) : Guards idle (Function.update pc i p) (some i) := by
  intro j
  by_cases hj : j = i
  · subst hj; simp [hp]
  · have out : pc j = idle := by
      by_contra away
      simpa [free] using (h j).mp away
    simp [Function.update_of_ne hj, out, Ne.symm hj]

theorem Guards.stay (h : Guards idle pc holder) (hi : holder = some i) {p : P}
    (hp : p ≠ idle) : Guards idle (Function.update pc i p) holder := by
  intro j
  by_cases hj : j = i
  · subst hj; simp [hp, hi]
  · simpa [Function.update_of_ne hj] using h j

theorem Guards.unlock (h : Guards idle pc holder) (hi : holder = some i) :
    Guards idle (Function.update pc i idle) none := by
  intro j
  by_cases hj : j = i
  · subst hj; simp
  · have other := h j
    rw [hi] at other
    simp [Function.update_of_ne hj, other, Ne.symm hj]

end StudyCode.Monitor

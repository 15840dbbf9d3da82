import Mathlib.Data.List.Induction
import StudyCode.Lib.Roster

/-!
# Condition variables

Threads are the entries of a list. A thread that waits on a condition variable
is asleep until a signal, a broadcast or a spurious wake-up rouses it, and it
is woken from then until it holds the mutex again. A signal may rouse several
waiters, and at least one if there is one.
-/
namespace StudyCode.Monitor

/-- What waiting on one condition variable means for a thread state. -/
structure WaitSet (P : Type*) where
  asleep : P → Bool
  woken : P → Bool
  rouse : P → P
  woken_of_asleep : ∀ p, asleep p = true → woken p = false
  asleep_rouse : ∀ p, asleep p = true → asleep (rouse p) = false
  woken_rouse : ∀ p, asleep p = true → woken (rouse p) = true

namespace WaitSet
variable {P : Type*} (W : WaitSet P)

def rouseAt (i : ℕ) (ts : List P) : List P :=
  match ts[i]? with
  | some p => if W.asleep p then ts.set i (W.rouse p) else ts
  | none => ts

/-- Rouse the sleepers among the chosen threads. -/
def wake (is : List ℕ) (ts : List P) : List P :=
  is.foldl (fun ts i => W.rouseAt i ts) ts

/-- The choice a signal may make: some sleeper is chosen, if there is one. -/
def signals (is : List ℕ) (ts : List P) : Bool :=
  !ts.any W.asleep || is.any fun i => (ts[i]?).any W.asleep

def broadcast (ts : List P) : List P :=
  ts.map fun p => if W.asleep p then W.rouse p else p

/-- What rousing leaves alone in a thread, a signal leaves alone in all of them. -/
theorem map_rouseAt {β : Type*} {f : P → β} (same : ∀ p, f (W.rouse p) = f p) (i : ℕ)
    (ts : List P) : (W.rouseAt i ts).map f = ts.map f := by
  unfold rouseAt
  cases here : ts[i]? with
  | none => rfl
  | some p =>
      obtain ⟨inside, rfl⟩ := List.getElem?_eq_some_iff.mp here
      by_cases asleep : W.asleep ts[i] = true
      · simp only [asleep, if_true, List.map_set, same]
        rw [← List.getElem_map f (h := by simpa using inside), List.set_getElem_self]
      · simp only [asleep, Bool.false_eq_true, if_false]

theorem map_wake {β : Type*} {f : P → β} (same : ∀ p, f (W.rouse p) = f p) (is : List ℕ)
    (ts : List P) : (W.wake is ts).map f = ts.map f := by
  unfold wake
  induction is generalizing ts with
  | nil => rfl
  | cons i is ih => rw [List.foldl_cons, ih, W.map_rouseAt same]

/-- A running thread that goes to sleep is one sleeper more. -/
theorem sleep_counts {ts : List P} {i : ℕ} {p q : P} (here : ts[i]? = some p)
    (awake : W.asleep p = false) (sleeps : W.asleep q = true) :
    (ts.set i q).countP W.asleep = ts.countP W.asleep + 1 ∧
      (ts.set i q).countP W.woken + (W.woken p).toNat = ts.countP W.woken := by
  have sleep := countP_set_add W.asleep q here
  have woke := countP_set_add W.woken q here
  rw [awake, sleeps] at sleep
  rw [W.woken_of_asleep q sleeps] at woke
  exact ⟨sleep, woke⟩

/-- A running thread that goes on is no sleeper, and no longer a woken one. -/
theorem leave_counts {ts : List P} {i : ℕ} {p q : P} (here : ts[i]? = some p)
    (awake : W.asleep p = false) (away : W.asleep q = false) (idle : W.woken q = false) :
    (ts.set i q).countP W.asleep = ts.countP W.asleep ∧
      (ts.set i q).countP W.woken + (W.woken p).toNat = ts.countP W.woken := by
  have sleep := countP_set_add W.asleep q here
  have woke := countP_set_add W.woken q here
  rw [awake, away] at sleep
  rw [idle] at woke
  exact ⟨sleep, woke⟩

theorem rouseAt_cases (i : ℕ) (ts : List P) :
    (W.rouseAt i ts = ts ∧ (ts[i]?).any W.asleep = false) ∨
      ∃ p, ts[i]? = some p ∧ W.asleep p = true ∧ W.rouseAt i ts = ts.set i (W.rouse p) := by
  unfold rouseAt
  cases h : ts[i]? with
  | none => exact .inl ⟨rfl, rfl⟩
  | some p =>
      cases hp : W.asleep p with
      | false => exact .inl ⟨by simp [hp], by simp [hp]⟩
      | true => exact .inr ⟨p, rfl, hp, by simp [hp]⟩

theorem rouseAt_counts (i : ℕ) (ts : List P) :
    (W.rouseAt i ts).countP W.asleep + (W.rouseAt i ts).countP W.woken =
      ts.countP W.asleep + ts.countP W.woken ∧
    (W.rouseAt i ts).countP W.woken =
      ts.countP W.woken + ((ts[i]?).any W.asleep).toNat := by
  rcases W.rouseAt_cases i ts with ⟨same, hn⟩ | ⟨p, hp, ha, same⟩
  · simp [same, hn]
  · have sleep := countP_set_add W.asleep (W.rouse p) hp
    have woke := countP_set_add W.woken (W.rouse p) hp
    rw [ha, W.asleep_rouse p ha] at sleep
    rw [W.woken_of_asleep p ha, W.woken_rouse p ha] at woke
    simp only [same, hp, Option.any_some, ha, Bool.toNat_true, Bool.toNat_false] at *
    omega

theorem wake_conserves (is : List ℕ) (ts : List P) :
    (W.wake is ts).countP W.asleep + (W.wake is ts).countP W.woken =
      ts.countP W.asleep + ts.countP W.woken := by
  induction is generalizing ts with
  | nil => rfl
  | cons i is ih => exact (ih _).trans (W.rouseAt_counts i ts).1

theorem woken_le_wake (is : List ℕ) (ts : List P) :
    ts.countP W.woken ≤ (W.wake is ts).countP W.woken := by
  induction is generalizing ts with
  | nil => exact Nat.le_refl _
  | cons i is ih =>
      refine Nat.le_trans ?_ (ih (W.rouseAt i ts))
      rw [(W.rouseAt_counts i ts).2]
      exact Nat.le_add_right _ _

/-- Choosing a sleeper anywhere in the list rouses at least one thread. -/
theorem woken_lt_wake {is : List ℕ} {ts : List P}
    (h : is.any (fun i => (ts[i]?).any W.asleep) = true) :
    ts.countP W.woken < (W.wake is ts).countP W.woken := by
  induction is generalizing ts with
  | nil => simp at h
  | cons i is ih =>
      have later := W.woken_le_wake is (W.rouseAt i ts)
      have here := (W.rouseAt_counts i ts).2
      change _ < (W.wake is (W.rouseAt i ts)).countP W.woken
      cases hi : (ts[i]?).any W.asleep with
      | true => rw [hi] at here; simp only [Bool.toNat_true] at here; omega
      | false =>
          rw [List.any_cons, hi, Bool.false_or] at h
          rcases W.rouseAt_cases i ts with ⟨same, -⟩ | ⟨p, hp, ha, -⟩
          · rw [same]; exact ih h
          · simp [hp, ha] at hi

theorem woken_lt_signal {is : List ℕ} {ts : List P} (h : W.signals is ts = true)
    (hs : 0 < ts.countP W.asleep) : ts.countP W.woken < (W.wake is ts).countP W.woken := by
  have any : ts.any W.asleep = true := by simpa [List.countP_pos_iff] using hs
  rw [signals, any, Bool.not_true, Bool.false_or] at h
  exact W.woken_lt_wake h

/-- Whoever still sleeps after a signal slept before it, and the signal roused another. -/
theorem woken_lt_of_asleep {is : List ℕ} {ts : List P} (h : W.signals is ts = true)
    (hs : 0 < (W.wake is ts).countP W.asleep) :
    0 < ts.countP W.asleep ∧ ts.countP W.woken < (W.wake is ts).countP W.woken := by
  have conserved := W.wake_conserves is ts
  have more := W.woken_le_wake is ts
  have before : 0 < ts.countP W.asleep := by omega
  exact ⟨before, W.woken_lt_signal h before⟩

/-- A signal with at most one sleeper leaves nobody asleep. -/
theorem none_asleep_of_signal {is : List ℕ} {ts : List P} (h : W.signals is ts = true)
    (one : ts.countP W.asleep ≤ 1) : (W.wake is ts).countP W.asleep = 0 := by
  by_contra some_left
  obtain ⟨-, more⟩ := W.woken_lt_of_asleep h (Nat.pos_of_ne_zero some_left)
  have conserved := W.wake_conserves is ts
  omega

/-- A signal that chooses every thread is always allowed. -/
theorem signals_range (ts : List P) : W.signals (List.range ts.length) ts = true := by
  rw [signals, Bool.or_eq_true]
  cases any : ts.any W.asleep with
  | false => exact .inl rfl
  | true =>
      obtain ⟨p, hp, ha⟩ := List.any_eq_true.mp any
      obtain ⟨i, hi⟩ := List.mem_iff_getElem?.mp hp
      have bound : i < ts.length := (List.getElem?_eq_some_iff.mp hi).1
      refine .inr (List.any_eq_true.mpr ⟨i, List.mem_range.mpr bound, ?_⟩)
      simp [hi, ha]

@[simp] theorem wake_length (is : List ℕ) (ts : List P) : (W.wake is ts).length = ts.length := by
  induction is generalizing ts with
  | nil => rfl
  | cons i is ih =>
      refine (ih _).trans ?_
      rcases W.rouseAt_cases i ts with ⟨same, -⟩ | ⟨p, -, -, same⟩ <;> simp [same]

/-- A wake-up changes no thread but the sleepers it rouses. -/
theorem getElem?_wake {is : List ℕ} {ts : List P} {i : ℕ} {q : P}
    (h : (W.wake is ts)[i]? = some q) :
    ∃ p, ts[i]? = some p ∧ (q = p ∨ W.asleep p = true ∧ q = W.rouse p) := by
  induction is generalizing ts with
  | nil => exact ⟨q, h, .inl rfl⟩
  | cons j is ih =>
      have later : (W.wake is (W.rouseAt j ts))[i]? = some q := h
      obtain ⟨p, hp, same⟩ := ih later
      rcases W.rouseAt_cases j ts with ⟨eq, -⟩ | ⟨r, hr, ha, eq⟩
      · exact ⟨p, by rwa [eq] at hp, same⟩
      · rw [eq] at hp
        rcases getElem?_set_cases hp with ⟨rfl, rfl⟩ | ⟨-, hp⟩
        · refine ⟨r, hr, .inr ⟨ha, ?_⟩⟩
          rcases same with rfl | ⟨hn, -⟩
          · rfl
          · rw [W.asleep_rouse r ha] at hn; cases hn
        · exact ⟨p, hp, same⟩

@[simp] theorem broadcast_length (ts : List P) : (W.broadcast ts).length = ts.length := by
  simp [broadcast]

theorem broadcast_asleep (ts : List P) : (W.broadcast ts).countP W.asleep = 0 := by
  rw [List.countP_eq_zero]
  intro q hq
  obtain ⟨p, -, rfl⟩ := List.mem_map.mp hq
  cases hp : W.asleep p with
  | true => simp [W.asleep_rouse p hp]
  | false => simp [hp]

theorem broadcast_woken (ts : List P) :
    (W.broadcast ts).countP W.woken = ts.countP W.asleep + ts.countP W.woken := by
  induction ts with
  | nil => rfl
  | cons p ts ih =>
      simp only [broadcast, List.map_cons, List.countP_cons] at ih ⊢
      cases hp : W.asleep p with
      | true => simp [W.woken_rouse p hp, W.woken_of_asleep p hp, ih]; omega
      | false => simp [ih]; omega

theorem getElem?_broadcast {ts : List P} {i : ℕ} {q : P} (h : (W.broadcast ts)[i]? = some q) :
    ∃ p, ts[i]? = some p ∧ (q = p ∨ W.asleep p = true ∧ q = W.rouse p) := by
  rw [broadcast, List.getElem?_map] at h
  obtain ⟨p, hp, rfl⟩ := Option.map_eq_some_iff.mp h
  refine ⟨p, hp, ?_⟩
  cases ha : W.asleep p with
  | true => exact .inr ⟨rfl, by simp⟩
  | false => exact .inl (by simp)

end WaitSet
end StudyCode.Monitor

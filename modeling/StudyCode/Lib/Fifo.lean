import Mathlib.Data.List.Induction
import StudyCode.Lib.Machine

/-! The first-in first-out queue as a history of `put` and `get` actions. -/
namespace StudyCode.Fifo

inductive Action (α : Type*) where
  | put (a : α)
  | get (a : α)
  deriving DecidableEq, Repr

variable {α : Type*}

def Action.put? : Action α → Option α
  | .put a => some a
  | .get _ => none

def Action.get? : Action α → Option α
  | .put _ => none
  | .get a => some a

def puts (acts : List (Action α)) : List α := acts.filterMap Action.put?

def gets (acts : List (Action α)) : List α := acts.filterMap Action.get?

/-- `History acts q`: the actions happened in this order to a queue that was
empty at first and holds `q` now, oldest value in front. -/
inductive History : List (Action α) → List α → Prop
  | nil : History [] []
  | put {acts q} (a : α) : History acts q → History (acts ++ [.put a]) (q ++ [a])
  | get {acts a q} : History acts (a :: q) → History (acts ++ [.get a]) q

/-- Nothing is lost, duplicated or reordered. -/
theorem History.puts_eq {acts : List (Action α)} {q : List α} (h : History acts q) :
    puts acts = gets acts ++ q := by
  induction h with
  | nil => rfl
  | put a _ ih =>
      simp only [puts, gets, List.filterMap_append] at ih ⊢
      simp [Action.put?, Action.get?, ih]
  | get _ ih =>
      simp only [puts, gets, List.filterMap_append] at ih ⊢
      simp [Action.put?, Action.get?, ih]

theorem History.gets_prefix {acts : List (Action α)} {q : List α} (h : History acts q) :
    gets acts <+: puts acts := ⟨q, h.puts_eq.symm⟩

/-- The `k`-th value taken out is the `k`-th value put in. -/
theorem History.getElem_gets {acts : List (Action α)} {q : List α} (h : History acts q)
    {k : ℕ} {a : α} (hk : (gets acts)[k]? = some a) : (puts acts)[k]? = some a := by
  rw [h.puts_eq, List.getElem?_append_left (List.getElem?_eq_some_iff.mp hk).1]
  exact hk

theorem history_put {acts : List (Action α)} {a : α} {q : List α} :
    History (acts ++ [.put a]) q ↔ ∃ past, History acts past ∧ q = past ++ [a] := by
  constructor
  · intro h
    generalize trace : acts ++ [.put a] = all at h
    cases h with
    | nil => simp at trace
    | put b past =>
        obtain ⟨rfl, same⟩ := List.append_inj' trace rfl
        cases same
        exact ⟨_, past, rfl⟩
    | get past =>
        obtain ⟨-, same⟩ := List.append_inj' trace rfl
        cases same
  · rintro ⟨past, h, rfl⟩
    exact h.put a

theorem history_get {acts : List (Action α)} {a : α} {q : List α} :
    History (acts ++ [.get a]) q ↔ History acts (a :: q) := by
  constructor
  · intro h
    generalize trace : acts ++ [.get a] = all at h
    cases h with
    | nil => simp at trace
    | put b past =>
        obtain ⟨-, same⟩ := List.append_inj' trace rfl
        cases same
    | get past =>
        obtain ⟨rfl, same⟩ := List.append_inj' trace rfl
        cases same
        exact past
  · exact History.get

theorem History.unique {acts : List (Action α)} {q q' : List α} (h : History acts q)
    (h' : History acts q') : q = q' :=
  List.append_cancel_left (h.puts_eq.symm.trans h'.puts_eq)

/-! ## The atomic queue -/

inductive Call (α : Type*) where
  | put (a : α)
  | get
  deriving DecidableEq, Repr

def Action.call : Action α → Call α
  | .put a => .put a
  | .get _ => .get

/-- A queue of at most `cap` values. A call happens at once, or has to wait. -/
def boundedQueue (cap : ℕ) : Scheduled.Machine (List α) (Call α) (Action α) where
  start := []
  step
    | q, .put a => if q.length < cap then some (q ++ [a], [.put a]) else none
    | [], .get => none
    | a :: q, .get => some (q, [.get a])

/-- An action that goes with the history is one of the atomic queue, if the bound is kept. -/
theorem History.boundedQueue_step {cap : ℕ} {acts : List (Action α)} {act : Action α}
    {q q' : List α} (h : History acts q) (h' : History (acts ++ [act]) q')
    (bound : q'.length ≤ cap) : (boundedQueue cap).step q act.call = some (q', [act]) := by
  cases act with
  | put a =>
      obtain ⟨past, before, rfl⟩ := history_put.mp h'
      obtain rfl := h.unique before
      rw [List.length_append] at bound
      exact if_pos bound
  | get a =>
      obtain rfl := h.unique (history_get.mp h')
      rfl

end StudyCode.Fifo

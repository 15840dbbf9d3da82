import Mathlib.Data.List.Induction

/-!
# Scheduled machines

A machine has a start state and a partial step. The input of a step is the
scheduler's choice (which thread moves, what the environment answers), `none`
means that the chosen step is not enabled, and each step emits the list of
its observable actions. Runs are finite, and every rule below is about all of them.
-/
namespace StudyCode.Scheduled

structure Machine (σ ι ο : Type*) where
  start : σ
  step : σ → ι → Option (σ × List ο)

namespace Machine
variable {σ ι ο : Type*} (M : Machine σ ι ο)

def runFrom : σ → List ι → Option (σ × List ο)
  | s, [] => some (s, [])
  | s, i :: is =>
      (M.step s i).bind fun r => (runFrom r.1 is).map fun q => (q.1, r.2 ++ q.2)

/-- The inputs `is` are enabled in turn, lead to `s` and emit `os`. -/
def Reaches (is : List ι) (s : σ) (os : List ο) : Prop :=
  M.runFrom M.start is = some (s, os)

variable {M}

theorem runFrom_cons {s t u : σ} {i : ι} {is : List ι} {o os : List ο}
    (hs : M.step s i = some (t, o)) (h : M.runFrom t is = some (u, os)) :
    M.runFrom s (i :: is) = some (u, o ++ os) := by
  simp [runFrom, hs, h]

theorem runFrom_append (s : σ) (is js : List ι) :
    M.runFrom s (is ++ js) =
      (M.runFrom s is).bind fun r => (M.runFrom r.1 js).map fun q => (q.1, r.2 ++ q.2) := by
  induction is generalizing s with
  | nil => simp [runFrom]
  | cons i is ih =>
      simp only [List.cons_append, runFrom]
      cases M.step s i with
      | none => rfl
      | some r =>
          simp only [Option.bind_some, ih]
          cases M.runFrom r.1 is with
          | none => rfl
          | some q => simp [Function.comp_def]

@[simp] theorem runFrom_singleton (s : σ) (i : ι) : M.runFrom s [i] = M.step s i := by
  cases h : M.step s i <;> simp [runFrom, h]

@[simp] theorem reaches_nil {s : σ} {os : List ο} :
    M.Reaches [] s os ↔ s = M.start ∧ os = [] := by
  simp [Reaches, runFrom, eq_comm]

/-- A run of two schedules one after the other, taken apart. -/
theorem reaches_append {is js : List ι} {t : σ} {os : List ο} :
    M.Reaches (is ++ js) t os ↔
      ∃ s before after, M.Reaches is s before ∧ M.runFrom s js = some (t, after) ∧
        os = before ++ after := by
  unfold Reaches
  rw [runFrom_append]
  constructor
  · intro h
    obtain ⟨⟨s, before⟩, hs, h⟩ := Option.bind_eq_some_iff.mp h
    obtain ⟨⟨u, after⟩, hu, h⟩ := Option.map_eq_some_iff.mp h
    cases h
    exact ⟨s, before, after, hs, hu, rfl⟩
  · rintro ⟨s, before, after, hs, hu, rfl⟩
    simp [hs, hu]

theorem reaches_snoc {is : List ι} {i : ι} {t : σ} {os : List ο} :
    M.Reaches (is ++ [i]) t os ↔
      ∃ s before o, M.Reaches is s before ∧ M.step s i = some (t, o) ∧ os = before ++ o := by
  simp only [reaches_append, runFrom_singleton]

theorem Reaches.snoc {is : List ι} {s t : σ} {os o : List ο} {i : ι}
    (h : M.Reaches is s os) (hs : M.step s i = some (t, o)) :
    M.Reaches (is ++ [i]) t (os ++ o) :=
  reaches_snoc.mpr ⟨s, os, o, h, hs, rfl⟩

/-- Every prefix of a schedule is itself a run. -/
theorem Reaches.of_append {is js : List ι} {t : σ} {os : List ο}
    (h : M.Reaches (is ++ js) t os) : ∃ s before, M.Reaches is s before := by
  obtain ⟨s, before, -, hs, -⟩ := reaches_append.mp h
  exact ⟨s, before, hs⟩

/-- A schedule determines the state it leads to. -/
theorem Reaches.unique {is : List ι} {s t : σ} {os os' : List ο}
    (h : M.Reaches is s os) (h' : M.Reaches is t os') : s = t ∧ os = os' := by
  have same := Option.some.inj (h.symm.trans h')
  exact ⟨congrArg Prod.fst same, congrArg Prod.snd same⟩

/-- The induction rule for runs: what holds at the start and is kept by every
step holds of each run, its schedule and its actions included. -/
theorem Reaches.induct {P : List ι → σ → List ο → Prop} (start : P [] M.start [])
    (next : ∀ {is s os i t o}, M.Reaches is s os → P is s os →
      M.step s i = some (t, o) → P (is ++ [i]) t (os ++ o))
    {is : List ι} {s : σ} {os : List ο} (h : M.Reaches is s os) : P is s os := by
  induction is using List.reverseRecOn generalizing s os with
  | nil =>
      obtain ⟨rfl, rfl⟩ := reaches_nil.mp h
      exact start
  | append_singleton is i ih =>
      obtain ⟨s, before, o, hs, hstep, rfl⟩ := reaches_snoc.mp h
      exact next hs (ih hs) hstep

theorem Reaches.invariant {P : σ → Prop} (start : P M.start)
    (next : ∀ {s i t o}, P s → M.step s i = some (t, o) → P t)
    {is : List ι} {s : σ} {os : List ο} (h : M.Reaches is s os) : P s :=
  h.induct (P := fun _ s _ => P s) start fun _ hp hs => next hp hs

/-- What holds of the actions of every step holds of all actions of a run. -/
theorem Reaches.forall_mem {Q : ο → Prop}
    (next : ∀ {is s os i t o}, M.Reaches is s os → M.step s i = some (t, o) → ∀ a ∈ o, Q a)
    {is : List ι} {s : σ} {os : List ο} (h : M.Reaches is s os) : ∀ a ∈ os, Q a := by
  refine h.induct (P := fun _ _ os => ∀ a ∈ os, Q a) (fun _ ha => nomatch ha) ?_
  intro is s os i t o before ih hs a ha
  rcases List.mem_append.mp ha with past | now
  · exact ih a past
  · exact next before hs a now

/-- The refinement rule: where each step of `M` is some steps of `M'` with the same
actions, each run of `M` is a run of `M'`. -/
theorem Reaches.refines {σ' ι' : Type*} {M' : Machine σ' ι' ο} {f : σ → σ'}
    (start : f M.start = M'.start)
    (next : ∀ {is s os i t o}, M.Reaches is s os → M.step s i = some (t, o) →
      ∃ js, M'.runFrom (f s) js = some (f t, o))
    {is : List ι} {s : σ} {os : List ο} (h : M.Reaches is s os) :
    ∃ js, M'.Reaches js (f s) os := by
  refine h.induct (P := fun _ s os => ∃ js, M'.Reaches js (f s) os) ?_ ?_
  · exact ⟨[], reaches_nil.mpr ⟨start, rfl⟩⟩
  · rintro is s os i t o before ⟨js, ih⟩ hs
    obtain ⟨more, hm⟩ := next before hs
    exact ⟨js ++ more, reaches_append.mpr ⟨f s, os, o, ih, hm, rfl⟩⟩

/-- What every step of a run keeps once it holds, holds from then on. -/
theorem Reaches.later {P : σ → Prop}
    (next : ∀ {is s os i t o}, M.Reaches is s os → P s → M.step s i = some (t, o) → P t)
    {is more : List ι} {s t : σ} {os os' : List ο} (h : M.Reaches is s os) (hs : P s)
    (h' : M.Reaches (is ++ more) t os') : P t := by
  induction more using List.reverseRecOn generalizing t os' with
  | nil =>
      rw [List.append_nil] at h'
      obtain ⟨rfl, -⟩ := h.unique h'
      exact hs
  | append_singleton more i ih =>
      rw [← List.append_assoc] at h'
      obtain ⟨u, before, o, hu, hstep, rfl⟩ := reaches_snoc.mp h'
      exact next hu (ih hu) hstep

/-- Where no step is refused every input has its run. -/
theorem exists_reaches (total : ∀ s i, (M.step s i).isSome = true) (is : List ι) :
    ∃ s os, M.Reaches is s os := by
  induction is using List.reverseRecOn with
  | nil => exact ⟨M.start, [], rfl⟩
  | append_singleton is i ih =>
      obtain ⟨s, os, h⟩ := ih
      obtain ⟨⟨t, o⟩, hs⟩ := Option.isSome_iff_exists.mp (total s i)
      exact ⟨t, os ++ o, h.snoc hs⟩

/-- Every step emits one action, the reply to its input. -/
def Replies (M : Machine σ ι ο) : Prop :=
  ∀ s i t o, M.step s i = some (t, o) → o.length = 1

theorem Reaches.length_of_replies (one : M.Replies) {is : List ι} {s : σ} {os : List ο}
    (h : M.Reaches is s os) : os.length = is.length := by
  refine h.induct (P := fun (is : List ι) (_ : σ) (os : List ο) => os.length = is.length) rfl ?_
  intro is s os i t o _ ih hs
  simp [ih, one s i t o hs]

/-- The reply to an input in the middle of a run is that of the state before it. -/
theorem Reaches.reply (one : M.Replies) {before after : List ι} {i : ι} {t : σ} {os : List ο}
    (h : M.Reaches (before ++ i :: after) t os) :
    ∃ s past u r, M.Reaches before s past ∧ M.step s i = some (u, [r]) ∧
      os[before.length]? = some r := by
  induction after using List.reverseRecOn generalizing t os with
  | nil =>
      obtain ⟨s, past, o, hs, hstep, rfl⟩ := reaches_snoc.mp h
      obtain ⟨r, rfl⟩ := List.length_eq_one_iff.mp (one s i t o hstep)
      exact ⟨s, past, t, r, hs, hstep, by simp [← hs.length_of_replies one]⟩
  | append_singleton after j ih =>
      rw [← List.cons_append, ← List.append_assoc] at h
      obtain ⟨v, before', o, hv, hstep, rfl⟩ := reaches_snoc.mp h
      obtain ⟨s, past, u, r, hs, hi, here⟩ := ih hv
      refine ⟨s, past, u, r, hs, hi, ?_⟩
      rw [List.getElem?_append_left (List.getElem?_eq_some_iff.mp here).1]
      exact here

/-- `Q` holds in every state the run passes through. -/
def Always (M : Machine σ ι ο) (Q : σ → Prop) (is : List ι) : Prop :=
  ∀ before t os, before <+: is → M.Reaches before t os → Q t

/-- Every step of the run is taken from a state that meets `C`. -/
def Meets (M : Machine σ ι ο) (C : σ → ι → Prop) (is : List ι) : Prop :=
  ∀ before i t os, before ++ [i] <+: is → M.Reaches before t os → C t i

/-- An invariant that the steps meeting `C` keep holds along the runs of such steps. -/
theorem Meets.always {J : σ → Prop} {C : σ → ι → Prop} (start : J M.start)
    (next : ∀ {s i t o}, J s → M.step s i = some (t, o) → C s i → J t) {is : List ι}
    (meets : M.Meets C is) : M.Always J is := by
  intro before t ot hp ht
  induction before using List.reverseRecOn generalizing t ot with
  | nil =>
      obtain ⟨rfl, -⟩ := reaches_nil.mp ht
      exact start
  | append_singleton before i ih =>
      obtain ⟨u, ou, o, hu, hstep, rfl⟩ := reaches_snoc.mp ht
      have kept := ih u ou ((List.prefix_append before [i]).trans hp) hu
      exact next kept hstep (meets before i u ou hp hu)

/-- Where steps that meet `C` keep an invariant that implies `Q`, and a step that
does not leads out of `Q`, a whole run keeps `Q` exactly when all its steps
meet `C`. -/
theorem Reaches.always_iff_meets {Q J : σ → Prop} {C : σ → ι → Prop} (start : J M.start)
    (good : ∀ {s}, J s → Q s)
    (next : ∀ {s i t o}, J s → M.step s i = some (t, o) → C s i → J t)
    (bad : ∀ {s i t o}, J s → M.step s i = some (t, o) → ¬ C s i → ¬ Q t)
    {is : List ι} {s : σ} {os : List ο} (h : M.Reaches is s os) :
    M.Always Q is ↔ M.Meets C is := by
  constructor
  · intro always
    -- a step that misses `C` would leave `Q` at once, and the run never does
    have allowed : ∀ {before i u ou t o}, before ++ [i] <+: is → M.Reaches before u ou →
        M.step u i = some (t, o) → J u → C u i := by
      intro before i u ou t o hp hu hstep kept
      by_contra not
      exact bad kept hstep not (always _ t _ hp (hu.snoc hstep))
    have kept : ∀ before t ot, before <+: is → M.Reaches before t ot → J t := by
      intro before
      induction before using List.reverseRecOn with
      | nil =>
          intro t ot _ ht
          obtain ⟨rfl, -⟩ := reaches_nil.mp ht
          exact start
      | append_singleton before i ih =>
          intro t ot hp ht
          obtain ⟨u, ou, o, hu, hstep, rfl⟩ := reaches_snoc.mp ht
          have kept := ih u ou ((List.prefix_append before [i]).trans hp) hu
          exact next kept hstep (allowed hp hu hstep kept)
    intro before i t ot hp ht
    obtain ⟨rest, rfl⟩ := hp
    obtain ⟨u, ou, hu⟩ := h.of_append
    obtain ⟨t', ot', o, ht', hstep, rfl⟩ := reaches_snoc.mp hu
    obtain ⟨rfl, rfl⟩ := ht.unique ht'
    have first : before <+: before ++ [i] ++ rest := ⟨[i] ++ rest, by simp⟩
    exact allowed ⟨rest, rfl⟩ ht hstep (kept before t ot first ht)
  · intro meets before t ot hp ht
    exact good (meets.always start next before t ot hp ht)

/-- Where the steps from `Q` only emit what meets `R`, so does a run that keeps `Q`. -/
theorem Always.forall_mem {Q : σ → Prop} {R : ο → Prop}
    (emits : ∀ {s i t o}, Q s → M.step s i = some (t, o) → ∀ a ∈ o, R a)
    {is : List ι} {s : σ} {os : List ο} (always : M.Always Q is) (h : M.Reaches is s os) :
    ∀ a ∈ os, R a := by
  induction is using List.reverseRecOn generalizing s os with
  | nil =>
      obtain ⟨-, rfl⟩ := reaches_nil.mp h
      exact fun a ha => (List.not_mem_nil ha).elim
  | append_singleton is i ih =>
      obtain ⟨u, before, o, hu, hstep, rfl⟩ := reaches_snoc.mp h
      have first : is <+: is ++ [i] := List.prefix_append is [i]
      intro a ha
      rcases List.mem_append.mp ha with past | now
      · exact ih (fun before t ot hp => always before t ot (hp.trans first)) hu a past
      · exact emits (always is u before first hu) hstep a now

/-- The induction rule for the runs whose steps meet `C`. -/
theorem Meets.induct {P : List ι → σ → List ο → Prop} {C : σ → ι → Prop}
    (start : P [] M.start [])
    (next : ∀ {is s os i t o}, M.Reaches is s os → P is s os → M.step s i = some (t, o) →
      C s i → P (is ++ [i]) t (os ++ o))
    {is : List ι} {s : σ} {os : List ο} (meets : M.Meets C is) (h : M.Reaches is s os) :
    P is s os := by
  refine h.induct (P := fun is s os => M.Meets C is → P is s os) (fun _ => start) ?_ meets
  intro is s os i t o before ih hs meets
  have first : is <+: is ++ [i] := List.prefix_append is [i]
  have past : M.Meets C is := fun old j u ou hp => meets old j u ou (hp.trans first)
  exact next before (ih past) hs (meets is i s os List.prefix_rfl before)

/-- `Meets`, along the run. -/
def MeetsFrom (M : Machine σ ι ο) (C : σ → ι → Prop) : σ → List ι → Prop
  | _, [] => True
  | s, i :: is => C s i ∧ ∀ r ∈ M.step s i, M.MeetsFrom C r.1 is

instance decidableMeetsFrom (M : Machine σ ι ο) (C : σ → ι → Prop)
    [∀ s i, Decidable (C s i)] : ∀ s is, Decidable (M.MeetsFrom C s is)
  | _, [] => inferInstanceAs (Decidable True)
  | s, i :: is =>
      have (r : σ × List ο) := decidableMeetsFrom M C r.1 is
      inferInstanceAs (Decidable (C s i ∧ ∀ r ∈ M.step s i, M.MeetsFrom C r.1 is))

theorem meets_of_meetsFrom {C : σ → ι → Prop} {is : List ι} (h : M.MeetsFrom C M.start is) :
    M.Meets C is := by
  have along : ∀ {before is : List ι} {s t : σ} {i : ι} {os : List ο},
      M.MeetsFrom C s is → before ++ [i] <+: is → M.runFrom s before = some (t, os) → C t i := by
    intro before
    induction before with
    | nil =>
        rintro is s t i os h ⟨rest, rfl⟩ run
        cases run
        exact h.1
    | cons j before ih =>
        rintro is s t i os h ⟨rest, rfl⟩ run
        obtain ⟨⟨u, o⟩, hstep, mapped⟩ := Option.bind_eq_some_iff.mp run
        obtain ⟨⟨v, later⟩, ran, eq⟩ := Option.map_eq_some_iff.mp mapped
        obtain rfl : v = t := congrArg Prod.fst eq
        exact ih (h.2 _ hstep) ⟨rest, rfl⟩ ran
  exact fun before i t os hp run => along h hp run

/-- What the steps of a run meet, they meet from each of its states on. -/
theorem Meets.meetsFrom {C : σ → ι → Prop} {is before js : List ι} {s : σ} {os : List ο}
    (meets : M.Meets C is) (h : M.Reaches before s os) (later : before ++ js <+: is) :
    M.MeetsFrom C s js := by
  induction js generalizing before s os with
  | nil => trivial
  | cons j js ih =>
      have here : before ++ [j] <+: is :=
        (List.prefix_append_right_inj before |>.mpr (by simp)).trans later
      refine ⟨meets before j s os here h, fun r hr => ?_⟩
      apply ih (h.snoc hr)
      simpa using later

theorem MeetsFrom.mono {C D : σ → ι → Prop} (weaker : ∀ s i, C s i → D s i) {s : σ}
    {is : List ι} (h : M.MeetsFrom C s is) : M.MeetsFrom D s is := by
  induction is generalizing s with
  | nil => trivial
  | cons i is ih => exact ⟨weaker s i h.1, fun r hr => ih (h.2 r hr)⟩

/-- Along a run from a state with an invariant that its steps keep, they meet what
the invariant implies. -/
theorem meetsFrom_of_invariant {J : σ → Prop} {C : σ → ι → Prop} {is : List ι}
    (next : ∀ {s i t o}, i ∈ is → J s → M.step s i = some (t, o) → J t)
    (good : ∀ {s i}, i ∈ is → J s → C s i) {s : σ} (hs : J s) : M.MeetsFrom C s is := by
  induction is generalizing s with
  | nil => trivial
  | cons i is ih =>
      refine ⟨good List.mem_cons_self hs, fun r hr => ?_⟩
      exact ih (fun member => next (List.mem_cons_of_mem i member))
        (fun member => good (List.mem_cons_of_mem i member))
        (next List.mem_cons_self hs hr)

end Machine

end StudyCode.Scheduled

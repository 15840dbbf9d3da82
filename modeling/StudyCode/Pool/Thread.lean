import Mathlib.Data.List.Induction
import StudyCode.Lib.Machine
import StudyCode.Lib.Roster

/-!
# `Thread`

The owner of a `Thread` object calls its methods one after the other, while the
threads it started write `_status`. A turn of the owner is a test or a call of
`pthread_join`, `pthread_cancel` or `pthread_detach`, and a thread may end between the
two. After a join, and after the end of a detached thread, its id names nothing.
-/
namespace StudyCode.Thread
open StudyCode.Scheduled StudyCode.Monitor

inductive Status where
  | new
  | running
  | stop
  deriving DecidableEq, Repr

/-- Where a thread is in `ThreadRoutin`. -/
inductive Stage where
  | created
  | naming
  | calling
  | called
  | stopped
  | ended
  deriving DecidableEq, Repr

structure Pthread where
  stage : Stage
  canceled : Bool
  detached : Bool
  joined : Bool
  deriving DecidableEq, Repr

/-- Where the owner is: in `Join`, in `Stop` before `pthread_cancel` and after it, in
`Detach` before `pthread_detach` and after it. -/
inductive Owner where
  | idle
  | joining
  | canceling
  | stopping
  | detaching
  | releasing
  deriving DecidableEq, Repr

structure State where
  /-- `_tid`; what is there at first and after a `pthread_create` that failed is no id -/
  tid : Option ℕ
  status : Status
  joinable : Bool
  owner : Owner
  threads : List Pthread
  deriving DecidableEq, Repr

inductive Turn where
  | start (created : Bool)
  | join
  | stop
  | detach
  | goOn
  | run (i : ℕ)
  | dieCanceled (i : ℕ)
  deriving DecidableEq, Repr

inductive Call where
  | setName
  | join
  | cancel
  | detach
  deriving DecidableEq, Repr

/-- A call of pthread with the id in `_tid`. -/
structure Event where
  call : Call
  valid : Bool
  deriving DecidableEq, Repr

/-- The thread that the id in `_tid` was given to. -/
def State.current (s : State) : Option Pthread := s.tid.bind fun i => s.threads[i]?

/-- A thread can be joined or detached once, and a detached one is gone when it ends. -/
def Pthread.valid (th : Pthread) : Call → Bool
  | .join | .detach => !th.joined && !th.detached
  | .setName | .cancel => !th.joined && !(th.detached && th.stage = .ended)

def State.valid (s : State) (call : Call) : Bool := s.current.any fun th => th.valid call

def State.change (s : State) (f : Pthread → Pthread) : State :=
  { s with
    threads :=
      match s.tid with
      | some i => s.threads.modify i f
      | none => s.threads }

/-- `pthread_create` stores the id before the owner goes on. -/
def start (s : State) (created : Bool) : State :=
  if created then
    { s with
      tid := some s.threads.length
      threads := s.threads ++ [⟨.created, false, false, false⟩] }
  else { s with tid := none }

def goOn (s : State) : Option (State × List Event) :=
  match s.owner with
  | .idle => none
  | .joining =>
      if s.current.any fun th => th.stage = .ended then
        some ({ s.change fun th => { th with joined := true } with owner := .idle }, [])
      else none
  | .canceling =>
      some ({ s.change fun th => { th with canceled := true } with owner := .stopping },
        [⟨.cancel, s.valid .cancel⟩])
  | .stopping => some ({ s with status := .stop, owner := .idle }, [])
  | .detaching =>
      some ({ s.change fun th => { th with detached := true } with owner := .releasing },
        [⟨.detach, s.valid .detach⟩])
  | .releasing => some ({ s with joinable := false, owner := .idle }, [])

/-- The next statement of `ThreadRoutin`. -/
def run (s : State) (i : ℕ) : Option (State × List Event) :=
  s.threads[i]?.bind fun th =>
    let goesTo (stage : Stage) : List Pthread := s.threads.set i { th with stage := stage }
    match th.stage with
    | .created => some ({ s with status := .running, threads := goesTo .naming }, [])
    | .naming =>
        some ({ s with threads := goesTo .calling }, [⟨.setName, s.valid .setName⟩])
    | .calling => some ({ s with threads := goesTo .called }, [])
    | .called => some ({ s with status := .stop, threads := goesTo .stopped }, [])
    | .stopped => some ({ s with threads := goesTo .ended }, [])
    | .ended => none

/-- `_cb` comes to a cancellation point. -/
def dieCanceled (s : State) (i : ℕ) : Option State :=
  s.threads[i]?.bind fun th =>
    if th.stage = .calling ∧ th.canceled then
      some { s with threads := s.threads.set i { th with stage := .ended } }
    else none

def step (s : State) : Turn → Option (State × List Event)
  | .start created => if s.owner = .idle then some (start s created, []) else none
  | .join =>
      if s.owner = .idle then
        if s.joinable then
          some ({ s with owner := if s.valid .join then .joining else .idle },
            [⟨.join, s.valid .join⟩])
        else some (s, [])
      else none
  | .stop =>
      if s.owner = .idle then
        some ({ s with owner := if s.status = .running then .canceling else .idle }, [])
      else none
  | .detach =>
      if s.owner = .idle then
        some ({ s with owner := if s.status = .running then .detaching else .idle }, [])
      else none
  | .goOn => goOn s
  | .run i => run s i
  | .dieCanceled i => (dieCanceled s i).map fun t => (t, [])

def thread : Machine State Turn Event where
  start := { tid := none, status := .new, joinable := true, owner := .idle, threads := [] }
  step := step

/-! ## What `_status` and `_joinable` say -/

/-- An owner that starts again only after a `Join`, joins a thread once, and calls neither
`Stop` nor `Detach` after a `Detach` that got through. -/
def Disciplined (s : State) : Turn → Prop
  | .start _ => s.current.all Pthread.joined = true
  | .join => s.joinable = true → s.current.any (fun th => !th.joined) = true
  | .stop | .detach => s.joinable = true
  | .goOn | .run _ | .dieCanceled _ => True

instance (s : State) : DecidablePred (Disciplined s)
  | .start _ => inferInstanceAs (Decidable (_ = true))
  | .join => inferInstanceAs (Decidable (_ = true → _ = true))
  | .stop | .detach => inferInstanceAs (Decidable (_ = true))
  | .goOn | .run _ | .dieCanceled _ => inferInstanceAs (Decidable True)

/-- What the object says about its thread. -/
structure Fits (owner : Owner) (status : Status) (joinable : Bool) (th : Pthread) : Prop where
  created : th.stage = .created → status ≠ .running ∧ th.canceled = false
  calling : th.stage = .naming ∨ th.stage = .calling ∨ th.stage = .called →
    status = .running ∨ th.canceled = true
  done : th.stage = .stopped ∨ th.stage = .ended → status = .stop ∨ th.canceled = true
  canceled : th.canceled = true → owner = .stopping ∨ status = .stop
  joined : th.joined = true → th.stage = .ended ∧ owner = .idle ∧ joinable = true
  begun : owner = .canceling ∨ owner = .detaching → th.stage ≠ .created
  stopping : owner = .stopping → th.canceled = true
  detached : th.detached = true ↔ owner = .releasing ∨ joinable = false
  released : joinable = false → owner = .idle

structure Sound (s : State) : Prop where
  others : ∀ {j th}, s.threads[j]? = some th → s.tid ≠ some j → th.stage = .ended ∧ th.joined = true
  current : ∀ {th}, s.current = some th → Fits s.owner s.status s.joinable th
  known : ∀ {i}, s.tid = some i → i < s.threads.length
  absent : s.tid = none → s.owner = .idle ∧ s.status ≠ .running ∧ s.joinable = true

/-- A thread whose object says `THREAD_RUNNING` is between its two assignments. -/
theorem Fits.running {owner : Owner} {status : Status} {joinable : Bool} {th : Pthread}
    (h : Fits owner status joinable th) (running : status = .running) (quiet : owner ≠ .stopping) :
    th.stage = .naming ∨ th.stage = .calling ∨ th.stage = .called := by
  have kept : th.canceled ≠ true := by
    intro canceled
    rcases h.canceled canceled with stopping | stop
    · exact quiet stopping
    · rw [running] at stop
      cases stop
  cases stage : th.stage with
  | created => exact absurd running (h.created stage).1
  | naming => exact .inl rfl
  | calling => exact .inr (.inl rfl)
  | called => exact .inr (.inr rfl)
  | stopped =>
      have stop := (h.done (.inl stage)).resolve_right kept
      rw [running] at stop
      cases stop
  | ended =>
      have stop := (h.done (.inr stage)).resolve_right kept
      rw [running] at stop
      cases stop

section
variable {status : Status} {joinable : Bool} {th : Pthread}

theorem Fits.join (h : Fits .joining status joinable th) (ended : th.stage = .ended) :
    Fits .idle status joinable { th with joined := true } := by
  obtain ⟨created, calling, done, canceled, joined, begun, stopping, detached, released⟩ := h
  constructor <;> simp_all

theorem Fits.cancel (h : Fits .canceling status joinable th) :
    Fits .stopping status joinable { th with canceled := true } := by
  obtain ⟨created, calling, done, canceled, joined, begun, stopping, detached, released⟩ := h
  constructor <;> simp_all

theorem Fits.setStop (h : Fits .stopping status joinable th) : Fits .idle .stop joinable th := by
  obtain ⟨created, calling, done, canceled, joined, begun, stopping, detached, released⟩ := h
  constructor <;> simp_all

theorem Fits.detach (h : Fits .detaching status joinable th) :
    Fits .releasing status joinable { th with detached := true } := by
  obtain ⟨created, calling, done, canceled, joined, begun, stopping, detached, released⟩ := h
  constructor <;> simp_all

theorem Fits.release (h : Fits .releasing status joinable th) : Fits .idle status false th := by
  obtain ⟨created, calling, done, canceled, joined, begun, stopping, detached, released⟩ := h
  constructor <;> simp_all

/-- `ToRunning` and `ToStop`. -/
theorem Fits.assign {owner : Owner} (h : Fits owner status joinable th) :
    (th.stage = .created → Fits owner .running joinable { th with stage := .naming }) ∧
      (th.stage = .called → Fits owner .stop joinable { th with stage := .stopped }) := by
  obtain ⟨created, calling, done, canceled, joined, begun, stopping, detached, released⟩ := h
  constructor <;> intro stage <;> constructor <;> simp_all

/-- A thread goes on between its two assignments. -/
theorem Fits.goOn {owner : Owner} (h : Fits owner status joinable th) :
    (th.stage = .naming → Fits owner status joinable { th with stage := .calling }) ∧
      (th.stage = .calling → Fits owner status joinable { th with stage := .called }) := by
  obtain ⟨created, calling, done, canceled, joined, begun, stopping, detached, released⟩ := h
  constructor <;> intro stage <;> constructor <;> simp_all

/-- A thread ends, at its end or cancelled. -/
theorem Fits.finish {owner : Owner} (h : Fits owner status joinable th)
    (ends : th.stage = .stopped ∨ th.stage = .calling ∧ th.canceled = true) :
    Fits owner status joinable { th with stage := .ended } := by
  obtain ⟨created, calling, done, canceled, joined, begun, stopping, detached, released⟩ := h
  constructor <;> grind

/-- A method that gets through its test, `Join` with a thread that was not joined. -/
theorem Fits.enter {owner : Owner} (h : Fits .idle status joinable th) (able : joinable = true)
    (entered : owner = .joining ∧ th.joined = false ∨
      (owner = .canceling ∨ owner = .detaching) ∧ status = .running) :
    Fits owner status joinable th := by
  obtain ⟨created, calling, done, canceled, joined, begun, stopping, detached, released⟩ := h
  constructor <;> grind

/-- Between the test of a method and its call, the thread is neither joined nor detached. -/
theorem Fits.held {owner : Owner} (h : Fits owner status joinable th)
    (busy : owner = .joining ∨ owner = .canceling ∨ owner = .detaching) :
    th.joined = false ∧ th.detached = false := by
  obtain ⟨created, calling, done, canceled, joined, begun, stopping, detached, released⟩ := h
  constructor <;> grind

end

/-! ## One turn -/

theorem current_of_tid {s : State} {i : ℕ} {th : Pthread} (own : s.tid = some i)
    (here : s.threads[i]? = some th) : s.current = some th := by
  rw [State.current, own]
  exact here

theorem tid_of_current {s : State} {th : Pthread} (here : s.current = some th) :
    ∃ i, s.tid = some i ∧ s.threads[i]? = some th :=
  Option.bind_eq_some_iff.mp here

/-- A turn that replaces the current thread. -/
theorem Sound.update {s t : State} {i : ℕ} {th new : Pthread} (h : Sound s)
    (own : s.tid = some i) (here : s.threads[i]? = some th) (tid : t.tid = s.tid)
    (threads : t.threads = s.threads.set i new)
    (fits : Fits t.owner t.status t.joinable new) : Sound t where
  others {j other} hj apart := by
    rw [threads] at hj
    rw [tid] at apart
    rcases getElem?_set_cases hj with ⟨rfl, -⟩ | ⟨-, old⟩
    · exact absurd own apart
    · exact h.others old apart
  current {th'} here' := by
    obtain ⟨j, hj, there⟩ := tid_of_current here'
    obtain rfl : i = j := Option.some.inj (own.symm.trans (tid.symm.trans hj))
    rw [threads, getElem?_set_here here new] at there
    exact Option.some.inj there ▸ fits
  known hj := by
    rw [threads, List.length_set]
    exact h.known (tid ▸ hj)
  absent gone := by
    rw [tid, own] at gone
    cases gone

/-- A turn that leaves the threads alone. -/
theorem Sound.move {s t : State} (h : Sound s) (tid : t.tid = s.tid)
    (threads : t.threads = s.threads)
    (fits : ∀ th, s.current = some th → Fits t.owner t.status t.joinable th)
    (absent : s.tid = none → t.owner = .idle ∧ t.status ≠ .running ∧ t.joinable = true) :
    Sound t where
  others hj apart := h.others (threads ▸ hj) (tid ▸ apart)
  current here := by
    refine fits _ ?_
    rwa [State.current, tid, threads] at here
  known hj := by
    rw [threads]
    exact h.known (tid ▸ hj)
  absent gone := absent (tid ▸ gone)

/-- Who has not ended is the current thread. -/
theorem Sound.own {s : State} {i : ℕ} {th : Pthread} (h : Sound s)
    (here : s.threads[i]? = some th) (going : th.stage ≠ .ended) : s.tid = some i := by
  by_contra apart
  exact going (h.others here apart).1

/-- The id that a thread finds in `_tid` is its own. -/
theorem Sound.valid_setName {s : State} {th : Pthread} (h : Sound s) (here : s.current = some th)
    (going : th.stage ≠ .ended) : s.valid .setName = true := by
  have kept : th.joined = false := by
    rw [Bool.eq_false_iff]
    exact fun joined => going ((h.current here).joined joined).1
  simp [State.valid, here, Pthread.valid, kept, going]

theorem Sound.run {s t : State} {i : ℕ} {o : List Event} (h : Sound s)
    (hs : run s i = some (t, o)) : Sound t ∧ ∀ e ∈ o, e.valid = true := by
  obtain ⟨th, here, eq⟩ := Option.bind_eq_some_iff.mp hs
  have going : th.stage ≠ .ended := by
    intro ended
    simp [ended] at eq
  have own := h.own here going
  have named := h.valid_setName (current_of_tid own here) going
  have fits := h.current (current_of_tid own here)
  cases stage : th.stage with
  | created =>
      rw [stage] at eq
      cases eq
      exact ⟨h.update own here rfl rfl (fits.assign.1 stage), nofun⟩
  | naming =>
      rw [stage] at eq
      cases eq
      exact ⟨h.update own here rfl rfl (fits.goOn.1 stage), by simp [named]⟩
  | calling =>
      rw [stage] at eq
      cases eq
      exact ⟨h.update own here rfl rfl (fits.goOn.2 stage), nofun⟩
  | called =>
      rw [stage] at eq
      cases eq
      exact ⟨h.update own here rfl rfl (fits.assign.2 stage), nofun⟩
  | stopped =>
      rw [stage] at eq
      cases eq
      exact ⟨h.update own here rfl rfl (fits.finish (.inl stage)), nofun⟩
  | ended => exact absurd stage going

theorem Sound.dieCanceled {s t : State} {i : ℕ} (h : Sound s) (hs : dieCanceled s i = some t) :
    Sound t := by
  obtain ⟨th, here, eq⟩ := Option.bind_eq_some_iff.mp hs
  obtain ⟨⟨stage, dies⟩, eq⟩ := Option.ite_none_right_eq_some.mp eq
  cases eq
  have own := h.own here (by simp [stage])
  have fits := h.current (current_of_tid own here)
  exact h.update own here rfl rfl (fits.finish (.inr ⟨stage, dies⟩))

/-- `Start` after the thread before was joined. -/
theorem Sound.start {s : State} {created : Bool} (h : Sound s) (idle : s.owner = .idle)
    (joined : ∀ th, s.current = some th → th.joined = true) : Sound (start s created) := by
  have gone : ∀ {j : ℕ} {th : Pthread},
      s.threads[j]? = some th → th.stage = .ended ∧ th.joined = true := by
    intro j th hj
    by_cases own : s.tid = some j
    · have here := current_of_tid own hj
      exact ⟨((h.current here).joined (joined th here)).1, joined th here⟩
    · exact h.others hj own
  have quiet : s.status ≠ .running ∧ s.joinable = true := by
    cases own : s.tid with
    | none => exact (h.absent own).2
    | some i =>
        have here := current_of_tid own (List.getElem?_eq_getElem (h.known own))
        have fits := h.current here
        obtain ⟨ended, -, joinable⟩ := fits.joined (joined _ here)
        refine ⟨fun running => ?_, joinable⟩
        have going := fits.running running (by simp [idle])
        rw [ended] at going
        simp at going
  cases created with
  | false =>
      exact {
        others := fun hj _ => gone hj
        current := fun here => by cases here
        known := fun own => by cases own
        absent := fun _ => ⟨idle, quiet⟩ }
  | true =>
      refine { others := ?_, current := ?_, known := ?_, absent := fun own => by cases own }
      · intro j th hj apart
        rcases getElem?_concat_cases hj with old | ⟨rfl, -⟩
        · exact gone old
        · exact absurd rfl apart
      · intro th here
        have fresh : (⟨.created, false, false, false⟩ : Pthread) = th := by
          simpa [State.current, Thread.start] using here
        subst fresh
        obtain ⟨stopped, joinable⟩ := quiet
        constructor <;> simp_all [Thread.start]
      · rintro i ⟨⟩
        simp [Thread.start]

theorem Sound.valid_join {s : State} {th : Pthread} (h : Sound s) (here : s.current = some th)
    (idle : s.owner = .idle) (joinable : s.joinable = true) (joined : th.joined = false) :
    s.valid .join = true := by
  have kept : th.detached = false := by
    rw [Bool.eq_false_iff]
    intro detached
    rcases (h.current here).detached.mp detached with releasing | gone
    · rw [idle] at releasing
      cases releasing
    · rw [joinable] at gone
      cases gone
  simp [State.valid, here, Pthread.valid, joined, kept]

theorem Sound.goOn {s t : State} {o : List Event} (h : Sound s) (hs : goOn s = some (t, o)) :
    Sound t ∧ ∀ e ∈ o, e.valid = true := by
  have busy : s.owner ≠ .idle := by
    intro idle
    simp [Thread.goOn, idle] at hs
  cases own : s.tid with
  | none => exact absurd (h.absent own).1 busy
  | some i =>
      obtain ⟨th, there⟩ : ∃ th, s.threads[i]? = some th :=
        ⟨_, List.getElem?_eq_getElem (h.known own)⟩
      have here := current_of_tid own there
      have changed : ∀ f, (s.change f).threads = s.threads.set i (f th) := by
        intro f
        simp [State.change, own, List.modify_eq_set_getElem?, there]
      have fits := h.current here
      cases place : s.owner <;> rw [place] at fits <;> simp only [Thread.goOn, place] at hs
      case idle => cases hs
      case joining =>
        obtain ⟨ended, eq⟩ := Option.ite_none_right_eq_some.mp hs
        cases eq
        have ended : th.stage = .ended := by simpa [here] using ended
        exact ⟨h.update own there rfl (changed _) (fits.join ended), nofun⟩
      case canceling =>
        cases hs
        obtain ⟨joined, detached⟩ := fits.held (by simp)
        refine ⟨h.update own there rfl (changed _) fits.cancel, ?_⟩
        simp [State.valid, here, Pthread.valid, joined, detached]
      case stopping =>
        cases hs
        exact ⟨h.move rfl rfl (fun _ same => Option.some.inj (here.symm.trans same) ▸ fits.setStop)
          (fun gone => nomatch own.symm.trans gone), nofun⟩
      case detaching =>
        cases hs
        obtain ⟨joined, detached⟩ := fits.held (by simp)
        refine ⟨h.update own there rfl (changed _) fits.detach, ?_⟩
        simp [State.valid, here, Pthread.valid, joined, detached]
      case releasing =>
        cases hs
        exact ⟨h.move rfl rfl (fun _ same => Option.some.inj (here.symm.trans same) ▸ fits.release)
          (fun gone => nomatch own.symm.trans gone), nofun⟩

/-- `Stop` or `Detach` up to its test of `_status`. -/
theorem Sound.tested {s : State} {owner : Owner} (h : Sound s) (idle : s.owner = .idle)
    (joinable : s.joinable = true) (entered : owner = .canceling ∨ owner = .detaching) :
    Sound { s with owner := if s.status = .running then owner else .idle } := by
  by_cases running : s.status = .running
  · rw [if_pos running]
    refine h.move rfl rfl (fun th here => ?_) fun gone => absurd running (h.absent gone).2.1
    exact (idle ▸ h.current here).enter joinable (.inr ⟨entered, running⟩)
  · rw [if_neg running, ← idle]
    exact h

theorem Sound.step {s t : State} {turn : Turn} {o : List Event} (h : Sound s)
    (hs : step s turn = some (t, o)) (disciplined : Disciplined s turn) :
    Sound t ∧ ∀ e ∈ o, e.valid = true := by
  cases turn with
  | start created =>
      obtain ⟨idle, eq⟩ := Option.ite_none_right_eq_some.mp hs
      cases eq
      exact ⟨h.start idle fun th here => by simpa [Disciplined, here] using disciplined, nofun⟩
  | join =>
      obtain ⟨idle, eq⟩ := Option.ite_none_right_eq_some.mp hs
      split at eq <;> cases eq
      · rename_i joinable
        obtain ⟨th, here, joined⟩ : ∃ th, s.current = some th ∧ th.joined = false := by
          have left := disciplined joinable
          cases here : s.current with
          | none => simp [here] at left
          | some th => exact ⟨th, rfl, by simpa [here] using left⟩
        have valid := h.valid_join here idle joinable joined
        rw [valid, if_pos rfl]
        refine ⟨h.move rfl rfl (fun other same => ?_) fun gone => ?_, by simp⟩
        · obtain rfl := Option.some.inj (here.symm.trans same)
          exact (idle ▸ h.current here).enter joinable (.inl ⟨rfl, joined⟩)
        · rw [State.current, gone] at here
          cases here
      · exact ⟨h, nofun⟩
  | stop =>
      obtain ⟨idle, eq⟩ := Option.ite_none_right_eq_some.mp hs
      cases eq
      exact ⟨h.tested idle disciplined (.inl rfl), nofun⟩
  | detach =>
      obtain ⟨idle, eq⟩ := Option.ite_none_right_eq_some.mp hs
      cases eq
      exact ⟨h.tested idle disciplined (.inr rfl), nofun⟩
  | goOn => exact h.goOn hs
  | run i => exact h.run hs
  | dieCanceled i =>
      obtain ⟨u, died, eq⟩ := Option.map_eq_some_iff.mp hs
      cases eq
      exact ⟨h.dieCanceled died, nofun⟩

theorem sound_start : Sound thread.start where
  others hj := nomatch hj
  current here := nomatch here
  known own := nomatch own
  absent _ := ⟨rfl, nofun, rfl⟩

/-! ## Whole runs -/

theorem reaches_sound {turns : List Turn} {s : State} {os : List Event}
    (run : thread.Reaches turns s os) (disciplined : thread.Meets Disciplined turns) :
    Sound s ∧ ∀ e ∈ os, e.valid = true := by
  refine Machine.Meets.induct (P := fun _ s os => Sound s ∧ ∀ e ∈ os, e.valid = true)
    ⟨sound_start, nofun⟩ ?_ disciplined run
  rintro turns s os turn t o - ⟨sound, past⟩ hs fine
  obtain ⟨sound', now⟩ := sound.step hs fine
  exact ⟨sound', List.forall_mem_append.mpr ⟨past, now⟩⟩

/-- For any order of the turns of the owner and of the threads, cancellations included, and
whatever `pthread_create` returns: if the owner starts again only after a `Join`, joins
a thread once and calls neither `Stop` nor `Detach` after a `Detach` that got through, no
pthread call gets an id that is gone; a thread whose object says that it runs is between
its two assignments, but for the moment after `pthread_cancel`; and every thread but the
last one has ended and was joined. -/
theorem thread_ids_valid {turns : List Turn} {s : State} {os : List Event}
    (run : thread.Reaches turns s os) (disciplined : thread.Meets Disciplined turns) :
    (∀ e ∈ os, e.valid = true) ∧
      (s.status = .running → s.owner ≠ .stopping →
        ∃ th, s.current = some th ∧
          (th.stage = .naming ∨ th.stage = .calling ∨ th.stage = .called)) ∧
      ∀ j th, s.threads[j]? = some th → s.tid ≠ some j → th.stage = .ended ∧ th.joined = true := by
  obtain ⟨sound, valid⟩ := reaches_sound run disciplined
  refine ⟨valid, fun running quiet => ?_, fun j th hj apart => sound.others hj apart⟩
  cases own : s.tid with
  | none => exact absurd running (sound.absent own).2.1
  | some i =>
      have here := current_of_tid own (List.getElem?_eq_getElem (sound.known own))
      exact ⟨_, here, (sound.current here).running running quiet⟩

/-- A thread that is cancelled and joined, and a second one that is detached. -/
theorem thread_ids_valid_two :
    ∃ turns s os, thread.Reaches turns s os ∧
      os.map Event.call = [.setName, .cancel, .join, .detach] ∧ (∀ e ∈ os, e.valid = true) ∧
      ∃ th, s.current = some th ∧
        (th.stage = .naming ∨ th.stage = .calling ∨ th.stage = .called) := by
  have run : thread.Reaches [.start true, .stop, .run 0, .run 0, .stop, .goOn, .dieCanceled 0,
      .goOn, .join, .goOn, .start true, .run 1, .detach, .goOn, .goOn] _ _ := rfl
  obtain ⟨valid, running, -⟩ := thread_ids_valid run (Machine.meets_of_meetsFrom (by decide))
  exact ⟨_, _, _, run, rfl, valid, running rfl (by decide)⟩

end StudyCode.Thread

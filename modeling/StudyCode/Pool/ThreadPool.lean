import Mathlib.Data.Int.Notation
import StudyCode.Lib.Machine
import StudyCode.Lib.WaitSet

/-!
# `ThreadPool<T>` under an arbitrary schedule

A turn is one section of `HandlerTask`, `Stop` or `Enqueue` under `_mutex`, up
to a wait or the unlock, so the mutex is free between turns. `Start` takes no
lock: its test of `_isrunning`, its assignment and each thread creation are
turns of their own. Any number of calls may be in progress, and the threads
are listed in the order of their creation.
-/
namespace StudyCode.ThreadPool
open StudyCode.Scheduled StudyCode.Monitor

/-- Where a worker thread is in `HandlerTask`. -/
inductive Worker (τ : Type*) where
  | ready
  | blocked
  | woken
  | running (task : τ)
  | exited
  deriving DecidableEq, Repr

/-- Where a call of `Start` is that found `_isrunning` false. -/
inductive Starting where
  | checked
  | creating (remaining : ℕ)
  deriving DecidableEq, Repr

structure State (τ : Type*) where
  isrunning : Bool
  slaversSleepCount : ℤ
  tasks : List τ
  slavers : List (Worker τ)
  starts : List Starting
  deriving Repr

inductive Turn (τ : Type*) where
  | start
  | setRunning (k : ℕ)
  | createThread (k : ℕ) (created : Bool)
  | stop
  | enqueue (task : τ) (wakes : List ℕ)
  | handle (i : ℕ)
  | resume (i : ℕ)
  | runTask (i : ℕ)
  | spurious (i : ℕ)
  deriving DecidableEq, Repr

inductive Event (τ : Type*) where
  | pushed (task : τ)
  | took (i : ℕ) (task : τ)
  | ran (i : ℕ) (task : τ)
  | stopped
  deriving DecidableEq, Repr

variable {τ : Type*}

def cond : WaitSet (Worker τ) where
  asleep w := w matches .blocked
  woken w := w matches .woken
  rouse
    | .blocked => .woken
    | w => w
  woken_of_asleep w h := by cases w <;> simp_all
  asleep_rouse w h := by cases w <;> simp_all
  woken_rouse w h := by cases w <;> simp_all

/-- `HandlerTask` under the mutex, from the test of the wait loop on. An empty
queue means to sleep while the pool is running and to leave otherwise. -/
def handlerSection (s : State τ) (i : ℕ) : State τ × List (Event τ) :=
  match s.tasks with
  | [] =>
      if s.isrunning then
        ({ s with
          slaversSleepCount := s.slaversSleepCount + 1
          slavers := s.slavers.set i .blocked }, [])
      else ({ s with slavers := s.slavers.set i .exited }, [])
  | task :: rest =>
      ({ s with
        tasks := rest
        slavers := s.slavers.set i (.running task) }, [.took i task])

/-- `Stop` under the mutex. -/
def stopSection (s : State τ) : State τ × List (Event τ) :=
  ({ s with
    isrunning := false
    slavers := if 0 < s.slaversSleepCount then cond.broadcast s.slavers else s.slavers },
    [.stopped])

/-- `Enqueue` under the mutex; its signal rouses the waiters `wakes`. -/
def enqueueSection (s : State τ) (task : τ) (wakes : List ℕ) :
    Option (State τ × List (Event τ)) :=
  if 0 < s.slaversSleepCount then
    if cond.signals wakes s.slavers then
      some ({ s with
        tasks := s.tasks ++ [task]
        slavers := cond.wake wakes s.slavers }, [.pushed task])
    else none
  else some ({ s with tasks := s.tasks ++ [task] }, [.pushed task])

def step (n : ℕ) (s : State τ) : Turn τ → Option (State τ × List (Event τ))
  | .start =>
      if s.isrunning then some (s, [])
      else some ({ s with starts := s.starts ++ [.checked] }, [])
  | .setRunning k =>
      match s.starts[k]? with
      | some .checked =>
          some ({ s with isrunning := true, starts := s.starts.set k (.creating n) }, [])
      | _ => none
  | .createThread k created =>
      match s.starts[k]? with
      | some (.creating (remaining + 1)) =>
          some ({ s with
            starts := s.starts.set k (.creating remaining)
            slavers := if created then s.slavers ++ [.ready] else s.slavers }, [])
      | _ => none
  | .stop => some (stopSection s)
  | .enqueue task wakes => enqueueSection s task wakes
  | .handle i =>
      match s.slavers[i]? with
      | some .ready => some (handlerSection s i)
      | _ => none
  | .resume i =>
      match s.slavers[i]? with
      | some .woken =>
          some (handlerSection { s with slaversSleepCount := s.slaversSleepCount - 1 } i)
      | _ => none
  | .runTask i =>
      match s.slavers[i]? with
      | some (.running task) =>
          some ({ s with slavers := s.slavers.set i .ready }, [.ran i task])
      | _ => none
  | .spurious i => some ({ s with slavers := cond.rouseAt i s.slavers }, [])

/-- The pool built with `slaver_num = n`. -/
def threadPool (n : ℕ) : Machine (State τ) (Turn τ) (Event τ) where
  start :=
    { isrunning := false
      slaversSleepCount := 0
      tasks := []
      slavers := []
      starts := [] }
  step := step n

/-- The three ways through the section of a worker that holds the mutex. -/
theorem handlerSection_cases (s : State τ) (i : ℕ) :
    (s.tasks = [] ∧ s.isrunning = true ∧
      handlerSection s i = ({ s with
        slaversSleepCount := s.slaversSleepCount + 1
        slavers := s.slavers.set i .blocked }, [])) ∨
    (s.tasks = [] ∧ s.isrunning = false ∧
      handlerSection s i = ({ s with slavers := s.slavers.set i .exited }, [])) ∨
    ∃ task rest, s.tasks = task :: rest ∧
      handlerSection s i = ({ s with
        tasks := rest
        slavers := s.slavers.set i (.running task) }, [.took i task]) := by
  unfold handlerSection
  cases s.tasks with
  | nil => cases s.isrunning <;> simp
  | cons task rest => simp

/-- `Enqueue` pushes the task, and signals where somebody sleeps. -/
theorem enqueueSection_cases {s t : State τ} {task : τ} {wakes : List ℕ} {o : List (Event τ)}
    (h : enqueueSection s task wakes = some (t, o)) :
    o = [.pushed task] ∧
      ((0 < s.slaversSleepCount ∧ cond.signals wakes s.slavers = true ∧
        t = { s with tasks := s.tasks ++ [task], slavers := cond.wake wakes s.slavers }) ∨
      (¬ 0 < s.slaversSleepCount ∧ t = { s with tasks := s.tasks ++ [task] })) := by
  unfold enqueueSection at h
  split at h
  · rename_i asleep
    obtain ⟨signals, eq⟩ := Option.ite_none_right_eq_some.mp h
    cases eq
    exact ⟨rfl, .inl ⟨asleep, signals, rfl⟩⟩
  · rename_i awake
    cases h
    exact ⟨rfl, .inr ⟨awake, rfl⟩⟩

end StudyCode.ThreadPool

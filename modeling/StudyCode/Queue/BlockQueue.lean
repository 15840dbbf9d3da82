import Mathlib.Data.Int.Notation
import StudyCode.Lib.Machine
import StudyCode.Lib.WaitSet

/-!
# `BlockQueue<T>` under an arbitrary schedule

A turn is one section between acquiring the mutex, or acquiring it again after
`pthread_cond_wait`, and the next wait or unlock, so the mutex is free between
turns. A call that was signalled competes for the mutex with the calls that
have not entered yet. `front()` and `pop()` on an empty `std::queue` are
undefined behaviour: the model records it and takes no step afterwards.
-/
namespace StudyCode.BlockQueue
open StudyCode.Scheduled StudyCode.Monitor

/-- A producer thread: outside `Enqueue(in)`, or in its `pthread_cond_wait`. -/
inductive Productor (α : Type*) where
  | outside
  | blocked (data : α)
  | woken (data : α)
  deriving DecidableEq, Repr

inductive Consumer where
  | outside
  | blocked
  | woken
  deriving DecidableEq, Repr

structure State (α : Type*) where
  dp : List α
  sleepProductorNum : ℤ
  sleepConsumerNum : ℤ
  productors : List (Productor α)
  consumers : List Consumer
  frontOfEmpty : Bool
  deriving Repr

/-- A thread's turn; `wakes` are the waiters that its signal rouses. -/
inductive Turn (α : Type*) where
  | enqueue (i : ℕ) (data : α) (wakes : List ℕ)
  | resumeEnqueue (i : ℕ) (wakes : List ℕ)
  | pop (j : ℕ) (wakes : List ℕ)
  | resumePop (j : ℕ) (wakes : List ℕ)
  | spuriousProductor (i : ℕ)
  | spuriousConsumer (j : ℕ)
  deriving Repr

inductive Transfer (α : Type*) where
  | pushed (i : ℕ) (data : α)
  | popped (j : ℕ) (data : α)
  deriving DecidableEq, Repr

variable {α : Type*}

def productorCond : WaitSet (Productor α) where
  asleep p := p matches .blocked _
  woken p := p matches .woken _
  rouse
    | .blocked data => .woken data
    | p => p
  woken_of_asleep p h := by cases p <;> simp_all
  asleep_rouse p h := by cases p <;> simp_all
  woken_rouse p h := by cases p <;> simp_all

def consumerCond : WaitSet Consumer where
  asleep c := c matches .blocked
  woken c := c matches .woken
  rouse
    | .blocked => .woken
    | c => c
  woken_of_asleep c h := by cases c <;> simp_all
  asleep_rouse c h := by cases c <;> simp_all
  woken_rouse c h := by cases c <;> simp_all

/-- `if (sleep_consumer_num > 0) pthread_cond_signal(&_consumer_cond);` -/
def signalConsumer (s : State α) (wakes : List ℕ) : Option (State α) :=
  if 0 < s.sleepConsumerNum then
    if consumerCond.signals wakes s.consumers then
      some { s with consumers := consumerCond.wake wakes s.consumers }
    else none
  else some s

/-- `if (sleep_productor_num > 0) pthread_cond_signal(&_productor_cond);` -/
def signalProductor (s : State α) (wakes : List ℕ) : Option (State α) :=
  if 0 < s.sleepProductorNum then
    if productorCond.signals wakes s.productors then
      some { s with productors := productorCond.wake wakes s.productors }
    else none
  else some s

/-- `Enqueue` from `_dp.push(in)` to the unlock. -/
def push (s : State α) (i : ℕ) (data : α) (wakes : List ℕ) :
    Option (State α × List (Transfer α)) :=
  (signalConsumer { s with
      dp := s.dp ++ [data]
      productors := s.productors.set i .outside } wakes).map
    fun t => (t, [.pushed i data])

/-- `pop` from `*out = _dp.front()` to the unlock. -/
def takeFront (s : State α) (j : ℕ) (wakes : List ℕ) :
    Option (State α × List (Transfer α)) :=
  match s.dp with
  | [] => some ({ s with frontOfEmpty := true }, [])
  | data :: rest =>
      (signalProductor { s with
          dp := rest
          consumers := s.consumers.set j .outside } wakes).map
        fun t => (t, [.popped j data])

/-- The test before the wait is an `if`: a call that comes back from
`pthread_cond_wait` goes on without testing again. -/
def criticalSection (cap : ℕ) (s : State α) : Turn α → Option (State α × List (Transfer α))
  | .enqueue i data wakes =>
      match s.productors[i]? with
      | some .outside =>
          if s.dp.length = cap then
            some ({ s with
              sleepProductorNum := s.sleepProductorNum + 1
              productors := s.productors.set i (.blocked data) }, [])
          else push s i data wakes
      | _ => none
  | .resumeEnqueue i wakes =>
      match s.productors[i]? with
      | some (.woken data) =>
          push { s with sleepProductorNum := s.sleepProductorNum - 1 } i data wakes
      | _ => none
  | .pop j wakes =>
      match s.consumers[j]? with
      | some .outside =>
          if s.dp.isEmpty then
            some ({ s with
              sleepConsumerNum := s.sleepConsumerNum + 1
              consumers := s.consumers.set j .blocked }, [])
          else takeFront s j wakes
      | _ => none
  | .resumePop j wakes =>
      match s.consumers[j]? with
      | some .woken =>
          takeFront { s with sleepConsumerNum := s.sleepConsumerNum - 1 } j wakes
      | _ => none
  | .spuriousProductor i =>
      some ({ s with productors := productorCond.rouseAt i s.productors }, [])
  | .spuriousConsumer j =>
      some ({ s with consumers := consumerCond.rouseAt j s.consumers }, [])

def step (cap : ℕ) (s : State α) (turn : Turn α) : Option (State α × List (Transfer α)) :=
  if s.frontOfEmpty then none else criticalSection cap s turn

/-- The queue of capacity `cap` shared by `p` producer and `c` consumer threads. -/
def blockQueue (cap p c : ℕ) : Machine (State α) (Turn α) (Transfer α) where
  start :=
    { dp := []
      sleepProductorNum := 0
      sleepConsumerNum := 0
      productors := List.replicate p .outside
      consumers := List.replicate c .outside
      frontOfEmpty := false }
  step := step cap

end StudyCode.BlockQueue

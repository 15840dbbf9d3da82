import Mathlib.Logic.Function.Basic
import StudyCode.Lib.Machine
import StudyCode.Lib.Fifo

/-!
# `RingQueue<T>` under an arbitrary schedule

Producers and consumers are indexed by any two types. A turn of a thread is one
of the steps of `Enqueue` or `Pop`: the lock, the semaphore `P`, the slot access
with the increment of the index, the reduction of the index modulo `_cap`, the
semaphore `V`, the unlock. A turn that has to wait is not enabled.
-/
namespace StudyCode.RingQueue
open StudyCode.Scheduled

/-- How far a producer is in `Enqueue(in)`. -/
inductive Productor (α : Type*) where
  | idle
  | locked (data : α)
  | acquired (data : α)
  | stored
  | reduced
  | posted
  deriving DecidableEq, Repr

/-- How far a consumer is in `Pop(out)`. -/
inductive Consumer where
  | idle
  | locked
  | acquired
  | loaded
  | reduced
  | posted
  deriving DecidableEq, Repr

structure State (α ι κ : Type*) where
  rq : List α
  consumerStep : ℕ
  productorStep : ℕ
  blankSem : ℕ
  dataSem : ℕ
  cmutex : Option κ
  pmutex : Option ι
  productor : ι → Productor α
  consumer : κ → Consumer

/-- A thread's turn. The argument of `Enqueue` is chosen when the call begins. -/
inductive Turn (α ι κ : Type*) where
  | enqueue (i : ι) (data : α)
  | productor (i : ι)
  | pop (j : κ)
  | consumer (j : κ)
  deriving DecidableEq, Repr

/-- The accesses to the slots of `_rq`. -/
inductive Access (α ι κ : Type*) where
  | store (i : ι) (slot : ℕ) (data : α)
  | load (j : κ) (slot : ℕ) (data : α)
  deriving DecidableEq, Repr

section
variable {α ι κ : Type*}

/-- The constructor: `_rq(cap)`, both indices 0, `_blank_sem(cap)`, `_data_sem(0)`. -/
def create [Inhabited α] (cap : ℕ) : State α ι κ where
  rq := List.replicate cap default
  consumerStep := 0
  productorStep := 0
  blankSem := cap
  dataSem := 0
  cmutex := none
  pmutex := none
  productor := fun _ => .idle
  consumer := fun _ => .idle

def State.setProductor [DecidableEq ι] (s : State α ι κ) (i : ι) (p : Productor α) : State α ι κ :=
  { s with productor := Function.update s.productor i p }

def State.setConsumer [DecidableEq κ] (s : State α ι κ) (j : κ) (c : Consumer) : State α ι κ :=
  { s with consumer := Function.update s.consumer j c }

@[simp] theorem setProductor_rq [DecidableEq ι] (s : State α ι κ) (i : ι) (p : Productor α) :
    (s.setProductor i p).rq = s.rq := rfl

@[simp] theorem setConsumer_rq [DecidableEq κ] (s : State α ι κ) (j : κ) (c : Consumer) :
    (s.setConsumer j c).rq = s.rq := rfl

variable [Inhabited α] [DecidableEq ι] [DecidableEq κ]

/-- The steps of `Enqueue` after `_pmutex.Lock()`. -/
def enqueueStep (cap : ℕ) (s : State α ι κ) (i : ι) :
    Option (State α ι κ × List (Access α ι κ)) :=
  match s.productor i with
  | .idle => none
  | .locked data =>
      if 0 < s.blankSem then
        some ({ s with blankSem := s.blankSem - 1 }.setProductor i (.acquired data), [])
      else none
  | .acquired data =>
      some ({ s with
          rq := s.rq.set s.productorStep data
          productorStep := s.productorStep + 1 }.setProductor i .stored,
        [.store i s.productorStep data])
  | .stored =>
      some ({ s with productorStep := s.productorStep % cap }.setProductor i .reduced, [])
  | .reduced => some ({ s with dataSem := s.dataSem + 1 }.setProductor i .posted, [])
  | .posted => some ({ s with pmutex := none }.setProductor i .idle, [])

/-- The steps of `Pop` after `_cmutex.Lock()`. -/
def popStep (cap : ℕ) (s : State α ι κ) (j : κ) :
    Option (State α ι κ × List (Access α ι κ)) :=
  match s.consumer j with
  | .idle => none
  | .locked =>
      if 0 < s.dataSem then
        some ({ s with dataSem := s.dataSem - 1 }.setConsumer j .acquired, [])
      else none
  | .acquired =>
      some ({ s with consumerStep := s.consumerStep + 1 }.setConsumer j .loaded,
        [.load j s.consumerStep (s.rq.getD s.consumerStep default)])
  | .loaded =>
      some ({ s with consumerStep := s.consumerStep % cap }.setConsumer j .reduced, [])
  | .reduced => some ({ s with blankSem := s.blankSem + 1 }.setConsumer j .posted, [])
  | .posted => some ({ s with cmutex := none }.setConsumer j .idle, [])

def step (cap : ℕ) (s : State α ι κ) :
    Turn α ι κ → Option (State α ι κ × List (Access α ι κ))
  | .enqueue i data =>
      match s.productor i, s.pmutex with
      | .idle, none => some ({ s with pmutex := some i }.setProductor i (.locked data), [])
      | _, _ => none
  | .productor i => enqueueStep cap s i
  | .pop j =>
      match s.consumer j, s.cmutex with
      | .idle, none => some ({ s with cmutex := some j }.setConsumer j .locked, [])
      | _, _ => none
  | .consumer j => popStep cap s j

def ringQueue (cap : ℕ) : Machine (State α ι κ) (Turn α ι κ) (Access α ι κ) where
  start := create cap
  step := step cap

end
end StudyCode.RingQueue

import StudyCode.Queue.RingQueueFifo

/-!
# The ring queue as an atomic queue

A call of `Enqueue` or `Pop` takes six steps, and calls of other threads run between
them. Each call takes effect in one of its steps, the access to the slot.
-/
namespace StudyCode.RingQueue
open StudyCode.Scheduled StudyCode.Fifo

variable {α ι κ : Type*}

/-- The argument of the call of `Enqueue` that a producer is in, until it is stored. -/
def Productor.data? : Productor α → Option α
  | .locked data | .acquired data => some data
  | .idle | .stored | .reduced | .posted => none

/-- A consumer is in a call of `Pop` that has not loaded yet. -/
def Consumer.due : Consumer → ℕ
  | .locked | .acquired => 1
  | .idle | .loaded | .reduced | .posted => 0

def Turn.called? [DecidableEq ι] (i : ι) : Turn α ι κ → Option α
  | .enqueue k data => if k = i then some data else none
  | .productor _ | .pop _ | .consumer _ => none

def Turn.pops [DecidableEq κ] (j : κ) : Turn α ι κ → Bool
  | .pop k => k = j
  | .enqueue _ _ | .productor _ | .consumer _ => false

def Access.storedBy? [DecidableEq ι] (i : ι) : Access α ι κ → Option α
  | .store k _ data => if k = i then some data else none
  | .load _ _ _ => none

def Access.loadedBy [DecidableEq κ] (j : κ) : Access α ι κ → Bool
  | .store _ _ _ => false
  | .load k _ _ => k = j

variable [Inhabited α] [DecidableEq ι] [DecidableEq κ] {cap : ℕ} {s t : State α ι κ}
  {os o : List (Access α ι κ)}

omit [Inhabited α] [DecidableEq κ] in
/-- A step of a producer: what it had in hand is stored, or it still has it. -/
theorem enqueueStep_calls {i : ι} (hs : enqueueStep cap s i = some (t, o)) (k : ι) :
    (s.productor k).data?.toList =
      o.filterMap (Access.storedBy? k) ++ (t.productor k).data?.toList := by
  unfold enqueueStep at hs
  by_cases own : k = i
  · subst own
    split at hs <;> rename_i here
    case h_1 => cases hs
    case h_2 =>
      obtain ⟨-, eq⟩ := Option.ite_none_right_eq_some.mp hs
      cases eq
      simp [State.setProductor, here, Productor.data?]
    all_goals
      cases hs
      simp [State.setProductor, here, Productor.data?, Access.storedBy?]
  · split at hs
    case h_1 => cases hs
    case h_2 =>
      obtain ⟨-, eq⟩ := Option.ite_none_right_eq_some.mp hs
      cases eq
      simp [State.setProductor, own]
    all_goals
      cases hs
      simp [State.setProductor, own, Access.storedBy?, Ne.symm own]

omit [DecidableEq ι] in
theorem popStep_pops {j : κ} (hs : popStep cap s j = some (t, o)) (k : κ) :
    (s.consumer k).due = o.countP (Access.loadedBy k) + (t.consumer k).due := by
  unfold popStep at hs
  by_cases own : k = j
  · subst own
    split at hs <;> rename_i here
    case h_1 => cases hs
    case h_2 =>
      obtain ⟨-, eq⟩ := Option.ite_none_right_eq_some.mp hs
      cases eq
      simp [State.setConsumer, here, Consumer.due]
    all_goals
      cases hs
      simp [State.setConsumer, here, Consumer.due, Access.loadedBy]
  · split at hs
    case h_1 => cases hs
    case h_2 =>
      obtain ⟨-, eq⟩ := Option.ite_none_right_eq_some.mp hs
      cases eq
      simp [State.setConsumer, own]
    all_goals
      cases hs
      simp [State.setConsumer, own, Access.loadedBy, Ne.symm own]

omit [Inhabited α] [DecidableEq κ] in
/-- A step of a producer leaves the consumers alone and stores at most once. -/
theorem enqueueStep_frame {i : ι} (hs : enqueueStep cap s i = some (t, o)) :
    t.consumer = s.consumer ∧ (o = [] ∨ ∃ slot data, o = [.store i slot data]) := by
  unfold enqueueStep at hs
  split at hs
  case h_1 => cases hs
  case h_2 =>
    obtain ⟨-, eq⟩ := Option.ite_none_right_eq_some.mp hs
    cases eq
    exact ⟨rfl, .inl rfl⟩
  all_goals
    cases hs
    exact ⟨rfl, by simp⟩

omit [DecidableEq ι] in
theorem popStep_frame {j : κ} (hs : popStep cap s j = some (t, o)) :
    t.productor = s.productor ∧ (o = [] ∨ ∃ slot data, o = [.load j slot data]) := by
  unfold popStep at hs
  split at hs
  case h_1 => cases hs
  case h_2 =>
    obtain ⟨-, eq⟩ := Option.ite_none_right_eq_some.mp hs
    cases eq
    exact ⟨rfl, .inl rfl⟩
  all_goals
    cases hs
    exact ⟨rfl, by simp⟩

theorem step_single {turn : Turn α ι κ} (hs : step cap s turn = some (t, o)) :
    o = [] ∨ ∃ a, o = [a] := by
  cases turn with
  | enqueue i data =>
      simp only [step] at hs
      split at hs <;> cases hs
      exact .inl rfl
  | productor i =>
      rcases (enqueueStep_frame hs).2 with none | ⟨slot, data, one⟩
      · exact .inl none
      · exact .inr ⟨_, one⟩
  | pop j =>
      simp only [step] at hs
      split at hs <;> cases hs
      exact .inl rfl
  | consumer j =>
      rcases (popStep_frame hs).2 with none | ⟨slot, data, one⟩
      · exact .inl none
      · exact .inr ⟨_, one⟩

/-- What a producer has in hand or calls with now is stored, or it has it in hand. -/
theorem step_calls {turn : Turn α ι κ} (hs : step cap s turn = some (t, o)) (k : ι) :
    (s.productor k).data?.toList ++ (turn.called? k).toList =
      o.filterMap (Access.storedBy? k) ++ (t.productor k).data?.toList := by
  cases turn with
  | enqueue i data =>
      simp only [step] at hs
      split at hs <;> cases hs
      rename_i idle free
      by_cases own : k = i
      · subst own
        simp [State.setProductor, idle, Productor.data?, Turn.called?]
      · simp [State.setProductor, own, Turn.called?, Ne.symm own]
  | productor i =>
      rw [Turn.called?, Option.toList_none, List.append_nil]
      exact enqueueStep_calls hs k
  | pop j =>
      simp only [step] at hs
      split at hs <;> cases hs
      simp [State.setConsumer, Turn.called?]
  | consumer j =>
      obtain ⟨same, single⟩ := popStep_frame hs
      have silent : o.filterMap (Access.storedBy? k) = [] := by
        rcases single with rfl | ⟨slot, data, rfl⟩ <;> rfl
      rw [same, silent]
      exact List.append_nil _

theorem step_pops {turn : Turn α ι κ} (hs : step cap s turn = some (t, o)) (k : κ) :
    (s.consumer k).due + [turn].countP (Turn.pops k) =
      o.countP (Access.loadedBy k) + (t.consumer k).due := by
  cases turn with
  | enqueue i data =>
      simp only [step] at hs
      split at hs <;> cases hs
      simp [State.setProductor, Turn.pops]
  | productor i =>
      obtain ⟨same, single⟩ := enqueueStep_frame hs
      have silent : o.countP (Access.loadedBy k) = 0 := by
        rcases single with rfl | ⟨slot, data, rfl⟩ <;> rfl
      rw [same, silent, Nat.zero_add]
      rfl
  | pop j =>
      simp only [step] at hs
      split at hs <;> cases hs
      rename_i idle free
      by_cases own : k = j
      · subst own
        simp [State.setConsumer, idle, Consumer.due, Turn.pops]
      · simp [State.setConsumer, own, Turn.pops, Ne.symm own]
  | consumer j => exact popStep_pops hs k

/-! ## Whole runs -/

/-- The accesses to the slots are a run of the atomic queue. -/
theorem reaches_boundedQueue {turns : List (Turn α ι κ)}
    (run : (ringQueue cap).Reaches turns s os) :
    ∃ waiting, History (os.map Access.action) waiting ∧
      (boundedQueue cap).Reaches ((os.map Access.action).map Action.call) waiting
        (os.map Access.action) := by
  refine run.induct
    (P := fun _ _ os => ∃ waiting, History (os.map Access.action) waiting ∧
      (boundedQueue cap).Reaches ((os.map Access.action).map Action.call) waiting
        (os.map Access.action)) ⟨[], .nil, Machine.reaches_nil.mpr ⟨rfl, rfl⟩⟩ ?_
  rintro turns s os turn t o before ⟨waiting, history, atomic⟩ hs
  rcases step_single hs with rfl | ⟨a, rfl⟩
  · rw [List.append_nil]
    exact ⟨waiting, history, atomic⟩
  · obtain ⟨q, r, ring, control⟩ := reaches_invariant (before.snoc hs)
    have bound : q.length ≤ cap := by
      have blank := control.blank
      omega
    have longer := ring.history
    rw [List.map_append] at longer ⊢
    refine ⟨q, longer, ?_⟩
    rw [List.map_append]
    exact atomic.snoc (history.boundedQueue_step longer bound)

/-- For every capacity, any producers and consumers and every schedule: the accesses to the
slots, each at once, are a run of a queue of at most `cap` values in which a call happens at
once or waits; each producer stores what it calls `Enqueue` with, in order and once, but
for the value of the call that it is in; and each consumer loads once in each call of
`Pop`, but for the call that it is in. So every call takes effect between its
beginning and its end. -/
theorem ring_queue_refines_atomic_queue {turns : List (Turn α ι κ)}
    (run : (ringQueue cap).Reaches turns s os) :
    (∃ waiting, (boundedQueue cap).Reaches ((os.map Access.action).map Action.call) waiting
      (os.map Access.action)) ∧
      (∀ i, turns.filterMap (Turn.called? i) =
        os.filterMap (Access.storedBy? i) ++ (s.productor i).data?.toList) ∧
      ∀ j, turns.countP (Turn.pops j) = os.countP (Access.loadedBy j) + (s.consumer j).due := by
  refine ⟨?_, fun i => ?_, fun j => ?_⟩
  · obtain ⟨waiting, -, atomic⟩ := reaches_boundedQueue run
    exact ⟨waiting, atomic⟩
  · refine run.induct
      (P := fun turns s os => turns.filterMap (Turn.called? i) =
        os.filterMap (Access.storedBy? i) ++ (s.productor i).data?.toList) rfl ?_
    intro turns s os turn t o before past hs
    have calls := step_calls hs i
    have one : [turn].filterMap (Turn.called? i) = (turn.called? i).toList := by
      cases called : turn.called? i <;> simp [called]
    rw [List.filterMap_append, past, one, List.append_assoc, calls, List.filterMap_append,
      List.append_assoc]
  · refine run.induct
      (P := fun turns s os => turns.countP (Turn.pops j) =
        os.countP (Access.loadedBy j) + (s.consumer j).due) rfl ?_
    intro turns s os turn t o before past hs
    have pops := step_pops hs j
    rw [List.countP_append, past, List.countP_append]
    omega

/-- A ring of one slot, with a second value in hand and a consumer that waits. -/
theorem ring_queue_refines_atomic_queue_handoff :
    ∃ turns s os, (ringQueue (α := ℕ) (ι := Unit) (κ := Bool) 1).Reaches turns s os ∧
      turns.filterMap (Turn.called? ()) = [7, 8] ∧
      os.filterMap (Access.storedBy? ()) ++ (s.productor ()).data?.toList = [7, 8] ∧
      (s.productor ()).data? = some 8 ∧
      ∃ waiting, (boundedQueue 1).Reaches [.put 7, .get] waiting [.put 7, .get 7] := by
  have run : (ringQueue (α := ℕ) (ι := Unit) (κ := Bool) 1).Reaches
      (.enqueue () 7 :: List.replicate 5 (.productor ()) ++ .enqueue () 8 :: .pop true ::
        List.replicate 5 (.consumer true) ++ [.pop false, .productor ()]) _ _ := rfl
  obtain ⟨atomic, calls, -⟩ := ring_queue_refines_atomic_queue run
  exact ⟨_, _, _, run, rfl, (calls ()).symm, rfl, atomic⟩

end StudyCode.RingQueue

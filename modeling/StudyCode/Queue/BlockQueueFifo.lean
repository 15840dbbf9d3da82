import StudyCode.Lib.Fifo
import StudyCode.Queue.BlockQueueBounds

/-!
# What `BlockQueue` does to the values, and how long it gets

The missing test after the wait costs the bounds, not the order: as long as nobody
pops from an empty queue, values leave in the order in which they came, each call of
`Enqueue` enters its value once, and each call of `pop` that comes back has taken one.
The capacity is tested for equality. A queue that was pushed over it once blocks no
producer any more.
-/
namespace StudyCode.BlockQueue
open StudyCode.Scheduled StudyCode.Monitor StudyCode.Fifo

variable {α : Type*}

def Transfer.action : Transfer α → Action α
  | .pushed _ data => .put data
  | .popped _ data => .get data

/-- The argument with which a thread calls `Enqueue` in this turn. -/
def Turn.called? (i : ℕ) : Turn α → Option α
  | .enqueue k data _ => if k = i then some data else none
  | _ => none

def Transfer.pushed? (i : ℕ) : Transfer α → Option α
  | .pushed k data => if k = i then some data else none
  | .popped _ _ => none

/-- The argument that a producer waits with. -/
def Productor.data? : Productor α → Option α
  | .outside => none
  | .blocked data => some data
  | .woken data => some data

/-- The argument of the call of `Enqueue` that a thread is in. -/
def waitsWith (ps : List (Productor α)) (i : ℕ) : Option α := (ps.map Productor.data?)[i]?.join

/-- The thread calls `pop` in this turn. -/
def Turn.callsPop (j : ℕ) : Turn α → Bool
  | .pop k _ => k == j
  | _ => false

def Transfer.poppedBy (j : ℕ) : Transfer α → Bool
  | .pushed _ _ => false
  | .popped k _ => k == j

def Consumer.calls : Consumer → ℕ
  | .outside => 0
  | .blocked | .woken => 1

/-- The number of calls of `pop` that a thread is in. -/
def inPop (cs : List Consumer) (j : ℕ) : ℕ := (cs.map Consumer.calls)[j]?.getD 0

theorem data?_rouse (p : Productor α) : (productorCond.rouse p).data? = p.data? := by
  cases p <;> rfl

theorem waitsWith_eq {ps : List (Productor α)} {i : ℕ} {p : Productor α} (here : ps[i]? = some p) :
    waitsWith ps i = p.data? := by
  rw [waitsWith, List.getElem?_map, here]
  rfl

theorem waitsWith_set {ps : List (Productor α)} {i : ℕ} {p : Productor α} (here : ps[i]? = some p)
    (q : Productor α) (k : ℕ) :
    waitsWith (ps.set i q) k = if i = k then q.data? else waitsWith ps k := by
  by_cases own : i = k
  · subst own
    rw [if_pos rfl, waitsWith_eq (getElem?_set_here here q)]
  · rw [if_neg own, waitsWith, waitsWith, List.getElem?_map, List.getElem?_map,
      List.getElem?_set_ne own]

theorem waitsWith_wake (wakes : List ℕ) (ps : List (Productor α)) (k : ℕ) :
    waitsWith (productorCond.wake wakes ps) k = waitsWith ps k := by
  rw [waitsWith, productorCond.map_wake data?_rouse, waitsWith]

theorem waitsWith_rouseAt (i : ℕ) (ps : List (Productor α)) (k : ℕ) :
    waitsWith (productorCond.rouseAt i ps) k = waitsWith ps k := by
  rw [waitsWith, productorCond.map_rouseAt data?_rouse, waitsWith]

theorem calls_rouse (c : Consumer) : (consumerCond.rouse c).calls = c.calls := by
  cases c <;> rfl

theorem inPop_eq {cs : List Consumer} {j : ℕ} {c : Consumer} (here : cs[j]? = some c) :
    inPop cs j = c.calls := by
  rw [inPop, List.getElem?_map, here]
  rfl

theorem inPop_set {cs : List Consumer} {j : ℕ} {c : Consumer} (here : cs[j]? = some c)
    (d : Consumer) (k : ℕ) :
    inPop (cs.set j d) k = if j = k then d.calls else inPop cs k := by
  by_cases own : j = k
  · subst own
    rw [if_pos rfl, inPop_eq (getElem?_set_here here d)]
  · rw [if_neg own, inPop, inPop, List.getElem?_map, List.getElem?_map,
      List.getElem?_set_ne own]

/-! ## The two halves of a turn -/

theorem signalConsumer_productors {s t : State α} {wakes : List ℕ}
    (h : signalConsumer s wakes = some t) : t.productors = s.productors := by
  unfold signalConsumer at h
  split at h
  · obtain ⟨-, eq⟩ := Option.ite_none_right_eq_some.mp h
    cases eq
    rfl
  · cases h
    rfl

theorem signalConsumer_inPop {s t : State α} {wakes : List ℕ}
    (h : signalConsumer s wakes = some t) (k : ℕ) : inPop t.consumers k = inPop s.consumers k := by
  unfold signalConsumer at h
  split at h
  · obtain ⟨-, eq⟩ := Option.ite_none_right_eq_some.mp h
    cases eq
    rw [inPop, consumerCond.map_wake calls_rouse, inPop]
  · cases h
    rfl

theorem signalProductor_consumers {s t : State α} {wakes : List ℕ}
    (h : signalProductor s wakes = some t) : t.consumers = s.consumers := by
  unfold signalProductor at h
  split at h
  · obtain ⟨-, eq⟩ := Option.ite_none_right_eq_some.mp h
    cases eq
    rfl
  · cases h
    rfl

theorem signalProductor_waitsWith {s t : State α} {wakes : List ℕ}
    (h : signalProductor s wakes = some t) (k : ℕ) :
    waitsWith t.productors k = waitsWith s.productors k := by
  unfold signalProductor at h
  split at h
  · obtain ⟨-, eq⟩ := Option.ite_none_right_eq_some.mp h
    cases eq
    exact waitsWith_wake wakes s.productors k
  · cases h
    rfl

theorem push_spec {s t : State α} {i : ℕ} {data : α} {wakes : List ℕ} {o : List (Transfer α)}
    (h : push s i data wakes = some (t, o)) :
    o = [.pushed i data] ∧ t.dp = s.dp ++ [data] ∧
      t.productors = s.productors.set i .outside := by
  obtain ⟨dp, -⟩ := push_effect h
  obtain ⟨u, hu, eq⟩ := Option.map_eq_some_iff.mp h
  cases eq
  exact ⟨rfl, dp, signalConsumer_productors hu⟩

theorem push_inPop {s t : State α} {i : ℕ} {data : α} {wakes : List ℕ} {o : List (Transfer α)}
    (h : push s i data wakes = some (t, o)) (k : ℕ) :
    inPop s.consumers k = o.countP (Transfer.poppedBy k) + inPop t.consumers k := by
  obtain ⟨u, hu, eq⟩ := Option.map_eq_some_iff.mp h
  cases eq
  rw [signalConsumer_inPop hu]
  simp [Transfer.poppedBy]

theorem takeFront_spec {s t : State α} {j : ℕ} {wakes : List ℕ} {o : List (Transfer α)}
    (h : takeFront s j wakes = some (t, o)) :
    (o = [] ∧ t.dp = s.dp ∨ ∃ data, o = [.popped j data] ∧ s.dp = data :: t.dp) ∧
      ∀ k, waitsWith t.productors k = waitsWith s.productors k := by
  unfold takeFront at h
  split at h
  · cases h
    exact ⟨.inl ⟨rfl, rfl⟩, fun _ => rfl⟩
  · rename_i data rest full
    obtain ⟨u, hu, eq⟩ := Option.map_eq_some_iff.mp h
    cases eq
    refine ⟨.inr ⟨data, rfl, ?_⟩, fun k => signalProductor_waitsWith hu k⟩
    rw [full, (signalProductor_frame hu).1]

/-- A call of `pop` that comes back from a queue with a value has taken it. -/
theorem takeFront_inPop {s t : State α} {j : ℕ} {c : Consumer} {wakes : List ℕ}
    {o : List (Transfer α)} (h : takeFront s j wakes = some (t, o))
    (defined : t.frontOfEmpty = false) (here : s.consumers[j]? = some c) (k : ℕ) :
    (if j = k then 1 else inPop s.consumers k) =
      o.countP (Transfer.poppedBy k) + inPop t.consumers k := by
  unfold takeFront at h
  split at h
  · cases h
    cases defined
  · obtain ⟨u, hu, eq⟩ := Option.map_eq_some_iff.mp h
    cases eq
    rw [signalProductor_consumers hu, inPop_set here]
    by_cases own : j = k <;> simp [own, Transfer.poppedBy, Consumer.calls]

/-- A turn appends what it pushes and removes what it pops in front. -/
theorem step_history {cap : ℕ} {s t : State α} {turn : Turn α} {o : List (Transfer α)}
    (h : step cap s turn = some (t, o)) {acts : List (Action α)} (past : History acts s.dp) :
    History (acts ++ o.map Transfer.action) t.dp := by
  have pushed : ∀ {u : State α} {i data wakes}, push u i data wakes = some (t, o) → u.dp = s.dp →
      History (acts ++ o.map Transfer.action) t.dp := by
    intro u i data wakes hp same
    obtain ⟨rfl, dp, -⟩ := push_spec hp
    rw [dp, same]
    exact past.put data
  have taken : ∀ {u : State α} {j wakes}, takeFront u j wakes = some (t, o) → u.dp = s.dp →
      History (acts ++ o.map Transfer.action) t.dp := by
    intro u j wakes hp same
    rcases (takeFront_spec hp).1 with ⟨rfl, dp⟩ | ⟨data, rfl, dp⟩
    · rw [dp, same, List.map_nil, List.append_nil]
      exact past
    · rw [same] at dp
      rw [dp] at past
      exact past.get
  have idle : t.dp = s.dp ∧ o = [] → History (acts ++ o.map Transfer.action) t.dp := by
    rintro ⟨dp, rfl⟩
    rwa [dp, List.map_nil, List.append_nil]
  obtain ⟨-, h⟩ := Option.ite_none_left_eq_some.mp h
  cases turn with
  | enqueue i data wakes =>
      simp only [criticalSection] at h
      split at h
      · split at h
        · cases h
          exact idle ⟨rfl, rfl⟩
        · exact pushed h rfl
      · cases h
  | resumeEnqueue i wakes =>
      simp only [criticalSection] at h
      split at h
      · exact pushed h rfl
      · cases h
  | pop j wakes =>
      simp only [criticalSection] at h
      split at h
      · split at h
        · cases h
          exact idle ⟨rfl, rfl⟩
        · exact taken h rfl
      · cases h
  | resumePop j wakes =>
      simp only [criticalSection] at h
      split at h
      · exact taken h rfl
      · cases h
  | spuriousProductor i =>
      cases h
      exact idle ⟨rfl, rfl⟩
  | spuriousConsumer j =>
      cases h
      exact idle ⟨rfl, rfl⟩

/-- What a thread waited with or calls with now is pushed, or it waits with it. -/
theorem step_calls {cap : ℕ} {s t : State α} {turn : Turn α} {o : List (Transfer α)}
    (h : step cap s turn = some (t, o)) (k : ℕ) :
    (waitsWith s.productors k).toList ++ (turn.called? k).toList =
      o.filterMap (Transfer.pushed? k) ++ (waitsWith t.productors k).toList := by
  obtain ⟨-, h⟩ := Option.ite_none_left_eq_some.mp h
  cases turn with
  | enqueue i data wakes =>
      simp only [criticalSection] at h
      split at h
      · rename_i here
        have free : waitsWith s.productors i = none := waitsWith_eq here
        split at h
        · cases h
          rw [waitsWith_set here]
          by_cases own : i = k
          · subst own
            simp [free, Turn.called?, Productor.data?]
          · simp [own, Turn.called?]
        · obtain ⟨rfl, -, ps⟩ := push_spec h
          rw [ps, waitsWith_set here]
          by_cases own : i = k
          · subst own
            simp [free, Turn.called?, Transfer.pushed?, Productor.data?]
          · simp [own, Turn.called?, Transfer.pushed?]
      · cases h
  | resumeEnqueue i wakes =>
      simp only [criticalSection] at h
      split at h
      · rename_i data here
        obtain ⟨rfl, -, ps⟩ := push_spec h
        rw [ps, waitsWith_set here]
        by_cases own : i = k
        · subst own
          simp [waitsWith_eq here, Turn.called?, Transfer.pushed?, Productor.data?]
        · simp [own, Turn.called?, Transfer.pushed?]
      · cases h
  | pop j wakes =>
      simp only [criticalSection] at h
      split at h
      · split at h
        · cases h
          simp [Turn.called?]
        · obtain ⟨⟨rfl, -⟩ | ⟨data, rfl, -⟩, waits⟩ := takeFront_spec h <;>
            simp [waits, Turn.called?, Transfer.pushed?]
      · cases h
  | resumePop j wakes =>
      simp only [criticalSection] at h
      split at h
      · obtain ⟨⟨rfl, -⟩ | ⟨data, rfl, -⟩, waits⟩ := takeFront_spec h <;>
          simp [waits, Turn.called?, Transfer.pushed?]
      · cases h
  | spuriousProductor i =>
      cases h
      simp [waitsWith_rouseAt, Turn.called?]
  | spuriousConsumer j =>
      cases h
      simp [Turn.called?]

/-- A call of `pop` that a thread was in or makes now takes a value, or the thread is
still in it. -/
theorem step_pops {cap : ℕ} {s t : State α} {turn : Turn α} {o : List (Transfer α)}
    (h : step cap s turn = some (t, o)) (defined : t.frontOfEmpty = false) (k : ℕ) :
    inPop s.consumers k + [turn].countP (Turn.callsPop k) =
      o.countP (Transfer.poppedBy k) + inPop t.consumers k := by
  obtain ⟨-, h⟩ := Option.ite_none_left_eq_some.mp h
  cases turn with
  | enqueue i data wakes =>
      simp only [criticalSection] at h
      split at h
      · split at h
        · cases h
          simp [Turn.callsPop]
        · exact push_inPop h k
      · cases h
  | resumeEnqueue i wakes =>
      simp only [criticalSection] at h
      split at h
      · exact push_inPop h k
      · cases h
  | pop j wakes =>
      simp only [criticalSection] at h
      split at h
      · rename_i here
        have free : inPop s.consumers j = 0 := inPop_eq here
        split at h
        · cases h
          rw [inPop_set here]
          by_cases own : j = k
          · subst own
            simp [free, Turn.callsPop, Consumer.calls]
          · simp [own, Turn.callsPop]
        · rw [← takeFront_inPop h defined here k]
          by_cases own : j = k
          · subst own
            simp [free, Turn.callsPop]
          · simp [own, Turn.callsPop]
      · cases h
  | resumePop j wakes =>
      simp only [criticalSection] at h
      split at h
      · rename_i here
        rw [← takeFront_inPop h defined here k]
        by_cases own : j = k
        · subst own
          simp [inPop_eq here, Turn.callsPop, Consumer.calls]
        · simp [own, Turn.callsPop]
      · cases h
  | spuriousProductor i =>
      cases h
      simp [Turn.callsPop]
  | spuriousConsumer j =>
      cases h
      simp only [inPop, consumerCond.map_rouseAt calls_rouse]
      simp [Turn.callsPop]

theorem reaches_pops {cap p c : ℕ} {turns : List (Turn α)} {s : State α} {os : List (Transfer α)}
    (run : (blockQueue cap p c).Reaches turns s os) (defined : s.frontOfEmpty = false) (j : ℕ) :
    turns.countP (Turn.callsPop j) =
      os.countP (Transfer.poppedBy j) + inPop s.consumers j := by
  refine run.induct (P := fun turns s os => s.frontOfEmpty = false →
    turns.countP (Turn.callsPop j) = os.countP (Transfer.poppedBy j) + inPop s.consumers j)
    ?_ ?_ defined
  · intro _
    have idle : inPop (List.replicate c .outside) j = 0 := by
      rw [inPop, List.map_replicate, List.getElem?_replicate]
      split <;> rfl
    exact idle.symm.trans (Nat.zero_add _).symm
  · intro turns s os turn t o _ past hs defined
    have before : s.frontOfEmpty = false :=
      Bool.not_eq_true _ ▸ (Option.ite_none_left_eq_some.mp hs).1
    have counted := past before
    have here := step_pops hs defined j
    rw [List.countP_append, List.countP_append]
    omega

theorem reaches_calls {cap p c : ℕ} {turns : List (Turn α)} {s : State α} {os : List (Transfer α)}
    (run : (blockQueue cap p c).Reaches turns s os) (i : ℕ) :
    turns.filterMap (Turn.called? i) =
      os.filterMap (Transfer.pushed? i) ++ (waitsWith s.productors i).toList := by
  refine run.induct (P := fun turns s os => turns.filterMap (Turn.called? i) =
    os.filterMap (Transfer.pushed? i) ++ (waitsWith s.productors i).toList) ?_ ?_
  · have idle : waitsWith (List.replicate p (.outside : Productor α)) i = none := by
      rw [waitsWith, List.map_replicate, List.getElem?_replicate]
      split <;> rfl
    rw [show (blockQueue (α := α) cap p c).start.productors = List.replicate p .outside from rfl,
      idle]
    rfl
  · intro turns s os turn t o _ calls hs
    have here := step_calls hs i
    have called : [turn].filterMap (Turn.called? i) = (turn.called? i).toList := by
      cases given : turn.called? i <;> simp [given]
    rw [List.filterMap_append, List.filterMap_append, called, calls, List.append_assoc,
      List.append_assoc, here]

/-- For every capacity, any producers and consumers and every schedule in which nobody
has popped from an empty queue, also one in which a wait returns too early: the `k`-th
value popped is the `k`-th value pushed, the values pushed and not popped are in the
queue, the values that a producer has called `Enqueue` with are those that it has
pushed, in the same order, and then the one that it waits with, and each consumer has
popped one value for each of its calls of `pop` but the one that it is in. -/
theorem block_queue_fifo (cap p c : ℕ) {turns : List (Turn α)} {s : State α}
    {os : List (Transfer α)} (run : (blockQueue cap p c).Reaches turns s os)
    (defined : s.frontOfEmpty = false) :
    History (os.map Transfer.action) s.dp ∧
      puts (os.map Transfer.action) = gets (os.map Transfer.action) ++ s.dp ∧
      (∀ i, turns.filterMap (Turn.called? i) =
        os.filterMap (Transfer.pushed? i) ++ (waitsWith s.productors i).toList) ∧
      ∀ j, turns.countP (Turn.callsPop j) =
        os.countP (Transfer.poppedBy j) + inPop s.consumers j := by
  have past : History (os.map Transfer.action) s.dp := by
    refine run.induct (P := fun _ s os => History (os.map Transfer.action) s.dp) ?_ ?_
    · exact .nil
    · intro turns s os turn t o _ past hs
      rw [List.map_append]
      exact step_history hs past
  exact ⟨past, past.puts_eq, reaches_calls run, reaches_pops run defined⟩

/-- A wait that is cut short, and two producers. -/
theorem block_queue_fifo_two :
    ∃ turns s os, (blockQueue (α := ℕ) 1 2 1).Reaches turns s os ∧
      s.frontOfEmpty = false ∧
      puts (os.map Transfer.action) = gets (os.map Transfer.action) ++ s.dp ∧
      gets (os.map Transfer.action) = [7] ∧ s.dp = [8] := by
  have run : (blockQueue (α := ℕ) 1 2 1).Reaches
      [.enqueue 0 7 [], .enqueue 1 8 [], .spuriousProductor 1, .resumeEnqueue 1 [], .pop 0 []]
      _ _ := rfl
  exact ⟨_, _, _, run, rfl, (block_queue_fifo 1 2 1 run rfl).2.1, rfl, rfl⟩

/-! ## Above the capacity -/

def Turn.spurious : Turn α → Bool
  | .spuriousProductor _ => true
  | .spuriousConsumer _ => true
  | _ => false

/-- While the length is not the capacity, and nobody waits for a value, a producer
enters one value after another. -/
theorem run_enqueues {cap : ℕ} (dp : List α) (sleeping : ℤ) (ps : List (Productor α))
    (cs : List Consumer) (data : α) (n : ℕ) (room : ∀ m < n, dp.length + m ≠ cap) (p c : ℕ) :
    ∃ os, (blockQueue cap p c).runFrom ⟨dp, sleeping, 0, .outside :: ps, cs, false⟩
        (List.replicate n (.enqueue 0 data [])) =
      some (⟨dp ++ List.replicate n data, sleeping, 0, .outside :: ps, cs, false⟩, os) := by
  induction n generalizing dp with
  | zero => exact ⟨[], by simp [Machine.runFrom]⟩
  | succ n ih =>
      have here : (blockQueue cap p c).step ⟨dp, sleeping, 0, .outside :: ps, cs, false⟩
          (.enqueue 0 data []) =
            some (⟨dp ++ [data], sleeping, 0, .outside :: ps, cs, false⟩, [.pushed 0 data]) := by
        have notFull : dp.length ≠ cap := room 0 (Nat.succ_pos n)
        simp [blockQueue, step, criticalSection, push, signalConsumer, notFull]
      obtain ⟨os, later⟩ := ih (dp ++ [data]) fun m hm => by
        have := room (m + 1) (Nat.succ_lt_succ hm)
        simp only [List.length_append, List.length_singleton]
        omega
      refine ⟨[.pushed 0 data] ++ os, ?_⟩
      rw [List.replicate_succ, Machine.runFrom, here, Option.bind_some, later]
      simp [List.replicate_succ]

/-- For every capacity of at least one, with two producers or more and a consumer: there
are runs, without any wake-up that nobody asked for, in which the queue is longer than
any given bound. -/
theorem block_queue_outgrows_capacity {cap p c : ℕ} (slots : 0 < cap) (producers : 2 ≤ p)
    (consumers : 0 < c) (data : α) (n : ℕ) :
    ∃ turns s os, (blockQueue (α := α) cap p c).Reaches turns s os ∧
      (∀ turn ∈ turns, turn.spurious = false) ∧ s.frontOfEmpty = false ∧ n ≤ s.dp.length := by
  obtain ⟨cap, rfl⟩ := Nat.exists_eq_add_of_le' slots
  obtain ⟨p, rfl⟩ := Nat.exists_eq_add_of_le' producers
  obtain ⟨c, rfl⟩ := Nat.exists_eq_add_of_le' consumers
  obtain ⟨os, filled⟩ := run_enqueues [] 0 (.outside :: List.replicate p .outside)
    (.outside :: List.replicate c .outside) data (cap + 1)
    (fun m hm => by simp; omega : ∀ m < cap + 1, _ ≠ cap + 1) (p + 2) (c + 1)
  have full : (blockQueue (cap + 1) (p + 2) (c + 1)).Reaches
      (List.replicate (cap + 1) (.enqueue 0 data [])) _ os := filled
  -- one producer waits, a value leaves, and the other producer takes its place
  have waiting := full.snoc (i := .enqueue 0 data []) (o := [])
    (t := ⟨List.replicate (cap + 1) data, 1, 0,
      .blocked data :: .outside :: List.replicate p .outside,
      .outside :: List.replicate c .outside, false⟩) (by simp [blockQueue, step, criticalSection])
  have signalled := waiting.snoc (i := .pop 0 [0]) (o := [.popped 0 data])
    (t := ⟨List.replicate cap data, 1, 0, .woken data :: .outside :: List.replicate p .outside,
      .outside :: List.replicate c .outside, false⟩) (by
        simp [blockQueue, step, criticalSection, takeFront, signalProductor, WaitSet.signals,
          WaitSet.wake, WaitSet.rouseAt, productorCond, List.replicate_succ])
  have taken := signalled.snoc (i := .enqueue 1 data []) (o := [.pushed 1 data])
    (t := ⟨List.replicate cap data ++ [data], 1, 0,
      .woken data :: .outside :: List.replicate p .outside,
      .outside :: List.replicate c .outside, false⟩) (by
        simp [blockQueue, step, criticalSection, push, signalConsumer])
  have exceeded := taken.snoc (i := .resumeEnqueue 0 []) (o := [.pushed 0 data])
    (t := ⟨List.replicate cap data ++ [data] ++ [data], 0, 0,
      .outside :: .outside :: List.replicate p .outside,
      .outside :: List.replicate c .outside, false⟩) (by
        simp [blockQueue, step, criticalSection, push, signalConsumer])
  obtain ⟨os', grown⟩ := run_enqueues (List.replicate cap data ++ [data] ++ [data]) 0
    (.outside :: List.replicate p .outside) (.outside :: List.replicate c .outside) data n
    (fun m _ => by simp; omega : ∀ m < n, _ ≠ cap + 1) (p + 2) (c + 1)
  have long := Machine.reaches_append.mpr ⟨_, _, os', exceeded, grown, rfl⟩
  refine ⟨_, _, _, long, ?_, rfl, by simp; omega⟩
  simp [Turn.spurious, or_imp, forall_and]

theorem block_queue_outgrows_capacity_program :
    ∃ turns s os, (blockQueue (α := ℕ) 5 3 2).Reaches turns s os ∧
      (∀ turn ∈ turns, turn.spurious = false) ∧ s.frontOfEmpty = false ∧ 100 ≤ s.dp.length :=
  block_queue_outgrows_capacity (by decide) (by decide) (by decide) 0 100

end StudyCode.BlockQueue

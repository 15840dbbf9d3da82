import StudyCode.Queue.BlockQueueBounds

/-!
# `BlockQueue` loses no wake-up

Each signal is skipped while its hand-kept sleep count is not positive. The two
counts run over threads that sleep and threads that were signalled and have not
run yet. The invariant says that the signalled ones on either side suffice for
the values, or for the free places, that nobody else is awake to take.
-/
namespace StudyCode.BlockQueue
open StudyCode.Scheduled StudyCode.Monitor

variable {α : Type*}

/-- Consumers in `pthread_cond_wait` that nobody has roused. -/
def State.blockedConsumers (s : State α) : ℕ := s.consumers.countP consumerCond.asleep

/-- Consumers roused from `pthread_cond_wait` that do not run yet. -/
def State.wokenConsumers (s : State α) : ℕ := s.consumers.countP consumerCond.woken

def State.blockedProductors (s : State α) : ℕ := s.productors.countP productorCond.asleep

def State.wokenProductors (s : State α) : ℕ := s.productors.countP productorCond.woken

/-- The sleep count of the consumers, and what their signals are worth. -/
structure ConsumerSignals (s : State α) : Prop where
  count : s.sleepConsumerNum = s.blockedConsumers + s.wokenConsumers
  values : 0 < s.blockedConsumers → s.dp.length ≤ s.wokenConsumers

structure ProductorSignals (cap : ℕ) (s : State α) : Prop where
  count : s.sleepProductorNum = s.blockedProductors + s.wokenProductors
  places : 0 < s.blockedProductors → cap ≤ s.dp.length + s.wokenProductors

/-- The invariant speaks of the states that no pop from an empty queue precedes. -/
def Signals (cap : ℕ) (s : State α) : Prop :=
  s.frontOfEmpty = false → ConsumerSignals s ∧ ProductorSignals cap s

/-- A consumer's signal, sent or skipped: who slept sleeps or is woken now, and
when somebody still sleeps one more than before is woken. -/
theorem signalConsumer_counts {s t : State α} {wakes : List ℕ}
    (count : s.sleepConsumerNum = s.blockedConsumers + s.wokenConsumers)
    (h : signalConsumer s wakes = some t) :
    t = { s with consumers := t.consumers } ∧
      t.blockedConsumers + t.wokenConsumers = s.blockedConsumers + s.wokenConsumers ∧
      (0 < t.blockedConsumers → 0 < s.blockedConsumers ∧ s.wokenConsumers < t.wokenConsumers) := by
  unfold signalConsumer at h
  split at h
  · obtain ⟨signals, eq⟩ := Option.ite_none_right_eq_some.mp h
    cases eq
    exact ⟨rfl, consumerCond.wake_conserves wakes s.consumers,
      consumerCond.woken_lt_of_asleep signals⟩
  · cases h
    exact ⟨rfl, rfl, fun some => by omega⟩

theorem signalProductor_counts {s t : State α} {wakes : List ℕ}
    (count : s.sleepProductorNum = s.blockedProductors + s.wokenProductors)
    (h : signalProductor s wakes = some t) :
    t = { s with productors := t.productors } ∧
      t.blockedProductors + t.wokenProductors = s.blockedProductors + s.wokenProductors ∧
      (0 < t.blockedProductors →
        0 < s.blockedProductors ∧ s.wokenProductors < t.wokenProductors) := by
  unfold signalProductor at h
  split at h
  · obtain ⟨signals, eq⟩ := Option.ite_none_right_eq_some.mp h
    cases eq
    exact ⟨rfl, productorCond.wake_conserves wakes s.productors,
      productorCond.woken_lt_of_asleep signals⟩
  · cases h
    exact ⟨rfl, rfl, fun some => by omega⟩

/-- What changes neither the queue nor the consumers keeps their counts. -/
theorem ConsumerSignals.of_same {s t : State α} (h : ConsumerSignals s)
    (count : t.sleepConsumerNum = s.sleepConsumerNum) (consumers : t.consumers = s.consumers)
    (dp : t.dp.length ≤ s.dp.length) : ConsumerSignals t := by
  have values := h.values
  refine ⟨?_, fun some => ?_⟩ <;>
    simp only [State.blockedConsumers, State.wokenConsumers, consumers, count] at *
  · exact h.count
  · exact Nat.le_trans dp (values some)

theorem ProductorSignals.of_same {cap : ℕ} {s t : State α} (h : ProductorSignals cap s)
    (count : t.sleepProductorNum = s.sleepProductorNum)
    (productors : t.productors = s.productors) (dp : s.dp.length ≤ t.dp.length) :
    ProductorSignals cap t := by
  have places := h.places
  refine ⟨?_, fun some => ?_⟩ <;>
    simp only [State.blockedProductors, State.wokenProductors, productors, count] at *
  · exact h.count
  · exact Nat.le_trans (places some) (Nat.add_le_add_right dp _)

/-- `push` by a producer `p` that already left the sleep count if it was woken. -/
theorem signals_push {cap : ℕ} {s t : State α} {i : ℕ} {p : Productor α} {data : α}
    {wakes : List ℕ} {o : List (Transfer α)} (hp : s.productors[i]? = some p)
    (awake : productorCond.asleep p = false) (consumers : ConsumerSignals s)
    (count : s.sleepProductorNum + (productorCond.woken p).toNat =
      s.blockedProductors + s.wokenProductors)
    (places : 0 < s.blockedProductors → cap ≤ s.dp.length + s.wokenProductors)
    (h : push s i data wakes = some (t, o)) : ConsumerSignals t ∧ ProductorSignals cap t := by
  obtain ⟨sleep, woke⟩ := productorCond.leave_counts (q := .outside) hp awake rfl rfl
  have one : (productorCond.woken p).toNat ≤ 1 := Bool.toNat_le _
  obtain ⟨u, hu, eq⟩ := Option.map_eq_some_iff.mp h
  cases eq
  have values := consumers.values
  have total := consumers.count
  obtain ⟨frame, conserved, roused⟩ := signalConsumer_counts (by exact consumers.count) hu
  simp only [State.blockedProductors, State.wokenProductors] at count places
  simp only [State.blockedConsumers, State.wokenConsumers] at values total conserved roused
  rw [frame]
  refine ⟨⟨?_, fun some => ?_⟩, ⟨?_, fun some => ?_⟩⟩
  · simp only [State.blockedConsumers, State.wokenConsumers]
    omega
  · simp only [State.blockedConsumers, State.wokenConsumers, List.length_append,
      List.length_singleton] at some ⊢
    -- the new value is for the consumer that the signal roused
    obtain ⟨before, more⟩ := roused some
    have := values before
    omega
  · simp only [State.blockedProductors, State.wokenProductors]
    omega
  · simp only [State.blockedProductors, State.wokenProductors, List.length_append,
      List.length_singleton] at some ⊢
    have := places (by omega)
    omega

/-- `pop` of a value by a consumer `c` that already left the sleep count if it was woken. -/
theorem signals_takeFront {cap : ℕ} {s t : State α} {j : ℕ} {c : Consumer} {wakes : List ℕ}
    {o : List (Transfer α)} (hc : s.consumers[j]? = some c)
    (awake : consumerCond.asleep c = false) (productors : ProductorSignals cap s)
    (count : s.sleepConsumerNum + (consumerCond.woken c).toNat =
      s.blockedConsumers + s.wokenConsumers)
    (values : 0 < s.blockedConsumers → s.dp.length ≤ s.wokenConsumers)
    (h : takeFront s j wakes = some (t, o)) (sane : t.frontOfEmpty = false) :
    ConsumerSignals t ∧ ProductorSignals cap t := by
  obtain ⟨sleep, woke⟩ := consumerCond.leave_counts (q := .outside) hc awake rfl rfl
  have one : (consumerCond.woken c).toNat ≤ 1 := Bool.toNat_le _
  unfold takeFront at h
  split at h
  · cases h
    cases sane
  · rename_i data rest full
    obtain ⟨u, hu, eq⟩ := Option.map_eq_some_iff.mp h
    cases eq
    have places := productors.places
    have total := productors.count
    obtain ⟨frame, conserved, roused⟩ := signalProductor_counts (by exact productors.count) hu
    simp only [State.blockedConsumers, State.wokenConsumers, full, List.length_cons] at count values
    simp only [State.blockedProductors, State.wokenProductors, full, List.length_cons] at places
    simp only [State.blockedProductors, State.wokenProductors] at total conserved roused
    rw [frame]
    refine ⟨⟨?_, fun some => ?_⟩, ⟨?_, fun some => ?_⟩⟩
    · simp only [State.blockedConsumers, State.wokenConsumers]
      omega
    · simp only [State.blockedConsumers, State.wokenConsumers] at some ⊢
      have := values (by omega)
      omega
    · simp only [State.blockedProductors, State.wokenProductors]
      omega
    · simp only [State.blockedProductors, State.wokenProductors] at some ⊢
      -- the freed place is for the producer that the signal roused
      obtain ⟨before, more⟩ := roused some
      have := places before
      omega

/-- A producer that finds the queue full goes to sleep. -/
theorem ProductorSignals.sleep {cap : ℕ} {s : State α} {i : ℕ} (data : α)
    (h : ProductorSignals cap s) (outside : s.productors[i]? = some .outside)
    (full : s.dp.length = cap) : ProductorSignals cap { s with
      sleepProductorNum := s.sleepProductorNum + 1
      productors := s.productors.set i (.blocked data) } := by
  obtain ⟨sleep, woke⟩ := productorCond.sleep_counts (q := .blocked data) outside rfl rfl
  have zero : (productorCond.woken (.outside : Productor α)).toNat = 0 := rfl
  have total := h.count
  simp only [State.blockedProductors, State.wokenProductors] at total
  refine ⟨?_, fun _ => ?_⟩
  · simp only [State.blockedProductors, State.wokenProductors]
    omega
  · simp only [full]
    omega

/-- A consumer that finds the queue empty goes to sleep. -/
theorem ConsumerSignals.sleep {s : State α} {j : ℕ} (h : ConsumerSignals s)
    (outside : s.consumers[j]? = some .outside) (empty : s.dp = []) : ConsumerSignals { s with
      sleepConsumerNum := s.sleepConsumerNum + 1
      consumers := s.consumers.set j .blocked } := by
  obtain ⟨sleep, woke⟩ := consumerCond.sleep_counts (q := .blocked) outside rfl rfl
  have zero : (consumerCond.woken .outside).toNat = 0 := rfl
  have total := h.count
  simp only [State.blockedConsumers, State.wokenConsumers] at total
  refine ⟨?_, fun _ => ?_⟩
  · simp only [State.blockedConsumers, State.wokenConsumers]
    omega
  · simp [empty]

theorem ProductorSignals.rouse {cap : ℕ} {s : State α} (h : ProductorSignals cap s) (i : ℕ) :
    ProductorSignals cap { s with productors := productorCond.rouseAt i s.productors } := by
  obtain ⟨conserved, roused⟩ := productorCond.rouseAt_counts i s.productors
  have total := h.count
  have places := h.places
  simp only [State.blockedProductors, State.wokenProductors] at total places
  refine ⟨?_, fun some => ?_⟩
  · simp only [State.blockedProductors, State.wokenProductors]
    omega
  · simp only [State.blockedProductors, State.wokenProductors] at some ⊢
    have := places (by omega)
    omega

theorem ConsumerSignals.rouse {s : State α} (h : ConsumerSignals s) (j : ℕ) :
    ConsumerSignals { s with consumers := consumerCond.rouseAt j s.consumers } := by
  obtain ⟨conserved, roused⟩ := consumerCond.rouseAt_counts j s.consumers
  have total := h.count
  have values := h.values
  simp only [State.blockedConsumers, State.wokenConsumers] at total values
  refine ⟨?_, fun some => ?_⟩
  · simp only [State.blockedConsumers, State.wokenConsumers]
    omega
  · simp only [State.blockedConsumers, State.wokenConsumers] at some ⊢
    have := values (by omega)
    omega

theorem Signals.step {cap : ℕ} {s t : State α} {turn : Turn α} {o : List (Transfer α)}
    (h : Signals cap s) (hs : step cap s turn = some (t, o)) : Signals cap t := by
  intro sane
  obtain ⟨running, hs⟩ : s.frontOfEmpty = false ∧ criticalSection cap s turn = some (t, o) := by
    simpa [BlockQueue.step] using hs
  obtain ⟨consumers, productors⟩ := h running
  cases turn with
  | enqueue i data wakes =>
      simp only [criticalSection] at hs
      split at hs
      · rename_i outside
        split at hs
        · rename_i full
          cases hs
          exact ⟨consumers.of_same rfl rfl (Nat.le_refl _), productors.sleep data outside full⟩
        · exact signals_push outside rfl consumers (by simpa [productorCond] using productors.count)
            productors.places hs
      · cases hs
  | resumeEnqueue i wakes =>
      simp only [criticalSection] at hs
      split at hs
      · rename_i data woken
        refine signals_push (s := { s with sleepProductorNum := s.sleepProductorNum - 1 }) woken rfl
          (consumers.of_same rfl rfl (Nat.le_refl _)) ?_ productors.places hs
        have total := productors.count
        have one : (productorCond.woken (.woken data)).toNat = 1 := rfl
        simp only [State.blockedProductors, State.wokenProductors] at total ⊢
        omega
      · cases hs
  | pop j wakes =>
      simp only [criticalSection] at hs
      split at hs
      · rename_i outside
        split at hs
        · rename_i empty
          cases hs
          exact ⟨consumers.sleep outside (List.isEmpty_iff.mp empty),
            productors.of_same rfl rfl (Nat.le_refl _)⟩
        · exact signals_takeFront outside rfl productors
            (by simpa [consumerCond] using consumers.count) consumers.values hs sane
      · cases hs
  | resumePop j wakes =>
      simp only [criticalSection] at hs
      split at hs
      · rename_i woken
        refine signals_takeFront (s := { s with sleepConsumerNum := s.sleepConsumerNum - 1 }) woken
          rfl (productors.of_same rfl rfl (Nat.le_refl _)) ?_ consumers.values hs sane
        have total := consumers.count
        have one : (consumerCond.woken .woken).toNat = 1 := rfl
        simp only [State.blockedConsumers, State.wokenConsumers] at total ⊢
        omega
      · cases hs
  | spuriousProductor i =>
      cases hs
      exact ⟨consumers.of_same rfl rfl (Nat.le_refl _), productors.rouse i⟩
  | spuriousConsumer j =>
      cases hs
      exact ⟨consumers.rouse j, productors.of_same rfl rfl (Nat.le_refl _)⟩

/-- A thread that never waited counts for nothing. -/
theorem countP_replicate_outside {P : Type*} {f : P → Bool} {q : P} (n : ℕ) (hq : f q = false) :
    (List.replicate n q).countP f = 0 :=
  List.countP_eq_zero.mpr fun p hp => by simp [List.eq_of_mem_replicate hp, hq]

theorem signals_start (cap p c : ℕ) : Signals cap (blockQueue (α := α) cap p c).start := by
  intro _
  refine ⟨⟨?_, fun _ => Nat.zero_le _⟩, ⟨?_, fun some => ?_⟩⟩ <;>
    simp only [blockQueue, State.blockedConsumers, State.wokenConsumers, State.blockedProductors,
      State.wokenProductors] at *
  · rw [countP_replicate_outside c rfl, countP_replicate_outside c rfl]
    rfl
  · rw [countP_replicate_outside p rfl, countP_replicate_outside p rfl]
    rfl
  · rw [countP_replicate_outside p rfl] at some
    cases some

theorem reaches_signals {cap p c : ℕ} {turns : List (Turn α)} {s : State α}
    {os : List (Transfer α)} (run : (blockQueue cap p c).Reaches turns s os) : Signals cap s :=
  run.invariant (P := Signals cap) (signals_start cap p c) fun h hs => h.step hs

/-- When all threads of a list are asleep, none is woken. -/
theorem woken_of_all_asleep {P : Type*} (W : WaitSet P) {ts : List P}
    (asleep : ∀ p ∈ ts, W.asleep p = true) : ts.countP W.woken = 0 :=
  List.countP_eq_zero.mpr fun p hp => by simp [W.woken_of_asleep p (asleep p hp)]

/-- For every capacity, any producers and consumers and every schedule without a
pop from an empty queue: the sleep counts are the numbers of threads blocked in
their wait or woken from it; while a consumer stays blocked the woken ones
suffice for the values in the queue, while a producer stays blocked the woken
ones suffice for its free places; and so no value lies in the queue, and no
place is free, with all the threads that could use it asleep. -/
theorem block_queue_no_lost_wakeup (cap p c : ℕ) {turns : List (Turn α)} {s : State α}
    {os : List (Transfer α)} (run : (blockQueue cap p c).Reaches turns s os)
    (sane : s.frontOfEmpty = false) :
    s.sleepConsumerNum = s.blockedConsumers + s.wokenConsumers ∧
      s.sleepProductorNum = s.blockedProductors + s.wokenProductors ∧
      (0 < s.blockedConsumers → s.dp.length ≤ s.wokenConsumers) ∧
      (0 < s.blockedProductors → cap ≤ s.dp.length + s.wokenProductors) ∧
      ¬ (s.dp ≠ [] ∧ s.consumers ≠ [] ∧ ∀ q ∈ s.consumers, consumerCond.asleep q = true) ∧
      ¬ (s.dp.length < cap ∧ s.productors ≠ [] ∧
        ∀ q ∈ s.productors, productorCond.asleep q = true) := by
  obtain ⟨consumers, productors⟩ := reaches_signals run sane
  refine ⟨consumers.count, productors.count, consumers.values, productors.places, ?_, ?_⟩
  · rintro ⟨value, threads, asleep⟩
    obtain ⟨q, hq⟩ := List.exists_mem_of_ne_nil _ threads
    have some : 0 < s.blockedConsumers := List.countP_pos_iff.mpr ⟨q, hq, asleep q hq⟩
    have nobody : s.wokenConsumers = 0 := woken_of_all_asleep consumerCond asleep
    have := consumers.values some
    exact value (List.length_eq_zero_iff.mp (by omega))
  · rintro ⟨room, threads, asleep⟩
    obtain ⟨q, hq⟩ := List.exists_mem_of_ne_nil _ threads
    have some : 0 < s.blockedProductors := List.countP_pos_iff.mpr ⟨q, hq, asleep q hq⟩
    have nobody : s.wokenProductors = 0 := woken_of_all_asleep productorCond asleep
    have := productors.places some
    omega

/-- Two consumers asleep, one value: the signal rouses one of them, and a third
thread barges in for the value before it runs. -/
theorem block_queue_no_lost_wakeup_barging :
    ∃ turns s os, (blockQueue (α := ℕ) 5 3 3).Reaches turns s os ∧
      s.sleepConsumerNum = 2 ∧ s.sleepConsumerNum = s.blockedConsumers + s.wokenConsumers := by
  have run : (blockQueue (α := ℕ) 5 3 3).Reaches
      [.pop 0 [], .pop 1 [], .enqueue 0 8 [0], .pop 2 []] _ _ := rfl
  exact ⟨_, _, _, run, rfl, (block_queue_no_lost_wakeup 5 3 3 run rfl).1⟩

end StudyCode.BlockQueue

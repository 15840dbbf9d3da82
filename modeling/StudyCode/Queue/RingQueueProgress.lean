import StudyCode.Queue.RingQueueFifo

/-!
# The ring queue never deadlocks

A producer waits on `_blank_sem` while it holds `_pmutex`, a consumer waits on
`_data_sem` while it holds `_cmutex`. Both can be stuck only if both semaphores
are 0 with no unit under way on either side, which the count balance excludes.
-/
namespace StudyCode.RingQueue
open StudyCode.Scheduled StudyCode.Monitor

variable {α ι κ : Type*}

/-- The next turn of a producer that calls `Enqueue` again and again, with
`data` if it begins a call. -/
def Productor.turn (i : ι) (data : α) : Productor α → Turn α ι κ
  | .idle => .enqueue i data
  | _ => .productor i

def Consumer.turn (j : κ) : Consumer → Turn α ι κ
  | .idle => .pop j
  | _ => .consumer j

/-- A producer at an empty `_blank_sem` and a consumer at an empty `_data_sem`
would leave no slot anywhere. -/
theorem Control.not_both_waiting {cap n r : ℕ} {s : State α ι κ} (h : Control cap s n r)
    (pos : 0 < cap) (blank : s.blankSem = 0) (data : s.dataSem = 0) {v : α}
    (productor : s.producing = .locked v) (consumer : s.consuming = .locked) : False := by
  have slots := h.blank
  have values := h.data
  simp only [productor, consumer, Productor.reserving, Productor.unposted, Consumer.reserving,
    Consumer.unposted] at slots values
  omega

variable [Inhabited α] [DecidableEq ι] [DecidableEq κ]

/-- The producer can take its next step, whatever it enqueues. -/
def ProductorMoves (cap : ℕ) (s : State α ι κ) (i : ι) : Prop :=
  ∀ data, (step cap s ((s.productor i).turn i data)).isSome = true

def ConsumerMoves (cap : ℕ) (s : State α ι κ) (j : κ) : Prop :=
  (step cap s ((s.consumer j).turn j)).isSome = true

/-- While `_pmutex` is free every producer can begin a call, and its holder can
go on unless it finds `_blank_sem` at 0. -/
theorem productor_moves {cap : ℕ} {s : State α ι κ}
    (owner : Guards .idle s.productor s.pmutex) [Nonempty ι] :
    (∃ i, ProductorMoves cap s i) ∨ s.blankSem = 0 ∧ ∃ data, s.producing = .locked data := by
  cases holder : s.pmutex with
  | none =>
      obtain ⟨i⟩ := ‹Nonempty ι›
      have idle : s.productor i = .idle := by
        by_contra away
        simpa [holder] using (owner i).mp away
      exact .inl ⟨i, fun data => by simp [idle, Productor.turn, step, holder]⟩
  | some i =>
      have away : s.productor i ≠ .idle := (owner i).mpr holder
      have going : s.producing = s.productor i := by simp [State.producing, holder]
      cases here : s.productor i with
      | idle => exact absurd here away
      | locked data =>
          rcases Nat.eq_zero_or_pos s.blankSem with empty | unit
          · exact .inr ⟨empty, data, going.trans here⟩
          · exact .inl ⟨i, fun _ => by simp [here, Productor.turn, step, enqueueStep, unit]⟩
      | acquired data => exact .inl ⟨i, fun _ => by simp [here, Productor.turn, step, enqueueStep]⟩
      | stored => exact .inl ⟨i, fun _ => by simp [here, Productor.turn, step, enqueueStep]⟩
      | reduced => exact .inl ⟨i, fun _ => by simp [here, Productor.turn, step, enqueueStep]⟩
      | posted => exact .inl ⟨i, fun _ => by simp [here, Productor.turn, step, enqueueStep]⟩

theorem consumer_moves {cap : ℕ} {s : State α ι κ}
    (owner : Guards .idle s.consumer s.cmutex) [Nonempty κ] :
    (∃ j, ConsumerMoves cap s j) ∨ s.dataSem = 0 ∧ s.consuming = .locked := by
  cases holder : s.cmutex with
  | none =>
      obtain ⟨j⟩ := ‹Nonempty κ›
      have idle : s.consumer j = .idle := by
        by_contra away
        simpa [holder] using (owner j).mp away
      exact .inl ⟨j, by simp [ConsumerMoves, idle, Consumer.turn, step, holder]⟩
  | some j =>
      have away : s.consumer j ≠ .idle := (owner j).mpr holder
      have going : s.consuming = s.consumer j := by simp [State.consuming, holder]
      cases here : s.consumer j with
      | idle => exact absurd here away
      | locked =>
          rcases Nat.eq_zero_or_pos s.dataSem with empty | unit
          · exact .inr ⟨empty, going.trans here⟩
          · exact .inl ⟨j, by simp [ConsumerMoves, here, Consumer.turn, step, popStep, unit]⟩
      | acquired => exact .inl ⟨j, by simp [ConsumerMoves, here, Consumer.turn, step, popStep]⟩
      | loaded => exact .inl ⟨j, by simp [ConsumerMoves, here, Consumer.turn, step, popStep]⟩
      | reduced => exact .inl ⟨j, by simp [ConsumerMoves, here, Consumer.turn, step, popStep]⟩
      | posted => exact .inl ⟨j, by simp [ConsumerMoves, here, Consumer.turn, step, popStep]⟩

/-- For every capacity of at least one, at least one producer and one consumer,
and every schedule: some thread can take its next step. -/
theorem ring_queue_never_deadlocks {cap : ℕ} (pos : 0 < cap) [Nonempty ι] [Nonempty κ]
    {turns : List (Turn α ι κ)} {s : State α ι κ} {os : List (Access α ι κ)}
    (run : (ringQueue cap).Reaches turns s os) :
    (∃ i, ProductorMoves cap s i) ∨ ∃ j, ConsumerMoves cap s j := by
  obtain ⟨q, r, -, control⟩ := reaches_invariant run
  rcases productor_moves control.productorOwner with moves | ⟨blank, data, productor⟩
  · exact .inl moves
  · rcases consumer_moves control.consumerOwner with moves | ⟨empty, consumer⟩
    · exact .inr moves
    · exact (control.not_both_waiting pos blank empty productor consumer).elim

/-- A producer waits on the full ring of one slot, and the consumer can take its value. -/
theorem ring_queue_never_deadlocks_full :
    ∃ (turns : List (Turn ℕ Bool Bool)) (s : State ℕ Bool Bool)
      (os : List (Access ℕ Bool Bool)), (ringQueue 1).Reaches turns s os ∧
      s.productor true = .locked 8 ∧ s.blankSem = 0 ∧
      ((∃ i, ProductorMoves 1 s i) ∨ ∃ j, ConsumerMoves 1 s j) := by
  have run : (ringQueue (α := ℕ) (ι := Bool) (κ := Bool) 1).Reaches
      (.enqueue false 7 :: List.replicate 5 (.productor false) ++ [.enqueue true 8]) _ _ := rfl
  exact ⟨_, _, _, run, rfl, rfl, ring_queue_never_deadlocks Nat.one_pos run⟩

end StudyCode.RingQueue

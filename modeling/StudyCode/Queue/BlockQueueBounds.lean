import StudyCode.Queue.BlockQueue

/-!
# When `BlockQueue` keeps its bounds

`Enqueue` and `pop` test their condition once, before `pthread_cond_wait`. The
bounds therefore hold exactly along the runs in which no thread comes back from
its wait to find the condition it waited for gone again.
-/
namespace StudyCode.BlockQueue
open StudyCode.Scheduled StudyCode.Monitor

variable {α : Type*}

/-- The queue holds at most `cap` values, and nobody called `front()` or `pop()`
on an empty queue. -/
def Bounded (cap : ℕ) (s : State α) : Prop :=
  s.dp.length ≤ cap ∧ s.frontOfEmpty = false

/-- A thread that comes back from its wait finds room, or a value: the test that
the source leaves out would not send it back to sleep. -/
def FindsWhatItWaitedFor (cap : ℕ) (s : State α) : Turn α → Prop
  | .resumeEnqueue _ _ => s.dp.length ≠ cap
  | .resumePop _ _ => s.dp ≠ []
  | _ => True

theorem signalConsumer_frame {s t : State α} {wakes : List ℕ}
    (h : signalConsumer s wakes = some t) : t.dp = s.dp ∧ t.frontOfEmpty = s.frontOfEmpty := by
  unfold signalConsumer at h
  split at h
  · obtain ⟨-, eq⟩ := Option.ite_none_right_eq_some.mp h
    cases eq
    exact ⟨rfl, rfl⟩
  · cases h
    exact ⟨rfl, rfl⟩

theorem signalProductor_frame {s t : State α} {wakes : List ℕ}
    (h : signalProductor s wakes = some t) :
    t.dp = s.dp ∧ t.frontOfEmpty = s.frontOfEmpty := by
  unfold signalProductor at h
  split at h
  · obtain ⟨-, eq⟩ := Option.ite_none_right_eq_some.mp h
    cases eq
    exact ⟨rfl, rfl⟩
  · cases h
    exact ⟨rfl, rfl⟩

theorem push_effect {s t : State α} {i : ℕ} {data : α} {wakes : List ℕ}
    {o : List (Transfer α)} (h : push s i data wakes = some (t, o)) :
    t.dp = s.dp ++ [data] ∧ t.frontOfEmpty = s.frontOfEmpty := by
  obtain ⟨u, hu, eq⟩ := Option.map_eq_some_iff.mp h
  cases eq
  exact signalConsumer_frame hu

theorem takeFront_effect {s t : State α} {j : ℕ} {wakes : List ℕ} {o : List (Transfer α)}
    (h : takeFront s j wakes = some (t, o)) :
    (s.dp = [] ∧ t.frontOfEmpty = true) ∨
      ∃ data, s.dp = data :: t.dp ∧ t.frontOfEmpty = s.frontOfEmpty := by
  unfold takeFront at h
  split at h
  · rename_i empty
    cases h
    exact .inl ⟨empty, rfl⟩
  · rename_i data rest full
    obtain ⟨u, hu, eq⟩ := Option.map_eq_some_iff.mp h
    cases eq
    obtain ⟨hdp, hf⟩ := signalProductor_frame hu
    exact .inr ⟨data, by rw [full, hdp], hf⟩

/-- One turn keeps the bounds exactly when it finds what it waited for. -/
theorem step_bounded_iff {cap : ℕ} {s t : State α} {turn : Turn α} {o : List (Transfer α)}
    (bounded : Bounded cap s) (h : step cap s turn = some (t, o)) :
    Bounded cap t ↔ FindsWhatItWaitedFor cap s turn := by
  obtain ⟨room, sane⟩ := bounded
  simp only [step, sane, Bool.false_eq_true, if_false] at h
  cases turn with
  | enqueue i data wakes =>
      simp only [criticalSection] at h
      split at h
      · split at h
        · cases h
          simp [Bounded, FindsWhatItWaitedFor, room, sane]
        · rename_i notFull
          obtain ⟨hdp, hf⟩ := push_effect h
          simp [Bounded, FindsWhatItWaitedFor, hdp, hf, sane]
          omega
      · cases h
  | resumeEnqueue i wakes =>
      simp only [criticalSection] at h
      split at h
      · obtain ⟨hdp, hf⟩ := push_effect h
        simp [Bounded, FindsWhatItWaitedFor, hdp, hf, sane]
        omega
      · cases h
  | pop j wakes =>
      simp only [criticalSection] at h
      split at h
      · split at h
        · cases h
          simp [Bounded, FindsWhatItWaitedFor, room, sane]
        · rename_i notEmpty
          rcases takeFront_effect h with ⟨empty, -⟩ | ⟨data, hdp, hf⟩
          · simp [empty] at notEmpty
          · simp [hdp] at room
            simp [Bounded, FindsWhatItWaitedFor, hf, sane]
            omega
      · cases h
  | resumePop j wakes =>
      simp only [criticalSection] at h
      split at h
      · rcases takeFront_effect h with ⟨empty, hf⟩ | ⟨data, hdp, hf⟩
        · simp [Bounded, FindsWhatItWaitedFor, hf, show s.dp = [] from empty]
        · have taken : s.dp = data :: t.dp := hdp
          simp [taken] at room
          simp [Bounded, FindsWhatItWaitedFor, hf, sane, taken]
          omega
      · cases h
  | spuriousProductor i =>
      cases h
      simp [Bounded, FindsWhatItWaitedFor, room, sane]
  | spuriousConsumer j =>
      cases h
      simp [Bounded, FindsWhatItWaitedFor, room, sane]

/-- For every capacity, any producers and consumers and every schedule: the
queue keeps its bounds in all states of the run if and only if every thread that
comes back from its wait finds what it waited for. -/
theorem block_queue_bounded_iff (cap p c : ℕ) {turns : List (Turn α)} {s : State α}
    {os : List (Transfer α)} (run : (blockQueue cap p c).Reaches turns s os) :
    (blockQueue cap p c).Always (Bounded cap) turns ↔
      (blockQueue cap p c).Meets (FindsWhatItWaitedFor cap) turns :=
  run.always_iff_meets ⟨Nat.zero_le _, rfl⟩ id
    (fun bounded h => (step_bounded_iff bounded h).mpr)
    fun bounded h not kept => not ((step_bounded_iff bounded h).mp kept)

/-- A consumer waits, a producer signals it, and it takes the value. -/
theorem block_queue_bounded_iff_signalled :
    ∃ turns s os, (blockQueue (α := ℕ) 5 3 2).Reaches turns s os ∧
      ((blockQueue (α := ℕ) 5 3 2).Always (Bounded 5) turns ↔
        (blockQueue (α := ℕ) 5 3 2).Meets (FindsWhatItWaitedFor 5) turns) := by
  have run : (blockQueue (α := ℕ) 5 3 2).Reaches
      [.pop 0 [], .enqueue 0 8 [0], .resumePop 0 []] _ _ := rfl
  exact ⟨_, _, _, run, block_queue_bounded_iff 5 3 2 run⟩

/-- With the threads of the program: a consumer that enters between the signal
and the wake-up leaves the signalled one an empty queue, and a producer that
enters so pushes the queue over its capacity. -/
theorem block_queue_bounds_fail :
    (¬ ∀ turns s os, (blockQueue (α := ℕ) 5 3 2).Reaches turns s os →
      s.frontOfEmpty = false) ∧
    ¬ ∀ turns s os, (blockQueue (α := ℕ) 5 3 2).Reaches turns s os → s.dp.length ≤ 5 := by
  constructor
  · intro claim
    have run : (blockQueue (α := ℕ) 5 3 2).Reaches
        [.pop 0 [], .enqueue 0 8 [0], .pop 1 [], .resumePop 0 []] _ _ := rfl
    exact absurd (claim _ _ _ run) (by decide)
  · intro claim
    have run : (blockQueue (α := ℕ) 5 3 2).Reaches
        (List.replicate 6 (.enqueue 0 8 []) ++
          [.pop 0 [0], .enqueue 1 9 [], .resumeEnqueue 0 []]) _ _ := rfl
    exact absurd (claim _ _ _ run) (by decide)

end StudyCode.BlockQueue

import StudyCode.Pool.ThreadPool

/-!
# The thread pool loses no wake-up

`Enqueue` signals once per task and only when `_slavers_sleep_count` is
positive. The invariant counts: the roused workers that do not run yet are
never fewer than the tasks in the queue while another worker stays asleep.
-/
namespace StudyCode.ThreadPool
open StudyCode.Scheduled StudyCode.Monitor

variable {τ : Type*}

/-- Workers in `_cond.Wait` that nobody has roused. -/
def State.blocked (s : State τ) : ℕ := s.slavers.countP cond.asleep

/-- Workers roused from `_cond.Wait` that do not run yet. -/
def State.woken (s : State τ) : ℕ := s.slavers.countP cond.woken

structure WakeUps (s : State τ) : Prop where
  count : s.slaversSleepCount = s.blocked + s.woken
  queued : 0 < s.blocked → s.tasks.length ≤ s.woken
  stopped : s.isrunning = false → s.blocked = 0

/-- The section of a worker `w` that holds the mutex; it has already taken
itself off the sleep count if it was woken. -/
theorem wakeUps_handlerSection {s : State τ} {i : ℕ} {w : Worker τ}
    (hw : s.slavers[i]? = some w) (quiet : cond.asleep w = false)
    (count : s.slaversSleepCount + (cond.woken w).toNat = s.blocked + s.woken)
    (queued : 0 < s.blocked → s.tasks.length ≤ s.woken)
    (stopped : s.isrunning = false → s.blocked = 0) :
    WakeUps (handlerSection s i).1 := by
  have own : (cond.woken w).toNat ≤ 1 := Bool.toNat_le _
  simp only [State.blocked, State.woken] at count queued stopped
  rcases handlerSection_cases s i with ⟨empty, running, eq⟩ | ⟨empty, done, eq⟩ |
      ⟨task, rest, full, eq⟩
  · obtain ⟨asleep, roused⟩ := cond.sleep_counts (q := .blocked) hw quiet rfl
    rw [eq]
    refine ⟨?_, ?_, ?_⟩ <;> simp only [State.blocked, State.woken]
    · omega
    · simp [empty]
    · simp [running]
  · obtain ⟨asleep, roused⟩ := cond.leave_counts (q := .exited) hw quiet rfl rfl
    have nobody := stopped done
    rw [eq]
    refine ⟨?_, ?_, ?_⟩ <;> simp only [State.blocked, State.woken]
    · omega
    · omega
    · omega
  · obtain ⟨asleep, roused⟩ := cond.leave_counts (q := .running task) hw quiet rfl rfl
    rw [full, List.length_cons] at queued
    rw [eq]
    refine ⟨?_, ?_, ?_⟩ <;> simp only [State.blocked, State.woken]
    · omega
    · omega
    · intro done
      have nobody := stopped done
      omega

/-- Rousing workers keeps the counts, if one more is roused for each task that is new
while another stays asleep. -/
theorem WakeUps.of_roused {s t : State τ} (h : WakeUps s)
    (count : t.slaversSleepCount = s.slaversSleepCount)
    (conserved : t.blocked + t.woken = s.blocked + s.woken) (roused : s.woken ≤ t.woken)
    (tasks : 0 < t.blocked → t.tasks.length + s.woken ≤ s.tasks.length + t.woken)
    (running : t.isrunning = false → s.isrunning = false ∨ t.blocked = 0) : WakeUps t where
  count := by
    rw [count, h.count]
    omega
  queued some := by
    have before := h.queued (by omega)
    have after := tasks some
    omega
  stopped done := by
    rcases running done with before | nobody
    · have nobody := h.stopped before
      omega
    · exact nobody

theorem WakeUps.stopSection {s : State τ} (h : WakeUps s) : WakeUps (stopSection s).1 := by
  have count := h.count
  unfold ThreadPool.stopSection
  split
  · have asleep := cond.broadcast_asleep s.slavers
    have roused := cond.broadcast_woken s.slavers
    refine h.of_roused rfl ?_ ?_ ?_ fun _ => .inr asleep <;>
      simp only [State.blocked, State.woken]
    · omega
    · omega
    · omega
  · have nobody : s.blocked = 0 := by omega
    exact ⟨h.count, h.queued, fun _ => nobody⟩

theorem WakeUps.enqueueSection {s t : State τ} {task : τ} {wakes : List ℕ}
    {o : List (Event τ)} (h : WakeUps s) (hs : enqueueSection s task wakes = some (t, o)) :
    WakeUps t := by
  have count := h.count
  obtain ⟨-, ⟨-, signals, rfl⟩ | ⟨awake, rfl⟩⟩ := enqueueSection_cases hs
  · have conserved := cond.wake_conserves wakes s.slavers
    refine h.of_roused rfl conserved (cond.woken_le_wake wakes s.slavers) ?_ .inl
    intro some
    -- the signal woke one more worker for the new task
    obtain ⟨-, more⟩ := cond.woken_lt_of_asleep signals some
    simp only [List.length_append, List.length_singleton, State.woken]
    omega
  · have nobody : s.blocked = 0 := by omega
    exact ⟨h.count, fun some => absurd some (by simpa [State.blocked] using nobody),
      fun _ => nobody⟩

/-- What neither sleeps, nor wakes, nor works, nor stops keeps the counts. -/
theorem WakeUps.of_counts {s t : State τ} (h : WakeUps s)
    (count : t.slaversSleepCount = s.slaversSleepCount) (blocked : t.blocked = s.blocked)
    (woken : t.woken = s.woken) (tasks : t.tasks = s.tasks)
    (running : t.isrunning = false → s.isrunning = false) : WakeUps t := by
  refine h.of_roused count ?_ ?_ ?_ fun done => .inl (running done)
  · rw [blocked, woken]
  · exact Nat.le_of_eq woken.symm
  · rw [tasks, woken]
    exact fun _ => Nat.le_refl _

theorem WakeUps.step {n : ℕ} {s t : State τ} {turn : Turn τ} {o : List (Event τ)}
    (h : WakeUps s) (hs : step n s turn = some (t, o)) : WakeUps t := by
  cases turn with
  | start =>
      simp only [ThreadPool.step] at hs
      split at hs <;> cases hs <;> exact h.of_counts rfl rfl rfl rfl id
  | setRunning k =>
      simp only [ThreadPool.step] at hs
      split at hs
      · cases hs
        exact h.of_counts rfl rfl rfl rfl fun done => by cases done
      · cases hs
  | createThread k created =>
      simp only [ThreadPool.step] at hs
      split at hs
      · cases hs
        -- a new thread is neither asleep nor woken
        refine h.of_counts rfl ?_ ?_ rfl id
        · cases created <;> simp [State.blocked, cond]
        · cases created <;> simp [State.woken, cond]
      · cases hs
  | stop =>
      cases hs
      exact h.stopSection
  | enqueue task wakes => exact h.enqueueSection hs
  | handle i =>
      simp only [ThreadPool.step] at hs
      split at hs
      · rename_i ready
        obtain rfl := (congrArg Prod.fst (Option.some.inj hs)).symm
        exact wakeUps_handlerSection ready rfl (by simpa [cond] using h.count) h.queued h.stopped
      · cases hs
  | resume i =>
      simp only [ThreadPool.step] at hs
      split at hs
      · rename_i woken
        obtain rfl := (congrArg Prod.fst (Option.some.inj hs)).symm
        refine wakeUps_handlerSection (w := .woken) woken rfl ?_ h.queued h.stopped
        have count := h.count
        have one : (cond.woken (.woken : Worker τ)).toNat = 1 := rfl
        simp only [State.blocked, State.woken] at count ⊢
        omega
      · cases hs
  | runTask i =>
      simp only [ThreadPool.step] at hs
      split at hs
      · rename_i task running
        cases hs
        obtain ⟨asleep, roused⟩ := cond.leave_counts (q := .ready) running rfl rfl rfl
        exact h.of_counts rfl asleep roused rfl id
      · cases hs
  | spurious i =>
      cases hs
      obtain ⟨conserved, roused⟩ := cond.rouseAt_counts i s.slavers
      have more : s.woken ≤ (cond.rouseAt i s.slavers).countP cond.woken :=
        roused ▸ Nat.le_add_right _ _
      exact h.of_roused rfl conserved more (fun _ => Nat.add_le_add_left more _) .inl

theorem reaches_wakeUps {n : ℕ} {turns : List (Turn τ)} {s : State τ} {os : List (Event τ)}
    (run : (threadPool n).Reaches turns s os) : WakeUps s :=
  run.invariant (P := WakeUps)
    ⟨rfl, fun some => absurd some (by simp [threadPool, State.blocked]), fun _ => rfl⟩
    fun h hs => h.step hs

/-- For every number of workers and every schedule: the sleep count is the
number of workers blocked in the wait or woken from it; while a worker stays
blocked the woken ones suffice for the queued tasks; a stopped pool has no
blocked worker; and so no state leaves work to do, or a shutdown to see, to
workers that are all asleep. -/
theorem thread_pool_no_lost_wakeup (n : ℕ) {turns : List (Turn τ)} {s : State τ}
    {os : List (Event τ)} (run : (threadPool n).Reaches turns s os) :
    s.slaversSleepCount = s.blocked + s.woken ∧
      (0 < s.blocked → s.tasks.length ≤ s.woken) ∧
      (s.isrunning = false → s.blocked = 0) ∧
      ¬ ((s.tasks ≠ [] ∨ s.isrunning = false) ∧ (∃ w ∈ s.slavers, w ≠ .exited) ∧
        ∀ w ∈ s.slavers, w ≠ .exited → w = .blocked) := by
  obtain ⟨count, queued, stopped⟩ := reaches_wakeUps run
  refine ⟨count, queued, stopped, ?_⟩
  rintro ⟨work, ⟨w, hw, alive⟩, asleep⟩
  have some : 0 < s.blocked :=
    List.countP_pos_iff.mpr ⟨w, hw, by rw [asleep w hw alive]; rfl⟩
  have nobody : s.woken = 0 := by
    refine List.countP_eq_zero.mpr fun v hv => ?_
    by_cases gone : v = .exited
    · simp [gone, cond]
    · simp [asleep v hv gone, cond]
  rcases work with tasks | done
  · have := queued some
    exact tasks (List.length_eq_zero_iff.mp (by omega))
  · have := stopped done
    omega

/-- Two workers asleep, one task: the signal rouses one of them. -/
theorem thread_pool_no_lost_wakeup_signal :
    ∃ turns s os, (threadPool (τ := ℕ) 2).Reaches turns s os ∧
      s.slaversSleepCount = 2 ∧ s.tasks = [9] ∧ s.slaversSleepCount = s.blocked + s.woken := by
  have run : (threadPool (τ := ℕ) 2).Reaches
      [.start, .setRunning 0, .createThread 0 true, .createThread 0 true, .handle 0, .handle 1,
        .enqueue 9 [1]] _ _ := rfl
  exact ⟨_, _, _, run, rfl, rfl, (thread_pool_no_lost_wakeup 2 run).1⟩

end StudyCode.ThreadPool

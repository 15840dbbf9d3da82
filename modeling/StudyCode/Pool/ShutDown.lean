import StudyCode.Pool.Drain
import StudyCode.Pool.Owner
import StudyCode.Pool.WakeUps

/-!
# `Stop`, and then `Wait`

In a stopped pool nobody sleeps, and each turn of a worker brings it and the queue
nearer to their end. So the owner's `Wait` returns, and the workers leave behind the
last task. It is called when each `Thread` object has a thread that nobody has joined.
-/
namespace StudyCode.ThreadPool
open StudyCode.Scheduled StudyCode.Monitor

variable {τ : Type*} {n : ℕ}

/-- The thread has not left `HandlerTask`. -/
def Worker.stays : Worker τ → Bool
  | .exited => false
  | _ => true

def Worker.busy : Worker τ → Bool
  | .running _ => true
  | _ => false

/-- The turns of the workers that are still to come in a stopped pool: two for each task,
one for each worker to leave, and one to finish what is in hand. -/
def State.remaining (s : State τ) : ℕ :=
  2 * s.tasks.length + s.slavers.countP Worker.stays + s.slavers.countP Worker.busy

/-- Nothing is queued that nobody is there to take. -/
def State.attended (s : State τ) : Prop := s.tasks = [] ∨ ∃ w ∈ s.slavers, w.stays = true

/-- The moves of the workers, and those of the owner inside `Wait`. -/
def Move.inWait : Move τ → Bool
  | .join | .returns | .handle _ | .resume _ | .runTask _ => true
  | _ => false

/-- What the owner has still to do before `Wait` returns. -/
def Call.joins (n : ℕ) : Call → ℕ
  | .waiting k => n - k + 1
  | .idle | .starting | .creating _ => 0

structure ShuttingDown (n : ℕ) (s : Owned τ) : Prop where
  stopped : s.pool.isrunning = false
  call : s.call = .idle ∨ ∃ k ≤ n, s.call = .waiting k

/-- The objects that `Wait` has not come to have threads to be joined. -/
structure Unjoined (n : ℕ) (s : Owned τ) : Prop where
  distinct : Distinct s
  ahead : ∀ {m k}, s.call = .waiting m → m ≤ k → k < n → s.joinable k

def Owned.remaining (n : ℕ) (s : Owned τ) : ℕ := s.pool.remaining + s.call.joins n

/-! ## One move -/

theorem stays_of_alive {w : Worker τ} (alive : w ≠ .exited) : w.stays = true := by
  cases w with
  | exited => exact absurd rfl alive
  | ready | blocked | woken | running _ => rfl

theorem attended_set {s t : State τ} {i : ℕ} {w v : Worker τ} (here : s.slavers[i]? = some w)
    (slavers : t.slavers = s.slavers.set i v) (stays : v.stays = true) : t.attended := by
  refine .inr ⟨v, ?_, stays⟩
  rw [slavers]
  exact List.mem_of_getElem? (getElem?_set_here here v)

/-- A worker that gets the mutex takes a task or leaves. -/
theorem handlerSection_stopped {s : State τ} {i : ℕ} {w : Worker τ}
    (here : s.slavers[i]? = some w) (stays : w.stays = true) (free : w.busy = false)
    (stopped : s.isrunning = false) :
    (handlerSection s i).1.isrunning = false ∧
      (handlerSection s i).1.remaining + 1 = s.remaining ∧
      (s.attended → (handlerSection s i).1.attended) := by
  rcases handlerSection_cases s i with ⟨-, running, -⟩ | ⟨empty, -, eq⟩ | ⟨task, rest, full, eq⟩
  · rw [stopped] at running
    cases running
  · have staying := countP_set_add Worker.stays (.exited : Worker τ) here
    have working := countP_set_add Worker.busy (.exited : Worker τ) here
    rw [stays] at staying
    rw [free] at working
    rw [eq]
    refine ⟨stopped, ?_, fun _ => .inl empty⟩
    simp only [State.remaining, Worker.stays, Worker.busy, Bool.toNat_true,
      Bool.toNat_false] at staying working ⊢
    omega
  · have staying := countP_set_add Worker.stays (.running task) here
    have working := countP_set_add Worker.busy (.running task) here
    rw [stays] at staying
    rw [free] at working
    rw [eq]
    refine ⟨stopped, ?_, fun _ => attended_set here rfl rfl⟩
    simp only [State.remaining, full, List.length_cons, Worker.stays, Worker.busy,
      Bool.toNat_true, Bool.toNat_false] at staying working ⊢
    omega

theorem runTask_stopped {s : State τ} {i : ℕ} {task : τ}
    (here : s.slavers[i]? = some (.running task)) :
    { s with slavers := s.slavers.set i .ready }.remaining + 1 = s.remaining := by
  have staying := countP_set_add Worker.stays (.ready : Worker τ) here
  have working := countP_set_add Worker.busy (.ready : Worker τ) here
  simp only [State.remaining, Worker.stays, Worker.busy, Bool.toNat_true,
    Bool.toNat_false] at staying working ⊢
  omega

/-- The turns of the workers in a stopped pool. -/
theorem worker_step {s t : State τ} {turn : Turn τ} {o : List (Event τ)}
    (stopped : s.isrunning = false) (hs : step n s turn = some (t, o))
    (own : ∃ i, turn = .handle i ∨ turn = .resume i ∨ turn = .runTask i) :
    t.isrunning = false ∧ t.remaining + 1 = s.remaining ∧ (s.attended → t.attended) := by
  obtain ⟨i, rfl | rfl | rfl⟩ := own
  · simp only [step] at hs
    split at hs
    · rename_i ready
      obtain rfl := (congrArg Prod.fst (Option.some.inj hs)).symm
      exact handlerSection_stopped ready rfl rfl stopped
    · cases hs
  · simp only [step] at hs
    split at hs
    · rename_i woken
      obtain rfl := (congrArg Prod.fst (Option.some.inj hs)).symm
      exact handlerSection_stopped
        (s := { s with slaversSleepCount := s.slaversSleepCount - 1 }) woken rfl rfl stopped
    · cases hs
  · simp only [step] at hs
    split at hs
    · rename_i task working
      cases hs
      exact ⟨stopped, runTask_stopped working, fun _ => attended_set working rfl rfl⟩
    · cases hs

theorem ShuttingDown.move {s t : Owned τ} {move : Move τ} {o : List (Event τ)}
    (h : ShuttingDown n s) (own : move.inWait = true) (hs : s.step n move = some (t, o)) :
    ShuttingDown n t ∧ t.remaining n + 1 = s.remaining n ∧
      (s.pool.attended → t.pool.attended) := by
  obtain ⟨owner, moved, -⟩ := ownedStep_cases hs
  cases move with
  | handle i | resume i | runTask i =>
      obtain ⟨call, -⟩ := Prod.mk.inj (Option.some.inj owner)
      rcases moved with ⟨turn, eq, hp⟩ | ⟨eq, -⟩
      · obtain ⟨stopped, less, attended⟩ :=
          worker_step h.stopped hp ⟨i, by rw [← Option.some.inj eq]; simp⟩
        refine ⟨⟨stopped, call ▸ h.call⟩, ?_, attended⟩
        rw [Owned.remaining, Owned.remaining, ← call]
        omega
      · cases eq
  | join =>
      obtain ⟨turn, eq, -⟩ | ⟨-, pool, -⟩ := moved
      · cases eq
      · rcases h.call with idle | ⟨k, -, waiting⟩
        · simp only [Owned.control, idle] at owner
          cases owner
        · simp only [Owned.control, waiting] at owner
          obtain ⟨⟨bound, -⟩, eq⟩ := Option.ite_none_right_eq_some.mp owner
          obtain ⟨call, -⟩ := Prod.mk.inj (Option.some.inj eq)
          refine ⟨⟨pool ▸ h.stopped, .inr ⟨k + 1, bound, call.symm⟩⟩, ?_, fun some => pool ▸ some⟩
          rw [Owned.remaining, Owned.remaining, pool, waiting, ← call, Call.joins, Call.joins]
          omega
  | returns =>
      obtain ⟨turn, eq, -⟩ | ⟨-, pool, -⟩ := moved
      · cases eq
      · obtain ⟨last, eq⟩ := Option.ite_none_right_eq_some.mp owner
        obtain ⟨call, -⟩ := Prod.mk.inj (Option.some.inj eq)
        have waiting : s.call = .waiting n := by
          rcases last with creating | waiting
          · rcases h.call with idle | ⟨k, -, waiting⟩
            · rw [idle] at creating
              cases creating
            · rw [waiting] at creating
              cases creating
          · exact waiting
        refine ⟨⟨pool ▸ h.stopped, .inl call.symm⟩, ?_, fun some => pool ▸ some⟩
        rw [Owned.remaining, Owned.remaining, pool, waiting, ← call, Call.joins, Call.joins]
        omega
  | start | setRunning | createThread _ | stop | enqueue _ _ | wait | spurious _ => cases own

/-- `Wait` takes the threads of its objects one by one, and they are different ones. -/
theorem Unjoined.move {s t : Owned τ} {move : Move τ} {o : List (Event τ)}
    (h : Unjoined n s) (own : move.inWait = true) (hs : s.step n move = some (t, o)) :
    Unjoined n t := by
  refine ⟨h.distinct.step hs, ?_⟩
  intro m k waiting from' inRange
  obtain ⟨owner, -, joined⟩ := ownedStep_cases hs
  cases move with
  | handle i | resume i | runTask i =>
      obtain ⟨call, tids⟩ := Prod.mk.inj (Option.some.inj owner)
      have before := h.ahead (call.trans waiting) from' inRange
      rwa [Owned.joinable, ← tids, joined]
  | join =>
      simp only [Owned.control] at owner
      split at owner
      · rename_i j here
        obtain ⟨call, tids⟩ :=
          Prod.mk.inj (Option.some.inj (Option.ite_none_right_eq_some.mp owner).2)
        obtain rfl : m = j + 1 := Call.waiting.inj (waiting.symm.trans call.symm)
        obtain ⟨i, hi, fresh⟩ := h.ahead here (Nat.le_of_succ_le from') inRange
        refine ⟨i, tids ▸ hi, ?_⟩
        rw [joined, Owned.joinedBy, here, List.mem_append, not_or]
        refine ⟨?_, fresh⟩
        intro now
        have same := h.distinct.apart (Option.mem_toList.mp now) hi
        omega
      · cases owner
  | returns =>
      obtain ⟨call, -⟩ :=
        Prod.mk.inj (Option.some.inj (Option.ite_none_right_eq_some.mp owner).2)
      rw [← call] at waiting
      cases waiting
  | start | setRunning | createThread _ | stop | enqueue _ _ | wait | spurious _ => cases own

theorem ShuttingDown.run {s t : Owned τ} {moves : List (Move τ)} {os : List (Event τ)}
    (h : ShuttingDown n s) (own : ∀ move ∈ moves, move.inWait = true)
    (later : (ownedPool n).runFrom s moves = some (t, os)) :
    ShuttingDown n t ∧ moves.length + t.remaining n = s.remaining n ∧
      (s.pool.attended → t.pool.attended) := by
  induction moves generalizing s os with
  | nil =>
      cases later
      exact ⟨h, Nat.zero_add _, id⟩
  | cons move moves ih =>
      obtain ⟨⟨u, o⟩, hs, later⟩ := Option.bind_eq_some_iff.mp later
      obtain ⟨⟨v, os⟩, rest, eq⟩ := Option.map_eq_some_iff.mp later
      obtain rfl : v = t := congrArg Prod.fst eq
      obtain ⟨going, less, kept⟩ := h.move (own move List.mem_cons_self) hs
      obtain ⟨ended, sum, still⟩ := ih going (fun m hm => own m (List.mem_cons_of_mem _ hm)) rest
      refine ⟨ended, ?_, fun attended => still (kept attended)⟩
      rw [List.length_cons]
      omega

theorem control_worker {s : Owned τ} {move : Move τ} {turn : Turn τ}
    (own : ∃ i, move = .handle i ∨ move = .resume i ∨ move = .runTask i)
    (eq : move.turn s.pool = some turn) (moves : (step n s.pool turn).isSome = true) :
    (s.step n move).isSome = true := by
  obtain ⟨i, rfl | rfl | rfl⟩ := own <;> cases eq <;>
    simpa [Owned.step, Owned.control, Move.turn] using moves

/-- A worker that is there can go on, for in a stopped pool it does not sleep. -/
theorem worker_moves {s : Owned τ} {i : ℕ} {w : Worker τ} (here : s.pool.slavers[i]? = some w)
    (stays : w.stays = true) (nobody : s.pool.blocked = 0) :
    ∃ move, move.inWait = true ∧ (s.step n move).isSome = true := by
  cases w with
  | ready =>
      refine ⟨.handle i, rfl, control_worker ⟨i, .inl rfl⟩ rfl ?_⟩
      simp [step, here]
  | blocked =>
      have awake := List.countP_eq_zero.mp nobody _ (List.mem_of_getElem? here)
      exact absurd rfl awake
  | woken =>
      refine ⟨.resume i, rfl, control_worker ⟨i, .inr (.inl rfl)⟩ rfl ?_⟩
      simp [step, here]
  | running task =>
      refine ⟨.runTask i, rfl, control_worker ⟨i, .inr (.inr rfl)⟩ rfl ?_⟩
      simp [step, here]
  | exited => cases stays

/-- It is not stuck before the owner is back and all workers have left. -/
theorem ShuttingDown.enabled {s : Owned τ} (h : ShuttingDown n s) (nobody : s.pool.blocked = 0) :
    (∃ move, move.inWait = true ∧ (s.step n move).isSome = true) ∨
      s.call = .idle ∧ ∀ w ∈ s.pool.slavers, w = .exited := by
  by_cases some : ∃ w ∈ s.pool.slavers, w ≠ .exited
  · obtain ⟨w, hw, alive⟩ := some
    obtain ⟨i, here⟩ := List.mem_iff_getElem?.mp hw
    exact .inl (worker_moves here (stays_of_alive alive) nobody)
  · have gone : ∀ w ∈ s.pool.slavers, w = .exited :=
      fun w hw => by_contra fun alive => some ⟨w, hw, alive⟩
    rcases h.call with idle | ⟨k, bound, waiting⟩
    · exact .inr ⟨idle, gone⟩
    · refine .inl ?_
      rcases Nat.lt_or_eq_of_le bound with before | rfl
      · refine ⟨.join, rfl, ?_⟩
        have left : ((s.tids k).all fun i => !s.pool.executes i) = true := by
          rw [Option.all_eq_true]
          intro i _
          rw [Bool.not_eq_true', Bool.eq_false_iff]
          intro runs
          obtain ⟨w, hw, alive⟩ := executes_iff.mp runs
          exact alive (gone w (List.mem_of_getElem? hw))
        simp [Owned.step, Owned.control, Move.turn, waiting, before, left]
      · refine ⟨.returns, rfl, ?_⟩
        simp [Owned.step, Owned.control, Move.turn, waiting]

end StudyCode.ThreadPool

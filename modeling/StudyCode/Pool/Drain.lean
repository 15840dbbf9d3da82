import Mathlib.Data.List.Perm.Basic
import Mathlib.Data.List.Count
import StudyCode.Lib.Fifo
import StudyCode.Pool.ThreadPool

/-!
# The thread pool drains its queue before the workers leave

The queue is first-in first-out under every schedule, and what a worker took
out it runs before it looks at the queue again. A worker leaves only after a
`Stop`, and only while the queue is empty, so every earlier task was taken.
-/
namespace StudyCode.ThreadPool
open StudyCode.Scheduled StudyCode.Monitor StudyCode.Fifo

variable {τ : Type*}

def Event.action : Event τ → Option (Action τ)
  | .pushed task => some (.put task)
  | .took _ task => some (.get task)
  | _ => none

/-- The tasks in the order in which `Enqueue` pushed them. -/
def pushedTasks (os : List (Event τ)) : List τ := puts (os.filterMap Event.action)

def Event.took? : Event τ → Option (ℕ × τ)
  | .took i task => some (i, task)
  | _ => none

def Event.ran? : Event τ → Option (ℕ × τ)
  | .ran i task => some (i, task)
  | _ => none

/-- The tasks taken out, each with the worker that took it. -/
def taken (os : List (Event τ)) : List (ℕ × τ) := os.filterMap Event.took?

/-- The tasks in the order in which the workers took them out. -/
def takenTasks (os : List (Event τ)) : List τ := (taken os).map Prod.snd

/-- The tasks that were run, each with the worker that ran it. -/
def ran (os : List (Event τ)) : List (ℕ × τ) := os.filterMap Event.ran?

def Event.isStopped (e : Event τ) : Bool := e matches .stopped

/-- What happened before the first critical section of `Stop`. -/
def beforeStop (os : List (Event τ)) : List (Event τ) := os.takeWhile fun e => !e.isStopped

/-- The tasks of one worker. -/
def ofWorker (i : ℕ) (l : List (ℕ × τ)) : List τ :=
  l.filterMap fun p => if p.1 = i then some p.2 else none

def Worker.held : Worker τ → List τ
  | .running task => [task]
  | _ => []

/-- What worker `i` took out and has not run yet. -/
def State.held (s : State τ) (i : ℕ) : List τ :=
  match s.slavers[i]? with
  | some w => w.held
  | none => []

theorem takenTasks_eq (os : List (Event τ)) : takenTasks os = gets (os.filterMap Event.action) := by
  induction os with
  | nil => rfl
  | cons e os ih =>
      simp only [takenTasks, gets, taken, List.filterMap_cons] at ih ⊢
      cases e <;> simp [List.filterMap_cons, Event.action, Event.took?, Action.get?, ih]

/-! ## What one turn does -/

/-- The effect of a turn on the queue, on the tasks in the hands of the workers
and on the workers that left. -/
inductive Effect (s t : State τ) : List (Event τ) → Prop
  | quiet : t.tasks = s.tasks → t.held = s.held →
      (.exited ∈ t.slavers → .exited ∈ s.slavers) → Effect s t []
  | leave : s.tasks = [] → s.isrunning = false → s.slavers ≠ [] → t.tasks = s.tasks →
      t.held = s.held → Effect s t []
  | push (task : τ) : t.tasks = s.tasks ++ [task] → t.held = s.held →
      (.exited ∈ t.slavers → .exited ∈ s.slavers) → Effect s t [.pushed task]
  | take (i : ℕ) (task : τ) : s.tasks = task :: t.tasks → s.held i = [] →
      t.held = Function.update s.held i [task] →
      (.exited ∈ t.slavers → .exited ∈ s.slavers) → Effect s t [.took i task]
  | run (i : ℕ) (task : τ) : t.tasks = s.tasks → s.held i = [task] →
      t.held = Function.update s.held i [] →
      (.exited ∈ t.slavers → .exited ∈ s.slavers) → Effect s t [.ran i task]
  | stop : t.tasks = s.tasks → t.held = s.held →
      (.exited ∈ t.slavers → .exited ∈ s.slavers) → Effect s t [.stopped]

theorem held_of_get {s : State τ} {i : ℕ} {w : Worker τ} (h : s.slavers[i]? = some w) :
    s.held i = w.held := by
  simp [State.held, h]

theorem held_set {s t : State τ} {i : ℕ} {v w : Worker τ} (h : s.slavers[i]? = some v)
    (eq : t.slavers = s.slavers.set i w) : t.held = Function.update s.held i w.held := by
  have inRange := (List.getElem?_eq_some_iff.mp h).1
  funext k
  by_cases hk : k = i
  · subst hk
    simp [State.held, eq, inRange]
  · simp [State.held, eq, List.getElem?_set_ne (Ne.symm hk), Function.update_of_ne hk]

theorem exited_set {l : List (Worker τ)} {i : ℕ} {w : Worker τ} (hw : w ≠ .exited)
    (h : .exited ∈ l.set i w) : .exited ∈ l := by
  rcases List.mem_or_eq_of_mem_set h with old | new
  · exact old
  · exact absurd new.symm hw

/-- Rousing workers changes neither their tasks nor who left. -/
theorem roused_frame {s t : State τ}
    (length : t.slavers.length = s.slavers.length)
    (h : ∀ (i : ℕ) (q : Worker τ), t.slavers[i]? = some q →
      ∃ p, s.slavers[i]? = some p ∧ (q = p ∨ cond.asleep p = true ∧ q = cond.rouse p)) :
    t.held = s.held ∧ (.exited ∈ t.slavers → .exited ∈ s.slavers) := by
  constructor
  · funext i
    cases ht : t.slavers[i]? with
    | none =>
        have out : s.slavers[i]? = none := by
          rw [List.getElem?_eq_none_iff] at ht ⊢
          omega
        simp [State.held, ht, out]
    | some q =>
        obtain ⟨p, hp, rfl | ⟨asleep, rfl⟩⟩ := h i q ht
        · rw [held_of_get ht, held_of_get hp]
        · rw [held_of_get ht, held_of_get hp]
          cases p <;> rfl
  · intro left
    obtain ⟨i, hi⟩ := List.mem_iff_getElem?.mp left
    obtain ⟨p, hp, rfl | ⟨asleep, gone⟩⟩ := h i _ hi
    · exact List.mem_iff_getElem?.mpr ⟨i, hp⟩
    · cases p with
      | exited => cases asleep
      | _ => cases gone

/-- A thread that was just created holds nothing. -/
theorem held_append {s t : State τ} (eq : t.slavers = s.slavers ++ [.ready]) : t.held = s.held := by
  funext i
  simp only [State.held, eq]
  rcases Nat.lt_trichotomy i s.slavers.length with lt | rfl | gt
  · rw [List.getElem?_append_left lt]
  · simp [Worker.held]
  · rw [List.getElem?_eq_none (by simp; omega), List.getElem?_eq_none (by omega)]

theorem stopSection_frame (s : State τ) :
    (stopSection s).1.held = s.held ∧
      (.exited ∈ (stopSection s).1.slavers → .exited ∈ s.slavers) := by
  by_cases sleepers : 0 < s.slaversSleepCount
  · have slavers : (stopSection s).1.slavers = cond.broadcast s.slavers := if_pos sleepers
    apply roused_frame
    · rw [slavers, cond.broadcast_length]
    · intro i q hq
      rw [slavers] at hq
      exact cond.getElem?_broadcast hq
  · have slavers : (stopSection s).1.slavers = s.slavers := if_neg sleepers
    refine ⟨?_, fun left => slavers ▸ left⟩
    funext i
    simp only [State.held, slavers]

theorem handlerSection_effect {s u : State τ} {i : ℕ} {w : Worker τ}
    (tasks : s.tasks = u.tasks) (running : s.isrunning = u.isrunning)
    (slavers : s.slavers = u.slavers) (hw : u.slavers[i]? = some w) (idle : w.held = []) :
    Effect u (handlerSection s i).1 (handlerSection s i).2 := by
  have some : u.slavers ≠ [] := by
    rintro empty
    simp [empty] at hw
  have nothing : u.held i = [] := (held_of_get hw).trans idle
  have same : ∀ v : Worker τ, v.held = [] → Function.update u.held i v.held = u.held :=
    fun v hv => by rw [hv, ← nothing, Function.update_eq_self]
  rcases handlerSection_cases s i with ⟨empty, live, eq⟩ | ⟨empty, done, eq⟩ |
      ⟨task, rest, full, eq⟩ <;> rw [eq]
  · refine .quiet tasks ?_ (fun left => exited_set (by simp) (slavers ▸ left))
    rw [held_set hw (congrArg (List.set · i _) slavers), same _ rfl]
  · refine .leave (tasks ▸ empty) (running ▸ done) some tasks ?_
    rw [held_set hw (congrArg (List.set · i _) slavers), same _ rfl]
  · refine .take i task (tasks ▸ full) nothing ?_
      (fun left => exited_set (by simp) (slavers ▸ left))
    rw [held_set hw (congrArg (List.set · i _) slavers)]
    rfl

theorem step_effect {n : ℕ} {s t : State τ} {turn : Turn τ} {o : List (Event τ)}
    (hs : step n s turn = some (t, o)) : Effect s t o := by
  cases turn with
  | start =>
      simp only [step] at hs
      split at hs <;> cases hs <;> exact .quiet rfl rfl id
  | setRunning k =>
      simp only [step] at hs
      split at hs
      · cases hs
        exact .quiet rfl rfl id
      · cases hs
  | createThread k created =>
      simp only [step] at hs
      split at hs
      · cases hs
        cases created with
        | false => exact .quiet rfl rfl id
        | true => exact .quiet rfl (held_append rfl) (by simp)
      · cases hs
  | stop =>
      cases hs
      obtain ⟨held, left⟩ := stopSection_frame s
      exact .stop rfl held left
  | enqueue task wakes =>
      obtain ⟨rfl, ⟨-, -, rfl⟩ | ⟨-, rfl⟩⟩ := enqueueSection_cases hs
      · obtain ⟨held, left⟩ := roused_frame (s := s)
          (t := { s with tasks := s.tasks ++ [task], slavers := cond.wake wakes s.slavers })
          (cond.wake_length _ _) (fun i q => cond.getElem?_wake)
        exact .push task rfl held left
      · exact .push task rfl rfl id
  | handle i =>
      simp only [step] at hs
      split at hs
      · rename_i ready
        have effect := handlerSection_effect (s := s) rfl rfl rfl ready rfl
        rwa [Option.some.inj hs] at effect
      · cases hs
  | resume i =>
      simp only [step] at hs
      split at hs
      · rename_i woken
        have effect := handlerSection_effect (u := s)
          (s := { s with slaversSleepCount := s.slaversSleepCount - 1 }) rfl rfl rfl woken rfl
        rwa [Option.some.inj hs] at effect
      · cases hs
  | runTask i =>
      simp only [step] at hs
      split at hs
      · rename_i task running
        cases hs
        have laidDown := held_set running
          (t := { s with slavers := s.slavers.set i .ready }) (w := .ready) rfl
        exact .run i task rfl (held_of_get running) laidDown (exited_set (by simp))
      · cases hs
  | spurious i =>
      cases hs
      obtain ⟨held, left⟩ := roused_frame (s := s)
        (t := { s with slavers := cond.wake [i] s.slavers })
        (cond.wake_length _ _) (fun k q => cond.getElem?_wake)
      exact .quiet rfl held left

/-! ## What a whole run does -/

/-- `Start` got past its assignment of `_isrunning`. -/
def State.begun (s : State τ) : Prop :=
  s.slavers ≠ [] ∨ ∃ remaining, .creating remaining ∈ s.starts

theorem State.begun.of_slavers {s t : State τ} (begun : t.begun)
    (length : t.slavers.length = s.slavers.length) (starts : t.starts = s.starts) :
    s.begun := by
  rcases begun with slavers | creating
  · refine .inl fun empty => slavers ?_
    rw [← List.length_eq_zero_iff, length, empty, List.length_nil]
  · exact .inr (starts ▸ creating)

theorem handlerSection_frame (s : State τ) (i : ℕ) :
    (handlerSection s i).1.slavers.length = s.slavers.length ∧
      (handlerSection s i).1.starts = s.starts ∧
      (handlerSection s i).1.isrunning = s.isrunning := by
  rcases handlerSection_cases s i with ⟨-, -, eq⟩ | ⟨-, -, eq⟩ | ⟨task, rest, -, eq⟩ <;>
    simp [eq]

/-- Only `Stop` takes a pool that has begun out of `_isrunning`. -/
theorem step_running {n : ℕ} {s t : State τ} {turn : Turn τ} {o : List (Event τ)}
    (hs : step n s turn = some (t, o)) (running : s.begun → s.isrunning = true)
    (begun : t.begun) : t.isrunning = true ∨ .stopped ∈ o := by
  cases turn with
  | start =>
      simp only [step] at hs
      split at hs <;> cases hs
      · exact .inl (running begun)
      · refine .inl (running ?_)
        rcases begun with slavers | ⟨remaining, creating⟩
        · exact .inl slavers
        · exact .inr ⟨remaining, by simpa using creating⟩
  | setRunning k =>
      simp only [step] at hs
      split at hs <;> cases hs
      exact .inl rfl
  | createThread k created =>
      simp only [step] at hs
      split at hs <;> cases hs
      rename_i remaining creating
      exact .inl (running (.inr ⟨_, List.mem_of_getElem? creating⟩))
  | stop =>
      cases hs
      exact .inr (List.mem_singleton_self _)
  | enqueue task wakes =>
      obtain ⟨-, ⟨-, -, rfl⟩ | ⟨-, rfl⟩⟩ := enqueueSection_cases hs
      · exact .inl (running (begun.of_slavers (cond.wake_length _ _) rfl))
      · exact .inl (running begun)
  | handle i =>
      simp only [step] at hs
      split at hs
      · obtain ⟨length, starts, same⟩ := handlerSection_frame s i
        obtain rfl : (handlerSection s i).1 = t := congrArg Prod.fst (Option.some.inj hs)
        exact .inl (same.trans (running (begun.of_slavers length starts)))
      · cases hs
  | resume i =>
      simp only [step] at hs
      split at hs
      · obtain ⟨length, starts, same⟩ :=
          handlerSection_frame { s with slaversSleepCount := s.slaversSleepCount - 1 } i
        obtain rfl : (handlerSection _ i).1 = t := congrArg Prod.fst (Option.some.inj hs)
        exact .inl (same.trans (running (begun.of_slavers length starts)))
      · cases hs
  | runTask i =>
      simp only [step] at hs
      split at hs <;> cases hs
      exact .inl (running (begun.of_slavers List.length_set rfl))
  | spurious i =>
      cases hs
      exact .inl (running (begun.of_slavers (cond.wake_length [i] s.slavers) rfl))

structure Draining (s : State τ) (os : List (Event τ)) : Prop where
  fifo : History (os.filterMap Event.action) s.tasks
  hands : ∀ i, ofWorker i (taken os) = ofWorker i (ran os) ++ s.held i
  running : .stopped ∉ os → s.begun → s.isrunning = true
  left : .exited ∈ s.slavers →
    .stopped ∈ os ∧ pushedTasks (beforeStop os) <+: takenTasks os

theorem beforeStop_append {os : List (Event τ)} (h : .stopped ∈ os) (o : List (Event τ)) :
    beforeStop (os ++ o) = beforeStop os := by
  induction os with
  | nil => cases h
  | cons e os ih =>
      by_cases stopped : e.isStopped = true
      · simp [beforeStop, stopped]
      · have later : .stopped ∈ os := by
          rcases List.mem_cons.mp h with rfl | later
          · exact absurd rfl stopped
          · exact later
        simpa [beforeStop, stopped] using ih later

theorem pushedTasks_mono {os os' : List (Event τ)} (h : os <+: os') :
    pushedTasks os <+: pushedTasks os' :=
  (h.filterMap _).filterMap _

theorem takenTasks_mono {os os' : List (Event τ)} (h : os <+: os') :
    takenTasks os <+: takenTasks os' :=
  (h.filterMap _).map _

/-- What the workers that left have left behind stays true. -/
theorem Draining.left_snoc {s : State τ} {os o : List (Event τ)} (h : Draining s os)
    (left : .exited ∈ s.slavers) :
    .stopped ∈ os ++ o ∧ pushedTasks (beforeStop (os ++ o)) <+: takenTasks (os ++ o) := by
  obtain ⟨stopped, drained⟩ := h.left left
  refine ⟨List.mem_append_left _ stopped, ?_⟩
  rw [beforeStop_append stopped]
  exact drained.trans (takenTasks_mono (List.prefix_append os o))

/-- A worker that finds the queue empty knows that everything pushed was taken. -/
theorem Draining.leave {s : State τ} {os : List (Event τ)} (h : Draining s os)
    (empty : s.tasks = []) (stopped : s.isrunning = false) (some : s.slavers ≠ []) :
    .stopped ∈ os ∧ pushedTasks (beforeStop os) <+: takenTasks os := by
  constructor
  · by_contra never
    simpa [stopped] using h.running never (.inl some)
  · have all : pushedTasks os = takenTasks os := by
      have eq := h.fifo.puts_eq
      rwa [empty, List.append_nil, ← takenTasks_eq] at eq
    rw [← all]
    exact pushedTasks_mono (List.takeWhile_prefix _)

theorem ofWorker_snoc (k i : ℕ) (task : τ) (l : List (ℕ × τ)) :
    ofWorker k (l ++ [(i, task)]) = ofWorker k l ++ if k = i then [task] else [] := by
  unfold ofWorker
  rw [List.filterMap_append]
  by_cases hk : k = i
  · simp [hk]
  · simp [hk, Ne.symm hk]

theorem Draining.step {n : ℕ} {s t : State τ} {turn : Turn τ} {os o : List (Event τ)}
    (h : Draining s os) (hs : step n s turn = some (t, o)) : Draining t (os ++ o) := by
  have running : .stopped ∉ os ++ o → t.begun → t.isrunning = true := by
    intro never begun
    rw [List.mem_append, not_or] at never
    rcases step_running hs (h.running never.1) begun with live | stopped
    · exact live
    · exact absurd stopped never.2
  cases step_effect hs with
  | quiet tasks held left =>
      refine ⟨?_, ?_, running, fun gone => h.left_snoc (left gone)⟩
      · simpa [tasks] using h.fifo
      · simpa [held] using h.hands
  | leave empty stopped some tasks held =>
      refine ⟨?_, ?_, running, fun _ => ?_⟩
      · simpa [tasks] using h.fifo
      · simpa [held] using h.hands
      · rw [List.append_nil]
        exact h.leave empty stopped some
  | push task tasks held left =>
      refine ⟨?_, ?_, running, fun gone => h.left_snoc (left gone)⟩
      · simpa [tasks, Event.action] using h.fifo.put task
      · simpa [List.filterMap_cons, held, taken, ran, Event.took?, Event.ran?] using h.hands
  | take i task tasks idle held left =>
      have more : taken (os ++ [.took i task]) = taken os ++ [(i, task)] := by
        simp [taken, Event.took?]
      have same : ran (os ++ [.took i task]) = ran os := by
        simp [ran, Event.ran?]
      refine ⟨?_, fun k => ?_, running, fun gone => h.left_snoc (left gone)⟩
      · have fifo := h.fifo
        rw [tasks] at fifo
        simpa [List.filterMap_cons, Event.action] using fifo.get
      · rw [more, same, ofWorker_snoc, h.hands k, held]
        by_cases hk : k = i
        · simp [hk, idle]
        · simp [hk]
  | run i task tasks busy held left =>
      have same : taken (os ++ [.ran i task]) = taken os := by
        simp [taken, Event.took?]
      have more : ran (os ++ [.ran i task]) = ran os ++ [(i, task)] := by
        simp [ran, Event.ran?]
      refine ⟨?_, fun k => ?_, running, fun gone => h.left_snoc (left gone)⟩
      · simpa [List.filterMap_cons, tasks, Event.action] using h.fifo
      · rw [more, same, ofWorker_snoc, h.hands k, held]
        by_cases hk : k = i
        · simp [hk, busy]
        · simp [hk]
  | stop tasks held left =>
      refine ⟨?_, ?_, running, fun gone => h.left_snoc (left gone)⟩
      · simpa [List.filterMap_cons, tasks, Event.action] using h.fifo
      · simpa [List.filterMap_cons, held, taken, ran, Event.took?, Event.ran?] using h.hands

theorem reaches_draining {n : ℕ} {turns : List (Turn τ)} {s : State τ} {os : List (Event τ)}
    (run : (threadPool n).Reaches turns s os) : Draining s os := by
  refine run.induct (P := fun _ s os => Draining s os) ?_ fun _ h hs => h.step hs
  refine ⟨.nil, fun _ => rfl, fun _ begun => ?_, fun gone => ?_⟩
  · rcases begun with slavers | ⟨remaining, creating⟩
    · exact absurd rfl slavers
    · cases creating
  · cases gone

theorem perm_of_ofWorker {l l' : List (ℕ × τ)} (h : ∀ i, ofWorker i l = ofWorker i l') :
    l.Perm l' := by
  classical
  have count : ∀ (l : List (ℕ × τ)) (i : ℕ) (task : τ),
      (ofWorker i l).count task = l.count (i, task) := by
    intro l i task
    induction l with
    | nil => rfl
    | cons p l ih =>
        obtain ⟨k, other⟩ := p
        simp only [ofWorker, List.filterMap_cons] at ih ⊢
        by_cases hk : k = i
        · simp [hk, List.count_cons, ih]
        · simp [hk, ih]
  refine List.perm_iff_count.mpr fun p => ?_
  rw [← count l, ← count l', h]

/-- Under every schedule of any number of `Start`, `Stop` and `Enqueue` calls
and of the workers: the tasks are taken out in push order; each worker has run
exactly what it took out, once and in order, but for the one task in its hands;
and where all of the workers that were started have left, what was run is what
was taken, and that includes every task pushed before the critical section of
the first `Stop`. -/
theorem thread_pool_drains (n : ℕ) {turns : List (Turn τ)} {s : State τ}
    {os : List (Event τ)} (run : (threadPool n).Reaches turns s os) :
    takenTasks os <+: pushedTasks os ∧
      (∀ i, ofWorker i (taken os) = ofWorker i (ran os) ++ s.held i) ∧
      (s.slavers ≠ [] → (∀ w ∈ s.slavers, w = .exited) →
        .stopped ∈ os ∧ (ran os).Perm (taken os) ∧
          pushedTasks (beforeStop os) <+: takenTasks os) := by
  have draining := reaches_draining run
  refine ⟨takenTasks_eq os ▸ draining.fifo.gets_prefix, draining.hands, ?_⟩
  intro some gone
  obtain ⟨w, hw⟩ := List.exists_mem_of_ne_nil _ some
  obtain ⟨stopped, drained⟩ := draining.left (gone w hw ▸ hw)
  have idle : ∀ i, s.held i = [] := by
    intro i
    unfold State.held
    split
    · rename_i v hv
      rw [gone v (List.mem_of_getElem? hv)]
      rfl
    · rfl
  refine ⟨stopped, perm_of_ofWorker fun i => ?_, drained⟩
  rw [draining.hands i, idle i, List.append_nil]

/-- Two tasks, one of them pushed before the workers exist, and a `Stop` while
a worker runs the first. -/
theorem thread_pool_drains_two_tasks :
    ∃ turns s os, (threadPool (τ := ℕ) 1).Reaches turns s os ∧
      s.slavers = [.exited] ∧ ran os = [(0, 7), (0, 8)] ∧
      pushedTasks (beforeStop os) <+: takenTasks os := by
  have run : (threadPool (τ := ℕ) 1).Reaches
      [.enqueue 7 [], .start, .setRunning 0, .createThread 0 true, .handle 0, .enqueue 8 [],
        .stop, .runTask 0, .handle 0, .runTask 0, .handle 0] _ _ := rfl
  exact ⟨_, _, _, run, rfl, rfl,
    ((thread_pool_drains 1 run).2.2 (by decide) (by decide)).2.2⟩

end StudyCode.ThreadPool

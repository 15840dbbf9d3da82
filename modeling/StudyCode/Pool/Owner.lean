import Mathlib.Data.Finset.Card
import Mathlib.Logic.Function.Basic
import StudyCode.Pool.ThreadPool

/-!
# `ThreadPool<T>` in the hands of one owner

The owner makes one call after the other: `Start`, `Stop`, `Enqueue` or `Wait`.
A `Thread` object remembers in `_tid` the thread it created last. What `pthread_join`
does with an id that names no thread, or one that was joined before, is undefined: it
does not keep the owner waiting here, and `JoinsOnce` sets the runs without it apart.
-/
namespace StudyCode.ThreadPool
open StudyCode.Scheduled StudyCode.Monitor

variable {τ : Type*}

/-- The call the owner is in. The loops of `Start` and `Wait` are before the
`Thread` object `slave`. -/
inductive Call where
  | idle
  | starting
  | creating (slave : ℕ)
  | waiting (slave : ℕ)
  deriving DecidableEq, Repr

/-- What `pthread_create` comes to. When it fails, `_tid` is as it was or names no thread. -/
inductive Creation where
  | created
  | failed (keeps : Bool)
  deriving DecidableEq, Repr

def Creation.succeeds : Creation → Bool
  | .created => true
  | .failed _ => false

/-- `_tid` after the call. -/
def Creation.tid (fresh : ℕ) (old : Option ℕ) : Creation → Option ℕ
  | .created => some fresh
  | .failed keeps => if keeps then old else none

structure Owned (τ : Type*) where
  pool : State τ
  tids : ℕ → Option ℕ
  call : Call
  /-- the threads for which `pthread_join` has returned -/
  joined : List ℕ

inductive Move (τ : Type*) where
  | start
  | setRunning
  | createThread (creation : Creation)
  | stop
  | enqueue (task : τ) (wakes : List ℕ)
  | wait
  | join
  | returns
  | handle (i : ℕ)
  | resume (i : ℕ)
  | runTask (i : ℕ)
  | spurious (i : ℕ)
  deriving DecidableEq, Repr

/-- Thread `i` was created and has not left `HandlerTask`. -/
def State.executes (s : State τ) (i : ℕ) : Bool :=
  (s.slavers[i]?).any fun w => !(w matches .exited)

def State.executing (s : State τ) : Finset ℕ :=
  (Finset.range s.slavers.length).filter fun i => s.executes i = true

/-- The `Start` the owner made last. -/
def State.lastStart (s : State τ) : Option Starting := s.starts[s.starts.length - 1]?

/-- What a move is to the pool; the loop of `Wait` and the returns touch nothing in it. -/
def Move.turn (s : State τ) : Move τ → Option (Turn τ)
  | .start => some .start
  | .setRunning => some (.setRunning (s.starts.length - 1))
  | .createThread creation =>
      some (.createThread (s.starts.length - 1) creation.succeeds)
  | .stop => some .stop
  | .enqueue task wakes => some (.enqueue task wakes)
  | .wait | .join | .returns => none
  | .handle i => some (.handle i)
  | .resume i => some (.resume i)
  | .runTask i => some (.runTask i)
  | .spurious i => some (.spurious i)

/-- Where the move leaves the owner and the ids of the `Thread` objects. -/
def Owned.control (n : ℕ) (s : Owned τ) : Move τ → Option (Call × (ℕ → Option ℕ))
  | .start =>
      if s.call = .idle then
        some (if s.pool.isrunning then .idle else .starting, s.tids)
      else none
  | .setRunning => if s.call = .starting then some (.creating 0, s.tids) else none
  | .createThread creation =>
      match s.call with
      | .creating k =>
          some (.creating (k + 1),
            Function.update s.tids k (creation.tid s.pool.slavers.length (s.tids k)))
      | _ => none
  | .stop | .enqueue _ _ => if s.call = .idle then some (.idle, s.tids) else none
  | .wait => if s.call = .idle then some (.waiting 0, s.tids) else none
  | .join =>
      match s.call with
      | .waiting k =>
          if k < n ∧ ((s.tids k).all fun i => !s.pool.executes i) = true then
            some (.waiting (k + 1), s.tids)
          else none
      | _ => none
  | .returns =>
      if s.call = .creating n ∨ s.call = .waiting n then some (.idle, s.tids) else none
  | .handle _ | .resume _ | .runTask _ | .spurious _ => some (s.call, s.tids)

/-- The threads joined when the move is made. -/
def Owned.joinedBy (s : Owned τ) : Move τ → List ℕ
  | .join =>
      match s.call with
      | .waiting k => (s.tids k).toList ++ s.joined
      | _ => s.joined
  | _ => s.joined

def Owned.step (n : ℕ) (s : Owned τ) (move : Move τ) : Option (Owned τ × List (Event τ)) :=
  (s.control n move).bind fun owner =>
    match move.turn s.pool with
    | some turn =>
        (ThreadPool.step n s.pool turn).map fun r =>
          (⟨r.1, owner.2, owner.1, s.joinedBy move⟩, r.2)
    | none => some (⟨s.pool, owner.2, owner.1, s.joinedBy move⟩, [])

/-- The pool built with `slaver_num = n` and its owner. -/
def ownedPool (n : ℕ) : Machine (Owned τ) (Move τ) (Event τ) where
  start := { pool := (threadPool n).start, tids := fun _ => none, call := .idle, joined := [] }
  step := Owned.step n

/-- The object `slave` has a thread that nobody has joined. -/
def Owned.joinable (s : Owned τ) (slave : ℕ) : Prop := ∃ i, s.tids slave = some i ∧ i ∉ s.joined

theorem ownedStep_cases {n : ℕ} {s t : Owned τ} {move : Move τ} {o : List (Event τ)}
    (h : s.step n move = some (t, o)) :
    s.control n move = some (t.call, t.tids) ∧
      ((∃ turn, move.turn s.pool = some turn ∧
        ThreadPool.step n s.pool turn = some (t.pool, o)) ∨
      (move.turn s.pool = none ∧ t.pool = s.pool ∧ o = [])) ∧ t.joined = s.joinedBy move := by
  obtain ⟨⟨call, tids⟩, owner, h⟩ := Option.bind_eq_some_iff.mp h
  cases hm : move.turn s.pool with
  | none =>
      rw [hm] at h
      cases h
      exact ⟨owner, .inr ⟨rfl, rfl, rfl⟩, rfl⟩
  | some turn =>
      rw [hm] at h
      obtain ⟨r, hr, eq⟩ := Option.map_eq_some_iff.mp h
      cases eq
      exact ⟨owner, .inl ⟨turn, rfl, hr⟩, rfl⟩

theorem executes_iff {s : State τ} {i : ℕ} :
    s.executes i = true ↔ ∃ w, s.slavers[i]? = some w ∧ w ≠ .exited := by
  unfold State.executes
  cases s.slavers[i]? with
  | none => simp
  | some w => cases w <;> simp

theorem mem_executing {s : State τ} {i : ℕ} : i ∈ s.executing ↔ s.executes i = true := by
  simp only [State.executing, Finset.mem_filter, Finset.mem_range, and_iff_right_iff_imp]
  intro runs
  obtain ⟨w, hw, -⟩ := executes_iff.mp runs
  exact (List.getElem?_eq_some_iff.mp hw).1

/-- No thread comes into being, none comes back, and no `Start` goes on. -/
structure Fades (s t : State τ) : Prop where
  starts : t.starts = s.starts
  length : t.slavers.length = s.slavers.length
  executes : ∀ i, t.executes i = true → s.executes i = true

theorem Fades.of_eq {s t : State τ} (starts : t.starts = s.starts)
    (slavers : t.slavers = s.slavers) : Fades s t :=
  ⟨starts, by rw [slavers], fun i h => by rwa [State.executes, slavers] at h⟩

theorem Fades.of_set {s t : State τ} {i : ℕ} {w v : Worker τ} (starts : t.starts = s.starts)
    (here : s.slavers[i]? = some w) (alive : w ≠ .exited)
    (slavers : t.slavers = s.slavers.set i v) : Fades s t := by
  refine ⟨starts, by rw [slavers, List.length_set], ?_⟩
  intro j h
  by_cases hj : i = j
  · subst hj
    exact executes_iff.mpr ⟨w, here, alive⟩
  · rwa [State.executes, slavers, List.getElem?_set_ne hj] at h

/-- A wake-up rouses threads that are still there. -/
theorem Fades.of_roused {s t : State τ} (starts : t.starts = s.starts)
    (length : t.slavers.length = s.slavers.length)
    (roused : ∀ {i : ℕ} {q : Worker τ}, t.slavers[i]? = some q →
      ∃ p, s.slavers[i]? = some p ∧ (q = p ∨ cond.asleep p = true ∧ q = cond.rouse p)) :
    Fades s t := by
  refine ⟨starts, length, ?_⟩
  intro i h
  obtain ⟨q, hq, alive⟩ := executes_iff.mp h
  obtain ⟨p, hp, rfl | ⟨asleep, -⟩⟩ := roused hq
  · exact executes_iff.mpr ⟨q, hp, alive⟩
  · refine executes_iff.mpr ⟨p, hp, ?_⟩
    rintro rfl
    cases asleep

theorem handlerSection_fades {s : State τ} {i : ℕ} {w : Worker τ}
    (here : s.slavers[i]? = some w) (alive : w ≠ .exited) : Fades s (handlerSection s i).1 := by
  rcases handlerSection_cases s i with ⟨-, -, eq⟩ | ⟨-, -, eq⟩ | ⟨task, rest, -, eq⟩ <;> rw [eq] <;>
    exact Fades.of_set rfl here alive rfl

/-- Only the turns of `Start` go on with a `Start` or create a thread. -/
def Turn.ofStart : Turn τ → Bool
  | .start | .setRunning _ | .createThread _ _ => true
  | _ => false

theorem step_fades {n : ℕ} {s t : State τ} {turn : Turn τ} {o : List (Event τ)}
    (other : turn.ofStart = false) (h : step n s turn = some (t, o)) : Fades s t := by
  cases turn with
  | start => cases other
  | setRunning k => cases other
  | createThread k created => cases other
  | stop =>
      obtain rfl := (congrArg Prod.fst (Option.some.inj h)).symm
      unfold stopSection
      split
      · exact Fades.of_roused rfl (cond.broadcast_length _) cond.getElem?_broadcast
      · exact Fades.of_eq rfl rfl
  | enqueue task wakes =>
      obtain ⟨-, ⟨-, -, rfl⟩ | ⟨-, rfl⟩⟩ := enqueueSection_cases h
      · exact Fades.of_roused rfl (cond.wake_length _ _) cond.getElem?_wake
      · exact Fades.of_eq rfl rfl
  | handle i =>
      simp only [step] at h
      split at h
      · rename_i ready
        obtain rfl := (congrArg Prod.fst (Option.some.inj h)).symm
        exact handlerSection_fades ready (by simp)
      · cases h
  | resume i =>
      simp only [step] at h
      split at h
      · rename_i woken
        obtain rfl := (congrArg Prod.fst (Option.some.inj h)).symm
        have left := handlerSection_fades
          (s := { s with slaversSleepCount := s.slaversSleepCount - 1 }) woken (by simp)
        exact ⟨left.starts, left.length, left.executes⟩
      · cases h
  | runTask i =>
      simp only [step] at h
      split at h
      · rename_i task running
        cases h
        exact Fades.of_set rfl running (by simp) rfl
      · cases h
  | spurious i =>
      cases h
      exact Fades.of_roused rfl (cond.wake_length [i] s.slavers)
        fun {j q} (h : (cond.wake [i] s.slavers)[j]? = some q) => cond.getElem?_wake h

theorem start_effect {n : ℕ} {s t : State τ} {o : List (Event τ)}
    (h : step n s .start = some (t, o)) :
    t.slavers = s.slavers ∧
      (s.isrunning = false → t.lastStart = some .checked) := by
  simp only [step] at h
  split at h
  · rename_i running
    cases h
    exact ⟨rfl, fun done => by simp [running] at done⟩
  · cases h
    exact ⟨rfl, fun _ => by simp [State.lastStart]⟩

theorem setRunning_effect {n k : ℕ} {s t : State τ} {o : List (Event τ)}
    (h : step n s (.setRunning k) = some (t, o)) :
    t.slavers = s.slavers ∧ t.starts[k]? = some (.creating n) ∧
      t.starts.length = s.starts.length := by
  simp only [step] at h
  split at h
  · rename_i checked
    cases h
    have inRange := (List.getElem?_eq_some_iff.mp checked).1
    exact ⟨rfl, by simp [inRange], by simp⟩
  · cases h

theorem createThread_effect {n k : ℕ} {created : Bool} {s t : State τ} {o : List (Event τ)}
    (h : step n s (.createThread k created) = some (t, o)) :
    t.slavers = (if created then s.slavers ++ [.ready] else s.slavers) ∧
      ∃ remaining, s.starts[k]? = some (.creating (remaining + 1)) ∧
        t.starts[k]? = some (.creating remaining) ∧ t.starts.length = s.starts.length := by
  simp only [step] at h
  split at h
  · rename_i remaining creating
    cases h
    have inRange := (List.getElem?_eq_some_iff.mp creating).1
    exact ⟨rfl, remaining, creating, by simp [inRange], by simp⟩
  · cases h

theorem executes_create {s t : State τ} {created : Bool}
    (h : t.slavers = if created then s.slavers ++ [.ready] else s.slavers) (i : ℕ) :
    t.executes i = (s.executes i || (created && i == s.slavers.length)) := by
  cases created with
  | false => simp [State.executes, h]
  | true =>
      simp only [State.executes, h, if_true, Bool.true_and]
      rcases Nat.lt_trichotomy i s.slavers.length with old | here | beyond
      · rw [List.getElem?_append_left old]
        simp [Nat.ne_of_lt old]
      · subst here
        simp
      · rw [List.getElem?_eq_none (by simp; omega), List.getElem?_eq_none (by omega)]
        simp
        omega

/-! ## Which threads the objects hold -/

/-- No two `Thread` objects hold the same thread. -/
structure Distinct (s : Owned τ) : Prop where
  made : ∀ {k i}, s.tids k = some i → i < s.pool.slavers.length
  apart : ∀ {k k' i}, s.tids k = some i → s.tids k' = some i → k = k'

/-- What the objects hold after `pthread_create` was called for one of them. -/
theorem renewed_cases {tids : ℕ → Option ℕ} {slave fresh j i : ℕ} {creation : Creation}
    (h : Function.update tids slave (creation.tid fresh (tids slave)) j = some i) :
    j = slave ∧ creation = .created ∧ i = fresh ∨
      (j = slave → creation = .failed true) ∧ tids j = some i := by
  by_cases own : j = slave
  · subst own
    rw [Function.update_self] at h
    cases creation with
    | created => exact .inl ⟨rfl, rfl, (Option.some.inj h).symm⟩
    | failed keeps =>
        cases keeps with
        | true => exact .inr ⟨fun _ => rfl, h⟩
        | false => cases h
  · rw [Function.update_of_ne own] at h
    exact .inr ⟨fun eq => absurd eq own, h⟩

theorem Distinct.of_eq {s t : Owned τ} (h : Distinct s) (tids : t.tids = s.tids)
    (length : t.pool.slavers.length = s.pool.slavers.length) : Distinct t := by
  constructor <;> rw [tids]
  · rw [length]
    exact h.made
  · exact h.apart

/-- A new thread has an index that no object holds yet. -/
theorem Distinct.createThread {s t : Owned τ} {slave : ℕ} {creation : Creation}
    (h : Distinct s)
    (tids : t.tids =
      Function.update s.tids slave (creation.tid s.pool.slavers.length (s.tids slave)))
    (slavers : t.pool.slavers =
      if creation.succeeds then s.pool.slavers ++ [.ready] else s.pool.slavers) :
    Distinct t := by
  constructor <;> rw [tids]
  · intro j i hj
    rcases renewed_cases hj with ⟨-, rfl, rfl⟩ | ⟨-, old⟩
    · rw [slavers]
      simp [Creation.succeeds]
    · refine Nat.lt_of_lt_of_le (h.made old) ?_
      rw [slavers]
      split <;> simp
  · intro j j' i hj hj'
    rcases renewed_cases hj with ⟨rfl, -, new⟩ | ⟨-, old⟩ <;>
      rcases renewed_cases hj' with ⟨rfl, -, new'⟩ | ⟨-, old'⟩
    · rfl
    · exact absurd (h.made old') (by omega)
    · exact absurd (h.made old) (by omega)
    · exact h.apart old old'

/-- Only `pthread_create` changes what the objects hold. -/
theorem control_tids {n : ℕ} {s : Owned τ} {move : Move τ} {c : Call × (ℕ → Option ℕ)}
    (h : s.control n move = some c) (other : ∀ creation, move ≠ .createThread creation) :
    c.2 = s.tids := by
  cases move with
  | createThread creation => exact absurd rfl (other creation)
  | join =>
      simp only [Owned.control] at h
      split at h
      · rw [← Option.some.inj (Option.ite_none_right_eq_some.mp h).2]
      · cases h
  | start | setRunning | stop | enqueue _ _ | wait | returns =>
      rw [← Option.some.inj (Option.ite_none_right_eq_some.mp h).2]
  | handle _ | resume _ | runTask _ | spurious _ => rw [← Option.some.inj h]

theorem Distinct.step {n : ℕ} {s t : Owned τ} {move : Move τ} {o : List (Event τ)}
    (h : Distinct s) (hs : s.step n move = some (t, o)) : Distinct t := by
  obtain ⟨owner, moved, -⟩ := ownedStep_cases hs
  cases move with
  | createThread creation =>
      rcases moved with ⟨turn, eq, hp⟩ | ⟨eq, -⟩ <;> cases eq
      simp only [Owned.control] at owner
      split at owner
      · obtain ⟨-, tids⟩ := Prod.mk.inj (Option.some.inj owner)
        exact h.createThread tids.symm (createThread_effect hp).1
      · cases owner
  | start =>
      rcases moved with ⟨turn, eq, hp⟩ | ⟨eq, -⟩ <;> cases eq
      exact h.of_eq (control_tids owner (by simp)) (by rw [(start_effect hp).1])
  | setRunning =>
      rcases moved with ⟨turn, eq, hp⟩ | ⟨eq, -⟩ <;> cases eq
      exact h.of_eq (control_tids owner (by simp)) (by rw [(setRunning_effect hp).1])
  | stop | enqueue _ _ | handle _ | resume _ | runTask _ | spurious _ =>
      rcases moved with ⟨turn, eq, hp⟩ | ⟨eq, -⟩ <;> cases eq
      exact h.of_eq (control_tids owner (by simp)) (step_fades rfl hp).length
  | wait | join | returns =>
      rcases moved with ⟨turn, eq, -⟩ | ⟨-, pool, -⟩
      · cases eq
      · exact h.of_eq (control_tids owner (by simp)) (by rw [pool])

theorem distinct_start (n : ℕ) : Distinct (ownedPool (τ := τ) n).start := by
  constructor <;> intros <;> simp_all [ownedPool]

end StudyCode.ThreadPool

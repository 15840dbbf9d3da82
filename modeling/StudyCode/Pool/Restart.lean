import StudyCode.Pool.Owner

/-!
# Stopping and starting a `ThreadPool<T>` again

`Start` looks at `_isrunning` only, which `Stop` clears while the workers are
still there, and a `Thread` object that starts again forgets the thread it had.
As long as each object gives up only a thread that has left `HandlerTask`, every
live thread is remembered by one of the `slaver_num` objects, and `Wait` finds it.
-/
namespace StudyCode.ThreadPool
open StudyCode.Scheduled

variable {τ : Type*}

/-- No more than `n` threads execute `HandlerTask`, and none when `Wait` has
joined its last `Thread` object and returns. -/
def Contains (n : ℕ) (s : Owned τ) : Prop :=
  s.pool.executing.card ≤ n ∧ (s.call = .waiting n → s.pool.executing = ∅)

/-- Every thread that executes `HandlerTask` is one that a `Thread` object remembers. -/
def Remembers (s : Owned τ) : Prop := ∀ i ∈ s.pool.executing, ∃ k, s.tids k = some i

/-- `Start` creates the thread of an object, or fails and loses its id, only when the
thread that the object created before has left `HandlerTask`. -/
def RenewsExited (s : Owned τ) : Move τ → Prop
  | .createThread creation => creation = .failed true ∨
      ∀ k, s.call = .creating k → ∀ i, s.tids k = some i → s.pool.executes i = false
  | _ => True

instance (s : Owned τ) : ∀ move, Decidable (RenewsExited s move)
  | .createThread creation =>
      let renewable : Bool :=
        match s.call with
        | .creating k => (s.tids k).all fun i => !s.pool.executes i
        | _ => true
      decidable_of_iff (creation = .failed true ∨ renewable = true) <| by
        cases h : s.call with
        | creating k => simp [RenewsExited, renewable, h, Option.all_eq_true]
        | idle | starting | waiting k => simp [RenewsExited, renewable, h]
  | .start | .setRunning | .stop | .enqueue _ _ | .wait | .join | .returns | .handle _
  | .resume _ | .runTask _ | .spurious _ => .isTrue trivial

structure Kept (n : ℕ) (s : Owned τ) : Prop where
  distinct : Distinct s
  remembered : ∀ {i}, s.pool.executes i = true → ∃ k, s.tids k = some i
  known : ∀ {k i}, s.tids k = some i → k < n
  starting : s.call = .starting → s.pool.lastStart = some .checked
  creating : ∀ {k}, s.call = .creating k →
    k ≤ n ∧ s.pool.lastStart = some (.creating (n - k))
  joined : ∀ {m}, s.call = .waiting m →
    ∀ {k i}, k < m → s.tids k = some i → s.pool.executes i = false

theorem Kept.remembers {n : ℕ} {s : Owned τ} (h : Kept n s) : Remembers s :=
  fun _ hi => h.remembered (mem_executing.mp hi)

theorem Kept.contains {n : ℕ} {s : Owned τ} (h : Kept n s) : Contains n s := by
  constructor
  · have found : ∀ i ∈ s.pool.executing, ∃ k ∈ Finset.range n, s.tids k = some i := by
      intro i hi
      obtain ⟨k, hk⟩ := h.remembers i hi
      exact ⟨k, Finset.mem_range.mpr (h.known hk), hk⟩
    have covered : s.pool.executing ⊆ (Finset.range n).image fun k => (s.tids k).getD 0 := by
      intro i hi
      obtain ⟨k, hk, eq⟩ := found i hi
      exact Finset.mem_image.mpr ⟨k, hk, by simp [eq]⟩
    calc s.pool.executing.card
        ≤ ((Finset.range n).image fun k => (s.tids k).getD 0).card := Finset.card_le_card covered
      _ ≤ (Finset.range n).card := Finset.card_image_le
      _ = n := Finset.card_range n
  · intro returns
    refine Finset.eq_empty_of_forall_notMem ?_
    intro i hi
    have executes := mem_executing.mp hi
    obtain ⟨k, hk⟩ := h.remembered executes
    have gone := h.joined returns (h.known hk) hk
    exact Bool.false_ne_true (gone.symm.trans executes)

/-- Where no thread is new and the ids stay, only the owner's place has to be looked at. -/
theorem Kept.owner {n : ℕ} {s t : Owned τ} (h : Kept n s)
    (length : t.pool.slavers.length = s.pool.slavers.length)
    (executes : ∀ {i}, t.pool.executes i = true → s.pool.executes i = true)
    (tids : t.tids = s.tids)
    (starting : t.call = .starting → t.pool.lastStart = some .checked)
    (creating : ∀ {k}, t.call = .creating k →
      k ≤ n ∧ t.pool.lastStart = some (.creating (n - k)))
    (joined : ∀ {m}, t.call = .waiting m →
      ∀ {k i}, k < m → s.tids k = some i → s.pool.executes i = false) : Kept n t := by
  refine ⟨h.distinct.of_eq tids length, ?_, ?_, starting, creating, ?_⟩ <;> rw [tids]
  · exact fun runs => h.remembered (executes runs)
  · exact h.known
  · intro m waiting k i hk hi
    have gone := joined waiting hk hi
    exact Bool.eq_false_iff.mpr fun runs => Bool.false_ne_true (gone.symm.trans (executes runs))

theorem Kept.fade {n : ℕ} {s t : Owned τ} (h : Kept n s) (fades : Fades s.pool t.pool)
    (call : t.call = s.call) (tids : t.tids = s.tids) : Kept n t := by
  have last : t.pool.lastStart = s.pool.lastStart := by
    rw [State.lastStart, State.lastStart, fades.starts]
  refine h.owner fades.length (fun {i} => fades.executes i) tids ?_ ?_ ?_
  · rw [call, last]
    exact h.starting
  · rw [call, last]
    exact h.creating
  · rw [call]
    exact h.joined

theorem Kept.start {n : ℕ} {s t : Owned τ} {o : List (Event τ)} (h : Kept n s)
    (owner : s.control n .start = some (t.call, t.tids))
    (hp : step n s.pool .start = some (t.pool, o)) : Kept n t := by
  obtain ⟨slavers, checked⟩ := start_effect hp
  obtain ⟨-, eq⟩ := Option.ite_none_right_eq_some.mp owner
  obtain ⟨call, tids⟩ := Prod.mk.inj (Option.some.inj eq)
  refine h.owner (by rw [slavers]) (by simp [State.executes, slavers]) tids.symm ?_ ?_ ?_ <;>
    rw [← call]
  · intro starting
    cases running : s.pool.isrunning with
    | true => simp [running] at starting
    | false => exact checked running
  · intro k creating
    split at creating <;> cases creating
  · intro m waiting
    split at waiting <;> cases waiting

theorem Kept.setRunning {n k : ℕ} {s t : Owned τ} {o : List (Event τ)} (h : Kept n s)
    (last : k = s.pool.starts.length - 1)
    (owner : s.control n .setRunning = some (t.call, t.tids))
    (hp : step n s.pool (.setRunning k) = some (t.pool, o)) : Kept n t := by
  obtain ⟨slavers, creating, length⟩ := setRunning_effect hp
  obtain ⟨-, eq⟩ := Option.ite_none_right_eq_some.mp owner
  obtain ⟨call, tids⟩ := Prod.mk.inj (Option.some.inj eq)
  refine h.owner (by rw [slavers]) (by simp [State.executes, slavers]) tids.symm ?_ ?_ ?_ <;>
    rw [← call]
  · intro starting
    cases starting
  · intro j here
    cases here
    exact ⟨Nat.zero_le _, by rw [State.lastStart, length, ← last, creating, Nat.sub_zero]⟩
  · intro m waiting
    cases waiting

/-- The new thread of an object takes the place of one that has left. -/
theorem Kept.createThread {n k : ℕ} {creation : Creation} {s t : Owned τ} {o : List (Event τ)}
    (h : Kept n s) (last : k = s.pool.starts.length - 1)
    (owner : s.control n (.createThread creation) = some (t.call, t.tids))
    (hp : step n s.pool (.createThread k creation.succeeds) = some (t.pool, o))
    (renews : RenewsExited s (.createThread creation)) : Kept n t := by
  obtain ⟨slavers, remaining, before, after, length⟩ := createThread_effect hp
  simp only [Owned.control] at owner
  split at owner
  · rename_i slave here
    obtain ⟨call, tids⟩ := Prod.mk.inj (Option.some.inj owner)
    obtain ⟨le, left⟩ := h.creating here
    have more : remaining + 1 = n - slave := by
      rw [State.lastStart, ← last, before] at left
      exact Starting.creating.inj (Option.some.inj left)
    have executes := executes_create slavers
    refine ⟨h.distinct.createThread tids.symm slavers, ?_, ?_, ?_, ?_, ?_⟩
    · intro i runs
      rw [← tids]
      rw [executes, Bool.or_eq_true, Bool.and_eq_true, beq_iff_eq] at runs
      rcases runs with old | ⟨made, rfl⟩
      · obtain ⟨j, hj⟩ := h.remembered old
        refine ⟨j, ?_⟩
        by_cases own : j = slave
        · subst own
          rcases renews with rfl | left
          · rw [Function.update_self]
            exact hj
          · exact absurd (left j here i hj) (by simp [old])
        · rw [Function.update_of_ne own, hj]
      · refine ⟨slave, ?_⟩
        rw [Function.update_self]
        cases creation with
        | created => rfl
        | failed keeps => cases made
    · intro j i hj
      rw [← tids] at hj
      rcases renewed_cases hj with ⟨rfl, -, -⟩ | ⟨-, old⟩
      · omega
      · exact h.known old
    · intro starting
      rw [← call] at starting
      cases starting
    · intro j creating
      rw [← call] at creating
      cases creating
      refine ⟨by omega, ?_⟩
      rw [State.lastStart, length, ← last, after]
      congr 2
      omega
    · intro m waiting
      rw [← call] at waiting
      cases waiting
  · cases owner

/-- `Wait` goes on to the next object once the thread of this one has left. -/
theorem Kept.join {n : ℕ} {s t : Owned τ} (h : Kept n s)
    (owner : s.control n .join = some (t.call, t.tids)) (pool : t.pool = s.pool) : Kept n t := by
  simp only [Owned.control] at owner
  split at owner
  · rename_i slave here
    obtain ⟨⟨-, left⟩, eq⟩ := Option.ite_none_right_eq_some.mp owner
    obtain ⟨call, tids⟩ := Prod.mk.inj (Option.some.inj eq)
    refine h.owner (by rw [pool]) (by rw [pool]; exact id) tids.symm ?_ ?_ ?_ <;> rw [← call]
    · intro starting
      cases starting
    · intro k creating
      cases creating
    · intro m waiting k i hk hi
      cases waiting
      rcases Nat.lt_succ_iff_lt_or_eq.mp hk with before | rfl
      · exact h.joined here before hi
      · simpa [hi] using left
  · cases owner

/-- A move that leaves the pool alone, for a call that has not joined anyone yet. -/
theorem Kept.moves {n : ℕ} {s t : Owned τ} (h : Kept n s) (pool : t.pool = s.pool)
    (tids : t.tids = s.tids) (call : t.call = .idle ∨ t.call = .waiting 0) : Kept n t := by
  refine h.owner (by rw [pool]) (by rw [pool]; exact id) tids ?_ ?_ ?_
  · intro starting
    rcases call with eq | eq <;> rw [eq] at starting <;> cases starting
  · intro k creating
    rcases call with eq | eq <;> rw [eq] at creating <;> cases creating
  · intro m waiting k i hk
    rcases call with eq | eq <;> rw [eq] at waiting <;> cases waiting
    exact absurd hk (Nat.not_lt_zero k)

/-- A call of one section returns where it started, as far as the owner is concerned. -/
theorem control_ofOther {n : ℕ} {s : Owned τ} {move : Move τ} {turn : Turn τ}
    {c : Call × (ℕ → Option ℕ)} (hm : move.turn s.pool = some turn)
    (other : turn.ofStart = false) (h : s.control n move = some c) : c = (s.call, s.tids) := by
  cases move <;> cases hm <;> try cases other
  · obtain ⟨idle, eq⟩ := Option.ite_none_right_eq_some.mp h
    rw [← Option.some.inj eq, idle]
  · obtain ⟨idle, eq⟩ := Option.ite_none_right_eq_some.mp h
    rw [← Option.some.inj eq, idle]
  all_goals exact (Option.some.inj h).symm

theorem Kept.step {n : ℕ} {s t : Owned τ} {move : Move τ} {o : List (Event τ)} (h : Kept n s)
    (hs : s.step n move = some (t, o)) (renews : RenewsExited s move) : Kept n t := by
  obtain ⟨owner, ⟨turn, hm, hp⟩ | ⟨hm, pool, -⟩, -⟩ := ownedStep_cases hs
  · cases other : turn.ofStart with
    | false =>
        obtain ⟨call, tids⟩ := Prod.mk.inj (control_ofOther hm other owner)
        exact h.fade (step_fades other hp) call tids
    | true =>
        cases move with
        | start =>
            cases hm
            exact h.start owner hp
        | setRunning =>
            cases hm
            exact h.setRunning rfl owner hp
        | createThread creation =>
            cases hm
            exact h.createThread rfl owner hp renews
        | _ => cases hm <;> cases other
  · cases move with
    | wait =>
        obtain ⟨-, eq⟩ := Option.ite_none_right_eq_some.mp owner
        obtain ⟨call, tids⟩ := Prod.mk.inj (Option.some.inj eq)
        exact h.moves pool tids.symm (.inr call.symm)
    | returns =>
        obtain ⟨-, eq⟩ := Option.ite_none_right_eq_some.mp owner
        obtain ⟨call, tids⟩ := Prod.mk.inj (Option.some.inj eq)
        exact h.moves pool tids.symm (.inl call.symm)
    | join => exact h.join owner pool
    | _ => cases hm

/-- An object that gives up a live thread is the only one that remembered it. -/
theorem Kept.forgets {n : ℕ} {s t : Owned τ} {move : Move τ} {o : List (Event τ)}
    (h : Kept n s) (hs : s.step n move = some (t, o)) (overwrites : ¬ RenewsExited s move) :
    ¬ Remembers t := by
  obtain ⟨owner, moved, -⟩ := ownedStep_cases hs
  cases move with
  | createThread creation =>
      rcases moved with ⟨turn, hm, hp⟩ | ⟨hm, -, -⟩
      · cases hm
        obtain ⟨slavers, -⟩ := createThread_effect hp
        simp only [RenewsExited, not_or, not_forall, Bool.not_eq_false] at overwrites
        obtain ⟨changed, k, here, i, hi, runs⟩ := overwrites
        simp only [Owned.control, here, Option.some.injEq, Prod.mk.injEq] at owner
        obtain ⟨-, tids⟩ := owner
        intro remembers
        have still : t.pool.executes i = true := by
          rw [executes_create slavers, runs, Bool.true_or]
        obtain ⟨j, hj⟩ := remembers i (mem_executing.mpr still)
        rw [← tids] at hj
        rcases renewed_cases hj with ⟨-, -, rfl⟩ | ⟨other, old⟩
        · exact Nat.lt_irrefl _ (h.distinct.made hi)
        · exact changed (other (h.distinct.apart old hi))
      · cases hm
  | _ => exact absurd trivial overwrites

theorem kept_start (n : ℕ) : Kept n (ownedPool (τ := τ) n).start := by
  refine ⟨distinct_start n, ?_, ?_, ?_, ?_, ?_⟩ <;> intros <;>
    simp_all [ownedPool, threadPool, State.executes]

/-- For every number of workers and every run of the owner's calls and of the
workers: the live threads are remembered throughout exactly when each `Thread`
object gives up only threads that have left, and then the pool never executes
more than `n` threads and `Wait` returns to an owner whose pool executes none. -/
theorem thread_pool_contained (n : ℕ) {moves : List (Move τ)} {s : Owned τ}
    {os : List (Event τ)} (run : (ownedPool n).Reaches moves s os) :
    ((ownedPool n).Always Remembers moves ↔ (ownedPool n).Meets RenewsExited moves) ∧
      ((ownedPool n).Meets RenewsExited moves → (ownedPool n).Always (Contains n) moves) := by
  constructor
  · exact run.always_iff_meets (kept_start n) Kept.remembers Kept.step Kept.forgets
  · intro meets before t ot hp ht
    exact (meets.always (kept_start n) Kept.step before t ot hp ht).contains

/-- The owner waits between `Stop` and the next `Start`. -/
theorem thread_pool_contained_waited :
    ∃ moves s os, (ownedPool (τ := ℕ) 1).Reaches moves s os ∧ s.pool.slavers.length = 2 ∧
      (ownedPool 1).Meets RenewsExited moves ∧ (ownedPool 1).Always Remembers moves ∧
      (ownedPool 1).Always (Contains 1) moves := by
  have run : (ownedPool (τ := ℕ) 1).Reaches
      [.start, .setRunning, .createThread .created, .returns, .stop, .handle 0, .wait, .join,
        .returns, .start, .setRunning, .createThread .created, .returns] _ _ := rfl
  obtain ⟨remembered, contained⟩ := thread_pool_contained 1 run
  refine ⟨_, _, _, run, rfl, ?meets, remembered.mpr ?meets, contained ?meets⟩
  exact Machine.meets_of_meetsFrom (by decide)

/-- `Stop` and `Start` while the only worker runs a task: two threads execute
`HandlerTask`, and after the next `Stop` `Wait` returns without the first. -/
theorem restart_exceeds :
    (∃ s os, (ownedPool (τ := ℕ) 1).Reaches
      [.start, .setRunning, .createThread .created, .returns, .enqueue 7 [], .handle 0, .stop,
        .start, .setRunning, .createThread .created, .returns, .handle 1] s os ∧
      s.pool.slavers = [.running 7, .blocked] ∧ ¬ s.pool.executing.card ≤ 1) ∧
    ∃ s os, (ownedPool (τ := ℕ) 1).Reaches
      [.start, .setRunning, .createThread .created, .returns, .enqueue 7 [], .handle 0, .stop,
        .start, .setRunning, .createThread .created, .returns, .handle 1, .stop, .resume 1, .wait,
        .join] s os ∧
      s.call = .waiting 1 ∧ s.pool.slavers = [.running 7, .exited] ∧ s.pool.executing ≠ ∅ :=
  ⟨⟨_, _, rfl, rfl, by decide⟩, ⟨_, _, rfl, rfl, rfl, by decide⟩⟩

end StudyCode.ThreadPool

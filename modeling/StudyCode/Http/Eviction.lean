import Mathlib.Logic.Relation
import StudyCode.Http.SessionHistory

/-!
# What eviction of expired sessions shows

Two runs of the manager, one with further calls of `clearExpiredsession`, keep
pools that differ in sessions that are over. `isSessionValid` looks at the end
of a session and `getUsername` does not.
-/
namespace StudyCode.SessionManager
open StudyCode.ByteString StudyCode.Scheduled StudyCode.Lease

/-- One more call of `clearExpiredsession`, at the clock reading of the call
before it or of the call after it. -/
inductive Inserted : List (ℤ × Call) → List (ℤ × Call) → Prop
  | after (before : List (ℤ × Call)) (c : ℤ × Call) (rest : List (ℤ × Call)) :
      Inserted (before ++ c :: rest) (before ++ c :: (c.1, .clearExpiredsession) :: rest)
  | before (before : List (ℤ × Call)) (c : ℤ × Call) (rest : List (ℤ × Call)) :
      Inserted (before ++ c :: rest) (before ++ (c.1, .clearExpiredsession) :: c :: rest)

def Result.isAnswer : Result → Bool
  | .valid _ | .username _ => true
  | .sessionId _ | .done => false

/-- What the calls of `isSessionValid` and `getUsername` return, in their order. -/
def answers (results : List Result) : List Result := results.filter Result.isAnswer

/-- No number of inserted evictions changes an answer. -/
def Unobservable (calls : List (ℤ × Call)) : Prop :=
  ∀ calls', Relation.ReflTransGen Inserted calls calls' →
    ∀ pool results pool' results', sessionManager.Reaches calls pool results →
      sessionManager.Reaches calls' pool' results' → answers results' = answers results

/-- `getUsername` returns a name only for an id that `isSessionValid` would accept. -/
def NamesValid (calls : List (ℤ × Call)) : Prop :=
  ∀ before t id rest, calls = before ++ (t, .getUsername id) :: rest →
    ∀ pool results, sessionManager.Reaches before pool results →
      getUsername pool id ≠ [] → (isSessionValid pool id t).2 = true

/-- The call leaves a session `id` that ends at `ends` in the pool. -/
def Spares (id : Str) (ends : ℤ) (c : ℤ × Call) : Prop :=
  match c.2 with
  | .createSession _ _ sessionId => sessionId ≠ id
  | .isSessionValid sessionId => sessionId = id → c.1 ≤ ends
  | .getUsername _ => True
  | .destroySession sessionId => sessionId ≠ id
  | .clearExpiredsession => c.1 ≤ ends

/-- A `getUsername` reads a named session that is over and that no call has removed. -/
def ReadsEnded (calls : List (ℤ × Call)) : Prop :=
  ∃ older issued username timeout newer t id rest,
    calls = older ++ (issued, .createSession username timeout id) :: newer ++
      (t, .getUsername id) :: rest ∧
    username ≠ [] ∧ issued + timeout < t ∧ ∀ c ∈ newer, Spares id (issued + timeout) c

/-! ## What the pool holds -/

theorem table_call {sessions : Pool} {now : ℤ} {c : Call} {id : Str} {data : SessionData} :
    table (call sessions now c).1 id = some data ↔
      (∃ timeout, c = .createSession data.username timeout id ∧
        data.expireTime = now + timeout) ∨
      table sessions id = some data ∧ Spares id data.expireTime (now, c) := by
  cases c with
  | createSession username timeout sessionId =>
      simp only [call, createSession, table, Spares]
      by_cases own : sessionId = id
      · subst own
        rw [AList.lookup_insert, Option.some.injEq]
        constructor
        · rintro rfl
          exact .inl ⟨timeout, rfl, rfl⟩
        · rintro (⟨timeout', made, ends⟩ | ⟨-, other⟩)
          · cases made
            rw [← ends]
          · exact absurd rfl other
      · rw [AList.lookup_insert_ne (Ne.symm own)]
        simp [own]
  | isSessionValid sessionId =>
      simp only [call, table, Spares, reduceCtorEq, false_and, exists_false, false_or]
      rcases isSessionValid_cases sessions sessionId now with
        ⟨found, eq⟩ | ⟨data', found, ⟨ended, eq⟩ | ⟨live, eq⟩⟩ <;> rw [eq]
      · refine ⟨fun held => ⟨held, ?_⟩, And.left⟩
        rintro rfl
        rw [found] at held
        cases held
      · by_cases own : sessionId = id
        · subst own
          rw [AList.lookup_erase, found]
          constructor
          · intro held
            cases held
          · rintro ⟨same, spares⟩
            cases same
            exact absurd (spares rfl) (Int.not_le.mpr ended)
        · rw [AList.lookup_erase_ne (Ne.symm own)]
          simp [own]
      · refine ⟨fun held => ⟨held, ?_⟩, And.left⟩
        rintro rfl
        rw [found] at held
        cases held
        exact live
  | getUsername sessionId => simp [call, Spares]
  | destroySession sessionId =>
      simp only [call, destroySession, table, Spares, reduceCtorEq, false_and, exists_false,
        false_or]
      by_cases own : sessionId = id
      · subst own
        simp
      · rw [AList.lookup_erase_ne (Ne.symm own)]
        simp [own]
  | clearExpiredsession =>
      simp only [call, Spares, reduceCtorEq, false_and, exists_false, false_or]
      rw [table_clearExpiredsession, Option.filter_eq_some_iff]
      simp

/-- The pool holds what was created for the id last, unless a later call removed it. -/
theorem table_eq_some {calls : List (ℤ × Call)} {sessions : Pool} {results : List Result}
    (run : sessionManager.Reaches calls sessions results) {id : Str} {data : SessionData} :
    table sessions id = some data ↔
      ∃ older issued timeout newer,
        calls = older ++ (issued, .createSession data.username timeout id) :: newer ∧
        data.expireTime = issued + timeout ∧ ∀ c ∈ newer, Spares id data.expireTime c := by
  induction calls using List.reverseRecOn generalizing sessions results with
  | nil =>
      obtain ⟨rfl, -⟩ := Machine.reaches_nil.mp run
      simp [sessionManager, table]
  | append_singleton calls c ih =>
      obtain ⟨before, os, o, hb, hs, -⟩ := Machine.reaches_snoc.mp run
      cases hs
      rw [table_call, ih hb]
      constructor
      · rintro (⟨timeout, made, ends⟩ |
          ⟨⟨older, issued, timeout, newer, rfl, ends, spared⟩, spares⟩)
        · exact ⟨calls, c.1, timeout, [], by rw [← made], ends, by simp⟩
        · refine ⟨older, issued, timeout, newer ++ [c], by simp, ends, ?_⟩
          intro d hd
          rcases List.mem_append.mp hd with old | new
          · exact spared d old
          · rw [List.mem_singleton.mp new]
            exact spares
      · rintro ⟨older, issued, timeout, newer, eq, ends, spared⟩
        rcases snoc_eq_split.mp eq with ⟨-, made, -⟩ | ⟨rest, rfl, rfl⟩
        · rw [← made]
          exact .inl ⟨timeout, rfl, ends⟩
        · refine .inr ⟨⟨older, issued, timeout, rest, rfl, ends, fun d hd => ?_⟩, ?_⟩
          · exact spared d (List.mem_append_left _ hd)
          · exact spared c (by simp)

theorem getUsername_ne_nil {sessions : Pool} {id : Str} :
    getUsername sessions id ≠ [] ↔
      ∃ data, table sessions id = some data ∧ data.username ≠ [] := by
  unfold getUsername table
  cases sessions.lookup id <;> simp

/-- At a `getUsername` in the run: the pool answers with the name of a session that is
over exactly where the calls before it left one there. -/
theorem readsEnded_iff {calls : List (ℤ × Call)} :
    ReadsEnded calls ↔
      ∃ before t id rest pool results data,
        calls = before ++ (t, .getUsername id) :: rest ∧
        sessionManager.Reaches before pool results ∧ table pool id = some data ∧
        data.username ≠ [] ∧ data.expireTime < t := by
  constructor
  · rintro ⟨older, issued, username, timeout, newer, t, id, rest, rfl, named, ended, spared⟩
    obtain ⟨pool, results, run⟩ := Machine.exists_reaches (M := sessionManager)
      (fun _ _ => rfl) (older ++ (issued, .createSession username timeout id) :: newer)
    refine ⟨_, t, id, rest, pool, results, ⟨username, issued + timeout⟩, rfl, run, ?_, named, ended⟩
    exact (table_eq_some run).mpr ⟨older, issued, timeout, newer, rfl, rfl, spared⟩
  · rintro ⟨before, t, id, rest, pool, results, data, rfl, run, held, named, ended⟩
    obtain ⟨older, issued, timeout, newer, rfl, ends, spared⟩ := (table_eq_some run).mp held
    rw [ends] at ended spared
    exact ⟨older, issued, data.username, timeout, newer, t, id, rest, rfl, named, ended, spared⟩

theorem namesValid_iff {calls : List (ℤ × Call)} : NamesValid calls ↔ ¬ ReadsEnded calls := by
  rw [readsEnded_iff]
  constructor
  · rintro valid ⟨before, t, id, rest, pool, results, data, eq, run, held, named, ended⟩
    have accepted := valid before t id rest eq pool results run
      (getUsername_ne_nil.mpr ⟨data, held, named⟩)
    obtain ⟨data', held', live⟩ := isSessionValid_eq_true.mp accepted
    rw [held] at held'
    cases held'
    exact absurd live (Int.not_le.mpr ended)
  · intro none before t id rest eq pool results run name
    obtain ⟨data, held, named⟩ := getUsername_ne_nil.mp name
    refine isSessionValid_eq_true.mpr ⟨data, held, ?_⟩
    by_contra ended
    exact none ⟨before, t, id, rest, pool, results, data, eq, run, held, named,
      Int.not_le.mp ended⟩

/-! ## Two runs side by side -/

/-- The second list of calls is the first with some evictions put in. -/
inductive Padded : List (ℤ × Call) → List (ℤ × Call) → Prop
  | nil : Padded [] []
  | keep {calls calls' : List (ℤ × Call)} (c : ℤ × Call) :
      Padded calls calls' → Padded (calls ++ [c]) (calls' ++ [c])
  | evict {calls calls' : List (ℤ × Call)} (t : ℤ) :
      Padded calls calls' → Padded calls (calls' ++ [(t, .clearExpiredsession)])

theorem Padded.refl (calls : List (ℤ × Call)) : Padded calls calls := by
  induction calls using List.reverseRecOn with
  | nil => exact .nil
  | append_singleton calls c ih => exact .keep c ih

theorem padded_snoc {calls calls' : List (ℤ × Call)} {c : ℤ × Call}
    (h : Padded calls (calls' ++ [c])) :
    (∃ before, calls = before ++ [c] ∧ Padded before calls') ∨
      c.2 = .clearExpiredsession ∧ Padded calls calls' := by
  generalize eq : calls' ++ [c] = all at h
  cases h with
  | nil => simp at eq
  | keep d h =>
      obtain ⟨rfl, last⟩ := List.append_inj' eq rfl
      cases last
      exact .inl ⟨_, rfl, h⟩
  | evict t h =>
      obtain ⟨rfl, last⟩ := List.append_inj' eq rfl
      cases last
      exact .inr ⟨rfl, h⟩

theorem Padded.insert {calls before rest : List (ℤ × Call)} (t : ℤ)
    (h : Padded calls (before ++ rest)) :
    Padded calls (before ++ (t, .clearExpiredsession) :: rest) := by
  induction rest using List.reverseRecOn generalizing calls with
  | nil =>
      rw [List.append_nil] at h
      exact .evict t h
  | append_singleton rest c ih =>
      rw [← List.append_assoc] at h
      rw [← List.cons_append, ← List.append_assoc]
      rcases padded_snoc h with ⟨older, rfl, kept⟩ | ⟨clean, evicted⟩
      · exact .keep c (ih kept)
      · obtain ⟨u, made⟩ := c
        cases clean
        exact .evict u (ih evicted)

theorem Forward.insert {before rest : List (ℤ × Call)} {t : ℤ}
    (clock : Forward (before ++ rest)) (past : ∀ c ∈ before, c.1 ≤ t)
    (future : ∀ c ∈ rest, t ≤ c.1) (made : Call) : Forward (before ++ (t, made) :: rest) := by
  obtain ⟨first, last, across⟩ := List.pairwise_append.mp clock
  refine List.pairwise_append.mpr ⟨first, List.pairwise_cons.mpr ⟨future, last⟩, ?_⟩
  intro c hc d hd
  rcases List.mem_cons.mp hd with rfl | hd
  · exact past c hc
  · exact across c hc d hd

/-- The clock reading of a neighbour keeps the readings in order. -/
theorem Inserted.forward {calls calls' : List (ℤ × Call)} (h : Inserted calls calls')
    (clock : Forward calls) : Forward calls' := by
  cases h with
  | after before c rest =>
      have joined : before ++ c :: rest = (before ++ [c]) ++ rest := by simp
      rw [joined] at clock
      obtain ⟨first, -, across⟩ := List.pairwise_append.mp clock
      obtain ⟨-, -, last⟩ := List.pairwise_append.mp first
      have past : ∀ d ∈ before ++ [c], d.1 ≤ c.1 := by
        intro d hd
        rcases List.mem_append.mp hd with old | own
        · exact last d old c (List.mem_singleton_self c)
        · rw [List.mem_singleton.mp own]
      have future : ∀ d ∈ rest, c.1 ≤ d.1 := across c (by simp)
      simpa using clock.insert past future .clearExpiredsession
  | before before c rest =>
      obtain ⟨-, tail, across⟩ := List.pairwise_append.mp clock
      have future : ∀ d ∈ c :: rest, c.1 ≤ d.1 := by
        intro d hd
        rcases List.mem_cons.mp hd with rfl | hd
        · exact Int.le_refl _
        · exact (List.pairwise_cons.mp tail).1 d hd
      exact clock.insert (fun d hd => across d hd c List.mem_cons_self) future _

theorem inserted_padded {calls calls' : List (ℤ × Call)}
    (h : Relation.ReflTransGen Inserted calls calls') (clock : Forward calls) :
    Padded calls calls' ∧ Forward calls' := by
  induction h with
  | refl => exact ⟨.refl calls, clock⟩
  | tail _ inserted ih =>
      obtain ⟨padded, forward⟩ := ih
      refine ⟨?_, inserted.forward forward⟩
      cases inserted with
      | after before c rest =>
          have here : before ++ c :: rest = (before ++ [c]) ++ rest := by simp
          rw [here] at padded
          simpa using padded.insert c.1
      | before before c rest => exact padded.insert c.1

theorem table_isSessionValid (sessions : Pool) (id : Str) (now : ℤ) :
    table (isSessionValid sessions id now).1 id =
      (table sessions id).filter fun data => !decide (data.expireTime < now) := by
  rcases isSessionValid_cases sessions id now with
    ⟨found, eq⟩ | ⟨data, found, ⟨ended, eq⟩ | ⟨live, eq⟩⟩ <;> rw [eq]
  · simp [table, found]
  · simp [table, found, Option.filter_some, ended]
  · simp [table, found, Option.filter_some, live]

theorem table_isSessionValid_ne {sessions : Pool} {id k : Str} {now : ℤ} (other : k ≠ id) :
    table (isSessionValid sessions id now).1 k = table sessions k := by
  rcases isSessionValid_cases sessions id now with
    ⟨-, eq⟩ | ⟨data, -, ⟨-, eq⟩ | ⟨-, eq⟩⟩ <;> rw [eq]
  exact AList.lookup_erase_ne other

section
variable {now : ℤ} {pool pool' : Pool}

/-- The same call on two pools that differ in what is over: the answer is the same
unless it is the name of a session that is over. -/
theorem call_evicted (h : Evicted SessionData.expireTime now (table pool) (table pool'))
    (c : Call) (fresh : ∀ id data, c = .getUsername id → table pool id = some data →
      data.username ≠ [] → now ≤ data.expireTime) :
    Evicted SessionData.expireTime now (table (call pool now c).1) (table (call pool' now c).1) ∧
      (call pool' now c).2 = (call pool now c).2 := by
  have dead : ∀ data : SessionData, data.expireTime < now →
      (!decide (data.expireTime < now)) = false := by
    intro data ended
    simp [ended]
  cases c with
  | createSession username timeout sessionId =>
      refine ⟨h.record sessionId ?_ ?_ ?_, rfl⟩
      · exact (AList.lookup_insert pool').trans (AList.lookup_insert pool).symm
      · exact fun k other => AList.lookup_insert_ne other
      · exact fun k other => AList.lookup_insert_ne other
  | isSessionValid sessionId =>
      constructor
      · refine h.record sessionId ?_ (fun k other => table_isSessionValid_ne other)
          fun k other => table_isSessionValid_ne other
        exact (table_isSessionValid pool' sessionId now).trans
          ((h.filter_eq dead sessionId).trans (table_isSessionValid pool sessionId now).symm)
      · refine congrArg Result.valid (Bool.eq_iff_iff.mpr ?_)
        rw [isSessionValid_eq_true, isSessionValid_eq_true]
        exact exists_congr fun data => and_congr_left fun live => h.live_iff live
  | getUsername sessionId =>
      refine ⟨h, congrArg Result.username ?_⟩
      rcases h sessionId with same | ⟨gone, data, held, ended⟩
      · simp only [table] at same
        rw [getUsername, getUsername, same]
      · have unnamed : data.username = [] := by
          by_contra named
          exact absurd (fresh sessionId data rfl held named) (Int.not_le.mpr ended)
        simp only [table] at gone held
        simp [getUsername, gone, held, unnamed]
  | destroySession sessionId =>
      refine ⟨h.record sessionId ?_ ?_ ?_, rfl⟩
      · exact (AList.lookup_erase sessionId pool').trans (AList.lookup_erase sessionId pool).symm
      · exact fun k other => AList.lookup_erase_ne other
      · exact fun k other => AList.lookup_erase_ne other
  | clearExpiredsession =>
      refine ⟨fun k => .inl ?_, rfl⟩
      exact (table_clearExpiredsession pool' now k).trans
        ((h.filter_eq dead k).trans (table_clearExpiredsession pool now k).symm)

end

theorem ReadsEnded.append {calls : List (ℤ × Call)} (h : ReadsEnded calls)
    (more : List (ℤ × Call)) : ReadsEnded (calls ++ more) := by
  obtain ⟨older, issued, username, timeout, newer, t, id, rest, rfl, stale⟩ := h
  exact ⟨older, issued, username, timeout, newer, t, id, rest ++ more, by simp, stale⟩

theorem answers_append (results results' : List Result) :
    answers (results ++ results') = answers results ++ answers results' := List.filter_append ..

/-- Where no ended session is read, the two runs give the same answers and stay
apart in ended sessions only. -/
theorem Padded.answers {calls calls' : List (ℤ × Call)} (h : Padded calls calls')
    (clock : Forward calls') (fresh : ¬ ReadsEnded calls) {pool pool' : Pool}
    {results results' : List Result} (run : sessionManager.Reaches calls pool results)
    (run' : sessionManager.Reaches calls' pool' results') {now : ℤ}
    (past : ∀ c ∈ calls', c.1 ≤ now) :
    Evicted SessionData.expireTime now (table pool) (table pool') ∧
      SessionManager.answers results' = SessionManager.answers results := by
  induction h generalizing pool pool' results results' now with
  | nil =>
      obtain ⟨rfl, rfl⟩ := Machine.reaches_nil.mp run
      obtain ⟨rfl, rfl⟩ := Machine.reaches_nil.mp run'
      exact ⟨Evicted.refl _, rfl⟩
  | @keep calls calls' c h ih =>
      obtain ⟨before, os, o, hb, hs, rfl⟩ := Machine.reaches_snoc.mp run
      obtain ⟨before', os', o', hb', hs', rfl⟩ := Machine.reaches_snoc.mp run'
      obtain ⟨forward, -, last⟩ := List.pairwise_append.mp clock
      obtain ⟨evicted, same⟩ := ih forward (fun stale => fresh (stale.append [c])) hb hb'
        fun d hd => last d hd c (List.mem_singleton_self c)
      cases hs
      cases hs'
      have read : ∀ id data, c.2 = .getUsername id → table before id = some data →
          data.username ≠ [] → c.1 ≤ data.expireTime := by
        intro id data made held named
        by_contra ended
        exact fresh (readsEnded_iff.mpr ⟨calls, c.1, id, [], before, os, data,
          by rw [← made], hb, held, named, Int.not_le.mp ended⟩)
      obtain ⟨after, answer⟩ := call_evicted evicted c.2 read
      refine ⟨after.mono (past c (by simp)), ?_⟩
      rw [answers_append, answers_append, same, answer]
  | @evict calls calls' t h ih =>
      obtain ⟨before', os', o', hb', hs', rfl⟩ := Machine.reaches_snoc.mp run'
      obtain ⟨forward, -, last⟩ := List.pairwise_append.mp clock
      obtain ⟨evicted, same⟩ := ih forward fresh run hb'
        fun d hd => last d hd _ (List.mem_singleton_self _)
      cases hs'
      refine ⟨(evicted.trans (clearExpiredsession_evicts before' t)).mono (past _ (by simp)), ?_⟩
      rw [answers_append, same]
      exact List.append_nil _

theorem unobservable_of_fresh {calls : List (ℤ × Call)} (clock : Forward calls)
    (fresh : ¬ ReadsEnded calls) : Unobservable calls := by
  intro calls' inserted pool results pool' results' run run'
  obtain ⟨padded, forward⟩ := inserted_padded inserted clock
  obtain ⟨now, past⟩ : ∃ now, ∀ c ∈ calls', c.1 ≤ now := by
    obtain ⟨now, bound⟩ := (calls'.toFinset.image Prod.fst).bddAbove
    exact ⟨now, fun c hc => bound (Finset.mem_coe.mpr
      (Finset.mem_image_of_mem _ (List.mem_toFinset.mpr hc)))⟩
  exact (padded.answers forward fresh run run' past).2

theorem runFrom_cons {pool pool' : Pool} {c : ℤ × Call} {calls : List (ℤ × Call)}
    {results : List Result}
    (h : sessionManager.runFrom pool (c :: calls) = some (pool', results)) :
    ∃ later, results = (call pool c.1 c.2).2 :: later ∧
      sessionManager.runFrom (call pool c.1 c.2).1 calls = some (pool', later) := by
  obtain ⟨r, step, h⟩ := Option.bind_eq_some_iff.mp h
  cases step
  obtain ⟨⟨u, later⟩, run, eq⟩ := Option.map_eq_some_iff.mp h
  cases eq
  exact ⟨later, rfl, run⟩

/-- An eviction right before the read of an ended session takes the name away. -/
theorem ReadsEnded.observable {calls : List (ℤ × Call)} (h : ReadsEnded calls) :
    ¬ Unobservable calls := by
  obtain ⟨before, t, id, rest, pool, past, data, rfl, run, held, named, ended⟩ :=
    readsEnded_iff.mp h
  intro same
  obtain ⟨pool₁, results₁, run₁⟩ := Machine.exists_reaches (M := sessionManager)
    (fun _ _ => rfl) (before ++ (t, .getUsername id) :: rest)
  obtain ⟨pool₂, results₂, run₂⟩ := Machine.exists_reaches (M := sessionManager)
    (fun _ _ => rfl) (before ++ (t, .clearExpiredsession) :: (t, .getUsername id) :: rest)
  have equal := same _ (.single (.before before (t, .getUsername id) rest)) _ _ _ _ run₁ run₂
  obtain ⟨s₁, past₁, next₁, first₁, on₁, rfl⟩ := Machine.reaches_append.mp run₁
  obtain ⟨s₂, past₂, next₂, first₂, on₂, rfl⟩ := Machine.reaches_append.mp run₂
  obtain ⟨rfl, rfl⟩ := run.unique first₁
  obtain ⟨rfl, rfl⟩ := run.unique first₂
  obtain ⟨later₁, rfl, -⟩ := runFrom_cons on₁
  obtain ⟨cleared, rfl, afterClear⟩ := runFrom_cons on₂
  obtain ⟨later₂, rfl, -⟩ := runFrom_cons afterClear
  have name : getUsername pool id = data.username := by
    rw [getUsername, show pool.lookup id = some data from held]
  have gone : table (clearExpiredsession pool t) id = none := by
    rw [table_clearExpiredsession, held, Option.filter_some, if_neg (by simp [ended])]
  have unnamed : getUsername (clearExpiredsession pool t) id = [] := by
    rw [getUsername, show (clearExpiredsession pool t).lookup id = none from gone]
  rw [answers_append, answers_append, List.append_cancel_left_eq] at equal
  simp only [answers, call, List.filter_cons, Result.isAnswer, name, unnamed] at equal
  exact named (Result.username.inj (List.head_eq_of_cons_eq equal)).symm

theorem unobservable_iff {calls : List (ℤ × Call)} (clock : Forward calls) :
    Unobservable calls ↔ ¬ ReadsEnded calls :=
  ⟨fun same stale => stale.observable same, unobservable_of_fresh clock⟩

/-- For every run with clock readings that never go backwards: no inserted
`clearExpiredsession` changes what `isSessionValid` or `getUsername` returns, and
`getUsername` names valid sessions only, if and only if no `getUsername` comes to a
named session that is over and that no call has removed. -/
theorem eviction_unobservable_iff {calls : List (ℤ × Call)} (clock : Forward calls) :
    (Unobservable calls ∧ NamesValid calls) ↔ ¬ ReadsEnded calls := by
  rw [unobservable_iff clock, namesValid_iff, and_self_iff]

/-- The name is read in time, and the session is evicted later. -/
theorem eviction_unobservable_iff_in_time :
    (Unobservable [(100, .createSession (bytes "a") 10 (bytes "x")),
          (110, .getUsername (bytes "x")), (111, .clearExpiredsession)] ∧
        NamesValid [(100, .createSession (bytes "a") 10 (bytes "x")),
          (110, .getUsername (bytes "x")), (111, .clearExpiredsession)]) ↔
      ¬ ReadsEnded [(100, .createSession (bytes "a") 10 (bytes "x")),
          (110, .getUsername (bytes "x")), (111, .clearExpiredsession)] :=
  eviction_unobservable_iff (by simp [Forward])

/-- A session of ten seconds, read eleven seconds after it was made. -/
theorem ended_session_named :
    Forward [(100, .createSession (bytes "a") 10 (bytes "x")), (111, .getUsername (bytes "x"))] ∧
    Inserted [(100, .createSession (bytes "a") 10 (bytes "x")), (111, .getUsername (bytes "x"))]
      [(100, .createSession (bytes "a") 10 (bytes "x")), (111, .clearExpiredsession),
        (111, .getUsername (bytes "x"))] ∧
    (∃ pool, sessionManager.Reaches
      [(100, .createSession (bytes "a") 10 (bytes "x")), (111, .getUsername (bytes "x"))] pool
      [.sessionId (bytes "x"), .username (bytes "a")] ∧
      (isSessionValid pool (bytes "x") 111).2 = false) ∧
    ∃ pool, sessionManager.Reaches
      [(100, .createSession (bytes "a") 10 (bytes "x")), (111, .clearExpiredsession),
        (111, .getUsername (bytes "x"))] pool
      [.sessionId (bytes "x"), .done, .username (bytes "")] := by
  refine ⟨by simp [Forward], ?_, ⟨_, rfl, rfl⟩, ⟨_, rfl⟩⟩
  exact .before [(100, .createSession (bytes "a") 10 (bytes "x"))]
    (111, .getUsername (bytes "x")) []

end StudyCode.SessionManager

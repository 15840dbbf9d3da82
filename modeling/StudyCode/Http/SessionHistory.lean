import StudyCode.Http.SessionManager

/-!
# The session pool refines the history of its calls

A call to `isSessionValid` may erase what it finds over, and so may
`clearExpiredsession`. Neither changes what any later call is told.
-/
namespace StudyCode.SessionManager
open StudyCode.ByteString StudyCode.Scheduled StudyCode.Lease

/-- What a call means for the ledger: queries and clean-ups mean nothing. -/
def Call.event? (now : ℤ) : Call → Option (Event Str SessionData)
  | .createSession username timeout sessionId =>
      some (.grant sessionId { username := username, expireTime := now + timeout })
  | .destroySession sessionId => some (.revoke sessionId)
  | .isSessionValid _ => none
  | .getUsername _ => none
  | .clearExpiredsession => none

def history (calls : List (ℤ × Call)) : List (Event Str SessionData) :=
  calls.filterMap fun c => c.2.event? c.1

/-- Clock readings that never go backwards. -/
def Forward (calls : List (ℤ × Call)) : Prop := calls.Pairwise fun c d => c.1 ≤ d.1

theorem history_snoc (calls : List (ℤ × Call)) (c : ℤ × Call) :
    history (calls ++ [c]) = history calls ++ (c.2.event? c.1).toList := by
  unfold history
  cases event : c.2.event? c.1 <;> simp [event]

theorem Tracks.call {now : ℤ} {sessions : Pool} {events : List (Event Str SessionData)}
    (h : Tracks now sessions events) (c : Call) :
    Tracks now (SessionManager.call sessions now c).1 (events ++ (c.event? now).toList) := by
  cases c with
  | createSession username timeout sessionId => exact h.createSession username timeout sessionId
  | destroySession sessionId => exact h.destroySession sessionId
  | isSessionValid sessionId =>
      simpa [Call.event?, SessionManager.call] using h.isSessionValid sessionId
  | getUsername sessionId => simpa [Call.event?, SessionManager.call] using h
  | clearExpiredsession => simpa [Call.event?, SessionManager.call] using h.clearExpiredsession

/-- At any time from the last call on, the pool answers as the history does. -/
theorem reaches_tracks {calls : List (ℤ × Call)} {sessions : Pool} {results : List Result}
    (run : sessionManager.Reaches calls sessions results) (clock : Forward calls) {now : ℤ}
    (past : ∀ c ∈ calls, c.1 ≤ now) : Tracks now sessions (history calls) := by
  induction calls using List.reverseRecOn generalizing sessions results now with
  | nil =>
      obtain ⟨rfl, -⟩ := Machine.reaches_nil.mp run
      exact tracks_start
  | append_singleton calls c ih =>
      obtain ⟨before, os, o, hb, hs, -⟩ := Machine.reaches_snoc.mp run
      cases hs
      obtain ⟨forward, -, last⟩ := List.pairwise_append.mp clock
      have tracked : Tracks c.1 before (history calls) :=
        ih hb forward fun d hd => last d hd c (List.mem_singleton_self c)
      rw [history_snoc]
      exact (tracked.call c.2).mono (past c (by simp))

theorem Call.event?_eq_grant {now : ℤ} {c : Call} {id : Str} {data : SessionData} :
    c.event? now = some (.grant id data) ↔
      ∃ timeout, c = .createSession data.username timeout id ∧ data.expireTime = now + timeout := by
  constructor
  · intro granted
    cases c with
    | createSession username timeout sessionId =>
        cases granted
        exact ⟨timeout, rfl, rfl⟩
    | _ => cases granted
  · rintro ⟨timeout, rfl, ends⟩
    rw [Call.event?, ← ends]

/-- The calls that say nothing about a session. -/
theorem Call.silent_iff {now : ℤ} {c : Call} {id : Str} :
    (∀ e, c.event? now = some e → e.key ≠ id) ↔
      (∀ username timeout, c ≠ .createSession username timeout id) ∧ c ≠ .destroySession id := by
  cases c <;> simp [Call.event?, Event.key]

theorem sessionManager_replies : sessionManager.Replies := by
  intro sessions c t o hs
  cases hs
  rfl

/-- For every run with clock readings that never go backwards, and any call
`isSessionValid(id)` at time `t` in it: the answer is true if and only if some
earlier `createSession` returned `id`, the session of the latest such call has
not ended before `t`, and no `destroySession(id)` came after it. -/
theorem isSessionValid_iff_live (before after : List (ℤ × Call)) (t : ℤ) (id : Str)
    (clock : Forward (before ++ (t, .isSessionValid id) :: after)) :
    ∃ sessions results valid,
      sessionManager.Reaches (before ++ (t, .isSessionValid id) :: after) sessions results ∧
      results[before.length]? = some (.valid valid) ∧
      (valid = true ↔
        ∃ older issued username timeout newer,
          before = older ++ (issued, .createSession username timeout id) :: newer ∧
          t ≤ issued + timeout ∧
          ∀ c ∈ newer, (∀ username timeout, c.2 ≠ .createSession username timeout id) ∧
            c.2 ≠ .destroySession id) := by
  obtain ⟨sessions, results, run⟩ := Machine.exists_reaches (M := sessionManager)
    (fun _ _ => rfl) (before ++ (t, .isSessionValid id) :: after)
  obtain ⟨pool, past, next, reply, earlier, step, here⟩ := run.reply sessionManager_replies
  cases step
  refine ⟨sessions, results, _, run, here, ?_⟩
  obtain ⟨forward, -, order⟩ := List.pairwise_append.mp clock
  have tracked : Tracks t pool (history before) :=
    reaches_tracks earlier forward fun c hc => order c hc _ List.mem_cons_self
  rw [tracked.valid_iff]
  constructor
  · rintro ⟨data, held, live⟩
    obtain ⟨older, c, newer, rfl, granted, silent⟩ := ledger_filterMap_eq_some.mp held
    obtain ⟨issued, made⟩ := c
    obtain ⟨timeout, rfl, ends⟩ := Call.event?_eq_grant.mp granted
    exact ⟨older, issued, data.username, timeout, newer, rfl, ends ▸ live,
      fun d hd => Call.silent_iff.mp (silent d hd)⟩
  · rintro ⟨older, issued, username, timeout, newer, rfl, live, silent⟩
    refine ⟨{ username := username, expireTime := issued + timeout },
      ledger_filterMap_eq_some.mpr ⟨older, _, newer, rfl, rfl, fun d hd => ?_⟩, live⟩
    exact Call.silent_iff.mpr (silent d hd)

/-- An id made twice: the second session outlives the first. -/
theorem isSessionValid_iff_live_remade :
    ∃ sessions results,
      sessionManager.Reaches
        ([(100, .createSession (bytes "a") 10 (bytes "x")),
            (105, .createSession (bytes "b") 3600 (bytes "x"))] ++
          (121, .isSessionValid (bytes "x")) :: [(121, .clearExpiredsession)])
        sessions results ∧
      results[2]? = some (.valid true) := by
  obtain ⟨sessions, results, valid, run, here, live⟩ := isSessionValid_iff_live
    [(100, .createSession (bytes "a") 10 (bytes "x")),
      (105, .createSession (bytes "b") 3600 (bytes "x"))]
    [(121, .clearExpiredsession)] 121 (bytes "x") (by simp [Forward])
  have valid := live.mpr ⟨[(100, .createSession (bytes "a") 10 (bytes "x"))], 105, bytes "b", 3600,
    [], rfl, by decide, by simp⟩
  exact ⟨sessions, results, run, valid ▸ here⟩

end StudyCode.SessionManager

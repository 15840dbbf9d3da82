import StudyCode.Lib.Noninterference
import StudyCode.Http.Eviction
import StudyCode.Http.ServerPool

/-!
# Sessions do not see each other

The pool is shared, but a call looks at one entry of it and changes no other.
Who follows one session id therefore cannot tell what the calls with other ids
were, in the session manager and behind the HTTP server.
-/
namespace StudyCode.SessionManager
open StudyCode.ByteString StudyCode.Scheduled

/-- The call names the id, or names none and may evict it. -/
def Call.about (id : Str) : Call → Bool
  | .createSession _ _ sessionId => sessionId = id
  | .isSessionValid sessionId => sessionId = id
  | .getUsername sessionId => sessionId = id
  | .destroySession sessionId => sessionId = id
  | .clearExpiredsession => true

theorem call_of_others {sessions : Pool} {now : ℤ} {c : Call} {id : Str}
    (other : c.about id = false) : table (call sessions now c).1 id = table sessions id := by
  cases c with
  | createSession username timeout sessionId =>
      exact AList.lookup_insert_ne (Ne.symm (of_decide_eq_false other))
  | isSessionValid sessionId =>
      exact table_isSessionValid_ne (Ne.symm (of_decide_eq_false other))
  | getUsername sessionId => rfl
  | destroySession sessionId => exact AList.lookup_erase_ne (Ne.symm (of_decide_eq_false other))
  | clearExpiredsession => cases other

theorem call_of_own {sessions sessions' : Pool} {now : ℤ} {c : Call} {id : Str}
    (own : c.about id = true) (same : table sessions id = table sessions' id) :
    (call sessions' now c).2 = (call sessions now c).2 ∧
      table (call sessions' now c).1 id = table (call sessions now c).1 id := by
  cases c with
  | createSession username timeout sessionId =>
      obtain rfl := of_decide_eq_true own
      exact ⟨rfl, (AList.lookup_insert sessions').trans (AList.lookup_insert sessions).symm⟩
  | isSessionValid sessionId =>
      obtain rfl := of_decide_eq_true own
      constructor
      · refine congrArg Result.valid (Bool.eq_iff_iff.mpr ?_)
        rw [isSessionValid_eq_true, isSessionValid_eq_true, same]
      · rw [call, call, table_isSessionValid, table_isSessionValid, same]
  | getUsername sessionId =>
      obtain rfl := of_decide_eq_true own
      unfold table at same
      simp only [call, getUsername, table, same, and_self]
  | destroySession sessionId =>
      obtain rfl := of_decide_eq_true own
      exact ⟨rfl, (AList.lookup_erase sessionId sessions').trans
        (AList.lookup_erase sessionId sessions).symm⟩
  | clearExpiredsession =>
      refine ⟨rfl, ?_⟩
      rw [call, call, table_clearExpiredsession, table_clearExpiredsession, same]

/-- Who follows the session of one id. -/
def observer (id : Str) : Observer sessionManager (Option SessionData) where
  view sessions := table sessions id
  concerns c := c.2.about id
  respects other step := by
    cases step
    exact call_of_others other
  consistent {s s' t i o} own same step := by
    cases step
    obtain ⟨result, view⟩ := call_of_own own same
    exact ⟨(call s' i.1 i.2).1, by rw [← result]; rfl, view⟩

/-- For every id and any two runs with the same calls about it, whatever calls about
other ids stand between them: these calls return the same, and the two pools hold
the same session for the id at the end. -/
theorem session_calls_independent (id : Str) {calls calls' : List (ℤ × Call)}
    {sessions sessions' : Pool} {results results' : List Result}
    (run : sessionManager.Reaches calls sessions results)
    (run' : sessionManager.Reaches calls' sessions' results')
    (same : calls.filter (fun c => c.2.about id) = calls'.filter fun c => c.2.about id) :
    table sessions id = table sessions' id ∧
      (calls.zip results).filter (fun r => r.1.2.about id) =
        (calls'.zip results').filter fun r => r.1.2.about id :=
  (observer id).noninterference sessionManager_replies run run' same

/-- The same two calls about `x`, once alone and once around calls about `y`. -/
theorem session_calls_independent_two :
    ∃ sessions sessions' results results',
      sessionManager.Reaches [(5, .createSession (bytes "a") 10 (bytes "x")),
        (9, .getUsername (bytes "x"))] sessions results ∧
      sessionManager.Reaches [(5, .createSession (bytes "a") 10 (bytes "x")),
        (6, .createSession (bytes "b") 10 (bytes "y")), (7, .destroySession (bytes "y")),
        (9, .getUsername (bytes "x"))] sessions' results' ∧
      table sessions (bytes "x") = table sessions' (bytes "x") := by
  have run : sessionManager.Reaches [(5, .createSession (bytes "a") 10 (bytes "x")),
      (9, .getUsername (bytes "x"))] _ _ := rfl
  have run' : sessionManager.Reaches [(5, .createSession (bytes "a") 10 (bytes "x")),
      (6, .createSession (bytes "b") 10 (bytes "y")), (7, .destroySession (bytes "y")),
      (9, .getUsername (bytes "x"))] _ _ := rfl
  exact ⟨_, _, _, _, run, run',
    (session_calls_independent (bytes "x") run run' (by decide +kernel)).1⟩

end StudyCode.SessionManager

namespace StudyCode.HttpServer
open StudyCode.ByteString StudyCode.Scheduled StudyCode.SessionManager

theorem getUsername_eq (sessions : Pool) (id : Str) :
    getUsername sessions id = ((table sessions id).map SessionData.username).getD [] := by
  unfold getUsername table
  cases sessions.lookup id <;> rfl

/-- A request that touches the id is answered by what the pool has for the id. -/
theorem respond_of_own {sessions sessions' : Pool} {a : Arrival} {branch : Branch} {id : Str}
    (own : touchedId a branch = some id)
    (same : sessions.lookup id = sessions'.lookup id) :
    (respond sessions' a (requestId a.request) branch).2 =
        (respond sessions a (requestId a.request) branch).2 ∧
      (respond sessions' a (requestId a.request) branch).1.lookup id =
        (respond sessions a (requestId a.request) branch).1.lookup id := by
  cases branch with
  | loginPage => cases own
  | login =>
      obtain rfl := Option.some.inj own
      exact ⟨rfl, (AList.lookup_insert sessions').trans (AList.lookup_insert sessions).symm⟩
  | logout =>
      obtain rfl := Option.some.inj own
      exact ⟨rfl, (AList.lookup_erase _ sessions').trans (AList.lookup_erase _ sessions).symm⟩
  | home =>
      obtain rfl := Option.some.inj own
      have own : (Call.isSessionValid (requestId a.request)).about (requestId a.request) = true :=
        decide_eq_true rfl
      obtain ⟨valid, view⟩ := @call_of_own _ _ a.now _ _ own same
      have checked := Result.valid.inj valid
      have name : getUsername (isSessionValid sessions' (requestId a.request) a.now).1
            (requestId a.request) =
          getUsername (isSessionValid sessions (requestId a.request) a.now).1
            (requestId a.request) := by
        rw [getUsername_eq, getUsername_eq]
        exact congrArg (fun held => (held.map SessionData.username).getD []) view
      simp only [respond]
      exact ⟨by rw [checked, name], view⟩
  | notFound => cases own

/-- Who follows one session id behind the server. -/
def observer (id : Str) : Observer httpServer (Option SessionData) where
  view sessions := sessions.lookup id
  concerns a := touchedId a (taken a.request) = some id
  respects {s t a o} other step := by
    rw [httpServer_step_eq] at step
    cases step
    exact respond_frame s a (of_decide_eq_false other)
  consistent {s s' t a o} own same step := by
    rw [httpServer_step_eq] at step
    cases step
    obtain ⟨response, view⟩ := respond_of_own (of_decide_eq_true own) same
    exact ⟨_, by rw [httpServer_step_eq, response], view⟩

/-- For every id and any two runs of the server in which the same requests log in
with the id, or bring it along to the home page or the logout: they are answered in
the same way, whatever the other requests do, and the session of the id is the same
at the end. -/
theorem requests_independent (id : Str) {arrivals arrivals' : List Arrival}
    {sessions sessions' : Pool} {responses responses' : List Response}
    (run : httpServer.Reaches arrivals sessions responses)
    (run' : httpServer.Reaches arrivals' sessions' responses')
    (same : arrivals.filter (fun a => touchedId a (taken a.request) = some id) =
      arrivals'.filter fun a => touchedId a (taken a.request) = some id) :
    sessions.lookup id = sessions'.lookup id ∧
      (arrivals.zip responses).filter (fun r => touchedId r.1 (taken r.1.request) = some id) =
        (arrivals'.zip responses').filter fun r =>
          touchedId r.1 (taken r.1.request) = some id :=
  (observer id).noninterference httpServer_replies run run' same

/-- A login, alone and with a visit of somebody else after it. -/
theorem requests_independent_visit :
    ∃ sessions sessions' responses responses',
      httpServer.Reaches [visit 100 "POST /login HTTP/1.1\r\n\r\n"] sessions responses ∧
      httpServer.Reaches ([visit 100 "POST /login HTTP/1.1\r\n\r\n"] ++
        [visit 120 "GET / HTTP/1.1\r\n\r\n"]) sessions' responses' ∧
      sessions.lookup (bytes "100_0000000000000000") =
        sessions'.lookup (bytes "100_0000000000000000") := by
  obtain ⟨sessions, responses, run⟩ := Machine.exists_reaches httpServer_total
    [visit 100 "POST /login HTTP/1.1\r\n\r\n"]
  obtain ⟨sessions', responses', run'⟩ := Machine.exists_reaches httpServer_total
    ([visit 100 "POST /login HTTP/1.1\r\n\r\n"] ++ [visit 120 "GET / HTTP/1.1\r\n\r\n"])
  have other : touchedId (visit 120 "GET / HTTP/1.1\r\n\r\n")
      (taken (visit 120 "GET / HTTP/1.1\r\n\r\n").request) ≠
        some (bytes "100_0000000000000000") := by decide +kernel
  exact ⟨sessions, sessions', responses, responses', run, run',
    (requests_independent _ run run' (by
      rw [List.filter_append, List.filter_cons_of_neg (a := visit 120 _) (by simpa using other),
        List.filter_nil, List.append_nil])).1⟩

end StudyCode.HttpServer

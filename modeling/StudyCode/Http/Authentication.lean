import StudyCode.Http.HttpServer

/-!
# Only the logged-in see the welcome page

The pool tracks the history of the requests, in which only the login and the
logout branch count. A visit to the home page may erase a session, but only
one that is over.
-/
namespace StudyCode.HttpServer
open StudyCode.ByteString StudyCode.Scheduled StudyCode.Lease StudyCode.SessionManager

def Arrival.issuedId (a : Arrival) : Str := generateSessionId a.idTime a.draws

/-- What a request means for the ledger of sessions. -/
def Arrival.event? (a : Arrival) : Option (Event Str SessionData) :=
  if LoginBranch a.request then
    some (.grant a.issuedId { username := bytes "test_user", expireTime := a.now + 3600 })
  else if LogoutBranch a.request then
    some (.revoke ((sessionCookie a.request).getD []))
  else none

def history (arrivals : List Arrival) : List (Event Str SessionData) :=
  arrivals.filterMap Arrival.event?

/-- Clock readings that never go backwards. -/
def Forward (arrivals : List Arrival) : Prop := arrivals.Pairwise fun a b => a.now ≤ b.now

theorem history_snoc (arrivals : List Arrival) (a : Arrival) :
    history (arrivals ++ [a]) = history arrivals ++ a.event?.toList := by
  unfold history
  cases event : a.event? <;> simp [event]

theorem event?_of_login {a : Arrival} (h : LoginBranch a.request) :
    a.event? =
      some (.grant a.issuedId { username := bytes "test_user", expireTime := a.now + 3600 }) :=
  if_pos h

theorem event?_of_logout {a : Arrival} (h : LogoutBranch a.request) :
    a.event? = some (.revoke ((sessionCookie a.request).getD [])) :=
  (if_neg fun login => h.2.2 login.1).trans (if_pos h)

theorem event?_of_other {a : Arrival} (login : ¬ LoginBranch a.request)
    (logout : ¬ LogoutBranch a.request) : a.event? = none :=
  (if_neg login).trans (if_neg logout)

theorem issuedId_ne_nil (a : Arrival) : a.issuedId ≠ [] := by
  intro empty
  have length := congrArg List.length empty
  simp [Arrival.issuedId, generateSessionId] at length

theorem Handled.tracks {a : Arrival} {sessions sessions' : Pool} {response : Response}
    {events : List (Event Str SessionData)} (handled : Handled sessions a sessions' response)
    (h : Tracks a.now sessions events) : Tracks a.now sessions' (events ++ a.event?.toList) := by
  cases handled with
  | login branch =>
      rw [event?_of_login branch]
      exact h.createSession _ _ _
  | logout branch =>
      rw [event?_of_logout branch]
      exact h.destroySession _
  | home valid branch eq =>
      rw [event?_of_other (fun login => branch.2.2.1 login.1) (fun logout => branch.2.2.2 logout.1),
        Option.toList_none, List.append_nil]
      exact h.isSessionValid _
  | other _ login logout =>
      rw [event?_of_other login logout, Option.toList_none, List.append_nil]
      exact h

/-- From the last request on, the pool answers as the history of the requests does. -/
theorem reaches_tracks {arrivals : List Arrival} {sessions : Pool} {responses : List Response}
    (run : httpServer.Reaches arrivals sessions responses) (clock : Forward arrivals) {now : ℤ}
    (past : ∀ a ∈ arrivals, a.now ≤ now) : Tracks now sessions (history arrivals) := by
  induction arrivals using List.reverseRecOn generalizing sessions responses now with
  | nil =>
      obtain ⟨rfl, -⟩ := Machine.reaches_nil.mp run
      exact tracks_start
  | append_singleton arrivals a ih =>
      obtain ⟨before, os, o, hb, hs, -⟩ := Machine.reaches_snoc.mp run
      obtain ⟨⟨next, response⟩, step, eq⟩ := Option.map_eq_some_iff.mp hs
      cases eq
      obtain ⟨sessions', response', step', handled⟩ := handleClient_handled before a
      cases step.symm.trans step'
      obtain ⟨forward, -, last⟩ := List.pairwise_append.mp clock
      have tracked : Tracks a.now before (history arrivals) :=
        ih hb forward fun b hb => last b hb a (List.mem_singleton_self a)
      rw [history_snoc]
      exact (handled.tracks tracked).mono (past a (by simp))

/-- The welcome page is the answer of the home branch to a valid session. -/
theorem Handled.welcome_iff {a : Arrival} {sessions sessions' : Pool} {response : Response}
    (handled : Handled sessions a sessions' response) :
    (∃ username, response = .welcome username) ↔
      HomeBranch a.request ∧
        (isSessionValid sessions ((sessionCookie a.request).getD []) a.now).2 = true := by
  cases handled with
  | login branch => simp [HomeBranch, branch.1]
  | logout branch => simp [HomeBranch, branch.1]
  | home valid branch eq =>
      rw [eq]
      cases valid <;> simp [branch]
  | other _ _ _ home never => simp [home, never]

theorem event?_eq_grant {a : Arrival} {id : Str} {data : SessionData} :
    a.event? = some (.grant id data) ↔
      LoginBranch a.request ∧ a.issuedId = id ∧
        data = { username := bytes "test_user", expireTime := a.now + 3600 } := by
  constructor
  · intro granted
    by_cases login : LoginBranch a.request
    · rw [event?_of_login login] at granted
      cases granted
      exact ⟨login, rfl, rfl⟩
    · by_cases logout : LogoutBranch a.request
      · rw [event?_of_logout logout] at granted
        cases granted
      · rw [event?_of_other login logout] at granted
        cases granted
  · rintro ⟨login, rfl, rfl⟩
    exact event?_of_login login

/-- The requests that say nothing about a session. No session has the empty id
that a logout without a cookie destroys. -/
theorem silent_iff {a : Arrival} {id : Str} (hid : id ≠ []) :
    (∀ e, a.event? = some e → e.key ≠ id) ↔
      ¬ (LoginBranch a.request ∧ a.issuedId = id) ∧
        ¬ (LogoutBranch a.request ∧ sessionCookie a.request = some id) := by
  by_cases login : LoginBranch a.request
  · have noLogout : ¬ LogoutBranch a.request := fun logout => logout.2.2 login.1
    simp [event?_of_login login, login, noLogout, Event.key]
  · by_cases logout : LogoutBranch a.request
    · simp only [event?_of_logout logout, login, logout, Option.some.injEq, false_and, true_and,
        not_false_eq_true, forall_eq', Event.key]
      cases sessionCookie a.request with
      | none => simp [Ne.symm hid]
      | some own => simp
    · simp [event?_of_other login logout, login, logout]

/-- The ledger has a session on a cookie where its last login was not followed
by a logout. -/
theorem ledger_iff_logged_in {arrivals : List Arrival} {cookie : Option Str} {now : ℤ} :
    (∃ data, ledger (history arrivals) (cookie.getD []) = some data ∧ now ≤ data.expireTime) ↔
      ∃ id older login newer, cookie = some id ∧ arrivals = older ++ login :: newer ∧
        LoginBranch login.request ∧ login.issuedId = id ∧ now ≤ login.now + 3600 ∧
        ∀ b ∈ newer, ¬ (LoginBranch b.request ∧ b.issuedId = id) ∧
          ¬ (LogoutBranch b.request ∧ sessionCookie b.request = some id) := by
  constructor
  · rintro ⟨data, held, live⟩
    obtain ⟨older, login, newer, rfl, granted, silent⟩ := ledger_filterMap_eq_some.mp held
    obtain ⟨branch, issued, rfl⟩ := event?_eq_grant.mp granted
    have hid : cookie.getD [] ≠ [] := issued ▸ issuedId_ne_nil login
    cases cookie with
    | none => exact absurd rfl hid
    | some id =>
        exact ⟨id, older, login, newer, rfl, rfl, branch, issued, live,
          fun b hb => (silent_iff hid).mp (silent b hb)⟩
  · rintro ⟨id, older, login, newer, rfl, rfl, branch, issued, live, silent⟩
    have hid : id ≠ [] := issued ▸ issuedId_ne_nil login
    exact ⟨_, ledger_filterMap_eq_some.mpr ⟨older, login, newer, rfl,
      event?_eq_grant.mpr ⟨branch, issued, rfl⟩,
      fun b hb => (silent_iff hid).mpr (silent b hb)⟩, live⟩

/-- For every sequence of requests under a clock that never goes backwards, and
each request in it: the answer is the welcome page if and only if the request
reaches the home branch with a `SESSIONID` cookie that an earlier login issued,
the latest such login is at most 3600 seconds ago, and no logout with that id
came after it. -/
theorem welcome_iff_logged_in (before after : List Arrival) (a : Arrival)
    (clock : Forward (before ++ a :: after)) :
    ∃ sessions responses response,
      httpServer.Reaches (before ++ a :: after) sessions responses ∧
      responses[before.length]? = some response ∧
      ((∃ username, response = .welcome username) ↔
        HomeBranch a.request ∧
        ∃ id older login newer, sessionCookie a.request = some id ∧
          before = older ++ login :: newer ∧
          LoginBranch login.request ∧ login.issuedId = id ∧ a.now ≤ login.now + 3600 ∧
          ∀ b ∈ newer, ¬ (LoginBranch b.request ∧ b.issuedId = id) ∧
            ¬ (LogoutBranch b.request ∧ sessionCookie b.request = some id)) := by
  have total : ∀ sessions b, (httpServer.step sessions b).isSome = true := by
    intro sessions b
    obtain ⟨sessions', response, eq, -⟩ := handleClient_handled sessions b
    simp [httpServer, eq]
  obtain ⟨sessions, responses, run⟩ := Machine.exists_reaches total (before ++ a :: after)
  obtain ⟨pool, past, next, response, earlier, step, here⟩ := run.reply httpServer_replies
  obtain ⟨pool', response', eq, handled⟩ := handleClient_handled pool a
  obtain ⟨r, step, same⟩ := Option.map_eq_some_iff.mp step
  cases eq.symm.trans step
  cases same
  refine ⟨sessions, responses, _, run, here, ?_⟩
  obtain ⟨forward, -, order⟩ := List.pairwise_append.mp clock
  have tracked : Tracks a.now pool (history before) :=
    reaches_tracks earlier forward fun b hb => order b hb a List.mem_cons_self
  rw [handled.welcome_iff, tracked.valid_iff, ledger_iff_logged_in]

def visit (now : ℤ) (request : String) : Arrival where
  request := bytes request
  idTime := now
  draws := fun _ => 0
  now := now
  file := none

/-- A login, a visit of someone else, and the visit of the one who logged in. -/
theorem welcome_iff_logged_in_visit :
    ∃ sessions responses username,
      httpServer.Reaches
        ([visit 100 "POST /login HTTP/1.1\r\n\r\n", visit 120 "GET / HTTP/1.1\r\n\r\n"] ++
          visit 3700 "GET / HTTP/1.1\r\nCookie: SESSIONID=100_0000000000000000\r\n\r\n" :: [])
        sessions responses ∧
      responses[2]? = some (.welcome username) := by
  obtain ⟨sessions, responses, response, run, here, page⟩ := welcome_iff_logged_in
    [visit 100 "POST /login HTTP/1.1\r\n\r\n", visit 120 "GET / HTTP/1.1\r\n\r\n"] []
    (visit 3700 "GET / HTTP/1.1\r\nCookie: SESSIONID=100_0000000000000000\r\n\r\n")
    (by simp [Forward, visit])
  obtain ⟨username, rfl⟩ := page.mpr ⟨by decide, bytes "100_0000000000000000", [], _, _, rfl, rfl,
    by decide, rfl, by decide, by decide⟩
  exact ⟨sessions, responses, username, run, here⟩

end StudyCode.HttpServer

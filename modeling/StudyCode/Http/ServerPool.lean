import StudyCode.Http.Authentication
import StudyCode.Http.OwnSession
import StudyCode.Http.Eviction

/-!
# What the server does to the session pool

The branches of `handleClient` are short programs over the session manager, so
a run of the server is a run of the manager. No branch calls
`clearExpiredsession`: a session that is over stays in the pool until its own
cookie comes back.
-/
namespace StudyCode.HttpServer
open StudyCode.ByteString StudyCode.Scheduled StudyCode.CookieUtil StudyCode.SessionManager

/-- One request with the calls that its branch makes, what they return, and the
answer put together from that. -/
structure Service where
  arrival : Arrival
  calls : List (ℤ × Call)
  results : List Result
  response : Response

inductive Served : Service → Prop
  | loginPage {a : Arrival} : taken a.request = .loginPage →
      Served ⟨a, [], [], .loginPage (readFrontEndFile a.file)⟩
  | login {a : Arrival} : taken a.request = .login →
      Served ⟨a, [(a.now, .createSession (bytes "test_user") 3600 a.issuedId)],
        [.sessionId a.issuedId],
        .loggedIn (buildSetCookie (bytes "SESSIONID") a.issuedId 3600)⟩
  | logout {a : Arrival} : taken a.request = .logout →
      Served ⟨a, [(a.now, .destroySession (requestId a.request))], [.done],
        .loggedOut (buildClearCookie (bytes "SESSIONID"))⟩
  | welcome {a : Arrival} (username : Str) : taken a.request = .home →
      Served ⟨a, [(a.now, .isSessionValid (requestId a.request)),
          (a.now, .getUsername (requestId a.request))],
        [.valid true, .username username], .welcome username⟩
  | refused {a : Arrival} : taken a.request = .home →
      Served ⟨a, [(a.now, .isSessionValid (requestId a.request))], [.valid false], .toLogin⟩
  | notFound {a : Arrival} : taken a.request = .notFound → Served ⟨a, [], [], .notFound⟩

theorem httpServer_step_eq (sessions : Pool) (a : Arrival) :
    httpServer.step sessions a =
      some ((respond sessions a (requestId a.request) (taken a.request)).1,
        [(respond sessions a (requestId a.request) (taken a.request)).2]) := by
  change (handleClient sessions a).map (fun r => (r.1, [r.2])) = _
  rw [handleClient_eq]
  rfl

theorem httpServer_total (sessions : Pool) (a : Arrival) :
    (httpServer.step sessions a).isSome = true := by
  rw [httpServer_step_eq]
  rfl

/-- One request is one such program. -/
theorem respond_served (sessions : Pool) (a : Arrival) :
    ∃ calls results,
      Served ⟨a, calls, results, (respond sessions a (requestId a.request) (taken a.request)).2⟩ ∧
      sessionManager.runFrom sessions calls =
        some ((respond sessions a (requestId a.request) (taken a.request)).1, results) := by
  cases branch : taken a.request with
  | loginPage => exact ⟨_, _, .loginPage branch, rfl⟩
  | login => exact ⟨_, _, .login branch, rfl⟩
  | logout => exact ⟨_, _, .logout branch, rfl⟩
  | home =>
      cases valid : (isSessionValid sessions (requestId a.request) a.now).2 with
      | true =>
          refine ⟨_, _, by rw [respond, if_pos valid]; exact .welcome _ branch, ?_⟩
          simp only [Machine.runFrom, sessionManager, call, respond, valid, Option.bind_some,
            Option.map_some, List.append_nil, List.singleton_append]
      | false =>
          refine ⟨_, _, by rw [respond, if_neg (by simp [valid])]; exact .refused branch, ?_⟩
          simp only [Machine.runFrom, sessionManager, call, respond, valid, Option.bind_some,
            Option.map_some, List.append_nil]
  | notFound => exact ⟨_, _, .notFound branch, rfl⟩

/-- Every run of the server is a run of the session manager, with the calls that the
branches make one request after another, and each answer is the one that goes with
what its calls returned. -/
theorem server_run_is_manager_run {arrivals : List Arrival} {sessions : Pool}
    {responses : List Response} (run : httpServer.Reaches arrivals sessions responses) :
    ∃ services : List Service, (∀ s ∈ services, Served s) ∧
      services.map Service.arrival = arrivals ∧ services.map Service.response = responses ∧
      sessionManager.Reaches (services.flatMap Service.calls) sessions
        (services.flatMap Service.results) := by
  refine run.induct (P := fun arrivals sessions responses => ∃ services : List Service,
    (∀ s ∈ services, Served s) ∧ services.map Service.arrival = arrivals ∧
      services.map Service.response = responses ∧
      sessionManager.Reaches (services.flatMap Service.calls) sessions
        (services.flatMap Service.results)) ?_ ?_
  · exact ⟨[], by simp, rfl, rfl, Machine.reaches_nil.mpr ⟨rfl, rfl⟩⟩
  · rintro arrivals sessions responses a next o - ⟨services, served, rfl, rfl, made⟩ step
    obtain ⟨calls, results, serves, done⟩ := respond_served sessions a
    rw [httpServer_step_eq] at step
    cases step
    refine ⟨services ++ [⟨a, calls, results, _⟩], ?_, List.map_append, List.map_append, ?_⟩
    · intro s hs
      rcases List.mem_append.mp hs with old | new
      · exact served s old
      · rw [List.mem_singleton.mp new]
        exact serves
    · simp only [List.flatMap_append, List.flatMap_cons, List.flatMap_nil, List.append_nil]
      exact Machine.reaches_append.mpr ⟨sessions, _, _, made, done, rfl⟩

theorem server_run_is_manager_run_login :
    ∃ (sessions : Pool) (services : List Service),
      services.map Service.arrival = [visit 100 "POST /login HTTP/1.1\r\n\r\n"] ∧
      sessionManager.Reaches (services.flatMap Service.calls) sessions
        (services.flatMap Service.results) := by
  obtain ⟨sessions, responses, run⟩ := Machine.exists_reaches httpServer_total
    [visit 100 "POST /login HTTP/1.1\r\n\r\n"]
  obtain ⟨services, -, arrived, -, made⟩ := server_run_is_manager_run run
  exact ⟨sessions, services, arrived, made⟩

/-! ## What the pool holds -/

/-- What a login stores. -/
def Arrival.session (a : Arrival) : SessionData where
  username := bytes "test_user"
  expireTime := a.now + 3600

/-- The request leaves a session of `id` that ends at `ends` in the pool. -/
def Keeps (id : Str) (ends : ℤ) (a : Arrival) : Prop :=
  match taken a.request with
  | .login => a.issuedId ≠ id
  | .logout => requestId a.request ≠ id
  | .home => requestId a.request = id → a.now ≤ ends
  | .loginPage | .notFound => True

theorem lookup_respond {sessions : Pool} {a : Arrival} {id : Str} {data : SessionData} :
    (respond sessions a (requestId a.request) (taken a.request)).1.lookup id = some data ↔
      (taken a.request = .login ∧ a.issuedId = id ∧ data = a.session) ∨
        sessions.lookup id = some data ∧ Keeps id data.expireTime a := by
  unfold Keeps
  cases branch : taken a.request with
  | loginPage => simp [respond]
  | login =>
      refine (@table_call sessions a.now
        (.createSession (bytes "test_user") 3600 a.issuedId) id data).trans (or_congr ?_ Iff.rfl)
      constructor
      · rintro ⟨timeout, made, ends⟩
        obtain ⟨username, expireTime⟩ := data
        obtain ⟨rfl, rfl, rfl⟩ := Call.createSession.inj made
        subst ends
        exact ⟨rfl, rfl, rfl⟩
      · rintro ⟨-, rfl, rfl⟩
        exact ⟨3600, rfl, rfl⟩
  | logout =>
      refine (@table_call sessions a.now
        (.destroySession (requestId a.request)) id data).trans (or_congr ?_ Iff.rfl)
      simp
  | home =>
      refine (@table_call sessions a.now
        (.isSessionValid (requestId a.request)) id data).trans (or_congr ?_ Iff.rfl)
      simp
  | notFound => simp [respond]

/-- For every run, under any clock: the pool holds a session for an id exactly if the
latest login with the id was followed by no logout with it and by no visit of the
home page with it after the end of the session. Nothing else removes a session. -/
theorem session_held_iff {arrivals : List Arrival} {sessions : Pool} {responses : List Response}
    (run : httpServer.Reaches arrivals sessions responses) {id : Str} {data : SessionData} :
    sessions.lookup id = some data ↔
      ∃ older login newer, arrivals = older ++ login :: newer ∧
        taken login.request = .login ∧ login.issuedId = id ∧ data = login.session ∧
        ∀ b ∈ newer, Keeps id data.expireTime b := by
  induction arrivals using List.reverseRecOn generalizing sessions responses with
  | nil =>
      obtain ⟨rfl, -⟩ := Machine.reaches_nil.mp run
      simp [httpServer]
  | append_singleton arrivals a ih =>
      obtain ⟨before, os, o, hb, hs, -⟩ := Machine.reaches_snoc.mp run
      rw [httpServer_step_eq] at hs
      cases hs
      rw [lookup_respond, ih hb]
      constructor
      · rintro (⟨login, issued, rfl⟩ |
          ⟨⟨older, login, newer, rfl, branch, issued, same, kept⟩, keeps⟩)
        · exact ⟨arrivals, a, [], rfl, login, issued, rfl, by simp⟩
        · refine ⟨older, login, newer ++ [a], by simp, branch, issued, same, ?_⟩
          intro b hb
          rcases List.mem_append.mp hb with old | new
          · exact kept b old
          · rw [List.mem_singleton.mp new]
            exact keeps
      · rintro ⟨older, login, newer, eq, branch, issued, same, kept⟩
        rcases snoc_eq_split.mp eq with ⟨-, rfl, -⟩ | ⟨rest, rfl, rfl⟩
        · exact .inl ⟨branch, issued, same⟩
        · refine .inr ⟨⟨older, login, rest, rfl, branch, issued, same, fun b hb => ?_⟩, ?_⟩
          · exact kept b (List.mem_append_left _ hb)
          · exact kept a (by simp)

theorem session_held_iff_login :
    ∃ sessions responses,
      httpServer.Reaches [visit 100 "POST /login HTTP/1.1\r\n\r\n"] sessions responses ∧
      sessions.lookup (visit 100 "POST /login HTTP/1.1\r\n\r\n").issuedId =
        some (visit 100 "POST /login HTTP/1.1\r\n\r\n").session := by
  obtain ⟨sessions, responses, run⟩ := Machine.exists_reaches httpServer_total
    [visit 100 "POST /login HTTP/1.1\r\n\r\n"]
  exact ⟨sessions, responses, run, (session_held_iff run).mpr
    ⟨[], _, [], rfl, by decide +kernel, rfl, rfl, by simp⟩⟩

end StudyCode.HttpServer

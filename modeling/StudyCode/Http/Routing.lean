import StudyCode.Http.HttpServer
import StudyCode.Http.CookieSource

/-!
# Which branch a request takes

`handleClient` recognises a route by a text that it searches for in the whole
request, one route after another. A request is routed by its request line
exactly where no route that is tried earlier has its text anywhere in it.
-/
namespace StudyCode.HttpServer
open StudyCode.ByteString StudyCode.CookieUtil StudyCode.SessionManager StudyCode.Http

/-- The scenes of `handleClient`. -/
inductive Branch where
  | loginPage
  | login
  | logout
  | home
  | notFound
  deriving DecidableEq, Repr

def Response.branch : Response → Branch
  | .loginPage _ => .loginPage
  | .loggedIn _ => .login
  | .loggedOut _ => .logout
  | .welcome _ => .home
  | .toLogin => .home
  | .notFound => .notFound

/-- The searches of `handleClient`, in their order. -/
def routes : List (String × Branch) :=
  [("GET /login.html", .loginPage), ("POST /login", .login), ("GET /logout", .logout),
    ("GET / HTTP", .home), ("GET /?", .home)]

/-- The branch of the first route whose text occurs in the request. -/
def taken (request : Str) : Branch :=
  ((routes.find? fun route => contains request route.1).map Prod.snd).getD .notFound

/-- What a branch does. -/
def respond (sessions : Pool) (a : Arrival) (sessionId : Str) : Branch → Pool × Response
  | .loginPage => (sessions, .loginPage (readFrontEndFile a.file))
  | .login =>
      let created := createSession sessions (bytes "test_user") 3600
        (generateSessionId a.idTime a.draws) a.now
      (created.1, .loggedIn (buildSetCookie (bytes "SESSIONID") created.2 3600))
  | .logout =>
      (destroySession sessions sessionId, .loggedOut (buildClearCookie (bytes "SESSIONID")))
  | .home =>
      let checked := isSessionValid sessions sessionId a.now
      (checked.1, if checked.2 then .welcome (getUsername checked.1 sessionId) else .toLogin)
  | .notFound => (sessions, .notFound)

theorem respond_branch (sessions : Pool) (a : Arrival) (sessionId : Str) (branch : Branch) :
    (respond sessions a sessionId branch).2.branch = branch := by
  cases branch with
  | home =>
      simp only [respond]
      split <;> rfl
  | _ => rfl

/-- The id that a request brings along, empty if there is none. -/
def requestId (request : Str) : Str := (sessionCookie request).getD []

/-- The searches that fail and the one that succeeds. -/
theorem taken_cases (request : Str) :
    (contains request "GET /login.html" = true ∧ taken request = .loginPage) ∨
    (contains request "GET /login.html" = false ∧ contains request "POST /login" = true ∧
      taken request = .login) ∨
    (contains request "GET /login.html" = false ∧ contains request "POST /login" = false ∧
      contains request "GET /logout" = true ∧ taken request = .logout) ∨
    (contains request "GET /login.html" = false ∧ contains request "POST /login" = false ∧
      contains request "GET /logout" = false ∧
      (contains request "GET / HTTP" = true ∨
        contains request "GET / HTTP" = false ∧ contains request "GET /?" = true) ∧
      taken request = .home) ∨
    (contains request "GET /login.html" = false ∧ contains request "POST /login" = false ∧
      contains request "GET /logout" = false ∧ contains request "GET / HTTP" = false ∧
      contains request "GET /?" = false ∧ taken request = .notFound) := by
  unfold taken routes
  cases page : contains request "GET /login.html" with
  | true => simp [page]
  | false =>
    cases login : contains request "POST /login" with
    | true => simp [page, login]
    | false =>
      cases logout : contains request "GET /logout" with
      | true => simp [page, login, logout]
      | false =>
        cases root : contains request "GET / HTTP" with
        | true => simp [page, login, logout, root]
        | false =>
          cases query : contains request "GET /?" <;> simp [page, login, logout, root, query]

theorem handleClient_eq (sessions : Pool) (a : Arrival) :
    handleClient sessions a =
      some (respond sessions a (requestId a.request) (taken a.request)) := by
  obtain ⟨cookies, parsed⟩ := Option.isSome_iff_exists.mp (parseCookies_isSome a.request)
  have cookie : requestId a.request = sessionIdOf cookies := by
    rw [requestId, sessionCookie, parsed]
    rfl
  have home : (if (isSessionValid sessions (sessionIdOf cookies) a.now).2 = true then
        some ((isSessionValid sessions (sessionIdOf cookies) a.now).1,
          Response.welcome (getUsername (isSessionValid sessions (sessionIdOf cookies) a.now).1
            (sessionIdOf cookies)))
      else some ((isSessionValid sessions (sessionIdOf cookies) a.now).1, .toLogin)) =
      some (respond sessions a (sessionIdOf cookies) .home) := by
    simp only [respond]
    split <;> rfl
  rw [handleClient, parsed, cookie]
  rcases taken_cases a.request with ⟨page, eq⟩ | ⟨page, login, eq⟩ | ⟨page, login, logout, eq⟩ |
      ⟨page, login, logout, root | ⟨root, query⟩, eq⟩ | ⟨page, login, logout, root, query, eq⟩ <;>
    rw [eq]
  · simp [page, respond]
  · simp [page, login, respond]
  · simp [page, login, logout, respond]
  · simpa [page, login, logout, root] using home
  · simpa [page, login, logout, root, query] using home
  · simp [page, login, logout, root, query, respond]

/-- The texts that are searched for before those of a branch. -/
def Branch.earlier (branch : Branch) : List String :=
  (routes.takeWhile fun route => route.2 != branch).map Prod.fst

/-- The texts by which a branch is recognised. -/
def Branch.own (branch : Branch) : List String :=
  (routes.filter fun route => route.2 == branch).map Prod.fst

theorem taken_eq_iff {request : Str} {branch : Branch} :
    taken request = branch ↔
      (∀ text ∈ branch.earlier, ¬ bytes text <:+: request) ∧
        (branch = .notFound ∨ ∃ text ∈ branch.own, bytes text <:+: request) := by
  simp only [← contains_iff]
  rcases taken_cases request with ⟨page, eq⟩ | ⟨page, login, eq⟩ | ⟨page, login, logout, eq⟩ |
      ⟨page, login, logout, root | ⟨root, query⟩, eq⟩ | ⟨page, login, logout, root, query, eq⟩ <;>
    rw [eq] <;> cases branch <;> simp [Branch.earlier, Branch.own, routes, *]

/-! ## The request line -/

/-- The target up to its query. -/
def path (line : RequestLine) : Str := line.target.takeWhile (· != '?'.toUInt8)

/-- The branch that the comments of `handleClient` name for a method and a path. -/
def intended (line : RequestLine) : Branch :=
  if line.method = bytes "GET" ∧ path line = bytes "/login.html" then .loginPage
  else if line.method = bytes "POST" ∧ path line = bytes "/login" then .login
  else if line.method = bytes "GET" ∧ path line = bytes "/logout" then .logout
  else if line.method = bytes "GET" ∧ path line = bytes "/" then .home
  else .notFound

/-- A request begins with its method and its path. -/
theorem method_path_occurs {r : HttpRequest} {method target : Str}
    (hm : r.line.method = method) (hp : path r.line = target) :
    method ++ space :: target <:+: r.text := by
  obtain ⟨query, eq⟩ := List.takeWhile_prefix (· != '?'.toUInt8) (l := r.line.target)
  refine List.IsPrefix.isInfix ⟨query ++ space :: r.line.version ++ newline ++
    (r.headers.flatMap fun header => header.text ++ newline) ++ newline ++ r.body, ?_⟩
  rw [HttpRequest.text, opening, RequestLine.text, ← eq, ← hm, ← hp, path]
  simp [List.append_assoc]

/-- Behind the path of the home page comes the protocol, or a query. -/
theorem home_occurs {r : HttpRequest} (hm : r.line.method = bytes "GET")
    (hp : path r.line = bytes "/") :
    bytes "GET / HTTP" <:+: r.text ∨ bytes "GET /?" <:+: r.text := by
  obtain ⟨digits, hv⟩ := r.line.protocol
  have target : r.line.target =
      bytes "/" ++ r.line.target.dropWhile (· != '?'.toUInt8) := by
    rw [← hp, path, List.takeWhile_append_dropWhile]
  cases query : r.line.target.dropWhile (· != '?'.toUInt8) with
  | nil =>
      refine .inl (List.IsPrefix.isInfix ⟨digits ++ newline ++
        (r.headers.flatMap fun header => header.text ++ newline) ++ newline ++ r.body, ?_⟩)
      rw [HttpRequest.text, opening, RequestLine.text, target, query, hm, ← hv]
      simp only [List.append_assoc]
      rfl
  | cons mark rest =>
      have head := List.head?_dropWhile_not (· != '?'.toUInt8) r.line.target
      rw [query] at head
      obtain rfl : mark = '?'.toUInt8 := by simpa using head
      refine .inr (List.IsPrefix.isInfix ⟨rest ++ space :: r.line.version ++ newline ++
        (r.headers.flatMap fun header => header.text ++ newline) ++ newline ++ r.body, ?_⟩)
      rw [HttpRequest.text, opening, RequestLine.text, target, query, hm]
      simp only [List.append_assoc, List.cons_append]
      rfl

/-- The request line has a text of the branch that it is for. -/
theorem own_occurs (r : HttpRequest) :
    intended r.line = .notFound ∨ ∃ text ∈ (intended r.line).own, bytes text <:+: r.text := by
  unfold intended
  split
  · rename_i line
    exact .inr ⟨"GET /login.html", by simp [Branch.own, routes], method_path_occurs line.1 line.2⟩
  · split
    · rename_i line
      exact .inr ⟨"POST /login", by simp [Branch.own, routes], method_path_occurs line.1 line.2⟩
    · split
      · rename_i line
        exact .inr ⟨"GET /logout", by simp [Branch.own, routes], method_path_occurs line.1 line.2⟩
      · split
        · rename_i line
          rcases home_occurs line.1 line.2 with root | query
          · exact .inr ⟨"GET / HTTP", by simp [Branch.own, routes], root⟩
          · exact .inr ⟨"GET /?", by simp [Branch.own, routes], query⟩
        · exact .inl rfl

/-- A request at time 0. -/
def arrive (r : HttpRequest) : Arrival where
  request := r.text
  idTime := 0
  draws := id
  now := 0
  file := none

/-- Whatever the pool and the world are, the server takes the branch of the
method and the path when the text that it has read is the request. -/
def RoutedByLine (r : HttpRequest) : Prop :=
  ∀ sessions (a : Arrival), a.request = r.text →
    ∃ next response, handleClient sessions a = some (next, response) ∧
      response.branch = intended r.line

theorem routedByLine_iff_taken {r : HttpRequest} :
    RoutedByLine r ↔ taken r.text = intended r.line := by
  constructor
  · intro routed
    obtain ⟨next, response, eq, branch⟩ := routed ∅ (arrive r) rfl
    rw [handleClient_eq, Option.some.injEq] at eq
    have answered := respond_branch ∅ (arrive r) (requestId r.text) (taken r.text)
    rw [show respond ∅ (arrive r) (requestId r.text) (taken r.text) = (next, response) from eq]
      at answered
    exact answered.symm.trans branch
  · intro same sessions a sent
    exact ⟨_, _, handleClient_eq sessions a,
      (respond_branch _ _ _ _).trans (by rw [sent, same])⟩

/-- For every request: the server takes the branch of the method and the path if
and only if no text that it searches for before those of that branch occurs
anywhere in the request. -/
theorem routed_by_line_iff (r : HttpRequest) :
    RoutedByLine r ↔ ∀ text ∈ (intended r.line).earlier, ¬ bytes text <:+: r.text := by
  rw [routedByLine_iff_taken, taken_eq_iff]
  exact and_iff_left (own_occurs r)

def getHome (body : String) : HttpRequest where
  line := getRoot
  headers := []
  body := bytes body

/-- A visit of the home page whose body mentions the logout is a logout, so two
requests with one request line take different branches. -/
theorem routed_by_body :
    (¬ ∀ r, RoutedByLine r) ∧
      ¬ ∀ r r' : HttpRequest, r.line = r'.line →
        (handleClient ∅ (arrive r)).map (fun result => result.2.branch) =
          (handleClient ∅ (arrive r')).map fun result => result.2.branch := by
  constructor
  · intro claim
    have routed := routedByLine_iff_taken.mp (claim (getHome "GET /logout"))
    exact absurd routed (by decide +kernel)
  · intro claim
    have same := claim (getHome "GET /logout") (getHome "") rfl
    exact absurd same (by decide +kernel)

end StudyCode.HttpServer

import StudyCode.Http.CookieUtil
import StudyCode.Http.SessionManager

/-!
# `HttpServer::handleClient`

Requests are handled one after another. What a request finds in its world (the
clock readings, the draws of the random generator, the file of the login page)
arrives with it. A response is a page with its data, and `Response.text` is what
the server writes for it.
-/
namespace StudyCode.HttpServer
open StudyCode.ByteString StudyCode.Scheduled StudyCode.CookieUtil StudyCode.SessionManager

structure Arrival where
  request : Str
  /-- the clock in `generateSessionId` -/
  idTime : ℤ
  draws : Fin 16 → Fin 16
  /-- the clock in `createSession` and in `isSessionValid` -/
  now : ℤ
  /-- the text of `web/login.html`, if it can be opened -/
  file : Option Str

inductive Response where
  | loginPage (html : Str)
  | loggedIn (setCookieHeader : Str)
  | loggedOut (clearCookieHeader : Str)
  | welcome (username : Str)
  | toLogin
  | notFound
  deriving DecidableEq, Repr

def Response.text : Response → Str
  | .loginPage html =>
      bytes "HTTP/1.1 200 OK\r\n" ++ bytes "Content-Type: text/html; charset=utf-8\r\n" ++
        bytes "Connection: close\r\n" ++ bytes "\r\n" ++ html
  | .loggedIn setCookieHeader =>
      bytes "HTTP/1.1 302 Found\r\n" ++ setCookieHeader ++ bytes "Location: /\r\n" ++ bytes "\r\n"
  | .loggedOut clearCookieHeader =>
      bytes "HTTP/1.1 302 Found\r\n" ++ clearCookieHeader ++ bytes "Location: /login.html\r\n" ++
        bytes "\r\n"
  | .welcome username =>
      bytes "HTTP/1.1 200 OK\r\n" ++ bytes "Content-Type: text/html; charset=utf-8\r\n" ++
        bytes "Connection: close\r\n" ++ bytes "\r\n" ++
        (bytes "<h1>Hello World! 🎉</h1>" ++ bytes "<p>欢迎你，" ++ username ++
          bytes "！你已经成功登录啦~</p>" ++ bytes "<a href='/logout'>点击这里登出</a>")
  | .toLogin => bytes "HTTP/1.1 302 Found\r\n" ++ bytes "Location: /login.html\r\n" ++ bytes "\r\n"
  | .notFound =>
      bytes "HTTP/1.1 404 Not Found\r\n" ++ bytes "Content-Type: text/html; charset=utf-8\r\n" ++
        bytes "Connection: close\r\n" ++ bytes "\r\n<h1>404 页面不存在</h1>"

def readFrontEndFile (file : Option Str) : Str := file.getD (bytes "<h1>文件未找到!</h1>")

/-- `request.find(text) != npos` -/
def contains (request : Str) (text : String) : Bool := (find (bytes text) request).isSome

/-- `cookies["SESSIONID"]`, empty where there is no such cookie. -/
def sessionIdOf (cookies : Cookies) : Str := (cookies.lookup (bytes "SESSIONID")).getD []

def handleClient (sessions : Pool) (a : Arrival) : Option (Pool × Response) := do
  let cookies ← parseCookies a.request
  let sessionId := sessionIdOf cookies
  if contains a.request "GET /login.html" then
    return (sessions, .loginPage (readFrontEndFile a.file))
  else if contains a.request "POST /login" then
    let created := createSession sessions (bytes "test_user") 3600
      (generateSessionId a.idTime a.draws) a.now
    return (created.1, .loggedIn (buildSetCookie (bytes "SESSIONID") created.2 3600))
  else if contains a.request "GET /logout" then
    return (destroySession sessions sessionId, .loggedOut (buildClearCookie (bytes "SESSIONID")))
  else if contains a.request "GET / HTTP" || contains a.request "GET /?" then
    let checked := isSessionValid sessions sessionId a.now
    if checked.2 then return (checked.1, .welcome (getUsername checked.1 sessionId))
    else return (checked.1, .toLogin)
  else return (sessions, .notFound)

/-- The loop of `start`, from the empty pool on. -/
def httpServer : Machine Pool Arrival Response where
  start := ∅
  step sessions a := (handleClient sessions a).map fun r => (r.1, [r.2])

theorem httpServer_replies : httpServer.Replies := by
  intro sessions a t o hs
  obtain ⟨r, -, eq⟩ := Option.map_eq_some_iff.mp hs
  cases eq
  rfl

/-! ## The branches -/

def LoginBranch (request : Str) : Prop :=
  bytes "POST /login" <:+: request ∧ ¬ bytes "GET /login.html" <:+: request

def LogoutBranch (request : Str) : Prop :=
  bytes "GET /logout" <:+: request ∧ ¬ bytes "GET /login.html" <:+: request ∧
    ¬ bytes "POST /login" <:+: request

def HomeBranch (request : Str) : Prop :=
  (bytes "GET / HTTP" <:+: request ∨ bytes "GET /?" <:+: request) ∧
    ¬ bytes "GET /login.html" <:+: request ∧ ¬ bytes "POST /login" <:+: request ∧
    ¬ bytes "GET /logout" <:+: request

instance (request : Str) : Decidable (LoginBranch request) :=
  inferInstanceAs (Decidable (_ ∧ _))

instance (request : Str) : Decidable (LogoutBranch request) :=
  inferInstanceAs (Decidable (_ ∧ _ ∧ _))

instance (request : Str) : Decidable (HomeBranch request) :=
  inferInstanceAs (Decidable (_ ∧ _ ∧ _ ∧ _))

theorem contains_iff {request : Str} {text : String} :
    contains request text = true ↔ bytes text <:+: request := find_isSome

/-- The value of the request's `SESSIONID` cookie. -/
def sessionCookie (request : Str) : Option Str :=
  (parseCookies request).bind fun cookies => cookies.lookup (bytes "SESSIONID")

/-- One request, by the branch it takes. -/
inductive Handled (sessions : Pool) (a : Arrival) : Pool → Response → Prop
  | login : LoginBranch a.request → Handled sessions a
      (createSession sessions (bytes "test_user") 3600 (generateSessionId a.idTime a.draws) a.now).1
      (.loggedIn (buildSetCookie (bytes "SESSIONID") (generateSessionId a.idTime a.draws) 3600))
  | logout : LogoutBranch a.request → Handled sessions a
      (destroySession sessions ((sessionCookie a.request).getD []))
      (.loggedOut (buildClearCookie (bytes "SESSIONID")))
  | home (valid : Bool) : HomeBranch a.request →
      (isSessionValid sessions ((sessionCookie a.request).getD []) a.now).2 = valid →
      Handled sessions a
        (isSessionValid sessions ((sessionCookie a.request).getD []) a.now).1
        (if valid then .welcome (getUsername
          (isSessionValid sessions ((sessionCookie a.request).getD []) a.now).1
          ((sessionCookie a.request).getD [])) else .toLogin)
  | other (response : Response) : ¬ LoginBranch a.request → ¬ LogoutBranch a.request →
      ¬ HomeBranch a.request → (∀ username, response ≠ .welcome username) →
      Handled sessions a sessions response

/-- Every request is answered, by one of the branches. -/
theorem handleClient_handled (sessions : Pool) (a : Arrival) :
    ∃ sessions' response, handleClient sessions a = some (sessions', response) ∧
      Handled sessions a sessions' response := by
  obtain ⟨cookies, parsed⟩ := Option.isSome_iff_exists.mp (parseCookies_isSome a.request)
  have cookie : (sessionCookie a.request).getD [] = sessionIdOf cookies := by
    rw [sessionCookie, parsed]
    rfl
  by_cases page : bytes "GET /login.html" <:+: a.request
  · refine ⟨_, .loginPage (readFrontEndFile a.file), ?_, .other _ (fun h => h.2 page)
      (fun h => h.2.1 page) (fun h => h.2.1 page) (by simp)⟩
    simp [handleClient, parsed, contains_iff.mpr page]
  by_cases login : bytes "POST /login" <:+: a.request
  · refine ⟨_, _, ?_, .login ⟨login, page⟩⟩
    simp [handleClient, parsed, contains_iff, page, login, createSession]
  by_cases logout : bytes "GET /logout" <:+: a.request
  · refine ⟨_, _, ?_, .logout ⟨logout, page, login⟩⟩
    simp [handleClient, parsed, contains_iff, page, login, logout, cookie]
  by_cases home : bytes "GET / HTTP" <:+: a.request ∨ bytes "GET /?" <:+: a.request
  · refine ⟨_, _, ?_, .home _ ⟨home, page, login, logout⟩ rfl⟩
    simp only [handleClient, parsed, contains_iff, page, login, logout, cookie, Bool.or_eq_true,
      if_pos home, if_false, Option.bind_eq_bind, Option.bind_some]
    split <;> rfl
  · refine ⟨_, .notFound, ?_, .other _ (fun h => login h.1) (fun h => logout h.1)
      (fun h => home h.1) (by simp)⟩
    simp [handleClient, parsed, contains_iff, page, login, logout, home]

end StudyCode.HttpServer

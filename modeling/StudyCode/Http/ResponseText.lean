import StudyCode.Lib.HeaderBlock
import StudyCode.Http.LoginCookie
import StudyCode.Http.ServerPool

/-!
# What the server writes

A response is lines up to an empty line, and a body. The lines are literals and
session ids, so nothing that a client sends can end a line or begin the body.
-/
namespace StudyCode.HttpServer
open StudyCode.ByteString StudyCode.CookieUtil StudyCode.SessionManager StudyCode.Http

/-- The lines and the body of a text, as a client divides it. -/
def readResponse (text : Str) : Option (List Str × Str) :=
  readBlock carriageReturn lineFeed text

/-- `buildSetCookie` without the line end. -/
def setCookieLine (key value : Str) (maxAge : ℤ) : Str :=
  bytes "Set-Cookie:" ++ key ++ bytes "=" ++ value ++ bytes "; Path=/; HttpOnly; Max-Age=" ++
    decimal maxAge

/-- `buildClearCookie` without the line end. -/
def clearCookieLine (key : Str) : Str :=
  bytes "Set-Cookie:" ++ key ++ bytes "=; Path=/; HttpOnly; Max-Age=0"

/-- The lines of a response that is a page. -/
def pageLines (status : String) : List Str :=
  [bytes status, bytes "Content-Type: text/html; charset=utf-8", bytes "Connection: close"]

/-- The lines of a response that names another page. -/
def redirectLines (cookies : List Str) (location : String) : List Str :=
  bytes "HTTP/1.1 302 Found" :: (cookies ++ [bytes location])

/-- What a client reads where a branch answers. -/
def answerRead (sessions : Pool) (a : Arrival) : Branch → List Str × Str
  | .loginPage => (pageLines "HTTP/1.1 200 OK", readFrontEndFile a.file)
  | .login =>
      (redirectLines [setCookieLine (bytes "SESSIONID") a.issuedId 3600] "Location: /", [])
  | .logout =>
      (redirectLines [clearCookieLine (bytes "SESSIONID")] "Location: /login.html", [])
  | .home =>
      let checked := isSessionValid sessions (requestId a.request) a.now
      if checked.2 then
        (pageLines "HTTP/1.1 200 OK", bytes "<h1>Hello World! 🎉</h1>" ++ bytes "<p>欢迎你，" ++
          getUsername checked.1 (requestId a.request) ++ bytes "！你已经成功登录啦~</p>" ++
          bytes "<a href='/logout'>点击这里登出</a>")
      else (redirectLines [] "Location: /login.html", [])
  | .notFound => (pageLines "HTTP/1.1 404 Not Found", bytes "<h1>404 页面不存在</h1>")

theorem newline_eq : newline = [carriageReturn, lineFeed] := by decide

theorem buildSetCookie_eq (key value : Str) (maxAge : ℤ) :
    buildSetCookie key value maxAge = setCookieLine key value maxAge ++ newline := rfl

theorem buildClearCookie_eq (key : Str) :
    buildClearCookie key = clearCookieLine key ++ newline := by
  have ended : bytes "=; Path=/; HttpOnly; Max-Age=0\r\n" =
      bytes "=; Path=/; HttpOnly; Max-Age=0" ++ newline := by decide +kernel
  rw [buildClearCookie, ended, clearCookieLine, List.append_assoc _ _ newline]

theorem pageLines_text (status : String) (body : Str) :
    block carriageReturn lineFeed (pageLines status) body =
      bytes status ++ newline ++ bytes "Content-Type: text/html; charset=utf-8\r\n" ++
        bytes "Connection: close\r\n" ++ newline ++ body := by
  have typed : bytes "Content-Type: text/html; charset=utf-8\r\n" =
      bytes "Content-Type: text/html; charset=utf-8" ++ newline := by decide +kernel
  have closed : bytes "Connection: close\r\n" = bytes "Connection: close" ++ newline := by
    decide +kernel
  rw [typed, closed]
  simp [block, pageLines, newline_eq]

theorem redirectLines_text (cookies : List Str) (location : String) :
    block carriageReturn lineFeed (redirectLines cookies location) [] =
      bytes "HTTP/1.1 302 Found\r\n" ++ cookies.flatMap (· ++ newline) ++
        (bytes location ++ newline) ++ newline := by
  have found : bytes "HTTP/1.1 302 Found\r\n" = bytes "HTTP/1.1 302 Found" ++ newline := by
    decide +kernel
  rw [found]
  simp [block, redirectLines, newline_eq]

/-- The text of each answer is its lines and its body. -/
theorem respond_text (sessions : Pool) (a : Arrival) (branch : Branch) :
    (respond sessions a (requestId a.request) branch).2.text =
      block carriageReturn lineFeed (answerRead sessions a branch).1
        (answerRead sessions a branch).2 := by
  have ok : bytes "HTTP/1.1 200 OK\r\n" = bytes "HTTP/1.1 200 OK" ++ newline := by decide +kernel
  have root : bytes "Location: /\r\n" = bytes "Location: /" ++ newline := by decide +kernel
  have login : bytes "Location: /login.html\r\n" = bytes "Location: /login.html" ++ newline := by
    decide +kernel
  cases branch with
  | loginPage =>
      rw [respond, answerRead, pageLines_text, Response.text, ok]
      rfl
  | login =>
      rw [respond, answerRead, redirectLines_text, Response.text, root, buildSetCookie_eq]
      simp [createSession, Arrival.issuedId, newline]
  | logout =>
      rw [respond, answerRead, redirectLines_text, Response.text, login, buildClearCookie_eq]
      simp [newline]
  | home =>
      simp only [respond, answerRead]
      split
      · rw [pageLines_text, Response.text, ok]
        rfl
      · rw [redirectLines_text, Response.text, login]
        simp [newline]
  | notFound =>
      have missing : bytes "HTTP/1.1 404 Not Found\r\n" =
          bytes "HTTP/1.1 404 Not Found" ++ newline := by decide +kernel
      have body : bytes "\r\n<h1>404 页面不存在</h1>" =
          newline ++ bytes "<h1>404 页面不存在</h1>" := by decide +kernel
      rw [respond, answerRead, pageLines_text, Response.text, missing, body]
      simp only [List.append_assoc]

/-! ## Reading it back -/

theorem setCookieLine_plain (a : Arrival) (maxAge : ℤ) :
    carriageReturn ∉ setCookieLine (bytes "SESSIONID") a.issuedId maxAge := by
  have id : carriageReturn ∉ a.issuedId := generateSessionId_plain (by decide) _ _
  have age : carriageReturn ∉ decimal maxAge := fun inside =>
    absurd (idByte_decimal inside) (by decide)
  have before : carriageReturn ∉ bytes "Set-Cookie:" ++ bytes "SESSIONID" ++ bytes "=" := by decide
  have between : carriageReturn ∉ bytes "; Path=/; HttpOnly; Max-Age=" := by decide
  simp only [setCookieLine, List.mem_append, not_or] at before ⊢
  exact ⟨⟨⟨before, id⟩, between⟩, age⟩

/-- No line of an answer has a line end in it, and none is empty. -/
theorem answerRead_lines (sessions : Pool) (a : Arrival) (branch : Branch) :
    ∃ status lines, (answerRead sessions a branch).1 = status :: lines ∧
      (∀ line ∈ status :: lines, carriageReturn ∉ line) ∧ ∀ line ∈ lines, line ≠ [] := by
  cases branch with
  | loginPage => exact ⟨_, _, rfl, by decide +kernel, by decide +kernel⟩
  | login =>
      have cookie := setCookieLine_plain a 3600
      refine ⟨_, _, rfl, ?_, ?_⟩
      · simp only [List.cons_append, List.nil_append, List.forall_mem_cons, List.not_mem_nil,
          false_implies, implies_true, and_true]
        exact ⟨by decide +kernel, cookie, by decide⟩
      · simp only [List.cons_append, List.nil_append, List.forall_mem_cons, List.not_mem_nil,
          false_implies, implies_true, and_true]
        exact ⟨by simp [setCookieLine, show bytes "Set-Cookie:" ≠ [] by decide], by decide⟩
  | logout => exact ⟨_, _, rfl, by decide +kernel, by decide +kernel⟩
  | home =>
      simp only [answerRead]
      split
      · exact ⟨_, _, rfl, by decide +kernel, by decide +kernel⟩
      · exact ⟨_, _, rfl, by decide +kernel, by decide +kernel⟩
  | notFound => exact ⟨_, _, rfl, by decide +kernel, by decide +kernel⟩

theorem readResponse_respond (sessions : Pool) (a : Arrival) (branch : Branch) :
    readResponse (respond sessions a (requestId a.request) branch).2.text =
      some (answerRead sessions a branch) := by
  obtain ⟨status, lines, eq, plain, filled⟩ := answerRead_lines sessions a branch
  rw [respond_text, readResponse, eq, readBlock_block (by decide) plain filled, ← eq]

/-- For every pool, request and clock reading: a client that divides what the server
writes at the line ends, up to the first empty line, reads exactly the lines and the
body of the branch. The only line with anything but literals in it is the
`Set-Cookie` of a login, with the id that the pool now holds, so no request can add a
line to an answer or move its body. -/
theorem responses_read_back (sessions : Pool) (a : Arrival) :
    ∃ next response, handleClient sessions a = some (next, response) ∧
      readResponse response.text = some (answerRead sessions a (taken a.request)) :=
  ⟨_, _, handleClient_eq sessions a, readResponse_respond sessions a (taken a.request)⟩

end StudyCode.HttpServer

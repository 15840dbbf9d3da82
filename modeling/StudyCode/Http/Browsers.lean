import StudyCode.Http.Delivery
import StudyCode.Http.ResponseText
import StudyCode.Http.SessionId
import StudyCode.Http.Visits

/-!
# Browsers and the server

Any number of browsers visit the server one request after another. A browser
knows what it reads in the answers to its own requests: it keeps the session
cookie that a `Set-Cookie` line gives it, for the time that the line says, and
sends it back until then. What links a login to the visits after it is only text.
-/
namespace StudyCode.HttpServer
open StudyCode.ByteString StudyCode.Scheduled StudyCode.Lease StudyCode.CookieUtil
  StudyCode.SessionManager StudyCode.Http

/-! ## What a browser keeps -/

structure Kept where
  id : Str
  /-- without an end it is kept until the browser is closed -/
  ends : Option ℤ
  deriving DecidableEq, Repr

/-- The attribute `Max-Age` of a `Set-Cookie` line. -/
def maxAge? (line : Str) : Option ℤ :=
  let attributes := line.dropWhile (· != semicolon)
  (find (bytes "; Max-Age=") attributes).map fun p =>
    readDecimal ((attributes.drop (p + 10)).takeWhile (· != semicolon))

/-- One line of an answer that is read at time `now`. -/
def keepLine (now : ℤ) (jar : Option Kept) (line : Str) : Option Kept :=
  if (bytes "Set-Cookie:").isPrefixOf line ∧
      (browserCookie line).takeWhile (· != equals) = bytes "SESSIONID" then
    let id := (browserCookie line).drop ((bytes "SESSIONID").length + 1)
    match maxAge? line with
    | none => some ⟨id, none⟩
    | some age => if age ≤ 0 then none else some ⟨id, some (now + age)⟩
  else jar

def receive (now : ℤ) (jar : Option Kept) (text : Str) : Option Kept :=
  match readResponse text with
  | none => jar
  | some (lines, _) => lines.foldl (keepLine now) jar

/-- The session id that goes into a request. -/
def sent (now : ℤ) (jar : Option Kept) : Option Str :=
  (jar.filter fun kept => kept.ends.all (now ≤ ·)).map Kept.id

theorem keepLine_of_other {now : ℤ} {jar : Option Kept} {line : Str}
    (h : (bytes "Set-Cookie:").isPrefixOf line = false) : keepLine now jar line = jar :=
  if_neg (by simp [h])

theorem browserCookie_line {id tail : Str} (plain : semicolon ∉ id) :
    browserCookie (bytes "Set-Cookie:" ++ bytes "SESSIONID" ++ bytes "=" ++ id ++
      semicolon :: tail) = sessionPair id := by
  have shape : (bytes "Set-Cookie:" ++ bytes "SESSIONID" ++ bytes "=" ++ id ++
      semicolon :: tail).drop (bytes "Set-Cookie:").length =
        sessionPair id ++ semicolon :: tail := by
    simp only [List.append_assoc, List.drop_left, sessionPair]
    rfl
  rw [browserCookie, shape]
  refine takeWhile_append_cons (fun c hc => ?_) (by simp)
  rw [bne_iff_ne]
  rintro rfl
  rcases List.mem_append.mp hc with name | value
  · exact absurd name (by decide)
  · rcases List.mem_cons.mp value with eq | value
    · exact absurd eq (by decide)
    · exact plain value

theorem maxAge?_line {start tail : Str} (plain : semicolon ∉ start) :
    maxAge? (start ++ semicolon :: tail) = maxAge? (semicolon :: tail) := by
  have skipped : (start ++ semicolon :: tail).dropWhile (· != semicolon) =
      (semicolon :: tail).dropWhile (· != semicolon) := by
    refine List.dropWhile_append_of_pos fun c hc => ?_
    rw [bne_iff_ne]
    rintro rfl
    exact plain hc
  rw [maxAge?, maxAge?, skipped]

theorem keepLine_setCookieLine (now : ℤ) (jar : Option Kept) {id : Str} (plain : semicolon ∉ id) :
    keepLine now jar (setCookieLine (bytes "SESSIONID") id 3600) =
      some ⟨id, some (now + 3600)⟩ := by
  have line : setCookieLine (bytes "SESSIONID") id 3600 = bytes "Set-Cookie:" ++
      bytes "SESSIONID" ++ bytes "=" ++ id ++
        semicolon :: (bytes " Path=/; HttpOnly; Max-Age=" ++ decimal 3600) := by
    simp only [setCookieLine, List.append_assoc]
    rfl
  have named : (bytes "Set-Cookie:").isPrefixOf (bytes "Set-Cookie:" ++ bytes "SESSIONID" ++
      bytes "=" ++ id ++ semicolon :: (bytes " Path=/; HttpOnly; Max-Age=" ++ decimal 3600)) =
        true := by
    simp only [List.append_assoc]
    exact List.isPrefixOf_iff_prefix.mpr (List.prefix_append _ _)
  have noSemicolon : semicolon ∉ bytes "Set-Cookie:" ++ bytes "SESSIONID" ++ bytes "=" ++ id := by
    simp only [List.mem_append, plain, or_false]
    decide
  have age : maxAge? (semicolon :: (bytes " Path=/; HttpOnly; Max-Age=" ++ decimal 3600)) =
      some 3600 := by decide +kernel
  have name : (sessionPair id).takeWhile (· != equals) = bytes "SESSIONID" :=
    takeWhile_key (by decide) id
  have value : (sessionPair id).drop ((bytes "SESSIONID").length + 1) = id := by
    rw [sessionPair, ← List.drop_drop, List.drop_left, List.drop_succ_cons, List.drop_zero]
  rw [keepLine, line, browserCookie_line plain, if_pos ⟨named, name⟩, maxAge?_line noSemicolon, age,
    value]
  exact if_neg (by decide)

theorem keepLine_clearCookieLine (now : ℤ) (jar : Option Kept) :
    keepLine now jar (clearCookieLine (bytes "SESSIONID")) = none := by
  have age : maxAge? (clearCookieLine (bytes "SESSIONID")) = some 0 := by decide +kernel
  rw [keepLine, if_pos (by decide +kernel), age]
  exact if_pos (Int.le_refl 0)

/-- What an answer leaves in the jar. -/
def kept (a : Arrival) (jar : Option Kept) : Branch → Option Kept
  | .login => some ⟨a.issuedId, some (a.now + 3600)⟩
  | .logout => none
  | .loginPage | .home | .notFound => jar

theorem receive_respond (sessions : Pool) (a : Arrival) (jar : Option Kept) (branch : Branch) :
    receive a.now jar (respond sessions a (requestId a.request) branch).2.text =
      kept a jar branch := by
  have page : ∀ status ∈ ["HTTP/1.1 200 OK", "HTTP/1.1 404 Not Found"],
      (pageLines status).foldl (keepLine a.now) jar = jar := by
    intro status hs
    have status : (bytes "Set-Cookie:").isPrefixOf (bytes status) = false := by
      revert hs status
      decide +kernel
    rw [pageLines, List.foldl_cons, List.foldl_cons, List.foldl_cons, List.foldl_nil,
      keepLine_of_other status, keepLine_of_other (by decide +kernel),
      keepLine_of_other (by decide +kernel)]
  have redirect : ∀ (cookies : List Str) (location : String),
      (bytes "Set-Cookie:").isPrefixOf (bytes location) = false →
      (redirectLines cookies location).foldl (keepLine a.now) jar =
        cookies.foldl (keepLine a.now) jar := by
    intro cookies location other
    rw [redirectLines, List.foldl_cons, List.foldl_append, List.foldl_cons, List.foldl_nil,
      keepLine_of_other other, keepLine_of_other (by decide +kernel)]
  rw [receive, readResponse_respond]
  cases branch with
  | loginPage => exact page _ (by simp)
  | login =>
      have plain : semicolon ∉ a.issuedId := generateSessionId_plain (by decide) _ _
      exact (redirect _ _ (by decide +kernel)).trans (keepLine_setCookieLine a.now jar plain)
  | logout => exact (redirect _ _ (by decide +kernel)).trans (keepLine_clearCookieLine a.now jar)
  | home =>
      simp only [answerRead]
      split
      · exact page _ (by simp)
      · exact redirect [] _ (by decide +kernel)
  | notFound => exact page _ (by simp)

/-! ## The browsers and the server together -/

/-- A request of one browser, and what it meets in the world. -/
structure Visit (β : Type*) where
  browser : β
  page : Page
  idTime : ℤ
  draws : Fin 16 → Fin 16
  now : ℤ
  file : Option Str

structure Site (β : Type*) where
  sessions : Pool
  jars : β → Option Kept

variable {β : Type*}

def Visit.branch (v : Visit β) : Branch := intended v.page.line

def Visit.issuedId (v : Visit β) : Str := generateSessionId v.idTime v.draws

def Visit.arrival (v : Visit β) (jar : Option Kept) : Arrival where
  request := readRequest (v.page.text (sent v.now jar))
  idTime := v.idTime
  draws := v.draws
  now := v.now
  file := v.file

/-- The request arrives in one read, as it was sent: it is shorter than the buffer and
has no NUL. -/
def Visit.Whole (v : Visit β) (jar : Option Kept) : Prop :=
  (v.page.text (sent v.now jar)).length < bufferSize ∧ 0 ∉ v.page.text (sent v.now jar)

instance (v : Visit β) (jar : Option Kept) : Decidable (v.Whole jar) :=
  inferInstanceAs (Decidable (_ ∧ _))

variable [DecidableEq β]

def site : Machine (Site β) (Visit β) Response where
  start := { sessions := ∅, jars := fun _ => none }
  step s v :=
    if v.Whole (s.jars v.browser) then
      (handleClient s.sessions (v.arrival (s.jars v.browser))).map fun r =>
        ({ sessions := r.1,
           jars := Function.update s.jars v.browser
            (receive v.now (s.jars v.browser) r.2.text) }, [r.2])
    else none

/-- One visit, by what the server does and what the browser reads. -/
theorem site_step {s t : Site β} {v : Visit β} {o : List Response}
    (step : site.step s v = some (t, o)) (plain : ∀ id ∈ sent v.now (s.jars v.browser),
      ∀ c ∈ id, IdByte c) :
    requestId (v.arrival (s.jars v.browser)).request = (sent v.now (s.jars v.browser)).getD [] ∧
      t.sessions = (respond s.sessions (v.arrival (s.jars v.browser))
        (requestId (v.arrival (s.jars v.browser)).request) v.branch).1 ∧
      t.jars = Function.update s.jars v.browser
        (kept (v.arrival (s.jars v.browser)) (s.jars v.browser) v.branch) ∧
      o = [(respond s.sessions (v.arrival (s.jars v.browser))
        (requestId (v.arrival (s.jars v.browser)).request) v.branch).2] := by
  obtain ⟨whole, step⟩ := Option.ite_none_right_eq_some.mp step
  have read : (v.arrival (s.jars v.browser)).request =
      v.page.text (sent v.now (s.jars v.browser)) := readRequest_eq whole.1 whole.2
  have size : (v.page.text (sent v.now (s.jars v.browser))).length ≤ npos := by
    have short := whole.1
    unfold bufferSize at short
    unfold npos wordSize
    omega
  have branch : taken (v.arrival (s.jars v.browser)).request = v.branch := by
    rw [read]
    exact v.page.taken_text plain
  rw [handleClient_eq, branch, Option.map_some] at step
  cases step
  refine ⟨?_, rfl, ?_, rfl⟩
  · rw [read]
    exact v.page.requestId_text plain size
  · exact congrArg (Function.update s.jars v.browser)
      (receive_respond s.sessions (v.arrival (s.jars v.browser)) (s.jars v.browser) v.branch)

/-! ## What holds between the jars and the pool -/

/-- What a visit means for its browser. -/
def Visit.event? (v : Visit β) : Option (Event β Kept) :=
  match v.branch with
  | .login => some (.grant v.browser ⟨v.issuedId, some (v.now + 3600)⟩)
  | .logout => some (.revoke v.browser)
  | .loginPage | .home | .notFound => none

/-- No two logins draw the same id. -/
def Fresh (visits : List (Visit β)) : Prop :=
  visits.Pairwise fun v w => v.branch = .login → w.branch = .login →
    ¬ (v.idTime = w.idTime ∧ v.draws = w.draws)

structure Consistent (s : Site β) (visits : List (Visit β)) : Prop where
  jars : ∀ b, s.jars b = ledger (visits.filterMap Visit.event?) b
  held : ∀ b id ends, s.jars b = some ⟨id, ends⟩ → ∃ last, ends = some last ∧
    s.sessions.lookup id = some { username := bytes "test_user", expireTime := last }
  own : ∀ b b' k k', s.jars b = some k → s.jars b' = some k' → k.id = k'.id → b = b'
  issued : ∀ b k, s.jars b = some k → ∃ v ∈ visits, v.branch = .login ∧ v.issuedId = k.id
  unnamed : s.sessions.lookup [] = none

omit [DecidableEq β] in
theorem Visit.issuedId_ne_nil (v : Visit β) : v.issuedId ≠ [] :=
  HttpServer.issuedId_ne_nil (v.arrival none)

omit [DecidableEq β] in
theorem visits_snoc (visits : List (Visit β)) (v : Visit β) :
    (visits ++ [v]).filterMap Visit.event? =
      visits.filterMap Visit.event? ++ v.event?.toList := by
  cases event : v.event? <;> simp [event]

theorem sent_eq_some {now : ℤ} {jar : Option Kept} {id : Str} :
    sent now jar = some id ↔ ∃ ends, jar = some ⟨id, ends⟩ ∧ ends.all (now ≤ ·) = true := by
  cases jar with
  | none => simp [sent]
  | some k =>
      obtain ⟨id', ends⟩ := k
      simp only [sent, Option.filter_some]
      split
      · rename_i live
        constructor
        · rintro ⟨⟩
          exact ⟨ends, rfl, live⟩
        · rintro ⟨_, ⟨⟩, -⟩
          rfl
      · rename_i ended
        constructor
        · rintro ⟨⟩
        · rintro ⟨_, ⟨⟩, live⟩
          exact absurd live ended

namespace Consistent
variable {s t : Site β} {visits : List (Visit β)} {v : Visit β} {o : List Response}

theorem issued_plain (h : Consistent s visits) {b : β} {k : Kept} (held : s.jars b = some k) :
    k.id ≠ [] ∧ ∀ c ∈ k.id, IdByte c := by
  obtain ⟨w, -, -, eq⟩ := h.issued b k held
  rw [← eq]
  exact ⟨w.issuedId_ne_nil, fun c hc => idByte_generateSessionId hc⟩

theorem sent_plain (h : Consistent s visits) (v : Visit β) :
    ∀ id ∈ sent v.now (s.jars v.browser), ∀ c ∈ id, IdByte c := by
  intro id hid
  obtain ⟨ends, held, -⟩ := sent_eq_some.mp hid
  exact (h.issued_plain held).2

/-- The id that a browser sends is that of a session that is not over. -/
theorem sent_live (h : Consistent s visits) {id : Str}
    (hid : sent v.now (s.jars v.browser) = some id) :
    ∃ last, s.jars v.browser = some ⟨id, some last⟩ ∧ v.now ≤ last ∧
      s.sessions.lookup id = some { username := bytes "test_user", expireTime := last } := by
  obtain ⟨ends, held, live⟩ := sent_eq_some.mp hid
  obtain ⟨last, rfl, stored⟩ := h.held _ _ _ held
  exact ⟨last, held, by simpa using live, stored⟩

/-- No visit evicts a session: what is over is not sent any more. -/
theorem home_pool (h : Consistent s visits) :
    (isSessionValid s.sessions ((sent v.now (s.jars v.browser)).getD []) v.now).1 =
      s.sessions := by
  refine isSessionValid_live fun data found => ?_
  cases hid : sent v.now (s.jars v.browser) with
  | none =>
      rw [hid, Option.getD_none, h.unnamed] at found
      cases found
  | some id =>
      obtain ⟨last, -, live, stored⟩ := h.sent_live hid
      rw [hid, Option.getD_some, stored] at found
      cases found
      exact live

/-- The ids in the other jars are not the one that is sent. -/
theorem sent_ne (h : Consistent s visits) {b : β} (other : b ≠ v.browser) {k : Kept}
    (held : s.jars b = some k) : k.id ≠ (sent v.now (s.jars v.browser)).getD [] := by
  cases hid : sent v.now (s.jars v.browser) with
  | none => exact (h.issued_plain held).1
  | some id =>
      obtain ⟨last, own, -⟩ := h.sent_live hid
      exact fun same => other (h.own _ _ _ _ held own same)

/-- The ids in the jars are not the one that a login draws. -/
theorem drawn_ne (h : Consistent s visits) (fresh : Fresh (visits ++ [v]))
    (login : v.branch = .login) {b : β} {k : Kept} (held : s.jars b = some k) :
    k.id ≠ v.issuedId := by
  obtain ⟨w, hw, earlier, eq⟩ := h.issued b k held
  intro same
  have apart := (List.pairwise_append.mp fresh).2.2 w hw v (List.mem_singleton_self v)
  exact apart earlier login (generateSessionId_inj.mp (eq.trans same))

theorem start : Consistent (site (β := β)).start [] where
  jars _ := rfl
  held _ _ _ h := nomatch h
  own _ _ _ _ h := nomatch h
  issued _ _ h := nomatch h
  unnamed := rfl

/-- A visit that changes no jar and no session. -/
theorem idle (h : Consistent s visits) (silent : v.event? = none) (jars : t.jars = s.jars)
    (sessions : t.sessions = s.sessions) : Consistent t (visits ++ [v]) where
  jars b := by rw [visits_snoc, silent, jars, h.jars, Option.toList_none, List.append_nil]
  held b id ends := by rw [jars, sessions]; exact h.held b id ends
  own b b' k k' := by rw [jars]; exact h.own b b' k k'
  issued b k held := by
    rw [jars] at held
    obtain ⟨w, hw, login⟩ := h.issued b k held
    exact ⟨w, List.mem_append_left _ hw, login⟩
  unnamed := by rw [sessions]; exact h.unnamed

theorem login (h : Consistent s visits) (fresh : Fresh (visits ++ [v])) (branch : v.branch = .login)
    (jars : t.jars = Function.update s.jars v.browser (some ⟨v.issuedId, some (v.now + 3600)⟩))
    (sessions : t.sessions = s.sessions.insert v.issuedId
      { username := bytes "test_user", expireTime := v.now + 3600 }) :
    Consistent t (visits ++ [v]) := by
  have here : t.jars v.browser = some ⟨v.issuedId, some (v.now + 3600)⟩ := by
    rw [jars, Function.update_self]
  have there : ∀ b, b ≠ v.browser → t.jars b = s.jars b := fun b other => by
    rw [jars, Function.update_of_ne other]
  have event : v.event? = some (.grant v.browser ⟨v.issuedId, some (v.now + 3600)⟩) := by
    rw [Visit.event?, branch]
  constructor
  case jars =>
    intro b
    rw [visits_snoc, event, Option.toList_some, ledger_snoc]
    by_cases own : b = v.browser
    · rw [own, here]
      exact (if_pos rfl).symm
    · rw [there b own, h.jars b]
      exact (if_neg (Ne.symm own)).symm
  case held =>
    intro b id ends held
    by_cases own : b = v.browser
    · rw [own, here] at held
      cases held
      exact ⟨_, rfl, by rw [sessions, AList.lookup_insert]⟩
    · rw [there b own] at held
      obtain ⟨last, rfl, stored⟩ := h.held b id ends held
      exact ⟨last, rfl, by rw [sessions, AList.lookup_insert_ne (h.drawn_ne fresh branch held),
        stored]⟩
  case own =>
    intro b b' k k' held held' same
    by_cases own : b = v.browser <;> by_cases own' : b' = v.browser
    · rw [own, own']
    · rw [own, here] at held
      rw [there b' own'] at held'
      cases held
      exact absurd same.symm (h.drawn_ne fresh branch held')
    · rw [there b own] at held
      rw [own', here] at held'
      cases held'
      exact absurd same (h.drawn_ne fresh branch held)
    · rw [there b own] at held
      rw [there b' own'] at held'
      exact h.own b b' k k' held held' same
  case issued =>
    intro b k held
    by_cases own : b = v.browser
    · rw [own, here] at held
      cases held
      exact ⟨v, by simp, branch, rfl⟩
    · rw [there b own] at held
      obtain ⟨w, hw, login⟩ := h.issued b k held
      exact ⟨w, List.mem_append_left _ hw, login⟩
  case unnamed =>
    rw [sessions, AList.lookup_insert_ne v.issuedId_ne_nil.symm, h.unnamed]

theorem logout (h : Consistent s visits) (branch : v.branch = .logout)
    (jars : t.jars = Function.update s.jars v.browser none)
    (sessions : t.sessions = s.sessions.erase ((sent v.now (s.jars v.browser)).getD [])) :
    Consistent t (visits ++ [v]) := by
  have here : t.jars v.browser = none := by rw [jars, Function.update_self]
  have there : ∀ {b k}, t.jars b = some k → b ≠ v.browser ∧ s.jars b = some k := by
    intro b k held
    have other : b ≠ v.browser := by
      rintro rfl
      rw [here] at held
      cases held
    exact ⟨other, by rwa [jars, Function.update_of_ne other] at held⟩
  have event : v.event? = some (.revoke v.browser) := by rw [Visit.event?, branch]
  constructor
  case jars =>
    intro b
    rw [visits_snoc, event, Option.toList_some, ledger_snoc]
    by_cases own : b = v.browser
    · rw [own, here]
      exact (if_pos rfl).symm
    · rw [jars, Function.update_of_ne own, h.jars b]
      exact (if_neg (Ne.symm own)).symm
  case held =>
    intro b id ends held
    obtain ⟨other, held⟩ := there held
    obtain ⟨last, rfl, stored⟩ := h.held b id ends held
    exact ⟨last, rfl, by rw [sessions, AList.lookup_erase_ne (h.sent_ne other held), stored]⟩
  case own =>
    intro b b' k k' held held'
    exact h.own b b' k k' (there held).2 (there held').2
  case issued =>
    intro b k held
    obtain ⟨w, hw, login⟩ := h.issued b k (there held).2
    exact ⟨w, List.mem_append_left _ hw, login⟩
  case unnamed =>
    rw [sessions]
    by_cases none : (sent v.now (s.jars v.browser)).getD [] = []
    · rw [none, AList.lookup_erase]
    · rw [AList.lookup_erase_ne (Ne.symm none), h.unnamed]

theorem step (h : Consistent s visits) (fresh : Fresh (visits ++ [v]))
    (hs : site.step s v = some (t, o)) : Consistent t (visits ++ [v]) := by
  obtain ⟨id, sessions, jars, -⟩ := site_step hs (h.sent_plain v)
  rw [id] at sessions
  cases branch : v.branch <;> rw [branch] at sessions jars
  case login => exact h.login fresh branch jars sessions
  case logout => exact h.logout branch jars sessions
  all_goals
    refine h.idle (by rw [Visit.event?, branch])
      (jars.trans (Function.update_eq_self v.browser s.jars)) (sessions.trans ?_)
  case home => exact h.home_pool
  all_goals rfl

end Consistent

theorem site_consistent {visits : List (Visit β)} {s : Site β} {responses : List Response}
    (run : site.Reaches visits s responses) (fresh : Fresh visits) : Consistent s visits := by
  induction visits using List.reverseRecOn generalizing s responses with
  | nil =>
      obtain ⟨rfl, -⟩ := Machine.reaches_nil.mp run
      exact .start
  | append_singleton visits v ih =>
      obtain ⟨before, os, o, hb, hs, -⟩ := Machine.reaches_snoc.mp run
      exact (ih hb (List.pairwise_append.mp fresh).1).step fresh hs

/-- The server knows a visitor exactly by the id that the browser still sends. -/
theorem Consistent.home_answer {s : Site β} {visits : List (Visit β)} (h : Consistent s visits)
    (v : Visit β) {a : Arrival} (now : a.now = v.now)
    (id : requestId a.request = (sent v.now (s.jars v.browser)).getD []) :
    (respond s.sessions a (requestId a.request) .home).2 =
      if (sent v.now (s.jars v.browser)).isSome then .welcome (bytes "test_user")
      else .toLogin := by
  have pool := h.home_pool (v := v)
  simp only [respond, id, now, pool]
  cases hid : sent v.now (s.jars v.browser) with
  | none =>
      have refused : (isSessionValid s.sessions [] v.now).2 = false := by
        rw [isSessionValid, h.unnamed]
      simp only [Option.getD_none, refused]
      rfl
  | some id =>
      obtain ⟨last, -, live, stored⟩ := h.sent_live hid
      have valid : (isSessionValid s.sessions id v.now).2 = true := by
        simp [isSessionValid, stored, Int.not_lt.mpr live]
      have name : getUsername s.sessions id = bytes "test_user" := by rw [getUsername, stored]
      simp only [Option.getD_some, valid, name]
      rfl

/-- A browser sends an id exactly while its last login counts. -/
theorem Consistent.sent_isSome_iff {s : Site β} {visits : List (Visit β)}
    (h : Consistent s visits) (b : β) (now : ℤ) :
    (sent now (s.jars b)).isSome = true ↔
      ∃ older login newer, visits = older ++ login :: newer ∧ login.browser = b ∧
        login.branch = .login ∧ now ≤ login.now + 3600 ∧
        ∀ w ∈ newer, w.browser = b → w.branch ≠ .login ∧ w.branch ≠ .logout := by
  have silent_iff : ∀ w : Visit β, (∀ e, w.event? = some e → e.key ≠ b) ↔
      (w.browser = b → w.branch ≠ .login ∧ w.branch ≠ .logout) := by
    intro w
    unfold Visit.event?
    cases w.branch <;> simp [Event.key]
  have grant_iff : ∀ (w : Visit β) k, w.event? = some (.grant b k) ↔
      w.branch = .login ∧ w.browser = b ∧ k = ⟨w.issuedId, some (w.now + 3600)⟩ := by
    intro w k
    unfold Visit.event?
    cases w.branch <;> simp [eq_comm]
  rw [Option.isSome_iff_exists]
  constructor
  · rintro ⟨id, hid⟩
    obtain ⟨ends, held, live⟩ := sent_eq_some.mp hid
    rw [h.jars b] at held
    obtain ⟨older, login, newer, rfl, granted, silent⟩ := ledger_filterMap_eq_some.mp held
    obtain ⟨branch, own, same⟩ := (grant_iff login _).mp granted
    cases same
    exact ⟨older, login, newer, rfl, own, branch, by simpa using live,
      fun w hw => (silent_iff w).mp (silent w hw)⟩
  · rintro ⟨older, login, newer, rfl, own, branch, live, silent⟩
    refine ⟨login.issuedId, sent_eq_some.mpr ⟨some (login.now + 3600), ?_, by simpa using live⟩⟩
    rw [h.jars b]
    exact ledger_filterMap_eq_some.mpr ⟨older, login, newer, rfl,
      (grant_iff login _).mpr ⟨branch, own, rfl⟩, fun w hw => (silent_iff w).mpr (silent w hw)⟩

/-- For any number of browsers, whatever the order of their visits, if each request is a
`Page` that arrives whole and no two logins draw the same id: a visit of the home page is
answered with the welcome page if the last login or logout of the same browser was a
login and is not older than 3600 seconds, and sent to the login page otherwise. No
browser is known by the login of another, and none is forgotten. -/
theorem welcomed_by_own_login {before after : List (Visit β)} {v : Visit β} {s : Site β}
    {responses : List Response} (run : site.Reaches (before ++ v :: after) s responses)
    (fresh : Fresh (before ++ v :: after)) (home : v.branch = .home) :
    ∃ response, responses[before.length]? = some response ∧
      (response = .welcome (bytes "test_user") ∨ response = .toLogin) ∧
      (response = .welcome (bytes "test_user") ↔
        ∃ older login newer, before = older ++ login :: newer ∧ login.browser = v.browser ∧
          login.branch = .login ∧ v.now ≤ login.now + 3600 ∧
          ∀ w ∈ newer, w.browser = v.browser → w.branch ≠ .login ∧ w.branch ≠ .logout) := by
  have replies : (site (β := β)).Replies := by
    intro s v t o hs
    obtain ⟨-, hs⟩ := Option.ite_none_right_eq_some.mp hs
    obtain ⟨r, -, eq⟩ := Option.map_eq_some_iff.mp hs
    cases eq
    rfl
  obtain ⟨u, past, t, response, earlier, step, here⟩ := run.reply replies
  have consistent := site_consistent earlier (List.pairwise_append.mp fresh).1
  obtain ⟨id, -, -, answer⟩ := site_step step (consistent.sent_plain v)
  rw [home, consistent.home_answer v rfl id] at answer
  refine ⟨response, here, ?_⟩
  rw [← consistent.sent_isSome_iff]
  cases answer
  cases (sent v.now (u.jars v.browser)).isSome <;> simp

def postLogin : RequestLine :=
  { getRoot with
    method := bytes "POST"
    target := bytes "/login"
    single := by decide +kernel }

theorem plain_routed : ∀ line ∈ [getRoot, postLogin], ∀ own ∈ [none, some []],
    ∀ text ∈ (intended line).earlier,
      ¬ bytes text <:+: Form.text ⟨line, [], [theme], [], [], bytes "user=a"⟩ own := by
  simp only [← find_eq_none]
  decide +kernel

theorem plain_uncookied : ∀ line ∈ [getRoot, postLogin],
    ¬ bytes "Cookie:" <:+: opening line [] ++ ending [] (bytes "user=a") := by
  simp only [← find_eq_none]
  decide +kernel

/-- A request with one more cookie and a body. -/
def plainPage (line : RequestLine) (listed : line ∈ [getRoot, postLogin]) : Page where
  line := line
  headers := []
  before := [theme]
  after := []
  later := []
  body := bytes "user=a"
  routed := plain_routed line listed
  uncookied := plain_uncookied line listed
  others := by decide +kernel

def homePage : Page := plainPage getRoot (by simp)

def loginForm : Page := plainPage postLogin (by simp)

/-- A visit that draws each hexadecimal digit once. -/
def visitOf (browser : Bool) (page : Page) (now : ℤ) : Visit Bool where
  browser := browser
  page := page
  idTime := now
  draws := fun i => i
  now := now
  file := none

/-- Two browsers, of which one logs in and comes back after the other. -/
theorem welcomed_by_own_login_two :
    ∃ s responses, site.Reaches ([visitOf true loginForm 100, visitOf false homePage 120] ++
        visitOf true homePage 3700 :: []) s responses ∧
      responses[2]? = some (.welcome (bytes "test_user")) := by
  have enabled : (site.runFrom site.start ([visitOf true loginForm 100,
      visitOf false homePage 120] ++ visitOf true homePage 3700 :: [])).isSome = true := by
    decide +kernel
  obtain ⟨⟨s, responses⟩, run⟩ := Option.isSome_iff_exists.mp enabled
  obtain ⟨response, here, -, welcome⟩ := welcomed_by_own_login run (by unfold Fresh; decide +kernel)
    (by decide +kernel)
  rw [← welcome.mpr ⟨[], _, [visitOf false homePage 120], rfl, rfl, by decide +kernel, by decide,
    by decide +kernel⟩]
  exact ⟨s, responses, run, here⟩

end StudyCode.HttpServer

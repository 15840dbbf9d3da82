import StudyCode.Http.CookieRoundTrip
import StudyCode.Http.CookieLine
import StudyCode.Http.Routing

/-!
# The requests of a browser

A browser puts the session id that it holds among its other cookies. In a page
that is routed by its request line and names no other `Cookie:`, the server
takes the branch of that line and finds that id.
-/
namespace StudyCode.HttpServer
open StudyCode.ByteString StudyCode.CookieUtil StudyCode.Http

/-- Everything in a request but the session id. -/
structure Form where
  line : RequestLine
  headers : List HeaderLine
  before : List CookiePair
  after : List CookiePair
  later : List HeaderLine
  body : Str

def sessionPair (id : Str) : Str := bytes "SESSIONID" ++ equals :: id

def Form.cookies (form : Form) : Option Str → List Str
  | none => (form.before ++ form.after).map CookiePair.text
  | some id => cookiesSent form.before (sessionPair id) form.after

/-- A browser without cookies sends no `Cookie` header. -/
def Form.cookieLine (form : Form) (own : Option Str) : Str :=
  if form.cookies own = [] then [] else cookieHeader (form.cookies own)

def Form.text (form : Form) (own : Option Str) : Str :=
  opening form.line form.headers ++ (form.cookieLine own ++ ending form.later form.body)

/-- A request that the server cannot mistake: nothing in it has the text of a route that
is tried before its own, `Cookie:` stands in the cookie line only, and no other cookie is
called `SESSIONID`. -/
structure Page extends Form where
  /-- no text of a route that is tried before the one of the request line -/
  routed : ∀ own ∈ [none, some []], ∀ text ∈ (intended line).earlier,
    ¬ bytes text <:+: toForm.text own
  uncookied : ¬ bytes "Cookie:" <:+: opening line headers ++ ending later body
  others : ∀ p ∈ before ++ after, p.name.dropWhile (· == space) ≠ bytes "SESSIONID"

/-! ## The branch -/

theorem routes_plain : ∀ route ∈ routes, equals ∉ bytes route.1 ∧ semicolon ∉ bytes route.1 ∧
    carriageReturn ∉ bytes route.1 ∧ '/'.toUInt8 ∈ bytes route.1 := by decide +kernel

theorem Branch.earlier_mem {branch : Branch} {text : String} (h : text ∈ branch.earlier) :
    ∃ route ∈ routes, route.1 = text := by
  obtain ⟨route, hr, eq⟩ := List.mem_map.mp h
  exact ⟨route, (List.takeWhile_prefix _).subset hr, eq⟩

theorem Branch.own_mem {branch : Branch} {text : String} (h : text ∈ branch.own) :
    ∃ route ∈ routes, route.1 = text := by
  obtain ⟨route, hr, eq⟩ := List.mem_map.mp h
  exact ⟨route, (List.mem_filter.mp hr).1, eq⟩

theorem intercalate_cons (sep cookie : Str) (after : List Str) :
    List.intercalate sep (cookie :: after) = cookie ++ after.flatMap (sep ++ ·) := by
  induction after generalizing cookie with
  | nil => simp
  | cons next after ih =>
      rw [List.intercalate_cons_cons, ih, List.flatMap_cons]
      simp only [List.append_assoc]

theorem exists_intercalate_append (sep : Str) (before : List Str) :
    ∃ start, ∀ cookie after, List.intercalate sep (before ++ cookie :: after) =
      start ++ (cookie ++ after.flatMap (sep ++ ·)) := by
  cases before with
  | nil => exact ⟨[], fun cookie after => intercalate_cons sep cookie after⟩
  | cons first before =>
      refine ⟨first ++ before.flatMap (sep ++ ·) ++ sep, fun cookie after => ?_⟩
      rw [List.cons_append, intercalate_cons, List.flatMap_append, List.flatMap_cons]
      simp only [List.append_assoc]

/-- Where the session id stands: between an equals sign and a semicolon or the line end. -/
theorem Form.text_around (form : Form) :
    ∃ start stop rest, (stop = semicolon ∨ stop = carriageReturn) ∧
      ∀ id, form.text (some id) = start ++ equals :: (id ++ stop :: rest) := by
  obtain ⟨start, eq⟩ := exists_intercalate_append (bytes "; ") (form.before.map CookiePair.text)
  have shape : ∀ id, form.text (some id) =
      (opening form.line form.headers ++ bytes "Cookie: " ++ start ++ bytes "SESSIONID") ++
        equals :: (id ++ ((form.after.map CookiePair.text).flatMap (bytes "; " ++ ·) ++
          (bytes "\r\n" ++ ending form.later form.body))) := by
    intro id
    rw [Form.text, Form.cookieLine, if_neg (by simp [Form.cookies, cookiesSent]), cookieHeader,
      Form.cookies, cookiesSent, eq, sessionPair]
    simp only [List.append_assoc, List.cons_append]
  have ends : ∃ stop rest, (stop = semicolon ∨ stop = carriageReturn) ∧
      (form.after.map CookiePair.text).flatMap (bytes "; " ++ ·) ++
        (bytes "\r\n" ++ ending form.later form.body) = stop :: rest := by
    cases form.after with
    | nil => exact ⟨carriageReturn, _, .inr rfl, rfl⟩
    | cons p after => exact ⟨semicolon, _, .inl rfl, rfl⟩
  obtain ⟨stop, rest, which, tail⟩ := ends
  exact ⟨_, stop, rest, which, fun id => by rw [shape id, tail]⟩

theorem idByte_slash : ¬ IdByte '/'.toUInt8 := by decide

/-- No route is found in a session id, nor across its ends. -/
theorem Form.infix_text {form : Form} {id : Str} (plain : ∀ c ∈ id, IdByte c)
    {route : String × Branch} (hr : route ∈ routes) :
    bytes route.1 <:+: form.text (some id) ↔ bytes route.1 <:+: form.text (some []) := by
  obtain ⟨noEquals, noSemicolon, noReturn, slash⟩ := routes_plain route hr
  obtain ⟨start, stop, rest, ends, eq⟩ := form.text_around
  have noStop : stop ∉ bytes route.1 := by
    rcases ends with rfl | rfl
    · exact noSemicolon
    · exact noReturn
  have absent : ¬ bytes route.1 <:+: id := fun inside =>
    idByte_slash (plain _ (inside.subset slash))
  have empty : ¬ bytes route.1 <:+: [] := fun inside =>
    List.not_mem_nil (inside.subset slash)
  rw [eq, eq, infix_barrier_iff noEquals, infix_barrier_iff noEquals, infix_barrier_iff noStop,
    infix_barrier_iff noStop]
  simp only [absent, empty]

/-- The request line has a text of the branch that it is for. -/
theorem Form.own_occurs (form : Form) (own : Option Str) :
    intended form.line = .notFound ∨
      ∃ text ∈ (intended form.line).own, bytes text <:+: form.text own := by
  refine (HttpServer.own_occurs ⟨form.line, form.headers, []⟩).imp id ?_
  rintro ⟨text, hown, occurs⟩
  refine ⟨text, hown, ?_⟩
  obtain ⟨route, hr, rfl⟩ := Branch.own_mem hown
  obtain ⟨-, -, noReturn, slash⟩ := routes_plain route hr
  have shape : HttpRequest.text ⟨form.line, form.headers, []⟩ =
      opening form.line form.headers ++ carriageReturn :: [lineFeed] := by
    rw [HttpRequest.text, List.append_nil]
    rfl
  rw [shape, infix_barrier_iff noReturn] at occurs
  rcases occurs with inside | behind
  · exact inside.trans (List.prefix_append _ _).isInfix
  · have line := behind.subset slash
    exact absurd line (by decide)

theorem Page.taken_text (page : Page) {own : Option Str} (plain : ∀ id ∈ own, ∀ c ∈ id, IdByte c) :
    taken (page.text own) = intended page.line := by
  refine taken_eq_iff.mpr ⟨fun text earlier occurs => ?_, page.own_occurs own⟩
  cases own with
  | none => exact page.routed none (by simp) text earlier occurs
  | some id =>
      obtain ⟨route, hr, rfl⟩ := Branch.earlier_mem earlier
      rw [Form.infix_text (plain id rfl) hr] at occurs
      exact page.routed (some []) (by simp) _ earlier occurs

/-! ## The cookie -/

theorem mem_cookiePieces {cookies : List Str} {piece : Str} (h : piece ∈ cookiePieces cookies) :
    ∃ lead, (∀ c ∈ lead, c = space) ∧ ∃ cookie ∈ cookies, piece = lead ++ cookie := by
  cases cookies with
  | nil => cases h
  | cons first cookies =>
      rcases List.mem_cons.mp h with rfl | later
      · exact ⟨[], by simp, piece, List.mem_cons_self, rfl⟩
      · obtain ⟨cookie, hc, rfl⟩ := List.mem_map.mp later
        exact ⟨[space], by simp, cookie, List.mem_cons_of_mem first hc, rfl⟩

/-- Pairs of other names supply no session id. -/
theorem lookup_others {pairs : List CookiePair}
    (others : ∀ p ∈ pairs, p.name.dropWhile (· == space) ≠ bytes "SESSIONID") :
    ((cookiePieces (pairs.map CookiePair.text)).foldl enterPair ∅).lookup (bytes "SESSIONID") =
      none := by
  rw [lookup_of_other ∅ ?_, AList.lookup_empty]
  rintro piece hp ⟨-, own⟩
  obtain ⟨lead, blank, cookie, hc, rfl⟩ := mem_cookiePieces hp
  obtain ⟨p, inside, rfl⟩ := List.mem_map.mp hc
  exact others p inside ((pairKey_pair p.value blank p.divided).symm.trans own)

theorem Form.cookies_clean {form : Form} {own : Option Str}
    (plain : ∀ id ∈ own, ∀ c ∈ id, IdByte c) :
    ∀ cookie ∈ form.cookies own, semicolon ∉ cookie ∧ carriageReturn ∉ cookie ∧ cookie ≠ [] := by
  have pairs : ∀ p : CookiePair, semicolon ∉ p.text ∧ carriageReturn ∉ p.text ∧ p.text ≠ [] :=
    CookiePair.text_clean
  intro cookie hc
  cases own with
  | none =>
      obtain ⟨p, -, rfl⟩ := List.mem_map.mp hc
      exact pairs p
  | some id =>
      rcases List.mem_append.mp hc with earlier | later
      · obtain ⟨p, -, rfl⟩ := List.mem_map.mp earlier
        exact pairs p
      · rcases List.mem_cons.mp later with rfl | later
        · have noSemicolon : semicolon ∉ id := fun h => absurd (plain id rfl _ h) (by decide)
          have noReturn : carriageReturn ∉ id := fun h => absurd (plain id rfl _ h) (by decide)
          simp [sessionPair, noSemicolon, noReturn, show semicolon ∉ bytes "SESSIONID" by decide,
            show carriageReturn ∉ bytes "SESSIONID" by decide, show semicolon ≠ equals by decide,
            show carriageReturn ≠ equals by decide]
        · obtain ⟨p, -, rfl⟩ := List.mem_map.mp later
          exact pairs p

theorem Page.uncookied_opening (page : Page) :
    ¬ bytes "Cookie:" <:+: opening page.line page.headers :=
  fun occurs => page.uncookied (occurs.trans (List.prefix_append _ _).isInfix)

/-- The server finds the id that the browser put into the page, and otherwise none. -/
theorem Page.requestId_text (page : Page) {own : Option Str}
    (plain : ∀ id ∈ own, ∀ c ∈ id, IdByte c) (size : (page.text own).length ≤ npos) :
    requestId (page.text own) = own.getD [] := by
  have parsed : page.cookies own ≠ [] → parseCookies (page.text own) =
      some ((cookiePieces (page.cookies own)).foldl enterPair ∅) := by
    intro filled
    have shape : page.text own = opening page.line page.headers ++
        (cookieHeader (page.cookies own) ++ ending page.later page.body) := by
      rw [Form.text, Form.cookieLine, if_neg filled]
    rw [shape] at size ⊢
    exact parseCookies_cookieHeader filled
      (find_cookieHeader page.uncookied_opening _ _) size (Form.cookies_clean plain)
  cases own with
  | some id =>
      have filled : page.cookies (some id) ≠ [] := by simp [Form.cookies, cookiesSent]
      have noSpace : space ∉ id := fun h => absurd (plain id rfl _ h) (by decide)
      have short : id.length ≤ npos := by
        obtain ⟨start, stop, rest, -, eq⟩ := page.text_around
        rw [eq id] at size
        simp only [List.length_append, List.length_cons] at size
        omega
      have held := @lookup_cookie page.before page.after (bytes "SESSIONID") id (by decide)
        (by decide) noSpace short fun p hp => page.others p (List.mem_append_right _ hp)
      rw [requestId, sessionCookie, parsed filled, Option.bind_some]
      exact congrArg (fun held => held.getD []) held
  | none =>
      by_cases filled : page.cookies none = []
      · have bare : page.text none =
            opening page.line page.headers ++ ending page.later page.body := by
          rw [Form.text, Form.cookieLine, if_pos filled, List.nil_append]
        rw [requestId, sessionCookie, bare, parseCookies_none (find_eq_none.mpr page.uncookied)]
        rfl
      · rw [requestId, sessionCookie, parsed filled, Option.bind_some]
        exact congrArg (fun held => held.getD []) (lookup_others page.others)

end StudyCode.HttpServer

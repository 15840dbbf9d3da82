import StudyCode.Http.Request

/-!
# Which text supplies the cookies

`parseCookies` searches the whole request for `Cookie:`. The header of that
name supplies the cookies exactly where nothing before it contains the text,
and where its own line does not end right behind the colon.
-/
namespace StudyCode.Http
open StudyCode.ByteString StudyCode.CookieUtil

/-- The header line named `Cookie`, from its colon on. -/
def cookieLine (value : Str) (single : ∀ c ∈ [carriageReturn, lineFeed], c ∉ value) :
    HeaderLine where
  name := bytes "Cookie"
  value := value
  divided := by decide
  single c hc := by
    have name : ∀ c ∈ [carriageReturn, lineFeed], c ∉ bytes "Cookie" := by
      decide +kernel
    exact ⟨name c hc, single c hc⟩

/-- A request line and the header lines before the cookies: none of them is the `Cookie` header. -/
structure Opening where
  line : RequestLine
  headers : List HeaderLine
  others : ∀ header ∈ headers, header.name ≠ bytes "Cookie"

def Opening.text (o : Opening) : Str := opening o.line o.headers

/-- The opening, the cookies, and whatever the client sends after them. -/
def Opening.request (o : Opening) (cookies : HeaderLine) (later : List HeaderLine) (body : Str) :
    HttpRequest where
  line := o.line
  headers := o.headers ++ cookies :: later
  body := body

def getRoot : RequestLine where
  method := bytes "GET"
  target := bytes "/"
  version := bytes "HTTP/1.1"
  single := by decide +kernel
  protocol := by decide

/-- The request with a cookie header and nothing else. -/
def alone (cookies : HeaderLine) : HttpRequest :=
  Opening.request ⟨getRoot, [], by simp⟩ cookies [] []

/-- What follows the line end of the cookie header. -/
def ending (later : List HeaderLine) (body : Str) : Str :=
  (later.flatMap fun header => header.text ++ newline) ++ (newline ++ body)

theorem request_text (o : Opening) (value : Str) (single : _) (later : List HeaderLine)
    (body : Str) : (o.request (cookieLine value single) later body).text =
      o.text ++ (bytes "Cookie:" ++ value ++ (bytes "\r\n" ++ ending later body)) := by
  simp only [HttpRequest.text, Opening.request, opening_append, List.flatMap_cons, HeaderLine.text,
    cookieLine, ending, Opening.text, List.append_assoc]
  rfl

theorem Opening.ended (o : Opening) :
    ∃ lines, o.text = lines ++ [carriageReturn] ++ [lineFeed] := by
  obtain ⟨lines, eq⟩ := opening_ended o.line o.headers
  exact ⟨lines, by rw [Opening.text, eq, List.append_assoc]; rfl⟩

/-- Without the text before it, the `Cookie` header is the first place found. -/
theorem Opening.find_cookies {o : Opening} (absent : ¬ bytes "Cookie:" <:+: o.text) (rest : Str) :
    find (bytes "Cookie:") (o.text ++ (bytes "Cookie:" ++ rest)) = some o.text.length := by
  obtain ⟨lines, eq⟩ := o.ended
  rw [eq] at absent ⊢
  exact find_append_self_of_barrier (by decide) (by decide) absent

/-- An opening that contains the text contains the end of its line, too. -/
theorem Opening.find_early {o : Opening} (early : bytes "Cookie:" <:+: o.text) :
    ∃ cookiePos endPos, find (bytes "Cookie:") o.text = some cookiePos ∧
      findFrom o.text (bytes "\r\n") cookiePos = some endPos := by
  obtain ⟨cookiePos, first⟩ := Option.isSome_iff_exists.mp (find_isSome.mpr early)
  obtain ⟨lines, eq⟩ := opening_ended o.line o.headers
  have room := find_some_le first
  have seven : (bytes "Cookie:").length = 7 := rfl
  have two : newline.length = 2 := rfl
  have last : newline <:+ o.text := ⟨lines, eq.symm⟩
  have fits : cookiePos + newline.length ≤ o.text.length := by omega
  obtain ⟨endPos, ended⟩ := Option.isSome_iff_exists.mp (findFrom_isSome_of_suffix last fits)
  exact ⟨cookiePos, endPos, first, ended⟩

/-! ## What the three kinds of text supply -/

theorem parseCookies_filled {o : Opening} (absent : ¬ bytes "Cookie:" <:+: o.text) {byte : UInt8}
    {value : Str} (single : _) (later : List HeaderLine) (body : Str) :
    parseCookies (o.request (cookieLine (byte :: value) single) later body).text =
      some (readPairs (value.take (value.length % wordSize))) := by
  rw [request_text]
  refine parseCookies_line ?_ (single _ (by simp))
  rw [List.append_assoc]
  exact o.find_cookies absent _

theorem parseCookies_empty {o : Opening} (absent : ¬ bytes "Cookie:" <:+: o.text) (single : _)
    (later : List HeaderLine) (body : Str) :
    parseCookies (o.request (cookieLine [] single) later body).text =
      some (readPairs ((lineFeed :: ending later body).take npos)) := by
  rw [request_text]
  refine parseCookies_bare ?_
  rw [List.append_assoc]
  exact o.find_cookies absent _

/-- The line of the first `Cookie:` ends right behind the colon. -/
def EndsBare (text : Str) : Prop :=
  ∃ cookiePos, find (bytes "Cookie:") text = some cookiePos ∧
    findFrom text (bytes "\r\n") cookiePos = some (cookiePos + 7)

/-- An opening that contains the text supplies its own line, or else everything
from the end of that line on. -/
theorem parseCookies_early {o : Opening} (early : bytes "Cookie:" <:+: o.text)
    (room : o.text.length ≤ npos) :
    (¬ EndsBare o.text ∧ ∀ rest,
      parseCookies (o.text ++ rest) = some (readPairs (cookieText o.text))) ∨
    (EndsBare o.text ∧ ∃ tail, tail.length ≤ o.text.length ∧ ∀ rest,
      parseCookies (o.text ++ rest) = some (readPairs ((tail ++ rest).take npos))) := by
  obtain ⟨cookiePos, endPos, first, ended⟩ := o.find_early early
  have after := lineEnd_after_name first ended
  have inside := (findFrom_some ended).2.2
  have two : (bytes "\r\n").length = 2 := rfl
  have parsed := fun rest => parseCookies_some (find_append_of_some (b := rest) first)
    (findFrom_append_of_some (b := rest) ended)
  by_cases bare : endPos = cookiePos + 7
  · subst bare
    refine .inr ⟨⟨cookiePos, first, ended⟩, o.text.drop (cookiePos + 8),
      (List.drop_suffix _ _).length_le, fun rest => ?_⟩
    rw [parsed, sizeSub_succ, List.drop_append_of_le_length (by omega)]
  · refine .inl ⟨?_, fun rest => ?_⟩
    · rintro ⟨k, hk, he⟩
      obtain rfl := Option.some.inj (first.symm.trans hk)
      exact bare (Option.some.inj (ended.symm.trans he))
    · have taken : cookieText o.text =
          (o.text.drop (cookiePos + 8)).take (endPos - (cookiePos + 8)) := by
        simp only [cookieText, first, ended, if_neg bare]
      rw [parsed, sizeSub_eq (by omega) (by omega), List.drop_append_of_le_length (by omega),
        List.take_append_of_le_length (by rw [List.length_drop]; omega), taken]

/-! ## When only the header counts -/

/-- Whatever follows, the cookies are those of the header line. -/
def FromHeader (o : Opening) (cookies : HeaderLine) : Prop :=
  ∀ later body, parseCookies (o.request cookies later body).text = parseCookies (alone cookies).text

theorem alone_absent : ¬ bytes "Cookie:" <:+: (Opening.mk getRoot [] (by simp)).text := by
  rw [← find_eq_none]
  decide +kernel

theorem parseCookies_alone_empty (single : _) :
    parseCookies (alone (cookieLine [] single)).text = some ∅ := by
  rw [alone, parseCookies_empty alone_absent]
  exact congrArg some (readPairs_eq_empty.mpr (by decide +kernel))

theorem parseCookies_alone_blank (single : _) :
    parseCookies (alone (cookieLine [space] single)).text = some ∅ :=
  parseCookies_filled alone_absent single [] []

/-- An equals sign in the body is read where everything is. -/
theorem readPairs_body {tail middle : Str} (room : (tail ++ middle).length < npos) :
    readPairs ((tail ++ (middle ++ [equals])).take npos) ≠ ∅ := by
  rw [Ne, readPairs_eq_empty, not_not, List.take_of_length_le]
  · simp
  · simp only [List.length_append, List.length_singleton] at *
    omega

/-- Where everything behind an early `Cookie:` is read, the body is read, too. -/
theorem not_fromHeader_of_bare {o : Opening} {tail value : Str} {single : _}
    (fits : tail.length ≤ o.text.length) (room : o.text.length < 2 ^ 63) (short : value.length ≤ 1)
    (parsed : ∀ rest, parseCookies (o.text ++ rest) =
      some (readPairs ((tail ++ rest).take npos)))
    (blank : parseCookies (alone (cookieLine value single)).text = some ∅) :
    ¬ FromHeader o (cookieLine value single) := by
  intro kept
  have shape : bytes "Cookie:" ++ value ++ (bytes "\r\n" ++ ending [] [equals]) =
      (bytes "Cookie:" ++ value ++ newline ++ newline) ++ [equals] := by
    simp [ending, newline, List.append_assoc]
  have read := kept [] [equals]
  rw [blank, request_text, parsed, shape] at read
  refine readPairs_body ?_ (Option.some.inj read)
  have seven : (bytes "Cookie:").length = 7 := rfl
  have two : newline.length = 2 := rfl
  simp only [List.length_append, seven, two]
  unfold npos wordSize
  omega

/-- For every opening: all cookie headers with some text are read as they stand
if and only if the opening does not contain the text `Cookie:`. -/
theorem fromHeader_iff {o : Opening} (room : o.text.length < 2 ^ 63) :
    (∀ value single, value ≠ [] → FromHeader o (cookieLine value single)) ↔
      ¬ bytes "Cookie:" <:+: o.text := by
  constructor
  · intro kept early
    have blank := kept [space] (by decide +kernel) (by decide)
    have pair := kept (space :: bytes "a=") (by decide +kernel) (by decide) [] []
    rcases parseCookies_early early (by unfold npos wordSize; omega) with
      ⟨-, parsed⟩ | ⟨-, tail, fits, parsed⟩
    · have none := blank [] []
      rw [parseCookies_alone_blank, request_text, parsed] at none
      rw [request_text, parsed, none, alone, parseCookies_filled alone_absent] at pair
      exact absurd (readPairs_eq_empty.mp (Option.some.inj pair).symm) (by decide +kernel)
    · exact not_fromHeader_of_bare fits room (by simp) parsed (parseCookies_alone_blank _) blank
  · intro absent value single filled later body
    obtain ⟨byte, value, rfl⟩ := List.exists_cons_of_ne_nil filled
    rw [parseCookies_filled absent, alone, parseCookies_filled alone_absent]

/-- A cookie header without any text is read as it stands exactly where an
earlier text is read in its place that holds no cookie. -/
theorem fromHeader_empty_iff {o : Opening} (room : o.text.length < 2 ^ 63) (single : _) :
    FromHeader o (cookieLine [] single) ↔
      bytes "Cookie:" <:+: o.text ∧ ¬ EndsBare o.text ∧ equals ∉ cookieText o.text := by
  have alone := parseCookies_alone_empty single
  by_cases early : bytes "Cookie:" <:+: o.text
  · rcases parseCookies_early early (by unfold npos wordSize; omega) with
      ⟨more, parsed⟩ | ⟨bare, tail, fits, parsed⟩
    · simp only [early, more, not_false_eq_true, true_and]
      rw [← readPairs_eq_empty]
      constructor
      · intro kept
        have none := kept [] []
        rw [alone, request_text, parsed] at none
        exact Option.some.inj none
      · intro none later body
        rw [alone, request_text, parsed, none]
    · exact iff_of_false (not_fromHeader_of_bare fits room (by simp) parsed alone)
        fun other => other.2.1 bare
  · refine iff_of_false (fun kept => ?_) fun other => early other.1
    have read := kept [] [equals]
    rw [alone, parseCookies_empty early] at read
    exact absurd (readPairs_eq_empty.mp (Option.some.inj read)) (by decide +kernel)

/-- A request without a `Cookie` header supplies no cookie. -/
def NoneWithoutHeader (r : HttpRequest) : Prop :=
  (∀ header ∈ r.headers, header.name ≠ bytes "Cookie") → parseCookies r.text = some ∅

/-- For every request: no cookie is read without a `Cookie` header if and only
if no equals sign stands in the line of the first `Cookie:` in its text. For
every opening: all `Cookie` headers with some text are read as they stand,
whatever follows them, if and only if the opening does not contain the text
`Cookie:`. A header without any text is so read exactly where the opening
contains that text with a line that is not empty and holds no cookie. -/
theorem cookies_from_header_iff (r : HttpRequest) (o : Opening) (single : _)
    (size : r.text.length ≤ npos) (room : o.text.length < 2 ^ 63) :
    (NoneWithoutHeader r ↔
      ((∀ header ∈ r.headers, header.name ≠ bytes "Cookie") → equals ∉ cookieText r.text)) ∧
    ((∀ value single, value ≠ [] → FromHeader o (cookieLine value single)) ↔
      ¬ bytes "Cookie:" <:+: o.text) ∧
    (FromHeader o (cookieLine [] single) ↔
      bytes "Cookie:" <:+: o.text ∧ ¬ EndsBare o.text ∧ equals ∉ cookieText o.text) := by
  refine ⟨imp_congr_right fun _ => ?_, fromHeader_iff room, fromHeader_empty_iff room single⟩
  rw [parseCookies_eq size, Option.some.injEq, readPairs_eq_empty]

/-- A plain visit supplies no cookie, and one with a `Cookie` header only those
of the header. -/
theorem cookies_from_header_iff_plain :
    NoneWithoutHeader { line := getRoot, headers := [], body := [] } ∧
      FromHeader ⟨getRoot, [], by simp⟩
        (cookieLine (bytes " SESSIONID=1_0") (by decide +kernel)) := by
  have both := cookies_from_header_iff { line := getRoot, headers := [], body := [] }
    ⟨getRoot, [], by simp⟩ (by simp) (by decide +kernel) (by decide +kernel)
  exact ⟨both.1.mpr fun _ => by decide +kernel, both.2.1.mpr alone_absent _ _ (by decide)⟩

/-- A link whose query contains the text `Cookie:`. -/
def link (headers : List HeaderLine) : HttpRequest where
  line :=
    { method := bytes "GET"
      target := bytes "/?Cookie:+SESSIONID=1_0"
      version := bytes "HTTP/1.1"
      single := by decide +kernel
      protocol := by decide }
  headers := headers
  body := []

def ownCookie : HeaderLine := cookieLine (bytes " SESSIONID=2_0") (by decide +kernel)

def cookieLines (r : HttpRequest) : List HeaderLine :=
  r.headers.filter fun header => decide (header.name = bytes "Cookie")

def readId (r : HttpRequest) : Option Str :=
  (parseCookies r.text).bind (AList.lookup (bytes "SESSIONID"))

/-- A link chooses the session id: of a browser without cookies, and of one that
sends a `Cookie` header. -/
theorem cookies_from_link :
    (¬ ∀ r, cookieLines r = [] → parseCookies r.text = some ∅) ∧
      ¬ ∀ r r', cookieLines r = cookieLines r' → parseCookies r.text = parseCookies r'.text := by
  constructor
  · intro claim
    have chosen : readId (link []) = some (bytes "1_0 HTTP/1.1") := by decide +kernel
    rw [readId, claim (link []) rfl] at chosen
    cases chosen
  · intro claim
    have same := claim (link [ownCookie]) (alone ownCookie) rfl
    have apart : readId (link [ownCookie]) ≠ readId (alone ownCookie) := by decide +kernel
    exact apart (congrArg (Option.bind · (AList.lookup (bytes "SESSIONID"))) same)

end StudyCode.Http

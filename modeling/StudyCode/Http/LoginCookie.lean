import StudyCode.Lib.Numerals
import StudyCode.Http.CookiePairs
import StudyCode.Http.HttpServer
import StudyCode.Http.SessionHistory

/-!
# The cookie of a login authenticates its owner

`buildSetCookie` writes the id that `createSession` stores, a browser sends it
back among its other cookies, and `parseCookies` reads it. The separators of
the two formats differ; what makes the round trip work is that an id has
neither a semicolon, nor a space, nor a line end in it.
-/
namespace StudyCode.HttpServer
open StudyCode.ByteString StudyCode.Scheduled StudyCode.Lease StudyCode.CookieUtil
  StudyCode.SessionManager

/-- What a browser keeps of a `Set-Cookie:` line: the text up to the first semicolon. -/
def browserCookie (setCookieHeader : Str) : Str :=
  (setCookieHeader.drop (bytes "Set-Cookie:").length).takeWhile (· != semicolon)

/-- Another cookie that the browser sends along. -/
structure CookiePair where
  name : Str
  value : Str
  divided : equals ∉ name
  plain : ∀ c ∈ [semicolon, carriageReturn], c ∉ name ∧ c ∉ value

def CookiePair.text (p : CookiePair) : Str := p.name ++ equals :: p.value

/-- The session's cookie among the others, in the order in which the browser sends them. -/
def cookiesSent (before : List CookiePair) (own : Str) (after : List CookiePair) : List Str :=
  before.map CookiePair.text ++ own :: after.map CookiePair.text

/-- The header line with which a browser sends its cookies. -/
def cookieHeader (cookies : List Str) : Str :=
  bytes "Cookie: " ++ List.intercalate (bytes "; ") cookies ++ bytes "\r\n"

/-- What stands between the semicolons of such a line, behind its first space. -/
def cookiePieces : List Str → List Str
  | [] => []
  | cookie :: cookies => cookie :: cookies.map ([space] ++ ·)

/-! ## The alphabet of the ids -/

/-- A digit, a lower-case hexadecimal letter, a minus sign or the underscore. -/
def IdByte (c : UInt8) : Prop :=
  (48 ≤ c ∧ c ≤ 57) ∨ (97 ≤ c ∧ c ≤ 102) ∨ c = 45 ∨ c = 95

instance (c : UInt8) : Decidable (IdByte c) := inferInstanceAs (Decidable (_ ∨ _))

theorem idByte_digit {c : Char} (h : c.isDigit = true) : IdByte c.toUInt8 := by
  obtain ⟨byte, low, high⟩ := digit_bounds h
  exact .inl ⟨UInt8.le_iff_toNat_le.mpr (by simpa [byte] using low),
    UInt8.le_iff_toNat_le.mpr (by simpa [byte] using high)⟩

theorem idByte_decimal {n : ℤ} {c : UInt8} (h : c ∈ decimal n) : IdByte c := by
  rcases List.mem_append.mp h with sign | digits
  · split at sign
    · cases List.mem_singleton.mp sign
      exact .inr (.inr (.inl rfl))
    · cases sign
  · obtain ⟨digit, hd, rfl⟩ := List.mem_map.mp digits
    exact idByte_digit (Nat.isDigit_of_mem_toDigits (by decide) (by decide) hd)

theorem idByte_hexDigit (draw : Fin 16) : IdByte (hexDigit draw) := by
  unfold IdByte
  revert draw
  decide

theorem idByte_generateSessionId {now : ℤ} {draws : Fin 16 → Fin 16} {c : UInt8}
    (h : c ∈ generateSessionId now draws) : IdByte c := by
  rcases List.mem_append.mp h with start | hex
  · rcases List.mem_append.mp start with time | underscore
    · exact idByte_decimal time
    · cases List.mem_singleton.mp underscore
      exact .inr (.inr (.inr rfl))
  · obtain ⟨i, rfl⟩ := List.mem_ofFn.mp hex
    exact idByte_hexDigit _

theorem generateSessionId_plain {c : UInt8} (hc : ¬ IdByte c) (now : ℤ)
    (draws : Fin 16 → Fin 16) : c ∉ generateSessionId now draws :=
  fun h => hc (idByte_generateSessionId h)

/-! ## The round trip -/

theorem browserCookie_buildSetCookie {key value : Str} (hk : semicolon ∉ key)
    (hv : semicolon ∉ value) (maxAge : ℤ) :
    browserCookie (buildSetCookie key value maxAge) = key ++ equals :: value := by
  have shape : (buildSetCookie key value maxAge).drop (bytes "Set-Cookie:").length =
      (key ++ equals :: value) ++
        semicolon :: (bytes " Path=/; HttpOnly; Max-Age=" ++ decimal maxAge ++ bytes "\r\n") := by
    simp only [buildSetCookie, List.append_assoc, List.drop_left]
    rfl
  rw [browserCookie, shape]
  refine takeWhile_append_cons (fun c hc => ?_) (by simp)
  rw [bne_iff_ne]
  rintro rfl
  rcases List.mem_append.mp hc with inKey | inValue
  · exact hk inKey
  · rcases List.mem_cons.mp inValue with eq | inValue
    · exact absurd eq (by decide)
    · exact hv inValue

/-- A pair is read with its name less the leading spaces. -/
theorem trim_pair (lead name value : Str) (hl : ∀ c ∈ lead, c = space) :
    trim (lead ++ (name ++ equals :: value)) =
      name.dropWhile (· == space) ++ equals :: value.rdropWhile (· == space) := by
  have blank : ∀ c ∈ lead, (c == space) = true := fun c hc => by simpa using hl c hc
  have stop : (equals == space) = false := by decide
  rw [trim, List.dropWhile_append_of_pos blank,
    dropWhile_append_cons (p := (· == space)) name value stop,
    rdropWhile_append_cons (p := (· == space)) _ value stop]

theorem pairKey_pair {lead name : Str} (value : Str) (hl : ∀ c ∈ lead, c = space)
    (hn : equals ∉ name) :
    pairKey (lead ++ (name ++ equals :: value)) = name.dropWhile (· == space) := by
  rw [pairKey, trim_pair lead name value hl,
    takeWhile_key fun inside => hn ((List.dropWhile_suffix _).subset inside)]

theorem pairValue_trimmed {lead name : Str} (value : Str) (hl : ∀ c ∈ lead, c = space)
    (hn : equals ∉ name) : pairValue (lead ++ (name ++ equals :: value)) =
      (value.rdropWhile (· == space)).take npos := by
  rw [pairValue, pairKey_pair value hl hn, trim_pair lead name value hl, ← List.drop_drop,
    List.drop_left, List.drop_succ_cons, List.drop_zero]

theorem pairValue_pair {lead name value : Str} (hl : ∀ c ∈ lead, c = space) (hn : equals ∉ name)
    (whole : value.rdropWhile (· == space) = value) (size : value.length ≤ npos) :
    pairValue (lead ++ (name ++ equals :: value)) = value := by
  rw [pairValue_trimmed value hl hn, whole, List.take_of_length_le size]

theorem CookiePair.clean (p : CookiePair) {c : UInt8} (hc : c ∈ [semicolon, carriageReturn]) :
    c ∉ p.text := by
  obtain ⟨name, value⟩ := p.plain c hc
  have other : c ≠ equals := by
    rintro rfl
    exact absurd hc (by decide)
  simp [CookiePair.text, name, value, other]

/-- Each cookie is a piece, with a space before it unless it is the first. -/
theorem cookiePieces_append (before after : List Str) (cookie : Str) :
    ∃ earlier lead, (∀ c ∈ lead, c = space) ∧
      cookiePieces (before ++ cookie :: after) =
        earlier ++ (lead ++ cookie) :: after.map ([space] ++ ·) := by
  cases before with
  | nil => exact ⟨[], [], by simp, rfl⟩
  | cons first before =>
      exact ⟨first :: before.map ([space] ++ ·), [space], by simp, by simp [cookiePieces]⟩

/-- The first byte after `Cookie:` is the space that the parser skips. -/
theorem parseCookies_cookieHeader {opening rest : Str} {cookies : List Str} (filled : cookies ≠ [])
    (first : find (bytes "Cookie:") (opening ++ (cookieHeader cookies ++ rest)) =
      some opening.length)
    (size : (opening ++ (cookieHeader cookies ++ rest)).length ≤ npos)
    (clean : ∀ i ∈ cookies, semicolon ∉ i ∧ carriageReturn ∉ i ∧ i ≠ []) :
    parseCookies (opening ++ (cookieHeader cookies ++ rest)) =
      some ((cookiePieces cookies).foldl enterPair ∅) := by
  obtain ⟨cookie, cookies, rfl⟩ := List.exists_cons_of_ne_nil filled
  have shape : opening ++ (cookieHeader (cookie :: cookies) ++ rest) =
      opening ++ (bytes "Cookie:" ++ space :: List.intercalate (bytes "; ") (cookie :: cookies) ++
        (bytes "\r\n" ++ rest)) := by
    simp only [cookieHeader, List.append_assoc]
    rfl
  rw [shape] at first size ⊢
  have plain : carriageReturn ∉ List.intercalate (bytes "; ") (cookie :: cookies) :=
    not_mem_intercalate (by decide) fun i hi => (clean i hi).2.1
  have short : (List.intercalate (bytes "; ") (cookie :: cookies)).length < wordSize := by
    simp only [List.length_append, List.length_cons] at size
    unfold npos wordSize at *
    omega
  have pieces : getlines semicolon ([] ++ List.intercalate (bytes "; ") (cookie :: cookies)) =
      cookiePieces (cookie :: cookies) :=
    getlines_intercalate (by decide) (by simp) fun i hi => ⟨(clean i hi).1, (clean i hi).2.2⟩
  rw [parseCookies_line first (List.not_mem_cons_of_ne_of_not_mem (by decide) plain),
    Nat.mod_eq_of_lt short, List.take_length, readPairs]
  exact congrArg (fun pieces => some (pieces.foldl enterPair ∅)) pieces

/-- Among any other cookies, one that no later cookie of its name follows keeps its value. -/
theorem lookup_cookie {before after : List CookiePair} {name value : Str}
    (divided : equals ∉ name) (stripped : name.dropWhile (· == space) = name)
    (plain : space ∉ value) (size : value.length ≤ npos)
    (others : ∀ p ∈ after, p.name.dropWhile (· == space) ≠ name) :
    ((cookiePieces (cookiesSent before (name ++ equals :: value) after)).foldl
      enterPair ∅).lookup name = some value := by
  have whole : value.rdropWhile (· == space) = value := by
    rw [List.rdropWhile_eq_self_iff]
    intro filled last
    exact plain (beq_iff_eq.mp last ▸ List.getLast_mem filled)
  obtain ⟨earlier, lead, blank, eq⟩ := cookiePieces_append (before.map CookiePair.text)
    (after.map CookiePair.text) (name ++ equals :: value)
  have key := pairKey_pair value blank divided
  rw [stripped] at key
  have inside : equals ∈ lead ++ (name ++ equals :: value) := by simp
  have other : ∀ q ∈ (after.map CookiePair.text).map ([space] ++ ·),
      ¬ (equals ∈ q ∧ pairKey q = pairKey (lead ++ (name ++ equals :: value))) := by
    rw [List.map_map, key]
    rintro q hq ⟨-, same⟩
    obtain ⟨p, hp, rfl⟩ := List.mem_map.mp hq
    exact others p hp ((pairKey_pair p.value (by simp) p.divided).symm.trans same)
  have last := lookup_of_last earlier ∅ inside other
  rwa [key, pairValue_pair blank divided whole size, ← eq] at last

/-- What a browser keeps of the answer to a login that issued this id. -/
def loginCookie (idTime : ℤ) (draws : Fin 16 → Fin 16) (maxAge : ℤ) : Str :=
  browserCookie (buildSetCookie (bytes "SESSIONID") (generateSessionId idTime draws) maxAge)

theorem loginCookie_eq (idTime : ℤ) (draws : Fin 16 → Fin 16) (maxAge : ℤ) :
    loginCookie idTime draws maxAge =
      bytes "SESSIONID" ++ equals :: generateSessionId idTime draws :=
  browserCookie_buildSetCookie (by decide) (generateSessionId_plain (by decide) idTime draws) maxAge

theorem not_mem_loginCookie {c : UInt8} (hc : ¬ IdByte c) (he : c ≠ equals)
    (hn : c ∉ bytes "SESSIONID") (idTime : ℤ) (draws : Fin 16 → Fin 16) (maxAge : ℤ) :
    c ∉ loginCookie idTime draws maxAge := by
  rw [loginCookie_eq]
  simp [hn, he, generateSessionId_plain hc]

theorem loginCookie_clean (idTime : ℤ) (draws : Fin 16 → Fin 16) (maxAge : ℤ) :
    semicolon ∉ loginCookie idTime draws maxAge ∧
      carriageReturn ∉ loginCookie idTime draws maxAge ∧ loginCookie idTime draws maxAge ≠ [] :=
  ⟨not_mem_loginCookie (by decide) (by decide) (by decide) _ _ _,
    not_mem_loginCookie (by decide) (by decide) (by decide) _ _ _, by simp [loginCookie_eq]⟩

theorem CookiePair.text_clean (p : CookiePair) :
    semicolon ∉ p.text ∧ carriageReturn ∉ p.text ∧ p.text ≠ [] :=
  ⟨p.clean (by simp), p.clean (by simp), by simp [CookiePair.text]⟩

/-- For every clock reading and all random draws, every header line with the
cookie of the login and any other cookies, and every run of the session manager
under a clock that never goes backwards: the request is read with the id that
`createSession` stored, and the id is valid up to the end of the session unless
it was destroyed or made again in between. -/
theorem login_cookie_authenticates (idTime : ℤ) (draws : Fin 16 → Fin 16) (maxAge : ℤ)
    {opening rest request : Str} {before after : List CookiePair}
    (sent : request = opening ++ (cookieHeader
      (cookiesSent before (loginCookie idTime draws maxAge) after) ++ rest))
    (first : find (bytes "Cookie:") request = some opening.length)
    (size : request.length ≤ npos)
    (others : ∀ p ∈ before ++ after, p.name.dropWhile (· == space) ≠ bytes "SESSIONID") :
    ∃ cookies, parseCookies request = some cookies ∧
      cookies.lookup (bytes "SESSIONID") = some (generateSessionId idTime draws) ∧
      ∀ older issued username timeout newer sessions results now,
        sessionManager.Reaches
          (older ++ (issued, .createSession username timeout (generateSessionId idTime draws)) ::
            newer) sessions results →
        SessionManager.Forward (older ++
          (issued, .createSession username timeout (generateSessionId idTime draws)) :: newer) →
        (∀ c ∈ older ++
          (issued, .createSession username timeout (generateSessionId idTime draws)) :: newer,
          c.1 ≤ now) →
        now ≤ issued + timeout →
        (∀ c ∈ newer,
          (∀ username timeout, c.2 ≠ .createSession username timeout
            (generateSessionId idTime draws)) ∧
          c.2 ≠ .destroySession (generateSessionId idTime draws)) →
        (isSessionValid sessions (sessionIdOf cookies) now).2 = true := by
  subst sent
  have clean : ∀ i ∈ cookiesSent before (loginCookie idTime draws maxAge) after,
      semicolon ∉ i ∧ carriageReturn ∉ i ∧ i ≠ [] := by
    intro i hi
    rcases List.mem_append.mp hi with earlier | later
    · obtain ⟨p, -, rfl⟩ := List.mem_map.mp earlier
      exact p.text_clean
    · rcases List.mem_cons.mp later with rfl | later
      · exact loginCookie_clean idTime draws maxAge
      · obtain ⟨p, -, rfl⟩ := List.mem_map.mp later
        exact p.text_clean
  have parsed := parseCookies_cookieHeader (by simp [cookiesSent]) first size clean
  have short : (generateSessionId idTime draws).length ≤ npos := by
    have within : (loginCookie idTime draws maxAge).length ≤ (List.intercalate (bytes "; ")
        (cookiesSent before (loginCookie idTime draws maxAge) after)).length :=
      length_le_intercalate _ (by simp [cookiesSent])
    rw [loginCookie_eq] at within size
    simp only [cookieHeader, List.length_append, List.length_cons] at within size
    omega
  have held : ((cookiePieces (cookiesSent before (loginCookie idTime draws maxAge) after)).foldl
      enterPair ∅).lookup (bytes "SESSIONID") = some (generateSessionId idTime draws) := by
    rw [loginCookie_eq]
    exact lookup_cookie (by decide) (by decide) (generateSessionId_plain (by decide) _ _) short
      fun p hp => others p (List.mem_append_right before hp)
  refine ⟨_, parsed, held, ?_⟩
  intro older issued username timeout newer sessions results now run clock past live silent
  have tracked := SessionManager.reaches_tracks run clock past
  rw [sessionIdOf, held, Option.getD_some, tracked.valid_iff]
  refine ⟨{ username := username, expireTime := issued + timeout },
    ledger_filterMap_eq_some.mpr ⟨older, _, newer, rfl, rfl, fun c hc => ?_⟩, live⟩
  exact Call.silent_iff.mpr (silent c hc)

def theme : CookiePair where
  name := bytes "theme"
  value := bytes "dark"
  divided := by decide
  plain := by decide +kernel

def namesake : CookiePair where
  name := bytes "SESSIONID2"
  value := bytes "x=y"
  divided := by decide
  plain := by decide +kernel

/-- Two other cookies around the id, and a clean-up before the visit. -/
theorem login_cookie_authenticates_visit :
    ∃ request cookies sessions results,
      request = bytes "GET / HTTP/1.1\r\n" ++ (cookieHeader
        (cookiesSent [theme] (loginCookie 99 (fun i => i) 3600) [namesake]) ++ bytes "\r\n") ∧
      parseCookies request = some cookies ∧
      sessionManager.Reaches ([] ++ (100, .createSession (bytes "test_user") 3600
        (generateSessionId 99 fun i => i)) :: [(150, .clearExpiredsession)]) sessions results ∧
      (isSessionValid sessions (sessionIdOf cookies) 3700).2 = true := by
  have sent : bytes "GET / HTTP/1.1\r\n" ++ (cookieHeader
      (cookiesSent [theme] (loginCookie 99 (fun i => i) 3600) [namesake]) ++
        bytes "\r\n") = _ := rfl
  obtain ⟨cookies, parsed, -, valid⟩ := login_cookie_authenticates 99 (fun i => i) 3600 sent.symm
    (by decide +kernel) (by decide +kernel) (by decide +kernel)
  obtain ⟨sessions, results, run⟩ := Machine.exists_reaches (M := sessionManager)
    (fun _ _ => rfl) ([] ++ (100, .createSession (bytes "test_user") 3600
      (generateSessionId 99 fun i => i)) :: [(150, .clearExpiredsession)])
  exact ⟨_, cookies, sessions, results, rfl, parsed, run,
    valid _ _ _ _ _ _ _ _ run (by simp [SessionManager.Forward]) (by simp) (by decide) (by simp)⟩

end StudyCode.HttpServer

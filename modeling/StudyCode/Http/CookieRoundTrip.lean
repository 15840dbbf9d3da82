import StudyCode.Http.LoginCookie

/-!
# `parseCookies` undoes the format of the header

Pairs are joined by a semicolon and a space, and each is divided at its first
equals sign. The parser trims a pair at both ends, so what it must not lose is
a space before a name and a space after a value.
-/
namespace StudyCode.HttpServer
open StudyCode.ByteString StudyCode.CookieUtil

/-- The value of the last pair of that name. -/
def lastValue (pairs : List CookiePair) (key : Str) : Option Str :=
  (pairs.reverse.find? fun p => decide (p.name = key)).map CookiePair.value

theorem lastValue_snoc (pairs : List CookiePair) (p : CookiePair) (key : Str) :
    lastValue (pairs ++ [p]) key = if p.name = key then some p.value else lastValue pairs key := by
  unfold lastValue
  rw [List.reverse_append, List.reverse_singleton, List.singleton_append, List.find?_cons]
  by_cases own : p.name = key <;> simp [own]

/-- A pair that loses nothing when it is trimmed. -/
def CookiePair.Tight (p : CookiePair) : Prop :=
  p.name.head? ≠ some space ∧ p.value.getLast? ≠ some space

theorem dropWhile_of_head {s : Str} (h : s.head? ≠ some space) :
    s.dropWhile (· == space) = s := by
  cases s with
  | nil => rfl
  | cons c s =>
      have other : c ≠ space := by simpa using h
      simp [other]

theorem rdropWhile_of_getLast {s : Str} (h : s.getLast? ≠ some space) :
    s.rdropWhile (· == space) = s := by
  rw [List.rdropWhile_eq_self_iff]
  intro filled last
  exact h (by rw [List.getLast?_eq_some_getLast filled, beq_iff_eq.mp last])

/-- A tight pair is entered as it was written, behind any spaces. -/
theorem enterPair_text {p : CookiePair} (tight : p.Tight) (size : p.value.length ≤ npos)
    {lead : Str} (blank : ∀ c ∈ lead, c = space) (cookieMap : Cookies) (key : Str) :
    (enterPair cookieMap (lead ++ p.text)).lookup key =
      if p.name = key then some p.value else cookieMap.lookup key := by
  have inside : equals ∈ lead ++ p.text := by simp [CookiePair.text]
  have name : pairKey (lead ++ p.text) = p.name :=
    (pairKey_pair p.value blank p.divided).trans (dropWhile_of_head tight.1)
  have value : pairValue (lead ++ p.text) = p.value :=
    pairValue_pair blank p.divided (rdropWhile_of_getLast tight.2) size
  rw [enterPair_lookup, name, value]
  simp [inside]

theorem cookiePieces_snoc (texts : List Str) (text : Str) :
    ∃ lead, (∀ c ∈ lead, c = space) ∧
      cookiePieces (texts ++ [text]) = cookiePieces texts ++ [lead ++ text] := by
  cases texts with
  | nil => exact ⟨[], by simp, rfl⟩
  | cons first texts => exact ⟨[space], by simp, by simp [cookiePieces]⟩

theorem lookup_pairs {pairs : List CookiePair} (tight : ∀ p ∈ pairs, p.Tight)
    (size : ∀ p ∈ pairs, p.value.length ≤ npos) (key : Str) :
    ((cookiePieces (pairs.map CookiePair.text)).foldl enterPair ∅).lookup key =
      lastValue pairs key := by
  induction pairs using List.reverseRecOn with
  | nil => rfl
  | append_singleton pairs p ih =>
      obtain ⟨lead, blank, pieces⟩ := cookiePieces_snoc (pairs.map CookiePair.text) p.text
      have here : p ∈ pairs ++ [p] := by simp
      rw [List.map_append, List.map_singleton, pieces, List.foldl_append, List.foldl_cons,
        List.foldl_nil, enterPair_text (tight p here) (size p here) blank, lastValue_snoc,
        ih (fun q hq => tight q (List.mem_append_left _ hq))
          fun q hq => size q (List.mem_append_left _ hq)]

/-- Without the text before it, the header line is the first place found. -/
theorem find_cookieHeader {before : Str} (absent : ¬ bytes "Cookie:" <:+: before)
    (cookies : List Str) (after : Str) :
    find (bytes "Cookie:") (before ++ (cookieHeader cookies ++ after)) =
      some before.length := by
  have shape : cookieHeader cookies ++ after = bytes "Cookie:" ++
      (space :: (List.intercalate (bytes "; ") cookies ++ (bytes "\r\n" ++ after))) := by
    simp only [cookieHeader, List.append_assoc]
    rfl
  rw [shape]
  exact find_append_self_of_absent (by decide) absent

/-- For all lists of pairs that lose nothing by trimming, any text before that does
not contain `Cookie:` and any text after: what `parseCookies` reads from the header
line of the pairs sends each name to its last value, and has no other name. -/
theorem parseCookies_undoes_header (pairs : List CookiePair) (before after : Str)
    (tight : ∀ p ∈ pairs, p.Tight) (absent : ¬ bytes "Cookie:" <:+: before)
    (size : (before ++ (cookieHeader (pairs.map CookiePair.text) ++ after)).length ≤ npos) :
    ∃ cookies,
      parseCookies (before ++ (cookieHeader (pairs.map CookiePair.text) ++ after)) =
        some cookies ∧
      ∀ key, cookies.lookup key = lastValue pairs key := by
  have first := find_cookieHeader absent (pairs.map CookiePair.text) after
  refine ⟨(cookiePieces (pairs.map CookiePair.text)).foldl enterPair ∅, ?_, ?_⟩
  · rcases eq_or_ne pairs [] with rfl | filled
    · have shape : before ++ (cookieHeader [] ++ after) =
          before ++ (bytes "Cookie:" ++ space :: [] ++ (bytes "\r\n" ++ after)) := rfl
      rw [List.map_nil, shape] at first ⊢
      exact parseCookies_line first (by decide)
    · refine parseCookies_cookieHeader (by simpa using filled) first size ?_
      intro i hi
      obtain ⟨p, -, rfl⟩ := List.mem_map.mp hi
      exact p.text_clean
  · refine lookup_pairs tight fun p hp => ?_
    have text := length_le_intercalate (bytes "; ") (List.mem_map_of_mem hp (f := CookiePair.text))
    simp only [cookieHeader, CookiePair.text, List.length_append, List.length_cons] at text size
    omega

/-- The theme again, with an equals sign and spaces inside the value. -/
def themeAgain : CookiePair where
  name := bytes "theme"
  value := bytes " light = on"
  divided := theme.divided
  plain := by decide +kernel

theorem parseCookies_undoes_header_again :
    ∃ cookies,
      parseCookies (bytes "GET / HTTP/1.1\r\n" ++
        (cookieHeader ([theme, namesake, themeAgain].map CookiePair.text) ++
          bytes "\r\nCookie: x=1\r\n")) = some cookies ∧
      cookies.lookup (bytes "theme") = some (bytes " light = on") ∧
      cookies.lookup (bytes "x") = none := by
  have absent : ¬ bytes "Cookie:" <:+: bytes "GET / HTTP/1.1\r\n" := by
    rw [← find_eq_none]
    decide +kernel
  obtain ⟨cookies, parsed, pairs⟩ := parseCookies_undoes_header
    [theme, namesake, themeAgain] _ (bytes "\r\nCookie: x=1\r\n")
    (by unfold CookiePair.Tight; decide +kernel) absent (by decide +kernel)
  refine ⟨cookies, parsed, (pairs _).trans ?_, (pairs _).trans ?_⟩ <;> decide +kernel

end StudyCode.HttpServer

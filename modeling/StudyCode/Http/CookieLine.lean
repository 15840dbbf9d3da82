import StudyCode.Http.CookieSource

/-!
# When `parseCookies` stays inside the cookie line

The source skips eight bytes for a name of seven, the last one for the space
after the colon. A line that ends right behind the colon has no eighth byte:
the length of the cookie text wraps around, and the rest of the request is read.
-/
namespace StudyCode.Http
open StudyCode.ByteString StudyCode.CookieUtil

/-- The text strictly between the first `Cookie:` and the first line end after it. -/
def lineText (request : Str) : Str :=
  match find (bytes "Cookie:") request with
  | none => []
  | some cookiePos =>
      match findFrom request (bytes "\r\n") cookiePos with
      | none => []
      | some endPos => (request.drop (cookiePos + 7)).take (endPos - (cookiePos + 7))

/-- `endPos - (cookiePos + 8)` does not wrap around. -/
def LengthFits (request : Str) : Prop :=
  ∀ cookiePos endPos, find (bytes "Cookie:") request = some cookiePos →
    findFrom request (bytes "\r\n") cookiePos = some endPos → cookiePos + 8 ≤ endPos

/-- No `substr` throws, the length does not wrap around, and keys and values are
taken from the line. -/
def StaysInLine (request : Str) : Prop :=
  (parseCookies request).isSome = true ∧ LengthFits request ∧
    ∀ cookies, parseCookies request = some cookies → ∀ key value,
      cookies.lookup key = some value → key <:+: lineText request ∧ value <:+: lineText request

theorem trim_within (piece : Str) : trim piece <:+: piece :=
  (List.rdropWhile_prefix _ _).isInfix.trans (List.dropWhile_suffix _).isInfix

theorem pairKey_within (piece : Str) : pairKey piece <:+: piece :=
  (List.takeWhile_prefix _).isInfix.trans (trim_within piece)

theorem pairValue_within (piece : Str) : pairValue piece <:+: piece :=
  ((List.take_prefix _ _).isInfix.trans (List.drop_suffix _ _).isInfix).trans (trim_within piece)

/-- What the map holds was entered from one of the pieces. -/
theorem foldl_enterPair_lookup {pieces : List Str} {cookieMap : Cookies} {key value : Str}
    (held : (pieces.foldl enterPair cookieMap).lookup key = some value) :
    cookieMap.lookup key = some value ∨
      ∃ piece ∈ pieces, pairKey piece = key ∧ pairValue piece = value := by
  induction pieces generalizing cookieMap with
  | nil => exact .inl held
  | cons piece pieces ih =>
      rcases ih held with entered | ⟨p, hp, same⟩
      · rw [enterPair_lookup] at entered
        split at entered
        · rename_i own
          exact .inr ⟨piece, List.mem_cons_self, own.2, Option.some.inj entered⟩
        · exact .inl entered
      · exact .inr ⟨p, List.mem_cons_of_mem piece hp, same⟩

theorem readPairs_infix {cookieStr key value : Str}
    (held : (readPairs cookieStr).lookup key = some value) :
    key <:+: cookieStr ∧ value <:+: cookieStr := by
  rcases foldl_enterPair_lookup held with empty | ⟨piece, hp, rfl, rfl⟩
  · rw [AList.lookup_empty] at empty
    cases empty
  · have inside := (getlines_within cookieStr).2 piece hp
    exact ⟨(pairKey_within piece).trans inside, (pairValue_within piece).trans inside⟩

/-- A line that goes on behind the colon loses its first byte. -/
theorem cookieStr_infix {request : Str} {cookiePos endPos : ℕ}
    (first : find (bytes "Cookie:") request = some cookiePos)
    (ended : findFrom request (bytes "\r\n") cookiePos = some endPos)
    (fits : cookiePos + 8 ≤ endPos) :
    (request.drop (cookiePos + 8)).take (sizeSub endPos (cookiePos + 8)) <:+: lineText request := by
  have line : lineText request =
      (request.drop (cookiePos + 7)).take (endPos - (cookiePos + 7)) := by
    simp only [lineText, first, ended]
  have tail : (request.drop (cookiePos + 8)).take (endPos - (cookiePos + 8)) =
      (lineText request).drop 1 := by
    rw [line, List.drop_take, List.drop_drop]
    congr 1
  have short : (request.drop (cookiePos + 8)).take (sizeSub endPos (cookiePos + 8)) <+:
      (request.drop (cookiePos + 8)).take (endPos - (cookiePos + 8)) := by
    rw [sizeSub_of_le fits]
    exact List.take_prefix_take_left (Nat.mod_le _ _)
  rw [tail] at short
  exact short.isInfix.trans (List.drop_suffix _ _).isInfix

theorem lengthFits_iff {request : Str} : LengthFits request ↔ ¬ EndsBare request := by
  constructor
  · rintro fits ⟨cookiePos, first, ended⟩
    exact absurd (fits _ _ first ended) (by omega)
  · intro filled cookiePos endPos first ended
    have after := lineEnd_after_name first ended
    have more : endPos ≠ cookiePos + 7 := by
      rintro rfl
      exact filled ⟨cookiePos, first, ended⟩
    omega

theorem parseCookies_infix {request : Str} (fits : LengthFits request) {cookies : Cookies}
    (parsed : parseCookies request = some cookies) {key value : Str}
    (held : cookies.lookup key = some value) :
    key <:+: lineText request ∧ value <:+: lineText request := by
  cases first : find (bytes "Cookie:") request with
  | none =>
      rw [parseCookies_none first] at parsed
      cases parsed
      cases held
  | some cookiePos =>
      cases ended : findFrom request (bytes "\r\n") cookiePos with
      | none =>
          rw [parseCookies_unended first ended] at parsed
          cases parsed
          cases held
      | some endPos =>
          rw [parseCookies_some first ended] at parsed
          cases parsed
          obtain ⟨hk, hv⟩ := readPairs_infix held
          have inside := cookieStr_infix first ended (fits _ _ first ended)
          exact ⟨hk.trans inside, hv.trans inside⟩

/-- For every request: `parseCookies` stays inside the line of the first `Cookie:`
if and only if that line does not end right behind the colon. -/
theorem stays_in_line_iff (request : Str) : StaysInLine request ↔ ¬ EndsBare request := by
  constructor
  · exact fun stays => lengthFits_iff.mp stays.2.1
  · intro filled
    have fits := lengthFits_iff.mpr filled
    exact ⟨parseCookies_isSome request, fits,
      fun cookies parsed key value held => parseCookies_infix fits parsed held⟩

/-- A cookie header without a value: the next header line becomes a cookie. -/
theorem bare_cookie_line :
    ¬ StaysInLine (bytes "GET / HTTP/1.1\r\nCookie:\r\nReferer: /?SESSIONID=1_0\r\n\r\n") ∧
      (parseCookies (bytes "GET / HTTP/1.1\r\nCookie:\r\nReferer: /?SESSIONID=1_0\r\n\r\n")).bind
        (AList.lookup (bytes "\nReferer: /?SESSIONID")) = some (bytes "1_0\r\n\r\n") := by
  constructor
  · rintro ⟨-, fits, -⟩
    exact absurd (fits 16 23 (by decide +kernel) (by decide +kernel)) (by decide)
  · decide +kernel

end StudyCode.Http

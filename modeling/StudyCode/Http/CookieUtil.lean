import Mathlib.Data.List.AList
import StudyCode.Lib.StringEdit

/-!
# `CookieUtil`

`parseCookies` has no result where a `substr` of the source would throw, which
`parseCookies_isSome` excludes.
-/
namespace StudyCode.CookieUtil
open StudyCode.ByteString

abbrev Cookies := AList fun _ : Str => Str

def space : UInt8 := ' '.toUInt8

/-- `erase(0, find_first_not_of(" "))`, then `erase(find_last_not_of(" ") + 1)`. -/
def trim (pair : Str) : Str := (pair.dropWhile (· == space)).rdropWhile (· == space)

/-- The body of the loop over the pieces between the semicolons. -/
def parsePair (cookieMap : Cookies) (piece : Str) : Option Cookies :=
  let pair := trim piece
  if pair = [] then some cookieMap
  else
    match find (bytes "=") pair with
    | none => some cookieMap
    | some eqPos => do
        let key ← substr pair 0 eqPos
        let value ← substr pair (eqPos + 1) npos
        return cookieMap.insert key value

def parseCookies (request : Str) : Option Cookies :=
  match find (bytes "Cookie:") request with
  | none => some ∅
  | some cookiePos =>
      match findFrom request (bytes "\r\n") cookiePos with
      | none => some ∅
      | some endPos => do
          let cookieStr ← substr request (cookiePos + 8) (sizeSub endPos (cookiePos + 8))
          (getlines (';'.toUInt8) cookieStr).foldlM parsePair ∅

def buildSetCookie (key value : Str) (maxAge : ℤ) : Str :=
  bytes "Set-Cookie:" ++ key ++ bytes "=" ++ value ++ bytes "; Path=/; HttpOnly; Max-Age=" ++
    decimal maxAge ++ bytes "\r\n"

def buildClearCookie (key : Str) : Str :=
  bytes "Set-Cookie:" ++ key ++ bytes "=; Path=/; HttpOnly; Max-Age=0\r\n"

/-- The two calls of `erase` that trim a piece. -/
theorem erase_eq_trim {pair : Str} (size : pair.length ≤ npos) :
    ((erase pair 0 (orNpos (findFirstNotOf (· == space) pair))).bind fun pair =>
      erase pair (sizeAdd (orNpos (findLastNotOf (· == space) pair)) 1) npos) =
      some (trim pair) := by
  have shorter := (List.dropWhile_suffix (l := pair) (· == space)).length_le
  rw [erase_first _ size, Option.bind_some, erase_last _ (shorter.trans size)]
  rfl

theorem parsePair_isSome (cookieMap : Cookies) (piece : Str) :
    (parsePair cookieMap piece).isSome = true := by
  simp only [parsePair]
  split
  · rfl
  · cases found : find (bytes "=") (trim piece) with
    | none => rfl
    | some eqPos =>
        have inside := find_some_le found
        have one : (bytes "=").length = 1 := rfl
        obtain ⟨key, hkey⟩ := Option.isSome_iff_exists.mp
          ((substr_isSome (trim piece) 0 eqPos).mpr (Nat.zero_le _))
        obtain ⟨value, hvalue⟩ := Option.isSome_iff_exists.mp
          ((substr_isSome (trim piece) (eqPos + 1) npos).mpr (by omega))
        simp only [hkey, hvalue]
        rfl

theorem foldlM_isSome {β γ : Type*} {f : β → γ → Option β}
    (total : ∀ b c, (f b c).isSome = true) (l : List γ) (b : β) :
    (l.foldlM f b).isSome = true := by
  induction l generalizing b with
  | nil => rfl
  | cons c l ih =>
      obtain ⟨b', eq⟩ := Option.isSome_iff_exists.mp (total b c)
      rw [List.foldlM_cons, eq]
      exact ih b'

/-- The line end found after `Cookie:` starts no earlier than the colon ends. -/
theorem lineEnd_after_name {request : Str} {cookiePos endPos : ℕ}
    (hc : find (bytes "Cookie:") request = some cookiePos)
    (he : findFrom request (bytes "\r\n") cookiePos = some endPos) :
    cookiePos + 7 ≤ endPos := by
  have noReturn : ∀ k < 7, (bytes "\r\n")[0]? ≠ (bytes "Cookie:")[k]? := by decide
  obtain ⟨after, crlf, -⟩ := findFrom_some he
  have name := (find_some_at hc).2
  by_contra early
  obtain ⟨k, rfl⟩ := Nat.exists_eq_add_of_le after
  have short : k < 7 := by omega
  have cr := getElem?_of_prefix_drop crlf (k := 0) (by decide)
  rw [Nat.add_zero, getElem?_of_prefix_drop name short] at cr
  exact noReturn k short cr.symm

/-- No `substr` of `parseCookies` throws, for any request. -/
theorem parseCookies_isSome (request : Str) : (parseCookies request).isSome = true := by
  unfold parseCookies
  cases hc : find (bytes "Cookie:") request with
  | none => rfl
  | some cookiePos =>
      cases he : findFrom request (bytes "\r\n") cookiePos with
      | none => simp only [he]; rfl
      | some endPos =>
          have after := lineEnd_after_name hc he
          have inside := (findFrom_some he).2.2
          have two : (bytes "\r\n").length = 2 := rfl
          obtain ⟨cookieStr, hs⟩ := Option.isSome_iff_exists.mp
            ((substr_isSome request (cookiePos + 8) (sizeSub endPos (cookiePos + 8))).mpr
              (by omega))
          simp only [he, hs]
          exact foldlM_isSome parsePair_isSome _ _

end StudyCode.CookieUtil

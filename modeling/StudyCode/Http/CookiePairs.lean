import StudyCode.Http.CookieUtil
import StudyCode.Lib.TextSearch

/-!
# What `parseCookies` reads

The pairs of a cookie text are entered one by one, so a name keeps the value of
its last pair. The text is what stands behind the first `Cookie:` of the request
up to its line end, less one byte for the space after the colon.
-/
namespace StudyCode.CookieUtil
open StudyCode.ByteString

def equals : UInt8 := '='.toUInt8

def semicolon : UInt8 := ';'.toUInt8

def carriageReturn : UInt8 := '\r'.toUInt8

def lineFeed : UInt8 := '\n'.toUInt8

def pairKey (piece : Str) : Str := (trim piece).takeWhile (· != equals)

def pairValue (piece : Str) : Str :=
  ((trim piece).drop ((pairKey piece).length + 1)).take npos

/-- A piece without an equals sign enters nothing. -/
def enterPair (cookieMap : Cookies) (piece : Str) : Cookies :=
  if equals ∈ piece then cookieMap.insert (pairKey piece) (pairValue piece) else cookieMap

def readPairs (cookieStr : Str) : Cookies := (getlines semicolon cookieStr).foldl enterPair ∅

theorem mem_trim {c : UInt8} (hc : c ≠ space) {piece : Str} : c ∈ trim piece ↔ c ∈ piece := by
  have stays : (c == space) = false := by simpa using hc
  constructor
  · intro inside
    have left := (List.rdropWhile_prefix (· == space) (piece.dropWhile (· == space))).subset inside
    exact (List.dropWhile_suffix _).subset left
  · intro inside
    have left := mem_dropWhile_of_neg (p := (· == space)) stays inside
    have right := mem_dropWhile_of_neg (p := (· == space)) stays (List.mem_reverse.mpr left)
    exact List.mem_reverse.mpr right

/-- A pair is divided at its first equals sign. -/
theorem takeWhile_key {key : Str} (h : equals ∉ key) (value : Str) :
    (key ++ equals :: value).takeWhile (· != equals) = key := by
  refine takeWhile_append_cons (fun b hb => ?_) (by simp)
  rw [bne_iff_ne]
  rintro rfl
  exact h hb

theorem parsePair_eq (cookieMap : Cookies) (piece : Str) :
    parsePair cookieMap piece = some (enterPair cookieMap piece) := by
  have same : equals ∈ trim piece ↔ equals ∈ piece := mem_trim (by decide)
  simp only [parsePair, enterPair]
  by_cases inside : equals ∈ piece
  · obtain ⟨key, value, divided, plain⟩ := List.eq_append_cons_of_mem (same.mpr inside)
    have found : find (bytes "=") (key ++ equals :: value) = some key.length :=
      find_append_self plain
    have filled : key ++ equals :: value ≠ [] := by simp
    rw [if_pos inside, pairValue, pairKey, divided, takeWhile_key plain, if_neg filled, found]
    simp [substr]
  · have absent : find (bytes "=") (trim piece) = none := by
      rw [find_eq_none]
      exact fun occurs => inside (same.mp (occurs.subset (List.mem_singleton_self equals)))
    rw [if_neg inside, absent]
    split <;> rfl

theorem parsePairs_eq (pieces : List Str) (cookieMap : Cookies) :
    pieces.foldlM parsePair cookieMap = some (pieces.foldl enterPair cookieMap) := by
  induction pieces generalizing cookieMap with
  | nil => rfl
  | cons piece pieces ih =>
      rw [List.foldlM_cons, parsePair_eq, Option.bind_eq_bind, Option.bind_some, ih]
      rfl

/-! ## The map -/

theorem enterPair_lookup {cookieMap : Cookies} {piece key : Str} :
    (enterPair cookieMap piece).lookup key =
      if equals ∈ piece ∧ pairKey piece = key then some (pairValue piece)
      else cookieMap.lookup key := by
  unfold enterPair
  by_cases inside : equals ∈ piece
  · by_cases own : pairKey piece = key
    · subst own
      simp [inside, AList.lookup_insert]
    · simp [inside, own, AList.lookup_insert_ne (Ne.symm own)]
  · simp [inside]

/-- Pairs of other names leave a name alone. -/
theorem lookup_of_other {pieces : List Str} {key : Str} (cookieMap : Cookies)
    (others : ∀ piece ∈ pieces, ¬ (equals ∈ piece ∧ pairKey piece = key)) :
    (pieces.foldl enterPair cookieMap).lookup key = cookieMap.lookup key := by
  induction pieces generalizing cookieMap with
  | nil => rfl
  | cons piece pieces ih =>
      rw [List.foldl_cons, ih _ fun q hq => others q (List.mem_cons_of_mem piece hq),
        enterPair_lookup, if_neg (others piece List.mem_cons_self)]

theorem lookup_of_last (before : List Str) {after : List Str} {piece : Str} (cookieMap : Cookies)
    (inside : equals ∈ piece)
    (others : ∀ q ∈ after, ¬ (equals ∈ q ∧ pairKey q = pairKey piece)) :
    ((before ++ piece :: after).foldl enterPair cookieMap).lookup (pairKey piece) =
      some (pairValue piece) := by
  rw [List.foldl_append, List.foldl_cons, lookup_of_other _ others, enterPair_lookup,
    if_pos ⟨inside, rfl⟩]

theorem enterPair_eq_empty {cookieMap : Cookies} {piece : Str} :
    enterPair cookieMap piece = ∅ ↔ cookieMap = ∅ ∧ equals ∉ piece := by
  unfold enterPair
  by_cases inside : equals ∈ piece
  · rw [if_pos inside]
    refine ⟨fun empty => ?_, fun both => absurd inside both.2⟩
    have entered := AList.lookup_insert (b := pairValue piece) (a := pairKey piece) cookieMap
    rw [empty, AList.lookup_empty] at entered
    cases entered
  · rw [if_neg inside]
    exact ⟨fun empty => ⟨empty, inside⟩, And.left⟩

theorem foldl_enterPair_eq_empty {pieces : List Str} {cookieMap : Cookies} :
    pieces.foldl enterPair cookieMap = ∅ ↔
      cookieMap = ∅ ∧ ∀ piece ∈ pieces, equals ∉ piece := by
  induction pieces generalizing cookieMap with
  | nil => simp
  | cons piece pieces ih => rw [List.foldl_cons, ih, enterPair_eq_empty]; simp [and_assoc]

/-- The map is empty exactly where the text has no equals sign. -/
theorem readPairs_eq_empty {cookieStr : Str} :
    readPairs cookieStr = ∅ ↔ equals ∉ cookieStr := by
  have pieces : (∃ piece ∈ getlines semicolon cookieStr, equals ∈ piece) ↔ equals ∈ cookieStr :=
    mem_getlines (by decide)
  rw [← pieces, readPairs, foldl_enterPair_eq_empty]
  simp

/-! ## The text -/

theorem parseCookies_none {request : Str} (h : find (bytes "Cookie:") request = none) :
    parseCookies request = some ∅ := by
  rw [parseCookies, h]

theorem parseCookies_unended {request : Str} {cookiePos : ℕ}
    (h : find (bytes "Cookie:") request = some cookiePos)
    (unended : findFrom request (bytes "\r\n") cookiePos = none) :
    parseCookies request = some ∅ := by
  simp only [parseCookies, h, unended]

theorem parseCookies_some {request : Str} {cookiePos endPos : ℕ}
    (h : find (bytes "Cookie:") request = some cookiePos)
    (ended : findFrom request (bytes "\r\n") cookiePos = some endPos) :
    parseCookies request = some (readPairs
      ((request.drop (cookiePos + 8)).take (sizeSub endPos (cookiePos + 8)))) := by
  have after := lineEnd_after_name h ended
  have inside := (findFrom_some ended).2.2
  have two : (bytes "\r\n").length = 2 := rfl
  have fits : cookiePos + 8 ≤ request.length := by omega
  simp only [parseCookies, h, ended, substr, if_pos fits, Option.bind_eq_bind, Option.bind_some]
  exact parsePairs_eq _ ∅

/-- The text from which `parseCookies` takes the pairs: the line of the first
`Cookie:` from its ninth byte on, or the rest of the request if that line ends
right behind the colon. -/
def cookieText (request : Str) : Str :=
  match find (bytes "Cookie:") request with
  | none => []
  | some cookiePos =>
      match findFrom request (bytes "\r\n") cookiePos with
      | none => []
      | some endPos =>
          if endPos = cookiePos + 7 then request.drop (cookiePos + 8)
          else (request.drop (cookiePos + 8)).take (endPos - (cookiePos + 8))

theorem parseCookies_eq {request : Str} (size : request.length ≤ npos) :
    parseCookies request = some (readPairs (cookieText request)) := by
  unfold cookieText
  cases first : find (bytes "Cookie:") request with
  | none => exact parseCookies_none first
  | some cookiePos =>
      cases ended : findFrom request (bytes "\r\n") cookiePos with
      | none =>
          simp only [ended]
          exact parseCookies_unended first ended
      | some endPos =>
          have after := lineEnd_after_name first ended
          have inside := (findFrom_some ended).2.2
          simp only [ended]
          rw [parseCookies_some first ended]
          split
          · rename_i bare
            rw [bare, sizeSub_succ, List.take_of_length_le]
            exact Nat.le_trans (List.drop_suffix _ _).length_le size
          · rw [sizeSub_eq (by omega) (by omega)]

/-- The line end that is found after a `Cookie:` with its text. -/
theorem lineEnd_eq {opening line rest : Str} (plain : carriageReturn ∉ line) :
    findFrom (opening ++ (bytes "Cookie:" ++ line ++ (bytes "\r\n" ++ rest))) (bytes "\r\n")
      opening.length = some (opening.length + 7 + line.length) := by
  have noReturn : carriageReturn ∉ bytes "Cookie:" ++ line := by
    simpa [List.mem_append, show carriageReturn ∉ bytes "Cookie:" by decide] using plain
  have ended : find (bytes "\r\n") (bytes "Cookie:" ++ line ++ (bytes "\r\n" ++ rest)) =
      some (bytes "Cookie:" ++ line).length := find_append_self noReturn
  have name : (bytes "Cookie:").length = 7 := rfl
  rw [findFrom_append, ended, Option.map_some, List.length_append, name]
  congr 1
  omega

/-- A first `Cookie:` with some text on its line supplies that text. -/
theorem parseCookies_line {opening line rest : Str} {byte : UInt8}
    (first : find (bytes "Cookie:")
      (opening ++ (bytes "Cookie:" ++ byte :: line ++ (bytes "\r\n" ++ rest))) =
        some opening.length)
    (plain : carriageReturn ∉ byte :: line) :
    parseCookies (opening ++ (bytes "Cookie:" ++ byte :: line ++ (bytes "\r\n" ++ rest))) =
      some (readPairs (line.take (line.length % wordSize))) := by
  have behind : (bytes "Cookie:" ++ byte :: line ++ (bytes "\r\n" ++ rest)).drop 8 =
      line ++ (bytes "\r\n" ++ rest) := rfl
  have length : opening.length + 7 + (byte :: line).length - (opening.length + 8) =
      line.length := by
    rw [List.length_cons]
    omega
  rw [parseCookies_some first (lineEnd_eq plain), ← List.drop_drop, List.drop_left, behind,
    sizeSub_of_le (by rw [List.length_cons]; omega), length,
    List.take_append_of_le_length (Nat.mod_le _ _)]

/-- A first `Cookie:` at the end of its line supplies the rest of the request. -/
theorem parseCookies_bare {opening rest : Str}
    (first : find (bytes "Cookie:") (opening ++ (bytes "Cookie:" ++ [] ++ (bytes "\r\n" ++ rest))) =
      some opening.length) :
    parseCookies (opening ++ (bytes "Cookie:" ++ [] ++ (bytes "\r\n" ++ rest))) =
      some (readPairs ((lineFeed :: rest).take npos)) := by
  have behind : (bytes "Cookie:" ++ [] ++ (bytes "\r\n" ++ rest)).drop 8 = lineFeed :: rest := rfl
  rw [parseCookies_some first (lineEnd_eq List.not_mem_nil), ← List.drop_drop, List.drop_left,
    behind, List.length_nil, Nat.add_zero, sizeSub_succ]

end StudyCode.CookieUtil

import StudyCode.Http.LoginCookie

/-!
# The ways to write the `Cookie` header

HTTP/1.1 compares header names without regard to case and allows any number of
spaces after the colon. The parser looks for one spelling of the name and skips
one byte after the colon, whatever that byte is.
-/
namespace StudyCode.Http
open StudyCode.ByteString StudyCode.CookieUtil
open StudyCode.HttpServer (pairKey_pair pairValue_trimmed)

def lowerCase (c : UInt8) : UInt8 := if 65 ≤ c ∧ c ≤ 90 then c + 32 else c

/-- A way to write the header up to its value. -/
structure Spelling where
  name : Str
  spaces : ℕ
  isCookie : name.map lowerCase = bytes "cookie"

def standard : Spelling where
  name := bytes "Cookie"
  spaces := 1
  isCookie := by decide +kernel

def Spelling.header (sp : Spelling) (cookieString : Str) : Str :=
  sp.name ++ bytes ":" ++ List.replicate sp.spaces space ++ cookieString ++ bytes "\r\n"

/-- Both requests are read, with the same map. -/
def SameMap (request request' : Str) : Prop :=
  ∃ cookies cookies', parseCookies request = some cookies ∧ parseCookies request' = some cookies' ∧
    ∀ key, cookies.lookup key = cookies'.lookup key

def Gives (piece key : Str) : Prop := equals ∈ piece ∧ pairKey piece = key

/-- What the first pair says, with or without its first byte, later pairs say anew. -/
def Overridden (cookieString : Str) : Prop :=
  match getlines semicolon cookieString with
  | [] => True
  | first :: later =>
      ∀ key, Gives first key ∨ Gives first.tail key → ∃ piece ∈ later, Gives piece key

/-- The byte behind the colon may be lost. -/
def FirstByteSpare (cookieString rest : Str) : Prop :=
  match cookieString with
  | [] => equals ∉ rest
  | byte :: _ => byte = space ∨ Overridden cookieString

/-! ## Leading spaces -/

theorem trim_cons_space (piece : Str) : trim (space :: piece) = trim piece := by
  simp [trim]

theorem enterPair_cons_space (cookieMap : Cookies) (piece : Str) :
    enterPair cookieMap (space :: piece) = enterPair cookieMap piece := by
  have same : equals ∈ space :: piece ↔ equals ∈ piece := by
    simp [show equals ≠ space by decide]
  simp only [enterPair, pairKey, pairValue, trim_cons_space, same]

theorem readPairs_cons_space (cookieStr : Str) :
    readPairs (space :: cookieStr) = readPairs cookieStr := by
  have other : space ≠ semicolon := by decide
  simp only [readPairs, getlines, if_neg other]
  cases getlines semicolon cookieStr with
  | nil => exact enterPair_cons_space ∅ []
  | cons piece pieces => simp only [List.foldl_cons, enterPair_cons_space]

theorem readPairs_replicate (k : ℕ) (cookieStr : Str) :
    readPairs (List.replicate k space ++ cookieStr) = readPairs cookieStr := by
  induction k with
  | zero => rfl
  | succ k ih => rw [List.replicate_succ, List.cons_append, readPairs_cons_space, ih]

/-! ## A lost first byte -/

theorem enterPair_empty {piece key value : Str} :
    (enterPair ∅ piece).lookup key = some value ↔ Gives piece key ∧ pairValue piece = value := by
  rw [enterPair_lookup]
  split
  · rename_i gives
    simp [Gives, gives]
  · rename_i none
    simp [Gives, none]

/-- Without its first byte a pair has another name, or else another value. -/
theorem enterPair_tail_ne {byte : UInt8} {piece : Str} (filled : byte ≠ space)
    (size : piece.length ≤ npos) {key : Str} (gives : Gives (byte :: piece) key ∨ Gives piece key) :
    (enterPair ∅ piece).lookup key ≠ (enterPair ∅ (byte :: piece)).lookup key := by
  intro same
  have both : Gives piece key ∧ Gives (byte :: piece) key ∧
      pairValue piece = pairValue (byte :: piece) := by
    rcases gives with whole | tail
    · have entered := enterPair_empty.mpr ⟨whole, rfl⟩
      obtain ⟨tail, value⟩ := enterPair_empty.mp (same.trans entered)
      exact ⟨tail, whole, value⟩
    · have entered := enterPair_empty.mpr ⟨tail, rfl⟩
      obtain ⟨whole, value⟩ := enterPair_empty.mp (same.symm.trans entered)
      exact ⟨tail, whole, value.symm⟩
  obtain ⟨⟨inside, key₀⟩, ⟨-, key₁⟩, values⟩ := both
  obtain ⟨name, value, rfl, divided⟩ := List.eq_append_cons_of_mem inside
  have blank : ∀ c ∈ ([] : Str), c = space := by simp
  have tailKey := pairKey_pair value blank divided
  have tailValue := pairValue_trimmed value blank divided
  rw [List.nil_append] at tailKey tailValue
  by_cases sign : byte = equals
  · -- the name is empty, and the value is the whole tail
    have wholeValue : pairValue ([] ++ ([] ++ equals :: (name ++ equals :: value))) = _ :=
      pairValue_trimmed (name ++ equals :: value) blank List.not_mem_nil
    have stop : (equals == space) = false := by decide
    rw [List.nil_append, List.nil_append,
      rdropWhile_append_cons (p := (· == space)) _ _ stop] at wholeValue
    rw [sign, wholeValue, tailValue] at values
    have lengths := congrArg List.length values
    have left := (List.rdropWhile_prefix (· == space) value).length_le
    simp only [List.length_take, List.length_append, List.length_cons] at lengths size
    omega
  · have longer : pairKey ([] ++ (byte :: name ++ equals :: value)) = _ :=
      pairKey_pair value blank (List.not_mem_cons_of_ne_of_not_mem (Ne.symm sign) divided)
    rw [List.nil_append, List.cons_append, key₁, ← key₀, tailKey,
      List.dropWhile_cons_of_neg (by simpa using filled)] at longer
    have lengths := congrArg List.length longer
    have left := (List.dropWhile_suffix (l := name) (· == space)).length_le
    rw [List.length_cons] at lengths
    omega

/-- What later pairs say does not depend on the earlier ones. -/
theorem lookup_of_given {pieces : List Str} {key : Str} (given : ∃ piece ∈ pieces, Gives piece key)
    (cookieMap cookieMap' : Cookies) :
    (pieces.foldl enterPair cookieMap).lookup key =
      (pieces.foldl enterPair cookieMap').lookup key := by
  induction pieces generalizing cookieMap cookieMap' with
  | nil => simp at given
  | cons piece pieces ih =>
      rw [List.foldl_cons, List.foldl_cons]
      by_cases later : ∃ p ∈ pieces, Gives p key
      · exact ih later _ _
      · have others : ∀ p ∈ pieces, ¬ Gives p key := fun p hp gives => later ⟨p, hp, gives⟩
        obtain ⟨p, hp, gives⟩ := given
        rcases List.mem_cons.mp hp with rfl | hp
        · rw [lookup_of_other _ others, lookup_of_other _ others, enterPair_lookup,
            enterPair_lookup]
          exact (if_pos gives).trans (if_pos gives).symm
        · exact absurd gives (others p hp)

theorem lookup_congr_iff {pieces : List Str} {cookieMap cookieMap' : Cookies} :
    (∀ key, (pieces.foldl enterPair cookieMap).lookup key =
      (pieces.foldl enterPair cookieMap').lookup key) ↔
    ∀ key, cookieMap.lookup key ≠ cookieMap'.lookup key → ∃ piece ∈ pieces, Gives piece key := by
  refine forall_congr' fun key => ?_
  by_cases given : ∃ piece ∈ pieces, Gives piece key
  · exact iff_of_true (lookup_of_given given _ _) fun _ => given
  · have others : ∀ p ∈ pieces, ¬ Gives p key := fun p hp gives => given ⟨p, hp, gives⟩
    rw [lookup_of_other _ others, lookup_of_other _ others]
    simp only [given, imp_false, not_not]

theorem gives_nil (key : Str) : ¬ Gives [] key := fun gives => List.not_mem_nil gives.1

theorem enterPair_nil (cookieMap : Cookies) : enterPair cookieMap [] = cookieMap :=
  if_neg List.not_mem_nil

theorem enterPair_tail_ne_iff {byte : UInt8} {piece : Str} (filled : byte ≠ space)
    (size : piece.length ≤ npos) (key : Str) :
    (enterPair ∅ piece).lookup key ≠ (enterPair ∅ (byte :: piece)).lookup key ↔
      Gives (byte :: piece) key ∨ Gives piece key := by
  refine ⟨fun apart => ?_, enterPair_tail_ne filled size⟩
  by_contra none
  obtain ⟨whole, tail⟩ := not_or.mp none
  refine apart ?_
  rw [enterPair_lookup, enterPair_lookup]
  exact (if_neg tail).trans (if_neg whole).symm

theorem foldl_tail_iff {byte : UInt8} (filled : byte ≠ space) (piece : Str)
    (size : piece.length ≤ npos) (later : List Str) :
    (∀ key, ((piece :: later).foldl enterPair ∅).lookup key =
      (((byte :: piece) :: later).foldl enterPair ∅).lookup key) ↔
    ∀ key, Gives (byte :: piece) key ∨ Gives piece key → ∃ p ∈ later, Gives p key := by
  rw [List.foldl_cons, List.foldl_cons, lookup_congr_iff]
  exact forall_congr' fun key => imp_congr_left (enterPair_tail_ne_iff filled size key)

/-- The map without the first byte of the text is that of the whole text exactly
where that byte is spare. -/
theorem readPairs_tail_iff {byte : UInt8} {line : Str} (size : line.length ≤ npos) :
    (∀ key, (readPairs line).lookup key = (readPairs (byte :: line)).lookup key) ↔
      byte = space ∨ Overridden (byte :: line) := by
  by_cases blank : byte = space
  · subst blank
    rw [readPairs_cons_space]
    simp
  · simp only [blank, false_or, readPairs, Overridden, getlines]
    split
    · simp [gives_nil, enterPair_nil]
    · cases pieces : getlines semicolon line with
      | nil => exact foldl_tail_iff blank [] (Nat.zero_le _) []
      | cons piece later =>
          have inside := (getlines_within line).2 piece (by rw [pieces]; exact List.mem_cons_self)
          exact foldl_tail_iff blank piece (Nat.le_trans inside.length_le size) later

/-! ## The name -/

def colon : UInt8 := ':'.toUInt8

theorem Spelling.name_length (sp : Spelling) : sp.name.length = 6 := by
  have lengths := congrArg List.length sp.isCookie
  rwa [List.length_map] at lengths

theorem Spelling.colon_not_mem (sp : Spelling) : colon ∉ sp.name := by
  intro inside
  have lower := List.mem_map_of_mem inside (f := lowerCase)
  rw [sp.isCookie] at lower
  exact absurd lower (by decide +kernel)

/-- Nothing before the header and nothing behind its colon contains the text, so only
the header can. -/
theorem find_other_name {sp : Spelling} (other : sp.name ≠ bytes "Cookie") {before rest : Str}
    (absent : ¬ bytes "Cookie:" <:+: before) (absent' : ¬ bytes "Cookie:" <:+: rest) :
    find (bytes "Cookie:") (before ++ (sp.name ++ colon :: rest)) = none := by
  have name : bytes "Cookie:" = bytes "Cookie" ++ [colon] := rfl
  rw [name] at absent absent' ⊢
  rw [find_eq_none, ← List.append_assoc]
  intro occurs
  rcases infix_append_cons (by decide) occurs with upToColon | behind
  · rcases List.infix_concat_iff.mp upToColon with last | earlier
    · obtain ⟨front, eq⟩ := last
      rw [List.append_assoc] at eq
      have lengths : (bytes "Cookie" ++ [colon]).length = (sp.name ++ [colon]).length := by
        rw [List.length_append, List.length_append, sp.name_length]
        rfl
      have same := List.append_inj_right' eq lengths
      exact other (List.append_cancel_right same).symm
    · exact absent (infix_of_append sp.colon_not_mem earlier)
  · exact absent' behind

theorem infix_of_replicate {k : ℕ} {rest : Str}
    (occurs : bytes "Cookie:" <:+: List.replicate k space ++ rest) :
    bytes "Cookie:" <:+: rest := by
  induction k with
  | zero => exact occurs
  | succ k ih =>
      rw [List.replicate_succ, List.cons_append] at occurs
      rcases List.infix_cons_iff.mp occurs with here | later
      · have head : bytes "Cookie:" = 'C'.toUInt8 :: bytes "ookie:" := rfl
        rw [head] at here
        exact absurd (List.cons_prefix_cons.mp here).1 (by decide)
      · exact ih later

/-! ## The header -/

theorem header_append (sp : Spelling) (cookieString rest : Str) :
    sp.header cookieString ++ rest = sp.name ++ colon ::
      (List.replicate sp.spaces space ++ (cookieString ++ (bytes "\r\n" ++ rest))) := by
  simp only [Spelling.header, List.append_assoc]
  rfl

theorem parseCookies_other_name {sp : Spelling} (other : sp.name ≠ bytes "Cookie")
    {before cookieString rest : Str} (absent : ¬ bytes "Cookie:" <:+: before)
    (absent' : ¬ bytes "Cookie:" <:+: cookieString ++ (bytes "\r\n" ++ rest)) :
    parseCookies (before ++ (sp.header cookieString ++ rest)) = some ∅ := by
  rw [header_append]
  exact parseCookies_none
    (find_other_name other absent fun occurs => absent' (infix_of_replicate occurs))

section
variable {before cookieString rest : Str}

theorem find_name (absent : ¬ bytes "Cookie:" <:+: before) (value : Str) :
    find (bytes "Cookie:") (before ++ (bytes "Cookie:" ++ value ++ (bytes "\r\n" ++ rest))) =
      some before.length := by
  rw [List.append_assoc]
  exact find_append_self_of_absent (by decide) absent

theorem parseCookies_spaced {sp : Spelling} (name : sp.name = bytes "Cookie")
    (spaced : 0 < sp.spaces) (plain : carriageReturn ∉ cookieString)
    (absent : ¬ bytes "Cookie:" <:+: before)
    (size : (before ++ (sp.header cookieString ++ rest)).length ≤ npos) :
    parseCookies (before ++ (sp.header cookieString ++ rest)) = some (readPairs cookieString) := by
  obtain ⟨k, hk⟩ := Nat.exists_eq_add_of_lt spaced
  have shape : sp.header cookieString ++ rest = bytes "Cookie:" ++
      space :: (List.replicate k space ++ cookieString) ++ (bytes "\r\n" ++ rest) := by
    rw [header_append, name, hk, Nat.zero_add, List.replicate_succ]
    simp only [List.append_assoc, List.cons_append]
    rfl
  have unended : carriageReturn ∉ space :: (List.replicate k space ++ cookieString) := by
    simp [plain, show carriageReturn ≠ space by decide]
  have short : (List.replicate k space ++ cookieString).length < wordSize := by
    rw [shape] at size
    simp only [List.length_append, List.length_cons] at size ⊢
    unfold npos wordSize at *
    omega
  rw [shape, parseCookies_line (find_name absent _) unended, Nat.mod_eq_of_lt short,
    List.take_length, readPairs_replicate]

theorem parseCookies_unspaced {sp : Spelling} (name : sp.name = bytes "Cookie")
    (unspaced : sp.spaces = 0) (plain : carriageReturn ∉ cookieString)
    (absent : ¬ bytes "Cookie:" <:+: before)
    (size : (before ++ (sp.header cookieString ++ rest)).length ≤ npos) :
    parseCookies (before ++ (sp.header cookieString ++ rest)) =
      some (readPairs (if cookieString = [] then lineFeed :: rest else cookieString.tail)) := by
  have shape : sp.header cookieString ++ rest =
      bytes "Cookie:" ++ cookieString ++ (bytes "\r\n" ++ rest) := by
    rw [header_append, name, unspaced]
    simp only [List.append_assoc]
    rfl
  rw [shape] at size ⊢
  simp only [List.length_append] at size
  cases cookieString with
  | nil =>
      have whole : (lineFeed :: rest).length ≤ npos := by
        have two : (bytes "\r\n").length = 2 := rfl
        rw [List.length_cons]
        omega
      rw [parseCookies_bare (find_name absent _), List.take_of_length_le whole, if_pos rfl]
  | cons byte line =>
      have short : line.length < wordSize := by
        rw [List.length_cons] at size
        unfold npos wordSize at *
        omega
      rw [parseCookies_line (find_name absent _) plain, Nat.mod_eq_of_lt short, List.take_length,
        if_neg (List.cons_ne_nil _ _), List.tail_cons]

theorem sameMap_iff {request request' : Str} {cookies cookies' : Cookies}
    (parsed : parseCookies request = some cookies)
    (parsed' : parseCookies request' = some cookies') :
    SameMap request request' ↔ ∀ key, cookies.lookup key = cookies'.lookup key := by
  simp [SameMap, parsed, parsed']

theorem lookup_eq_empty {cookies : Cookies} :
    (∀ key, cookies.lookup key = (∅ : Cookies).lookup key) ↔ cookies = ∅ := by
  constructor
  · intro same
    have absent : ∀ key, key ∉ cookies.keys := fun key =>
      AList.lookup_eq_none.mp (same key)
    have none : cookies.keys = [] := List.eq_nil_iff_forall_not_mem.mpr absent
    exact AList.ext (List.map_eq_nil_iff.mp none)
  · rintro rfl
    exact fun _ => rfl

/-- Without a space behind the colon the first byte is lost, or else the line end is. -/
theorem readPairs_unspaced_iff (size : cookieString.length ≤ npos) :
    (∀ key, (readPairs (if cookieString = [] then lineFeed :: rest else cookieString.tail)).lookup
      key = (readPairs cookieString).lookup key) ↔ FirstByteSpare cookieString rest := by
  cases cookieString with
  | nil =>
      have none : readPairs [] = ∅ := rfl
      rw [if_pos rfl, none, lookup_eq_empty, readPairs_eq_empty, FirstByteSpare, List.mem_cons,
        or_iff_right (by decide)]
  | cons byte line =>
      rw [if_neg (List.cons_ne_nil _ _), List.tail_cons]
      exact readPairs_tail_iff (Nat.le_of_succ_le size)

/-- For every cookie string, everything around the header and every spelling of it: the
map is that of the standard spelling if and only if the name is written `Cookie` and
a space follows the colon, or the first byte is spare where none does, or the name is
written otherwise and the cookie string has no pair. -/
theorem header_spelling_iff (sp : Spelling) (plain : carriageReturn ∉ cookieString)
    (absent : ¬ bytes "Cookie:" <:+: before)
    (absent' : ¬ bytes "Cookie:" <:+: cookieString ++ (bytes "\r\n" ++ rest))
    (size : (before ++ (sp.header cookieString ++ rest)).length ≤ npos)
    (size' : (before ++ (standard.header cookieString ++ rest)).length ≤ npos) :
    SameMap (before ++ (sp.header cookieString ++ rest))
        (before ++ (standard.header cookieString ++ rest)) ↔
      sp.name = bytes "Cookie" ∧ (0 < sp.spaces ∨ FirstByteSpare cookieString rest) ∨
      sp.name ≠ bytes "Cookie" ∧ equals ∉ cookieString := by
  have usual := parseCookies_spaced rfl Nat.one_pos plain absent size'
  by_cases name : sp.name = bytes "Cookie"
  · simp only [name, true_and, ne_eq, not_true_eq_false, false_and, or_false]
    rcases Nat.eq_zero_or_pos sp.spaces with unspaced | spaced
    · have short : cookieString.length ≤ npos := by
        simp only [Spelling.header, List.length_append] at size
        omega
      rw [sameMap_iff (parseCookies_unspaced name unspaced plain absent size) usual,
        readPairs_unspaced_iff short, unspaced]
      simp
    · rw [sameMap_iff (parseCookies_spaced name spaced plain absent size) usual]
      simp [spaced]
  · simp only [name, false_and, ne_eq, not_false_eq_true, true_and, false_or]
    rw [sameMap_iff (parseCookies_other_name name absent absent') usual, ← readPairs_eq_empty,
      ← lookup_eq_empty]
    exact forall_congr' fun key => eq_comm

end

def lowerName : Spelling where
  name := bytes "cookie"
  spaces := 1
  isCookie := by decide +kernel

def unspaced : Spelling where
  name := bytes "Cookie"
  spaces := 0
  isCookie := by decide +kernel

def threeSpaces : Spelling where
  name := bytes "Cookie"
  spaces := 3
  isCookie := by decide +kernel

/-- With three spaces after the colon the session id is found as with one. -/
theorem header_spelling_iff_spaced :
    SameMap
      (bytes "GET / HTTP/1.1\r\n" ++
        (threeSpaces.header (bytes "SESSIONID=1_0") ++ bytes "\r\n"))
      (bytes "GET / HTTP/1.1\r\n" ++
        (standard.header (bytes "SESSIONID=1_0") ++ bytes "\r\n")) := by
  have absent : ¬ bytes "Cookie:" <:+: bytes "GET / HTTP/1.1\r\n" := by
    rw [← find_eq_none]
    decide +kernel
  have absent' : ¬ bytes "Cookie:" <:+:
      bytes "SESSIONID=1_0" ++ (bytes "\r\n" ++ bytes "\r\n") := by
    rw [← find_eq_none]
    decide +kernel
  exact (header_spelling_iff threeSpaces (by decide +kernel) absent absent' (by decide +kernel)
    (by decide +kernel)).mpr (.inl ⟨rfl, .inl (by decide)⟩)

/-- The session id of a request whose name is lower-case, or whose colon has no space
after it, is not found. -/
theorem spelled_cookie_lost :
    ¬ SameMap
        (bytes "GET / HTTP/1.1\r\n" ++
          (lowerName.header (bytes "SESSIONID=1_0") ++ bytes "\r\n"))
        (bytes "GET / HTTP/1.1\r\n" ++
          (standard.header (bytes "SESSIONID=1_0") ++ bytes "\r\n")) ∧
    ¬ SameMap
        (bytes "GET / HTTP/1.1\r\n" ++
          (unspaced.header (bytes "SESSIONID=1_0") ++ bytes "\r\n"))
        (bytes "GET / HTTP/1.1\r\n" ++
          (standard.header (bytes "SESSIONID=1_0") ++ bytes "\r\n")) := by
  have id (request : Str) {request' : Str} (same : SameMap request request') :
      (parseCookies request).bind (AList.lookup (bytes "SESSIONID")) =
        (parseCookies request').bind (AList.lookup (bytes "SESSIONID")) := by
    obtain ⟨cookies, cookies', parsed, parsed', same⟩ := same
    rw [parsed, parsed']
    exact same _
  exact ⟨fun same => absurd (id _ same) (by decide +kernel),
    fun same => absurd (id _ same) (by decide +kernel)⟩

end StudyCode.Http

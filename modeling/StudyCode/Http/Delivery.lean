import StudyCode.Http.Routing

/-!
# A request that arrives in pieces

`handleClient` reads the socket once. What it serves is the first piece that
TCP delivers, so a cut matters where it takes away the text of the route, or
the session id that the branch goes by.
-/
namespace StudyCode.HttpServer
open StudyCode.ByteString StudyCode.CookieUtil StudyCode.SessionManager StudyCode.Http

/-- `BUFFER_SIZE` -/
def bufferSize : ℕ := 4096

/-- `read(client_fd, buffer, sizeof(buffer))` and `std::string request(buffer)`. -/
def readRequest (available : Str) : Str := (available.take bufferSize).takeWhile (· != 0)

/-- The connection delivers the pieces one after another, of which one is read. -/
def handlePieces (sessions : Pool) (a : Arrival) (pieces : List Str) : Option (Pool × Response) :=
  handleClient sessions { a with request := readRequest (pieces.headD []) }

/-- The answer and the change of the pool are those of the request in one piece. -/
def ServedWhole (pieces : List Str) : Prop :=
  ∀ sessions a, handlePieces sessions a pieces = handlePieces sessions a [pieces.flatten]

/-- The branches that look at the session id. -/
def Branch.usesId : Branch → Bool
  | .logout => true
  | .home => true
  | _ => false

theorem readRequest_eq {text : Str} (short : text.length < bufferSize) (plain : 0 ∉ text) :
    readRequest text = text := by
  rw [readRequest, List.take_of_length_le short.le, List.takeWhile_eq_self_iff]
  intro c hc
  rw [bne_iff_ne]
  rintro rfl
  exact plain hc

/-- A pool in which of two ids only the one has a session. -/
theorem exists_pool {id id' : Str} (h : id ≠ id') (data : SessionData) :
    ∃ sessions : Pool, sessions.lookup id = some data ∧ sessions.lookup id' = none :=
  ⟨AList.insert id data ∅, AList.lookup_insert ∅,
    (AList.lookup_insert_ne (Ne.symm h)).trans (AList.lookup_empty id')⟩

/-- A logout tells two ids apart. -/
theorem respond_logout_ne {id id' : Str} (h : id ≠ id') (a : Arrival) :
    ∃ sessions, respond sessions a id .logout ≠ respond sessions a id' .logout := by
  obtain ⟨sessions, held, -⟩ := exists_pool h { username := [], expireTime := 0 }
  refine ⟨sessions, fun same => ?_⟩
  have pools : sessions.erase id = sessions.erase id' := congrArg Prod.fst same
  have kept := congrArg (AList.lookup id) pools
  rw [AList.lookup_erase, AList.lookup_erase_ne h, held] at kept
  cases kept

/-- A visit tells two ids apart while only the one is logged in. -/
theorem respond_home_ne {id id' : Str} (h : id ≠ id') (a : Arrival) :
    ∃ sessions, respond sessions a id .home ≠ respond sessions a id' .home := by
  obtain ⟨sessions, held, absent⟩ := exists_pool h { username := [], expireTime := a.now }
  refine ⟨sessions, fun same => ?_⟩
  have answers := congrArg Prod.snd same
  simp [respond, isSessionValid, held, absent] at answers

theorem respond_of_not_usesId {branch : Branch} (h : branch.usesId = false) (sessions : Pool)
    (a : Arrival) (id id' : Str) :
    respond sessions a id branch = respond sessions a id' branch := by
  cases branch <;> first | rfl | cases h

theorem respond_request (sessions : Pool) (a : Arrival) (text id : Str) (branch : Branch) :
    respond sessions { a with request := text } id branch = respond sessions a id branch := by
  cases branch <;> rfl

/-- The answers to two texts agree in every pool exactly where their branches
do, and their ids where the branch looks at them. -/
theorem handleClient_agree_iff {text text' : Str} :
    (∀ sessions (a : Arrival), handleClient sessions { a with request := text } =
      handleClient sessions { a with request := text' }) ↔
    taken text = taken text' ∧
      ((taken text').usesId = true → requestId text = requestId text') := by
  simp only [handleClient_eq, Option.some.injEq, respond_request]
  constructor
  · intro same
    have a := arrive (getHome "")
    have branches : taken text = taken text' := by
      have answers := congrArg (fun result => result.2.branch) (same ∅ a)
      simpa only [respond_branch] using answers
    refine ⟨branches, fun uses => ?_⟩
    by_contra apart
    rw [branches] at same
    cases branch : taken text' with
    | logout =>
        obtain ⟨sessions, differ⟩ := respond_logout_ne apart a
        exact differ (branch ▸ same sessions a)
    | home =>
        obtain ⟨sessions, differ⟩ := respond_home_ne apart a
        exact differ (branch ▸ same sessions a)
    | _ =>
        rw [branch] at uses
        cases uses
  · rintro ⟨branches, ids⟩ sessions a
    rw [branches]
    cases uses : (taken text').usesId with
    | true => rw [ids uses]
    | false => exact respond_of_not_usesId uses sessions a _ _

/-- A part of a text takes the branch of the whole exactly where it has the text
by which that branch is recognised. -/
theorem taken_part_eq {part whole : Str} (h : part <:+: whole) :
    taken part = taken whole ↔
      taken whole = .notFound ∨ ∃ text ∈ (taken whole).own, bytes text <:+: part := by
  have earlier : ∀ text ∈ (taken whole).earlier, ¬ bytes text <:+: part :=
    fun text ht occurs => (taken_eq_iff.mp rfl).1 text ht (occurs.trans h)
  rw [taken_eq_iff]
  exact and_iff_right earlier

/-- A first piece that holds the whole line of its first `Cookie:`, with a text
on it, has the session id of the request. -/
theorem requestId_of_cookie_line {part rest : Str} {cookiePos endPos : ℕ}
    (first : find (bytes "Cookie:") part = some cookiePos)
    (ended : findFrom part (bytes "\r\n") cookiePos = some endPos) (filled : endPos ≠ cookiePos + 7)
    (short : part.length ≤ npos) : requestId (part ++ rest) = requestId part := by
  have after := lineEnd_after_name first ended
  have inside := (findFrom_some ended).2.2
  have two : (bytes "\r\n").length = 2 := rfl
  have same : parseCookies (part ++ rest) = parseCookies part := by
    rw [parseCookies_some (find_append_of_some first) (findFrom_append_of_some ended),
      parseCookies_some first ended, sizeSub_eq (by omega) (by omega),
      List.drop_append_of_le_length (by omega),
      List.take_append_of_le_length (by rw [List.length_drop]; omega)]
  rw [requestId, requestId, sessionCookie, sessionCookie, same]

/-- For every request of fewer than 4096 bytes without a NUL and every way of
cutting it into pieces: the server answers as it answers the request in one
piece, in every pool and world, if and only if the first piece has the text of
the route that the whole request takes (if it takes one), and the same session
id where that route looks at it. -/
theorem served_whole_iff {pieces : List Str} {request : Str} (cut : pieces.flatten = request)
    (short : request.length < 4096) (plain : 0 ∉ request) :
    ServedWhole pieces ↔
      (taken request = .notFound ∨
        ∃ text ∈ (taken request).own, bytes text <:+: pieces.headD []) ∧
      ((taken request).usesId = true → requestId (pieces.headD []) = requestId request) := by
  have first : pieces.headD [] <+: request := by
    rw [← cut]
    cases pieces with
    | nil => exact List.prefix_refl _
    | cons piece pieces => exact ⟨pieces.flatten, rfl⟩
  have whole : readRequest request = request := readRequest_eq short plain
  have part : readRequest (pieces.headD []) = pieces.headD [] :=
    readRequest_eq (Nat.lt_of_le_of_lt first.length_le short) fun nul => plain (first.subset nul)
  have agree := @handleClient_agree_iff (pieces.headD []) request
  rw [taken_part_eq first.isInfix] at agree
  rw [← agree]
  unfold ServedWhole handlePieces
  rw [cut, List.headD_cons, whole, part]

/-- A visit whose head arrives before its empty line is served as a whole. -/
theorem served_whole_iff_head :
    ServedWhole [bytes "GET / HTTP/1.1\r\nCookie: SESSIONID=1_0\r\n", bytes "\r\n"] :=
  (served_whole_iff rfl (by decide +kernel) (by decide +kernel)).mpr
    ⟨.inr ⟨"GET / HTTP", by decide +kernel, by decide +kernel⟩, by decide +kernel⟩

/-- A visit that is cut inside the text of its route is not found. -/
theorem served_whole_fails_in_route :
    ¬ ∀ (r : HttpRequest) (pieces : List Str), (∀ piece ∈ pieces, piece ≠ []) →
      pieces.flatten = r.text → r.text.length < 4096 → 0 ∉ r.text → ServedWhole pieces := by
  intro claim
  have served := claim (getHome "") [bytes "GET / H", bytes "TTP/1.1\r\n\r\n"] (by decide +kernel)
    (by decide +kernel) (by decide +kernel) (by decide +kernel)
  have answers := congrArg (Option.map fun result => result.2.branch)
    (served ∅ (arrive (getHome "")))
  exact absurd answers (by decide +kernel)

end StudyCode.HttpServer

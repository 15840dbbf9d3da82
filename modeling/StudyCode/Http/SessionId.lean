import StudyCode.Lib.Numerals
import StudyCode.Http.Eviction

/-!
# Session ids

`generateSessionId` writes the time, a separator and sixteen draws to one
stream, and the base changes from decimal to hexadecimal on the way. Ids that
differ in the time or in a draw are different keys of the pool.
-/
namespace StudyCode.SessionManager
open StudyCode.ByteString StudyCode.Scheduled

/-! ## The stream -/

/-- `ss << now << "_"` -/
def idStream (now : ℤ) : OStream := (OStream.empty.putInt 64 now).put (bytes "_")

/-- `ss << std::hex << dis(gen)` -/
def putDraw (ss : OStream) (draw : Fin 16) : OStream := ss.hex.putInt 32 draw

theorem digits_draw (draw : Fin 16) :
    digits 16 (BitVec.ofInt 32 (draw : ℕ)).toNat = [hexDigit draw] := by
  revert draw
  decide

theorem putDraw_text (ss : OStream) (draw : Fin 16) :
    (putDraw ss draw).text = ss.text ++ [hexDigit draw] := by
  rw [← digits_draw]
  rfl

theorem foldl_putDraw_text (draws : List (Fin 16)) (ss : OStream) :
    (draws.foldl putDraw ss).text = ss.text ++ draws.map hexDigit := by
  induction draws generalizing ss with
  | nil => simp
  | cons draw draws ih =>
      rw [List.foldl_cons, ih, putDraw_text, List.map_cons, List.append_assoc,
        List.singleton_append]

/-- The id is the text of the stream after the loop: the first draw switches it to
hexadecimal, and the time is printed before that. -/
theorem generateSessionId_eq (now : ℤ) (draws : Fin 16 → Fin 16) :
    generateSessionId now draws = ((List.ofFn draws).foldl putDraw (idStream now)).text := by
  rw [foldl_putDraw_text, List.map_ofFn]
  rfl

/-! ## What an id says -/

theorem hexDigit_injective : Function.Injective hexDigit := by
  unfold Function.Injective
  decide

theorem hexDigits_injective :
    Function.Injective fun draws : Fin 16 → Fin 16 => List.ofFn fun i => hexDigit (draws i) := by
  intro draws draws' same
  have digits : (fun i => hexDigit (draws i)) = fun i => hexDigit (draws' i) :=
    List.ofFn_injective same
  funext i
  exact hexDigit_injective (congrFun digits i)

theorem generateSessionId_inj {time time' : ℤ} {draws draws' : Fin 16 → Fin 16} :
    generateSessionId time draws = generateSessionId time' draws' ↔
      time = time' ∧ draws = draws' := by
  constructor
  · intro same
    -- Sixteen digits each: the texts before them are the same length from the right.
    obtain ⟨start, hex⟩ := List.append_inj' same (by simp)
    exact ⟨decimal_injective (List.append_cancel_right start), hexDigits_injective hex⟩
  · rintro ⟨rfl, rfl⟩
    rfl

/-! ## The sessions of different ids -/

/-- One call of `createSession`, with what the clock and the generator gave it. -/
structure Issue where
  username : Str
  timeout : ℤ
  /-- the clock in `generateSessionId` -/
  idTime : ℤ
  draws : Fin 16 → Fin 16
  now : ℤ

def Issue.sessionId (i : Issue) : Str := generateSessionId i.idTime i.draws

def Issue.data (i : Issue) : SessionData where
  username := i.username
  expireTime := i.now + i.timeout

def Issue.call (i : Issue) : ℤ × Call := (i.now, .createSession i.username i.timeout i.sessionId)

def Issue.create (sessions : Pool) (i : Issue) : Pool :=
  (createSession sessions i.username i.timeout i.sessionId i.now).1

/-- The same second and the same sixteen draws. -/
def Issue.Coincides (time : ℤ) (draws : Fin 16 → Fin 16) (i : Issue) : Prop :=
  i.idTime = time ∧ i.draws = draws

instance (time : ℤ) (draws : Fin 16 → Fin 16) (i : Issue) : Decidable (i.Coincides time draws) :=
  inferInstanceAs (Decidable (_ ∧ _))

theorem Issue.sessionId_eq {i : Issue} {time : ℤ} {draws : Fin 16 → Fin 16} :
    i.sessionId = generateSessionId time draws ↔ i.Coincides time draws := generateSessionId_inj

theorem lookup_create (sessions : Pool) (i : Issue) (time : ℤ) (draws : Fin 16 → Fin 16) :
    (i.create sessions).lookup (generateSessionId time draws) =
      if i.Coincides time draws then some i.data
      else sessions.lookup (generateSessionId time draws) := by
  split
  · rename_i coincides
    rw [← Issue.sessionId_eq.mpr coincides]
    exact AList.lookup_insert sessions
  · rename_i differs
    exact AList.lookup_insert_ne fun same => differs (Issue.sessionId_eq.mp same.symm)

/-- After any number of calls the pool holds the last session of these very draws in
this second, and before the first of them what it held at the start. -/
theorem lookup_foldl_create (issues : List Issue) (sessions : Pool) (time : ℤ)
    (draws : Fin 16 → Fin 16) :
    (issues.foldl Issue.create sessions).lookup (generateSessionId time draws) =
      ((issues.filter fun i => i.Coincides time draws).getLast?.map Issue.data).or
        (sessions.lookup (generateSessionId time draws)) := by
  induction issues using List.reverseRecOn with
  | nil => rfl
  | append_singleton issues i ih =>
      rw [List.foldl_append, List.foldl_cons, List.foldl_nil, lookup_create, ih, List.filter_append]
      by_cases coincides : i.Coincides time draws
      · simp [coincides]
      · simp [coincides]

theorem spares_call {i j : Issue} {ends : ℤ} (differs : ¬ j.Coincides i.idTime i.draws) :
    Spares i.sessionId ends j.call := fun same => differs (Issue.sessionId_eq.mp same)

/-- In every run, a session stays valid up to its end under all calls of
`createSession` in another second or with other draws, and under all other calls
that spare it. -/
theorem created_session_valid {older newer : List (ℤ × Call)} {i : Issue} {sessions : Pool}
    {results : List Result}
    (run : sessionManager.Reaches (older ++ i.call :: newer) sessions results)
    (spared : ∀ c ∈ newer, (∃ j : Issue, c = j.call ∧ ¬ j.Coincides i.idTime i.draws) ∨
      Spares i.sessionId i.data.expireTime c) {now : ℤ} (live : now ≤ i.data.expireTime) :
    (isSessionValid sessions i.sessionId now).2 = true ∧
      getUsername sessions i.sessionId = i.username := by
  have kept : ∀ c ∈ newer, Spares i.sessionId i.data.expireTime c := by
    intro c hc
    rcases spared c hc with ⟨j, rfl, differs⟩ | spares
    · exact spares_call differs
    · exact spares
  have held : table sessions i.sessionId = some i.data :=
    (table_eq_some run).mpr ⟨older, i.now, i.timeout, newer, rfl, rfl, kept⟩
  refine ⟨isSessionValid_eq_true.mpr ⟨i.data, held, live⟩, ?_⟩
  rw [getUsername, show sessions.lookup i.sessionId = some i.data from held]
  rfl

/-- Two ids are equal only if the second and all sixteen draws are, and so a session
that `createSession` made is lost to later calls only if one of them meets both. -/
theorem session_ids_unambiguous (time time' : ℤ) (draws draws' : Fin 16 → Fin 16) :
    (generateSessionId time draws = generateSessionId time' draws' ↔
      time = time' ∧ draws = draws') ∧
    ∀ (issues : List Issue) (sessions : Pool),
      (issues.foldl Issue.create sessions).lookup (generateSessionId time draws) =
        ((issues.filter fun i => i.Coincides time draws).getLast?.map Issue.data).or
          (sessions.lookup (generateSessionId time draws)) :=
  ⟨generateSessionId_inj, fun issues sessions => lookup_foldl_create issues sessions time draws⟩

end StudyCode.SessionManager

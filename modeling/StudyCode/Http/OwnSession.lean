import StudyCode.Http.Routing

/-!
# A request touches its own session only

A login enters the id it issues, a logout and a visit of the home page look at
the id that the request brings along, and the other branches look at none.
-/
namespace StudyCode.HttpServer
open StudyCode.ByteString StudyCode.Scheduled StudyCode.SessionManager

/-- The id at which a branch may change the pool. -/
def touchedId (a : Arrival) : Branch → Option Str
  | .login => some (generateSessionId a.idTime a.draws)
  | .logout | .home => some (requestId a.request)
  | .loginPage | .notFound => none

theorem isSessionValid_frame {sessions : Pool} {id other : Str} {now : ℤ} (h : other ≠ id) :
    (isSessionValid sessions id now).1.lookup other = sessions.lookup other := by
  rcases isSessionValid_cases sessions id now with
    ⟨-, eq⟩ | ⟨data, -, ⟨-, eq⟩ | ⟨-, eq⟩⟩ <;> rw [eq]
  exact AList.lookup_erase_ne h

theorem isSessionValid_live {sessions : Pool} {id : Str} {now : ℤ}
    (live : ∀ data, sessions.lookup id = some data → now ≤ data.expireTime) :
    (isSessionValid sessions id now).1 = sessions := by
  rcases isSessionValid_cases sessions id now with
    ⟨-, eq⟩ | ⟨data, found, ⟨ended, eq⟩ | ⟨-, eq⟩⟩ <;> rw [eq]
  exact absurd (live data found) (Int.not_le.mpr ended)

theorem isSessionValid_ended {sessions : Pool} {id : Str} {now : ℤ} {data : SessionData}
    (held : sessions.lookup id = some data) (ended : data.expireTime < now) :
    (isSessionValid sessions id now).1 = sessions.erase id := by
  rcases isSessionValid_cases sessions id now with
    ⟨found, -⟩ | ⟨data', found, ⟨-, eq⟩ | ⟨live, -⟩⟩
  · rw [held] at found
    cases found
  · rw [eq]
  · cases held.symm.trans found
    exact absurd live (Int.not_le.mpr ended)

theorem respond_frame (sessions : Pool) (a : Arrival) {branch : Branch} {id : Str}
    (other : touchedId a branch ≠ some id) :
    (respond sessions a (requestId a.request) branch).1.lookup id = sessions.lookup id := by
  cases branch with
  | loginPage => rfl
  | login => exact AList.lookup_insert_ne fun own => other (congrArg some own.symm)
  | logout => exact AList.lookup_erase_ne fun own => other (congrArg some own.symm)
  | home => exact isSessionValid_frame fun own => other (congrArg some own.symm)
  | notFound => rfl

/-- For every pool, request and clock reading: the pool after `handleClient` agrees
with the pool before at every id but the one that the branch touches. A visit of the
home page removes the entry of its own id if that has expired, and leaves the whole pool
as it was otherwise; the login page and the unknown page leave it as it was. -/
theorem request_touches_own_session (sessions : Pool) (a : Arrival) :
    ∃ next response, handleClient sessions a = some (next, response) ∧
      response.branch = taken a.request ∧
      (∀ id, touchedId a (taken a.request) ≠ some id → next.lookup id = sessions.lookup id) ∧
      (taken a.request = .home →
        (∀ data, sessions.lookup (requestId a.request) = some data → a.now ≤ data.expireTime) →
          next = sessions) ∧
      (taken a.request = .home →
        ∀ data, sessions.lookup (requestId a.request) = some data → data.expireTime < a.now →
          next = sessions.erase (requestId a.request)) ∧
      (taken a.request = .loginPage ∨ taken a.request = .notFound → next = sessions) := by
  refine ⟨_, _, handleClient_eq sessions a, respond_branch _ _ _ _,
    fun id other => respond_frame sessions a other, ?_, ?_, ?_⟩
  · intro home live
    rw [home]
    exact isSessionValid_live live
  · intro home data held ended
    rw [home]
    exact isSessionValid_ended held ended
  · rintro (branch | branch) <;> rw [branch]

/-- A session stays as it is for as long as no request touches its id. -/
theorem untouched_session_stays {before more : List Arrival} {s t : Pool}
    {responses responses' : List Response} {id : Str}
    (run : httpServer.Reaches before s responses)
    (run' : httpServer.Reaches (before ++ more) t responses')
    (others : ∀ a ∈ more, touchedId a (taken a.request) ≠ some id) : t.lookup id = s.lookup id := by
  induction more using List.reverseRecOn generalizing t responses' with
  | nil =>
      rw [List.append_nil] at run'
      obtain ⟨rfl, -⟩ := run.unique run'
      rfl
  | append_singleton more a ih =>
      rw [← List.append_assoc] at run'
      obtain ⟨u, past, o, hu, hs, rfl⟩ := Machine.reaches_snoc.mp run'
      obtain ⟨r, step, eq⟩ := Option.map_eq_some_iff.mp hs
      rw [handleClient_eq] at step
      cases step
      cases eq
      rw [respond_frame u a (others a (by simp))]
      exact ih hu fun b hb => others b (List.mem_append_left _ hb)

end StudyCode.HttpServer

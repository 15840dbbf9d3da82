import Mathlib
import StudyCode.Lib.ByteString
import StudyCode.Lib.Lease
import StudyCode.Lib.Machine

/-!
# `SessionManager`

Each method is one call, under `mutex_` from begin to end. The clock and the
draws of the random generator are inputs, and time is an exact integer.
-/
namespace StudyCode.SessionManager
open StudyCode.ByteString StudyCode.Scheduled StudyCode.Lease

structure SessionData where
  username : Str
  expireTime : ℤ
  deriving DecidableEq, Repr

abbrev Pool := AList fun _ : Str => SessionData

def hexDigit (draw : Fin 16) : UInt8 := (Nat.digitChar draw).toUInt8

def generateSessionId (now : ℤ) (draws : Fin 16 → Fin 16) : Str :=
  decimal now ++ bytes "_" ++ List.ofFn fun i => hexDigit (draws i)

/-- `createSession` with the outcome `sessionId` of `generateSessionId`. -/
def createSession (sessions : Pool) (username : Str) (timeout : ℤ) (sessionId : Str) (now : ℤ) :
    Pool × Str :=
  let data := { username := username, expireTime := now + timeout }
  (sessions.insert sessionId data, sessionId)

def isSessionValid (sessions : Pool) (sessionId : Str) (now : ℤ) : Pool × Bool :=
  match sessions.lookup sessionId with
  | none => (sessions, false)
  | some data =>
      if data.expireTime < now then (sessions.erase sessionId, false) else (sessions, true)

def getUsername (sessions : Pool) (sessionId : Str) : Str :=
  match sessions.lookup sessionId with
  | some data => data.username
  | none => []

def destroySession (sessions : Pool) (sessionId : Str) : Pool := sessions.erase sessionId

def clearExpiredsession (sessions : Pool) (now : ℤ) : Pool where
  entries := sessions.entries.filter fun e => !decide (e.2.expireTime < now)
  nodupKeys := sessions.nodupKeys.sublist List.filter_sublist

inductive Call where
  | createSession (username : Str) (timeout : ℤ) (sessionId : Str)
  | isSessionValid (sessionId : Str)
  | getUsername (sessionId : Str)
  | destroySession (sessionId : Str)
  | clearExpiredsession
  deriving DecidableEq, Repr

inductive Result where
  | sessionId (sessionId : Str)
  | valid (valid : Bool)
  | username (username : Str)
  | done
  deriving DecidableEq, Repr

def call (sessions : Pool) (now : ℤ) : Call → Pool × Result
  | .createSession username timeout sessionId =>
      let r := createSession sessions username timeout sessionId now
      (r.1, .sessionId r.2)
  | .isSessionValid sessionId =>
      let r := isSessionValid sessions sessionId now
      (r.1, .valid r.2)
  | .getUsername sessionId => (sessions, .username (getUsername sessions sessionId))
  | .destroySession sessionId => (destroySession sessions sessionId, .done)
  | .clearExpiredsession => (clearExpiredsession sessions now, .done)

/-- The manager from the empty pool on; an input is a clock reading and a call. -/
def sessionManager : Machine Pool (ℤ × Call) Result where
  start := ∅
  step sessions c := some ((call sessions c.1 c.2).1, [(call sessions c.1 c.2).2])

/-! ## The pool as a table of leases -/

def table (sessions : Pool) (sessionId : Str) : Option SessionData := sessions.lookup sessionId

/-- The pool answers for live sessions as the history of logins and logouts does. -/
abbrev Tracks (now : ℤ) (sessions : Pool) (events : List (Event Str SessionData)) : Prop :=
  Agrees SessionData.expireTime now (table sessions) events

variable {now : ℤ} {sessions : Pool} {events : List (Event Str SessionData)}

theorem tracks_start : Tracks now ∅ [] := agrees_start

theorem Tracks.createSession (h : Tracks now sessions events) (username : Str) (timeout : ℤ)
    (sessionId : Str) :
    Tracks now (SessionManager.createSession sessions username timeout sessionId now).1
      (events ++ [.grant sessionId { username := username, expireTime := now + timeout }]) :=
  h.record (AList.lookup_insert sessions) fun _ other => AList.lookup_insert_ne other

theorem Tracks.destroySession (h : Tracks now sessions events) (sessionId : Str) :
    Tracks now (SessionManager.destroySession sessions sessionId)
      (events ++ [.revoke sessionId]) :=
  h.record (AList.lookup_erase sessionId sessions) fun _ other => AList.lookup_erase_ne other

/-- The lookup that `isSessionValid` answers by; what it erases is over. -/
theorem isSessionValid_cases (sessions : Pool) (sessionId : Str) (now : ℤ) :
    (sessions.lookup sessionId = none ∧
      isSessionValid sessions sessionId now = (sessions, false)) ∨
    ∃ data, sessions.lookup sessionId = some data ∧
      (data.expireTime < now ∧
          isSessionValid sessions sessionId now = (sessions.erase sessionId, false) ∨
        now ≤ data.expireTime ∧ isSessionValid sessions sessionId now = (sessions, true)) := by
  unfold isSessionValid
  cases found : sessions.lookup sessionId with
  | none => exact .inl ⟨rfl, rfl⟩
  | some data =>
      refine .inr ⟨data, rfl, ?_⟩
      rcases Int.lt_or_le data.expireTime now with ended | live
      · exact .inl ⟨ended, if_pos ended⟩
      · exact .inr ⟨live, if_neg (Int.not_lt.mpr live)⟩

theorem isSessionValid_evicts (sessions : Pool) (sessionId : Str) (now : ℤ) :
    Evicted SessionData.expireTime now (table sessions)
      (table (isSessionValid sessions sessionId now).1) := by
  rcases isSessionValid_cases sessions sessionId now with
    ⟨-, eq⟩ | ⟨data, found, ⟨ended, eq⟩ | ⟨-, eq⟩⟩ <;> rw [eq]
  · exact Evicted.refl _
  · intro k
    by_cases own : k = sessionId
    · subst own
      exact .inr ⟨AList.lookup_erase k sessions, data, found, ended⟩
    · exact .inl (AList.lookup_erase_ne own)
  · exact Evicted.refl _

theorem Tracks.isSessionValid (h : Tracks now sessions events) (sessionId : Str) :
    Tracks now (SessionManager.isSessionValid sessions sessionId now).1 events :=
  h.evict (isSessionValid_evicts sessions sessionId now)

theorem isSessionValid_eq_true {sessionId : Str} :
    (isSessionValid sessions sessionId now).2 = true ↔
      ∃ data, table sessions sessionId = some data ∧ now ≤ data.expireTime := by
  rcases isSessionValid_cases sessions sessionId now with
    ⟨found, eq⟩ | ⟨data, found, ⟨ended, eq⟩ | ⟨live, eq⟩⟩ <;> rw [eq]
  · simp [table, found]
  · simp [table, found, ended]
  · simp [table, found, live]

/-- A session is valid where the ledger still has it. -/
theorem Tracks.valid_iff (h : Tracks now sessions events) {sessionId : Str} :
    (SessionManager.isSessionValid sessions sessionId now).2 = true ↔
      ∃ data, ledger events sessionId = some data ∧ now ≤ data.expireTime := by
  rw [isSessionValid_eq_true]
  exact exists_congr fun data => and_congr_left fun live => h.live_iff live

theorem dlookup_filter {l : List (Σ _ : Str, SessionData)} (nodup : l.NodupKeys)
    (keep : (Σ _ : Str, SessionData) → Bool) (k : Str) :
    (l.filter keep).dlookup k = (l.dlookup k).filter fun data => keep ⟨k, data⟩ := by
  ext data
  rw [← Option.mem_def, List.mem_dlookup_iff (nodup.sublist List.filter_sublist), List.mem_filter,
    ← List.mem_dlookup_iff nodup, Option.filter_eq_some_iff, Option.mem_def]

theorem table_clearExpiredsession (sessions : Pool) (now : ℤ) (id : Str) :
    table (clearExpiredsession sessions now) id =
      (table sessions id).filter fun data => !decide (data.expireTime < now) :=
  dlookup_filter sessions.nodupKeys _ id

theorem clearExpiredsession_evicts (sessions : Pool) (now : ℤ) :
    Evicted SessionData.expireTime now (table sessions)
      (table (clearExpiredsession sessions now)) := by
  intro k
  rw [table_clearExpiredsession]
  cases found : table sessions k with
  | none => exact .inl rfl
  | some data =>
      by_cases ended : data.expireTime < now
      · exact .inr ⟨by simp [ended], data, rfl, ended⟩
      · exact .inl (by simp [ended])

theorem Tracks.clearExpiredsession (h : Tracks now sessions events) :
    Tracks now (SessionManager.clearExpiredsession sessions now) events :=
  h.evict (clearExpiredsession_evicts sessions now)

end StudyCode.SessionManager

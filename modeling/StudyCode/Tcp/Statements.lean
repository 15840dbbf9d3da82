import StudyCode.Tcp.Server

/-!
# The loop thread, one statement at a time

`lifetimeServer` is the server of `epollServer` with the methods of `Connection`
taken apart: a turn of the loop thread is one statement that uses a field of the
object it was called on. Run without interruption the statements do what the
methods do, and every run of `epollServer` is one of `lifetimeServer`.
-/
namespace StudyCode.Tcp
open StudyCode.ByteString StudyCode.Scheduled

/-- The statements of `readData`, `sendData` and `closeConnection`. -/
inductive Stmt where
  | readStatus
  | clearBuffer
  | recv
  | logEnd
  | readBuffer (received : Str)
  | logAnswer (msg : Str)
  | sendStatus (msg : Str)
  | send (msg : Str)
  | logFailure
  | closeStatus
  | assignClosed
  | closefd
  | logClosed
  deriving DecidableEq, Repr

/-- What a statement does on an object with the fields `c`. -/
def Stmt.effect (p : ℕ) (c : Connection) : Stmt → Action
  | .recv => emit (.recv p c.clientfd c.status)
  | .send msg => emit (.send p c.clientfd c.status msg)
  | .assignClosed => setStatus p .closed
  | .closefd => Tcp.closefd p c.clientfd
  | _ => skip

/-- The statement that follows, nothing at the return from `readData`. -/
def Stmt.next (c : Connection) (received : Option Str) (sent : Option ℕ) : Stmt → Option Stmt
  | .readStatus =>
      match c.status with
      | .closed => none
      | .connected => some .clearBuffer
  | .clearBuffer => some .recv
  | .recv =>
      match received with
      | none | some [] => some .logEnd
      | some (b :: bs) => some (.readBuffer (b :: bs))
  | .logEnd => some .closeStatus
  | .readBuffer received => some (.logAnswer (translate received ++ bytes "\n"))
  | .logAnswer msg => some (.sendStatus msg)
  | .sendStatus msg =>
      match c.status with
      | .closed => none
      | .connected => some (.send msg)
  | .send _ =>
      match sent with
      | none => some .logFailure
      | some _ => none
  | .logFailure => some .closeStatus
  | .closeStatus =>
      match c.status with
      | .closed => none
      | .connected => some .assignClosed
  | .assignClosed => some .closefd
  | .closefd => some .logClosed
  | .logClosed => none

/-- The loop thread at the test of its next event, which is `epoll_wait` where
there is none, in a method, or past a use of a destroyed object. -/
inductive LoopThread where
  | dispatching (events : List (ℕ × Bool))
  | inside (conn : ℕ) (stmt : Stmt) (events : List (ℕ × Bool))
  | lost
  deriving DecidableEq, Repr

structure LifetimeState where
  server : Server
  loop : LoopThread

inductive LifetimeTurn where
  | main (turn : MainTurn)
  | epollWait (batch : List (Registration × Bool))
  | test
  | statement (received : Option Str) (sent : Option ℕ)
  deriving DecidableEq, Repr

def lifetimeStep (s : LifetimeState) : LifetimeTurn → Option (LifetimeState × List Event)
  | .main turn =>
      (mainStep s.server turn).map fun r => ({ s with server := r.1 }, r.2)
  | .epollWait batch =>
      match s.loop with
      | .dispatching [] =>
          if s.server.Ready batch then
            some ({ s with loop := .dispatching (batch.map fun b => (b.1.conn, b.2)) }, [])
          else none
      | _ => none
  | .test =>
      match s.loop with
      | .dispatching ((p, readable) :: rest) =>
          match s.server.host.heap p with
          | none => some ({ s with loop := .lost }, [.dangling p])
          | some c =>
              match c.status with
              | .closed => some ({ s with loop := .dispatching rest }, [])
              | .connected =>
                  if readable then some ({ s with loop := .inside p .readStatus rest }, [])
                  else some ({ s with loop := .dispatching rest }, [])
      | _ => none
  | .statement received sent =>
      match s.loop with
      | .inside p stmt rest =>
          match s.server.host.heap p with
          | none => some ({ s with loop := .lost }, [.dangling p])
          | some c =>
              let r := stmt.effect p c s.server.host
              some ({
                server := { s.server with host := r.1 }
                loop :=
                  match stmt.next c received sent with
                  | some following => .inside p following rest
                  | none => .dispatching rest }, r.2)
      | _ => none

def lifetimeServer : Machine LifetimeState LifetimeTurn Event where
  start := { server := startServer, loop := .dispatching [] }
  step := lifetimeStep

/-! ## The statements make up the methods -/

/-- The method from `stmt` on, run to its return. -/
def runMethod (p : ℕ) (received : Option Str) (sent : Option ℕ) :
    ℕ → Stmt → Host → Option (Host × List Event)
  | 0, _, _ => none
  | n + 1, stmt, h =>
      match h.heap p with
      | none => none
      | some c =>
          let r := stmt.effect p c h
          match stmt.next c received sent with
          | none => some r
          | some following =>
              (runMethod p received sent n following r.1).map fun q => (q.1, r.2 ++ q.2)

variable {h : Host} {p : ℕ} {c : Connection} {received : Option Str} {sent : Option ℕ}

/-- A statement that writes nothing to the host. -/
theorem runMethod_next {stmt following : Stmt} {es : List Event} (hp : h.heap p = some c)
    (next : stmt.next c received sent = some following)
    (emits : stmt.effect p c h = (h, es)) (n : ℕ) :
    runMethod p received sent (n + 1) stmt h =
      (runMethod p received sent n following h).map fun q => (q.1, es ++ q.2) := by
  simp [runMethod, hp, next, emits]

theorem runMethod_quiet {stmt following : Stmt} (hp : h.heap p = some c)
    (next : stmt.next c received sent = some following)
    (quiet : stmt.effect p c h = (h, [])) (n : ℕ) :
    runMethod p received sent (n + 1) stmt h = runMethod p received sent n following h := by
  rw [runMethod_next hp next quiet]
  simp

theorem runMethod_return {stmt : Stmt} (hp : h.heap p = some c)
    (next : stmt.next c received sent = none) (n : ℕ) :
    runMethod p received sent (n + 1) stmt h = some (stmt.effect p c h) := by
  simp [runMethod, hp, next]

theorem runMethod_close (hp : h.heap p = some c) (n : ℕ) :
    runMethod p received sent (n + 4) .closeStatus h = some (closeConnection p h) := by
  cases status : c.status with
  | closed =>
      rw [runMethod_return hp (by simp [Stmt.next, status])]
      rw [closeConnection_closed hp status]
      rfl
  | connected =>
      by_cases positive : 0 < c.clientfd <;>
        simp [runMethod, hp, Stmt.next, Stmt.effect, status, closeConnection, withThis, skip,
          setStatus, Action.andThen, closefd, positive]

theorem runMethod_send (hp : h.heap p = some c) (msg : Str) (n : ℕ) :
    runMethod p received sent (n + 7) (.sendStatus msg) h = some (sendData p msg sent h) := by
  cases status : c.status with
  | closed =>
      rw [runMethod_return hp (by simp [Stmt.next, status])]
      rw [sendData_of_closed hp status]
      rfl
  | connected =>
      have sends : (Stmt.sendStatus msg).next c received sent = some (.send msg) := by
        simp [Stmt.next, status]
      rw [runMethod_quiet hp sends rfl]
      cases sent with
      | none =>
          rw [runMethod_next hp rfl rfl, runMethod_quiet hp rfl rfl, runMethod_close hp n]
          rw [sendData_failed hp status]
          simp [status]
      | some k =>
          rw [runMethod_return hp rfl]
          rw [sendData_sent hp status]
          simp [Stmt.effect, emit, status]

/-- Without interruption the statements from the first on are `readData`. -/
theorem runMethod_readData (hp : h.heap p = some c) (received : Option Str) (sent : Option ℕ) :
    runMethod p received sent 12 .readStatus h = some (readData p received sent h) := by
  cases status : c.status with
  | closed =>
      rw [runMethod_return hp (by simp [Stmt.next, status])]
      rw [readData_of_closed hp status]
      rfl
  | connected =>
      have clears : Stmt.readStatus.next c received sent = some .clearBuffer := by
        simp [Stmt.next, status]
      rw [runMethod_quiet hp clears rfl, runMethod_quiet hp rfl rfl]
      rcases received with _ | _ | ⟨b, bs⟩
      case some.cons =>
        rw [runMethod_next hp rfl rfl, runMethod_quiet hp rfl rfl, runMethod_quiet hp rfl rfl,
          runMethod_send hp _ 0, readData_data hp status]
        simp [status, answer]
      all_goals
        rw [runMethod_next hp rfl rfl, runMethod_quiet hp rfl rfl, runMethod_close hp 4,
          readData_ended hp status (by simp)]
        simp [status]

/-! ## Every run of the methods is a run of the statements -/

def EpollState.toLifetime (s : EpollState) : LifetimeState where
  server := s.server
  loop := .dispatching s.events

/-- A method runs to its return when only the loop thread is scheduled. -/
theorem runFrom_method {n : ℕ} {stmt : Stmt} (server : Server) (rest : List (ℕ × Bool))
    {r : Host × List Event} (run : runMethod p received sent n stmt server.host = some r) :
    ∃ k, lifetimeServer.runFrom { server := server, loop := .inside p stmt rest }
        (List.replicate k (.statement received sent)) =
      some ({ server := { server with host := r.1 }, loop := .dispatching rest }, r.2) := by
  induction n generalizing stmt server r with
  | zero => cases run
  | succ n ih =>
      rw [runMethod] at run
      split at run
      · cases run
      · rename_i c hp
        cases next : stmt.next c received sent with
        | none =>
            rw [next] at run
            cases run
            refine ⟨1, ?_⟩
            simp [List.replicate_one, lifetimeServer, lifetimeStep, hp, next]
        | some following =>
            rw [next] at run
            obtain ⟨q, hq, eq⟩ := Option.map_eq_some_iff.mp run
            cases eq
            obtain ⟨k, hk⟩ := ih { server with host := (stmt.effect p c server.host).1 } hq
            refine ⟨k + 1, ?_⟩
            rw [List.replicate_succ, Machine.runFrom]
            have first : lifetimeServer.step { server := server, loop := .inside p stmt rest }
                (.statement received sent) = some ({
                  server := { server with host := (stmt.effect p c server.host).1 }
                  loop := .inside p following rest }, (stmt.effect p c server.host).2) := by
              simp [lifetimeServer, lifetimeStep, hp, next]
            rw [first, Option.bind_some, hk]
            rfl

/-- What one call in `epollServer` does, some statements in `lifetimeServer` do. -/
theorem epollStep_refines {s t : EpollState} {turn : Turn} {o : List Event}
    (hs : epollStep s turn = some (t, o)) (live : ∀ e ∈ s.events, s.server.host.heap e.1 ≠ none) :
    ∃ turns, lifetimeServer.runFrom s.toLifetime turns = some (t.toLifetime, o) := by
  cases turn with
  | main turn =>
      obtain ⟨r, step, eq⟩ := Option.map_eq_some_iff.mp hs
      cases eq
      refine ⟨[.main turn], ?_⟩
      simp [EpollState.toLifetime, lifetimeServer, lifetimeStep, step]
  | epollWait batch =>
      simp only [epollStep] at hs
      split at hs
      · rename_i idle
        obtain ⟨ready, eq⟩ := Option.ite_none_right_eq_some.mp hs
        cases eq
        refine ⟨[.epollWait batch], ?_⟩
        simp [EpollState.toLifetime, lifetimeServer, lifetimeStep, idle, ready]
      · cases hs
  | event received sent =>
      simp only [epollStep] at hs
      split at hs
      · cases hs
      · rename_i p readable rest events
        cases hs
        obtain ⟨c, hp⟩ := Option.ne_none_iff_exists'.mp (live (p, readable) (by simp [events]))
        cases status : c.status with
        | closed =>
            refine ⟨[.test], ?_⟩
            simp [EpollState.toLifetime, lifetimeServer, lifetimeStep, events, hp, status,
              handleEvent, withThis, skip]
        | connected =>
            cases readable with
            | false =>
                refine ⟨[.test], ?_⟩
                simp [EpollState.toLifetime, lifetimeServer, lifetimeStep, events, hp, status,
                  handleEvent, withThis, skip]
            | true =>
                obtain ⟨k, hk⟩ :=
                  runFrom_method s.server rest (runMethod_readData hp received sent)
                refine ⟨.test :: List.replicate k (.statement received sent), ?_⟩
                have first : lifetimeServer.step s.toLifetime .test =
                    some ({ server := s.server, loop := .inside p .readStatus rest }, []) := by
                  simp [EpollState.toLifetime, lifetimeServer, lifetimeStep, events, hp, status]
                rw [Machine.runFrom, first, Option.bind_some, hk]
                simp [EpollState.toLifetime, handleEvent, withThis, hp, status]

end StudyCode.Tcp

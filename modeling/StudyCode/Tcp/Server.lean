import StudyCode.Lib.Machine
import StudyCode.Tcp.Connection

/-!
# The main loop and `EpollLoop`

The main thread accepts a client, makes its `Connection`, lists it, registers it
and sweeps out the closed ones; each of these is a turn. `epollServer` runs the
loop thread against it with one turn for `epoll_wait` and one for each event, up
to the return of `readData`: nothing comes between the statements of a `readData`,
which `Statements` and `Lifetime` take apart. The loop's own list of connections is
never read, so only the interest list of the kernel is kept.
-/
namespace StudyCode.Tcp
open StudyCode.ByteString StudyCode.Scheduled

inductive MainThread where
  | accepting
  | accepted (clientfd : ℤ)
  | constructed (conn : ℕ)
  | pushed (conn : ℕ)
  | sweeping
  deriving DecidableEq, Repr

/-- An entry of the interest list: `conn` is its `data.ptr`, `file` what the
descriptor referred to when it was added. -/
structure Registration where
  fd : ℤ
  file : ℕ
  conn : ℕ
  deriving DecidableEq, Repr

structure Server where
  host : Host
  accepts : ℕ
  main : MainThread
  connections : List ℕ
  registered : List Registration

/-- The entry is still there: the kernel drops it with the last close of its file. -/
def Server.Armed (s : Server) (r : Registration) : Prop :=
  r ∈ s.registered ∧ s.host.fds r.fd = some r.file

instance (s : Server) (r : Registration) : Decidable (s.Armed r) :=
  inferInstanceAs (Decidable (_ ∧ _))

inductive MainTurn where
  | accept (clientfd : ℤ)
  | construct
  | push
  | addConnection (added : Bool)
  | sweep
  deriving DecidableEq, Repr

/-- The loop over `g_connections`: what stays in the list, and the events. -/
def sweepOut : List ℕ → Host → Host × List ℕ × List Event
  | [], h => (h, [], [])
  | p :: ps, h =>
      match h.heap p with
      | none =>
          let r := sweepOut ps h
          (r.1, p :: r.2.1, .dangling p :: r.2.2)
      | some c =>
          match c.status with
          | .closed =>
              let gone := destroy p h
              let r := sweepOut ps gone.1
              (r.1, r.2.1, gone.2 ++ r.2.2)
          | .connected =>
              let r := sweepOut ps h
              (r.1, p :: r.2.1, r.2.2)

def mainStep (s : Server) : MainTurn → Option (Server × List Event)
  | .accept clientfd =>
      match s.main with
      | .accepting =>
          if 0 < clientfd then
            if s.host.fds clientfd = none then
              some ({ s with
                host := { s.host with fds := Function.update s.host.fds clientfd (some s.accepts) }
                main := .accepted clientfd }, [])
            else none
          else some ({ s with main := .sweeping }, [])
      | _ => none
  | .construct =>
      match s.main with
      | .accepted clientfd =>
          some ({ s with
            host := { s.host with
              heap := Function.update s.host.heap s.accepts
                (some { clientfd := clientfd, status := .connected }) }
            accepts := s.accepts + 1
            main := .constructed s.accepts }, [])
      | _ => none
  | .push =>
      match s.main with
      | .constructed conn =>
          some ({ s with connections := s.connections ++ [conn], main := .pushed conn }, [])
      | _ => none
  | .addConnection added =>
      match s.main with
      | .pushed conn =>
          match s.host.heap conn with
          | none => some ({ s with main := .sweeping }, [.dangling conn])
          | some c =>
              if added then
                match s.host.fds c.clientfd with
                | some file =>
                    some ({ s with
                      registered := s.registered ++ [⟨c.clientfd, file, conn⟩]
                      main := .sweeping }, [])
                | none => none
              else some ({ s with main := .sweeping }, [])
      | _ => none
  | .sweep =>
      match s.main with
      | .sweeping =>
          let r := sweepOut s.connections s.host
          some ({ s with host := r.1, connections := r.2.1, main := .accepting }, r.2.2)
      | _ => none

def startServer : Server where
  host := { heap := fun _ => none, fds := fun _ => none }
  accepts := 0
  main := .accepting
  connections := []
  registered := []

/-! ## The loop thread, one event at a time -/

def maxEvents : ℕ := 1024

/-- What `epoll_wait` may return: armed entries, each at most once. -/
def Server.Ready (s : Server) (batch : List (Registration × Bool)) : Prop :=
  batch.length ≤ maxEvents ∧ (batch.map Prod.fst).Nodup ∧ ∀ r ∈ batch.map Prod.fst, s.Armed r

instance (s : Server) (batch : List (Registration × Bool)) : Decidable (s.Ready batch) :=
  inferInstanceAs (Decidable (_ ∧ _ ∧ _))

/-- The body of the loop over the events; `readable` is the `EPOLLIN` of the event. -/
def handleEvent (p : ℕ) (readable : Bool) (received : Option Str) (sent : Option ℕ) : Action :=
  withThis p fun c =>
    match c.status with
    | .closed => skip
    | .connected => if readable then readData p received sent else skip

/-- The server and the events that the loop thread still has to handle. -/
structure EpollState where
  server : Server
  events : List (ℕ × Bool)

inductive Turn where
  | main (turn : MainTurn)
  | epollWait (batch : List (Registration × Bool))
  | event (received : Option Str) (sent : Option ℕ)
  deriving DecidableEq, Repr

def epollStep (s : EpollState) : Turn → Option (EpollState × List Event)
  | .main turn =>
      (mainStep s.server turn).map fun r => ({ s with server := r.1 }, r.2)
  | .epollWait batch =>
      match s.events with
      | [] =>
          if s.server.Ready batch then
            some ({ s with events := batch.map fun b => (b.1.conn, b.2) }, [])
          else none
      | _ :: _ => none
  | .event received sent =>
      match s.events with
      | [] => none
      | (p, readable) :: rest =>
          let r := handleEvent p readable received sent s.server.host
          some ({ server := { s.server with host := r.1 }, events := rest }, r.2)

def epollServer : Machine EpollState Turn Event where
  start := { server := startServer, events := [] }
  step := epollStep

/-- An event of a connected object lets it talk, and then it may close. -/
theorem handleEvent_connected {h : Host} {p : ℕ} {c : Connection} (hp : h.heap p = some c)
    (status : c.status = .connected) (positive : 0 < c.clientfd) (readable : Bool)
    (received : Option Str) (sent : Option ℕ) :
    ∃ es, Talk p c es ∧
      (handleEvent p readable received sent h = (h, es) ∨
        handleEvent p readable received sent h =
          (h.hangUp p c, es ++ [.close p c.clientfd (h.fds c.clientfd)])) := by
  cases readable with
  | false => exact ⟨[], by simp [Talk], .inl (by simp [handleEvent, withThis, hp, status, skip])⟩
  | true =>
      have reads : handleEvent p true received sent h = readData p received sent h := by
        simp [handleEvent, withThis, hp, status]
      rw [reads]
      exact readData_connected hp status positive received sent

/-! ## What the sweep does -/

def Host.sweep (h : Host) (ps : List ℕ) : Host :=
  { h with heap := fun q => if q ∈ ps ∧ h.closed q = true then none else h.heap q }

/-- A sweep over live objects makes no system call and frees exactly the closed. -/
theorem sweepOut_live {ps : List ℕ} {h : Host} (nodup : ps.Nodup)
    (live : ∀ p ∈ ps, h.heap p ≠ none) :
    sweepOut ps h = (h.sweep ps, ps.filter fun p => !h.closed p, []) := by
  induction ps generalizing h with
  | nil => simp [sweepOut, Host.sweep]
  | cons p ps ih =>
      obtain ⟨outside, nodup⟩ := List.nodup_cons.mp nodup
      obtain ⟨c, hp⟩ := Option.ne_none_iff_exists'.mp (live p List.mem_cons_self)
      cases status : c.status with
      | connected =>
          have stays : h.closed p = false := by simp [Host.closed, hp, status]
          have rest := ih nodup fun q hq => live q (List.mem_cons_of_mem p hq)
          have same : h.sweep ps = h.sweep (p :: ps) := by
            simp only [Host.sweep, List.mem_cons]
            congr 1
            funext q
            by_cases own : q = p
            · subst own
              simp [outside, stays]
            · simp [own]
          simp [sweepOut, hp, status, rest, same, stays]
      | closed =>
          have goes : h.closed p = true := by simp [Host.closed, hp, status]
          have others : ∀ q ∈ ps, q ≠ p := fun q hq own => outside (own ▸ hq)
          have rest := ih (h := h.free p) nodup fun q hq => by
            simpa [Host.free, Function.update_of_ne (others q hq)] using
              live q (List.mem_cons_of_mem p hq)
          have same : (h.free p).sweep ps = h.sweep (p :: ps) := by
            simp only [Host.sweep, Host.free, List.mem_cons]
            congr 1
            funext q
            by_cases own : q = p
            · subst own
              simp [goes]
            · have closed := closed_free_of_ne (h := h) own
              simp only [Host.free] at closed
              simp [own, closed]
          have kept : ps.filter (fun q => !(h.free p).closed q) = ps.filter fun q => !h.closed q :=
            List.filter_congr fun q hq => by rw [closed_free_of_ne (others q hq)]
          simp [sweepOut, hp, status, destroy_closed hp status, rest, same, kept, goes]

/-- What is swept out was closed, the rest is as before. -/
theorem sweep_heap (h : Host) (ps : List ℕ) (p : ℕ) :
    (h.sweep ps).heap p = h.heap p ∨
      (h.sweep ps).heap p = none ∧ ∃ c, h.heap p = some c ∧ c.status = .closed := by
  by_cases gone : p ∈ ps ∧ h.closed p = true
  · exact .inr ⟨if_pos gone, closed_eq_true.mp gone.2⟩
  · exact .inl (if_neg gone)

end StudyCode.Tcp

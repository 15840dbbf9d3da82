import Mathlib.Data.Int.Notation
import Mathlib.Logic.Function.Basic
import StudyCode.Lib.Machine

/-!
# The server with one process for each client

`TCPServer::run` forks after each `accept`. A turn is one system call together
with the calls of `close` that follow it; each process has a descriptor table of
its own, and a child starts with a copy of its parent's. Connections are
numbered as they are accepted.
-/
namespace StudyCode.ForkServer
open StudyCode.Scheduled

inductive File where
  | listening
  | conn (k : ℕ)
  deriving DecidableEq, Repr

/-- Where a process is in `run`; only children go beyond the fork. -/
inductive Phase where
  | accepting
  | accepted (conn_fd : ℤ)
  | receiving (conn_fd : ℤ)
  | sending (conn_fd : ℤ)
  | exited
  deriving DecidableEq, Repr

structure Process where
  fds : ℤ → Option File
  phase : Phase

structure Server where
  parent : Process
  children : List Process
  accepts : ℕ

inductive Turn where
  | accept (fd : ℤ)
  | fork (created : Bool)
  | recv (i : ℕ) (valread : ℤ)
  | send (i : ℕ)
  deriving DecidableEq, Repr

def Process.close (p : Process) (fd : ℤ) : Process :=
  { p with fds := Function.update p.fds fd none }

/-- `accept(listen_fd, …)` returns a number that is free, or fails; on a number
that is not open it fails. -/
def accept (listen_fd : ℤ) (s : Server) (fd : ℤ) : Option Server :=
  match s.parent.phase with
  | .accepting =>
      if fd < 0 then some s
      else if s.parent.fds listen_fd = some .listening ∧ s.parent.fds fd = none then
        some { s with
          parent :=
            { fds := Function.update s.parent.fds fd (some (.conn s.accepts))
              phase := .accepted fd }
          accepts := s.accepts + 1 }
      else none
  | _ => none

/-- The three branches of `run` on what `fork` returns; the child's and the
parent's are taken together. -/
def fork (listen_fd : ℤ) (s : Server) (created : Bool) : Option Server :=
  match s.parent.phase with
  | .accepted conn_fd =>
      if created then
        some { s with
          parent := { s.parent.close conn_fd with phase := .accepting }
          children := s.children ++
            [{ s.parent.close listen_fd with phase := .receiving conn_fd }] }
      else
        some { s with parent := { s.parent.close listen_fd with phase := .accepting } }
  | _ => none

def recv (p : Process) (valread : ℤ) : Option Process :=
  match p.phase with
  | .receiving conn_fd =>
      if 0 < valread then some { p with phase := .sending conn_fd }
      else some { p.close conn_fd with phase := .exited }
  | _ => none

def send (p : Process) : Option Process :=
  match p.phase with
  | .sending conn_fd => some { p.close conn_fd with phase := .exited }
  | _ => none

def step (listen_fd : ℤ) (s : Server) : Turn → Option (Server × List Unit)
  | .accept fd => (accept listen_fd s fd).map fun t => (t, [])
  | .fork created => (fork listen_fd s created).map fun t => (t, [])
  | .recv i valread =>
      (s.children[i]?.bind fun p => recv p valread).map fun p =>
        ({ s with children := s.children.set i p }, [])
  | .send i =>
      (s.children[i]?.bind send).map fun p => ({ s with children := s.children.set i p }, [])

/-- The server from the end of its constructor on. -/
def forkServer (listen_fd : ℤ) : Machine Server Turn Unit where
  start :=
    { parent :=
        { fds := Function.update (fun _ => none) listen_fd (some .listening)
          phase := .accepting }
      children := []
      accepts := 0 }
  step := step listen_fd

/-- Whenever the parent is back at `accept`, it still listens and every
descriptor it has accepted is closed. -/
def KeepsListening (listen_fd : ℤ) (s : Server) : Prop :=
  s.parent.phase = .accepting →
    s.parent.fds listen_fd = some .listening ∧ ∀ fd k, s.parent.fds fd ≠ some (.conn k)

/-- The `fork`, if the turn is one, does not fail. -/
def ForkSucceeds (_ : Server) (turn : Turn) : Prop := turn ≠ .fork false

/-- Only the client at hand is open beside the listening socket. -/
def Process.Sound (listen_fd : ℤ) (p : Process) : Prop :=
  p.fds listen_fd = some .listening ∧
    match p.phase with
    | .accepting => ∀ fd k, p.fds fd ≠ some (.conn k)
    | .accepted conn_fd =>
        (∃ k, p.fds conn_fd = some (.conn k)) ∧ ∀ fd k, p.fds fd = some (.conn k) → fd = conn_fd
    | .receiving _ | .sending _ | .exited => False

theorem Process.Sound.keepsListening {listen_fd : ℤ} {s : Server}
    (sound : s.parent.Sound listen_fd) : KeepsListening listen_fd s := by
  intro back
  rw [Process.Sound, back] at sound
  exact sound

theorem accept_sound {listen_fd fd : ℤ} {s t : Server} (sound : s.parent.Sound listen_fd)
    (hs : accept listen_fd s fd = some t) : t.parent.Sound listen_fd := by
  unfold accept at hs
  split at hs
  · rename_i back
    split at hs
    · cases hs
      exact sound
    · obtain ⟨⟨listening, free⟩, eq⟩ := Option.ite_none_right_eq_some.mp hs
      cases eq
      rw [Process.Sound, back] at sound
      have other : listen_fd ≠ fd := by
        rintro rfl
        rw [free] at listening
        cases listening
      refine ⟨?_, ⟨s.accepts, Function.update_self ..⟩, ?_⟩
      · exact (Function.update_of_ne other ..).trans listening
      · intro n k held
        by_contra elsewhere
        exact sound.2 n k ((Function.update_of_ne elsewhere ..).symm.trans held)
  · cases hs

theorem fork_sound {listen_fd : ℤ} {s t : Server} (sound : s.parent.Sound listen_fd)
    (hs : fork listen_fd s true = some t) : t.parent.Sound listen_fd := by
  unfold fork at hs
  split at hs
  · rename_i conn_fd at_
    cases hs
    rw [Process.Sound, at_] at sound
    obtain ⟨listening, ⟨k, file⟩, only⟩ := sound
    have other : listen_fd ≠ conn_fd := by
      rintro rfl
      rw [listening] at file
      cases file
    refine ⟨(Function.update_of_ne other ..).trans listening, ?_⟩
    intro n k held
    by_cases here : n = conn_fd
    · subst here
      simp [Process.close] at held
    · exact here (only n k ((Function.update_of_ne here ..).symm.trans held))
  · cases hs

/-- The failing branch closes the descriptor that all clients come from. -/
theorem fork_failed {listen_fd : ℤ} {s t : Server} (hs : fork listen_fd s false = some t) :
    ¬ KeepsListening listen_fd t := by
  unfold fork at hs
  split at hs
  · cases hs
    intro keeps
    have listening := (keeps rfl).1
    simp [Process.close] at listening
  · cases hs

/-- A turn is one of the parent's system calls, or a child goes on. -/
theorem step_cases {listen_fd : ℤ} {s t : Server} {turn : Turn} {o : List Unit}
    (hs : step listen_fd s turn = some (t, o)) :
    (∃ fd, turn = .accept fd ∧ accept listen_fd s fd = some t) ∨
    (∃ created, turn = .fork created ∧ fork listen_fd s created = some t) ∨
    ∃ i p q, s.children[i]? = some p ∧ ((∃ valread, recv p valread = some q) ∨ send p = some q) ∧
      t = { s with children := s.children.set i q } := by
  cases turn with
  | accept fd =>
      obtain ⟨u, hu, eq⟩ := Option.map_eq_some_iff.mp hs
      cases eq
      exact .inl ⟨fd, rfl, hu⟩
  | fork created =>
      obtain ⟨u, hu, eq⟩ := Option.map_eq_some_iff.mp hs
      cases eq
      exact .inr (.inl ⟨created, rfl, hu⟩)
  | recv i valread =>
      obtain ⟨q, hq, eq⟩ := Option.map_eq_some_iff.mp hs
      obtain ⟨p, here, hp⟩ := Option.bind_eq_some_iff.mp hq
      cases eq
      exact .inr (.inr ⟨i, p, q, here, .inl ⟨valread, hp⟩, rfl⟩)
  | send i =>
      obtain ⟨q, hq, eq⟩ := Option.map_eq_some_iff.mp hs
      obtain ⟨p, here, hp⟩ := Option.bind_eq_some_iff.mp hq
      cases eq
      exact .inr (.inr ⟨i, p, q, here, .inr hp, rfl⟩)

theorem step_sound {listen_fd : ℤ} {s t : Server} {turn : Turn} {o : List Unit}
    (sound : s.parent.Sound listen_fd) (hs : step listen_fd s turn = some (t, o))
    (succeeds : ForkSucceeds s turn) : t.parent.Sound listen_fd := by
  rcases step_cases hs with ⟨fd, -, taken⟩ | ⟨created, rfl, made⟩ | ⟨i, p, q, -, -, rfl⟩
  · exact accept_sound sound taken
  · cases created with
    | true => exact fork_sound sound made
    | false => exact absurd rfl succeeds
  · exact sound

/-- For every sequence of results of `accept`, `fork` and `recv` and every
interleaving with the children: the parent comes back to `accept` listening, with
all accepted descriptors closed, throughout the run if and only if no `fork` fails. -/
theorem fork_server_keeps_listening_iff (listen_fd : ℤ) {turns : List Turn} {s : Server}
    {os : List Unit} (run : (forkServer listen_fd).Reaches turns s os) :
    (forkServer listen_fd).Always (KeepsListening listen_fd) turns ↔
      (forkServer listen_fd).Meets ForkSucceeds turns := by
  have start : (forkServer listen_fd).start.parent.Sound listen_fd := by
    refine ⟨by simp [forkServer], fun fd k => ?_⟩
    simp only [forkServer, Function.update_apply]
    split <;> simp
  refine run.always_iff_meets (J := fun s => s.parent.Sound listen_fd) start
    Process.Sound.keepsListening step_sound ?_
  intro s turn t o sound hs fails
  obtain rfl : turn = Turn.fork false := not_not.mp fails
  obtain ⟨u, hu, eq⟩ := Option.map_eq_some_iff.mp hs
  cases eq
  exact fork_failed hu

/-- Two clients, the second on the number of the first. -/
theorem fork_server_keeps_listening_iff_served :
    ∃ turns s os, (forkServer 3).Reaches turns s os ∧ s.accepts = 2 ∧
      ((forkServer 3).Always (KeepsListening 3) turns ↔
        (forkServer 3).Meets ForkSucceeds turns) := by
  have run : (forkServer 3).Reaches
      [.accept 4, .fork true, .recv 0 12, .accept 4, .fork true, .send 0, .recv 1 0] _ _ := rfl
  exact ⟨_, _, _, run, rfl, fork_server_keeps_listening_iff 3 run⟩

/-- A failed `fork`: the listening socket is closed and the client is not. -/
theorem failed_fork_stops_listening :
    ∃ s os, (forkServer 3).Reaches [.accept 4, .fork false] s os ∧
      s.parent.phase = .accepting ∧ s.parent.fds 3 = none ∧
      s.parent.fds 4 = some (.conn 0) :=
  ⟨_, _, rfl, rfl, rfl, rfl⟩

theorem close_none {p : Process} {fd n : ℤ} (closed : p.fds n = none) :
    (p.close fd).fds n = none := by
  simp only [Process.close, Function.update_apply]
  split
  · rfl
  · exact closed

theorem recv_none {p q : Process} {valread n : ℤ} (hs : recv p valread = some q)
    (closed : p.fds n = none) : q.fds n = none := by
  unfold recv at hs
  split at hs
  · split at hs <;> cases hs
    · exact closed
    · exact close_none closed
  · cases hs

theorem send_none {p q : Process} {n : ℤ} (hs : send p = some q) (closed : p.fds n = none) :
    q.fds n = none := by
  unfold send at hs
  split at hs
  · cases hs
    exact close_none closed
  · cases hs

theorem accept_children {listen_fd fd : ℤ} {s t : Server}
    (hs : accept listen_fd s fd = some t) : t.children = s.children := by
  unfold accept at hs
  split at hs
  · split at hs
    · cases hs
      rfl
    · obtain ⟨-, eq⟩ := Option.ite_none_right_eq_some.mp hs
      cases eq
      rfl
  · cases hs

/-- A new child has closed the listening socket. -/
theorem fork_children {listen_fd : ℤ} {s t : Server} {created : Bool}
    (hs : fork listen_fd s created = some t) {p : Process} (hp : p ∈ t.children) :
    p ∈ s.children ∨ p.fds listen_fd = none := by
  unfold fork at hs
  split at hs
  · split at hs <;> cases hs
    · rcases List.mem_append.mp hp with old | new
      · exact .inl old
      · rw [List.mem_singleton.mp new]
        exact .inr (Function.update_self ..)
    · exact .inl hp
  · cases hs

/-- No child keeps the socket that its parent listens on. -/
theorem children_do_not_listen (listen_fd : ℤ) {turns : List Turn} {s : Server} {os : List Unit}
    (run : (forkServer listen_fd).Reaches turns s os) :
    ∀ p ∈ s.children, p.fds listen_fd = none := by
  refine run.invariant (P := fun s => ∀ p ∈ s.children, p.fds listen_fd = none)
    (fun p hp => (List.not_mem_nil hp).elim) ?_
  intro s turn t o quiet hs p hp
  rcases step_cases hs with ⟨fd, -, taken⟩ | ⟨created, -, made⟩ | ⟨i, q, r, here, went, rfl⟩
  · rw [accept_children taken] at hp
    exact quiet p hp
  · rcases fork_children made hp with old | new
    · exact quiet p old
    · exact new
  · rcases List.mem_or_eq_of_mem_set hp with old | rfl
    · exact quiet p old
    · have before := quiet q (List.mem_of_getElem? here)
      rcases went with ⟨valread, hr⟩ | hr
      · exact recv_none hr before
      · exact send_none hr before

end StudyCode.ForkServer

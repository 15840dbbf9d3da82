import StudyCode.Lib.Roster
import StudyCode.Servers.ForkServer

/-!
# What the processes of the forking server have open

A child starts with a copy of the parent's table, in which the only client is
its own: the parent has closed its copies of the clients before. So no two
children hold one connection, and a connection ends with its child.
-/
namespace StudyCode.ForkServer
open StudyCode.Scheduled StudyCode.Monitor

/-- A table with one open descriptor. -/
def only (fd : ℤ) (file : File) : ℤ → Option File := Function.update (fun _ => none) fd (some file)

theorem only_eq_some {fd n : ℤ} {file f : File} :
    only fd file n = some f ↔ n = fd ∧ f = file := by
  rw [only, Function.update_apply]
  split <;> simp_all [eq_comm]

theorem close_only {fd fd' : ℤ} (other : fd' ≠ fd) (file file' : File) :
    Function.update (Function.update (only fd file) fd' (some file')) fd' none = only fd file := by
  rw [Function.update_idem, Function.update_eq_self_iff, only, Function.update_of_ne other]

theorem close_first {fd fd' : ℤ} (other : fd' ≠ fd) (file file' : File) :
    Function.update (Function.update (only fd file) fd' (some file')) fd none = only fd' file' := by
  rw [Function.update_comm other, only, Function.update_idem, only]
  congr 1
  exact Function.update_eq_self fd _

/-- The `i`-th child has its own connection open until it exits, and nothing else. -/
def Process.Serves (p : Process) (i : ℕ) : Prop :=
  match p.phase with
  | .receiving conn_fd | .sending conn_fd => p.fds = only conn_fd (.conn i)
  | .exited => p.fds = fun _ => none
  | .accepting | .accepted _ => False

/-- The parent listens, with the client at hand; or it has closed the listening
socket and comes to no client any more. -/
def Process.Accepts (listen_fd : ℤ) (p : Process) (accepts children : ℕ) : Prop :=
  match p.phase with
  | .accepting =>
      p.fds = only listen_fd .listening ∧ accepts = children ∨ p.fds listen_fd = none
  | .accepted conn_fd =>
      conn_fd ≠ listen_fd ∧ accepts = children + 1 ∧
        p.fds = Function.update (only listen_fd .listening) conn_fd (some (.conn children))
  | .receiving _ | .sending _ | .exited => False

structure Tables (listen_fd : ℤ) (s : Server) : Prop where
  parent : s.parent.Accepts listen_fd s.accepts s.children.length
  children : ∀ i (p : Process), s.children[i]? = some p → p.Serves i

theorem Process.Serves.recv {p q : Process} {i : ℕ} {valread : ℤ} (h : p.Serves i)
    (hs : ForkServer.recv p valread = some q) : q.Serves i := by
  unfold ForkServer.recv at hs
  split at hs
  · rename_i conn_fd phase
    rw [Process.Serves, phase] at h
    split at hs <;> cases hs
    · exact h
    · rw [Process.Serves, Process.close, h, only, Function.update_idem]
      exact Function.update_eq_self conn_fd _
  · cases hs

theorem Process.Serves.send {p q : Process} {i : ℕ} (h : p.Serves i)
    (hs : ForkServer.send p = some q) : q.Serves i := by
  unfold ForkServer.send at hs
  split at hs
  · rename_i conn_fd phase
    rw [Process.Serves, phase] at h
    cases hs
    rw [Process.Serves, Process.close, h, only, Function.update_idem]
    exact Function.update_eq_self conn_fd _
  · cases hs

theorem Tables.accept {listen_fd fd : ℤ} {s t : Server} (h : Tables listen_fd s)
    (hs : ForkServer.accept listen_fd s fd = some t) : Tables listen_fd t := by
  refine ⟨?_, by rw [accept_children hs]; exact h.children⟩
  unfold ForkServer.accept at hs
  split at hs
  · rename_i back
    have parent := h.parent
    rw [Process.Accepts, back] at parent
    split at hs
    · cases hs
      exact h.parent
    · obtain ⟨⟨listening, free⟩, eq⟩ := Option.ite_none_right_eq_some.mp hs
      cases eq
      rcases parent with ⟨table, counted⟩ | deaf
      · have other : fd ≠ listen_fd := by
          rintro rfl
          rw [listening] at free
          cases free
        exact ⟨other, by rw [counted], by rw [table, counted]⟩
      · rw [deaf] at listening
        cases listening
  · cases hs

theorem Tables.fork {listen_fd : ℤ} {s t : Server} {created : Bool} (h : Tables listen_fd s)
    (hs : ForkServer.fork listen_fd s created = some t) : Tables listen_fd t := by
  unfold ForkServer.fork at hs
  split at hs
  · rename_i conn_fd at_
    have parent := h.parent
    rw [Process.Accepts, at_] at parent
    obtain ⟨other, counted, table⟩ := parent
    split at hs <;> cases hs
    · refine ⟨.inl ⟨?_, by simp [counted]⟩, fun i p hp => ?_⟩
      · exact (congrArg (Function.update · conn_fd none) table).trans (close_only other _ _)
      · rcases getElem?_concat_cases hp with old | ⟨rfl, rfl⟩
        · exact h.children i p old
        · exact (congrArg (Function.update · listen_fd none) table).trans (close_first other _ _)
    · exact ⟨.inr (Function.update_self ..), h.children⟩
  · cases hs

theorem Tables.step {listen_fd : ℤ} {s t : Server} {turn : Turn} {o : List Unit}
    (h : Tables listen_fd s) (hs : ForkServer.step listen_fd s turn = some (t, o)) :
    Tables listen_fd t := by
  rcases step_cases hs with ⟨fd, -, taken⟩ | ⟨created, -, made⟩ | ⟨i, p, q, here, went, rfl⟩
  · exact h.accept taken
  · exact h.fork made
  · refine ⟨by rw [List.length_set]; exact h.parent, fun j r hr => ?_⟩
    rcases getElem?_set_cases hr with ⟨rfl, rfl⟩ | ⟨-, old⟩
    · have serves := h.children i p here
      rcases went with ⟨valread, hr⟩ | hr
      · exact serves.recv hr
      · exact serves.send hr
    · exact h.children j r old

/-- For every sequence of results of `accept`, `fork` and `recv`, failures among them, and
every interleaving: the `i`-th child has the `i`-th connection open until it exits and
nothing else, and nothing once it has exited; and while the parent is at `accept` it
has no client open, unless a `fork` failed. -/
theorem children_hold_own_connection (listen_fd : ℤ) {turns : List Turn} {s : Server}
    {os : List Unit} (run : (forkServer listen_fd).Reaches turns s os) :
    (∀ i (p : Process), s.children[i]? = some p →
      (∃ fd, ∀ n f, p.fds n = some f ↔ n = fd ∧ f = .conn i ∧ p.phase ≠ .exited) ∧
        (p.phase = .exited ↔ ∀ n, p.fds n = none)) ∧
      (s.parent.phase = .accepting → s.parent.fds listen_fd ≠ none →
        ∀ n f, s.parent.fds n = some f ↔ n = listen_fd ∧ f = .listening) := by
  have start : Tables listen_fd (forkServer listen_fd).start :=
    { parent := show _ ∨ _ from .inl ⟨rfl, rfl⟩
      children := nofun }
  have tables : Tables listen_fd s :=
    run.invariant (P := Tables listen_fd) start fun h hs => h.step hs
  refine ⟨fun i p hp => ?_, fun back listening n f => ?_⟩
  · have serves := tables.children i p hp
    unfold Process.Serves at serves
    split at serves
    case h_1 fd phase | h_2 fd phase =>
      refine ⟨⟨fd, fun n f => by rw [serves, only_eq_some, phase]; simp⟩, ?_⟩
      rw [phase, serves]
      refine ⟨nofun, fun closed => ?_⟩
      have own := closed fd
      rw [only, Function.update_self] at own
      cases own
    case h_3 phase => exact ⟨⟨0, fun n f => by rw [serves, phase]; simp⟩, by simp [phase, serves]⟩
    all_goals exact serves.elim
  · have parent := tables.parent
    rw [Process.Accepts, back] at parent
    rcases parent with ⟨table, -⟩ | deaf
    · rw [table, only_eq_some]
    · exact absurd deaf listening

/-- Two clients, the second on the number of the first, which is gone. -/
theorem children_hold_own_connection_reused :
    ∃ turns s os, (forkServer 3).Reaches turns s os ∧
      ∃ p, s.children[1]? = some p ∧ p.fds 4 = some (.conn 1) ∧
        ∃ fd, ∀ n f, p.fds n = some f ↔ n = fd ∧ f = .conn 1 ∧ p.phase ≠ .exited := by
  have run : (forkServer 3).Reaches
      [.accept 4, .fork true, .recv 0 0, .accept 4, .fork true, .recv 1 7] _ _ := rfl
  exact ⟨_, _, _, run, _, rfl, rfl, ((children_hold_own_connection 3 run).1 1 _ rfl).1⟩

end StudyCode.ForkServer

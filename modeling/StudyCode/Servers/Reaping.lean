import Mathlib.Data.List.Nodup
import StudyCode.Lib.Roster
import StudyCode.Servers.ForkServer

/-!
# `sig_child`

Each child that exits raises `SIGCHLD`, and a signal that is pending already is
not raised twice. The handler calls `waitpid` until no child is left that has
exited, and new signals wait while it runs. It interrupts the parent between
any two turns; the children go on.
-/
namespace StudyCode.ForkServer
open StudyCode.Scheduled StudyCode.Monitor

structure Watched where
  server : Server
  /-- `SIGCHLD` was raised and not delivered since -/
  pending : Bool
  /-- the parent is in `sig_child` -/
  handling : Bool
  reaped : List ℕ

inductive WatchedTurn where
  | run (turn : Turn)
  | deliver
  /-- `waitpid(-1, nullptr, WNOHANG)`, with the child that it finds -/
  | waitpid (child : Option ℕ)
  deriving DecidableEq, Repr

def Process.hasExited (p : Process) : Bool := p.phase matches .exited

def Turn.ofParent : Turn → Bool
  | .accept _ | .fork _ => true
  | .recv _ _ | .send _ => false

/-- The `i`-th child has exited. -/
def Server.exited (s : Server) (i : ℕ) : Bool := s.children[i]?.any Process.hasExited

/-- It has exited and was not waited for. -/
def Watched.isZombie (s : Watched) (i : ℕ) : Prop := s.server.exited i = true ∧ i ∉ s.reaped

instance (s : Watched) (i : ℕ) : Decidable (s.isZombie i) := inferInstanceAs (Decidable (_ ∧ _))

def exitedChildren (s : Server) : ℕ := s.children.countP Process.hasExited

/-- An output is a child that `waitpid` returns. -/
def watchedStep (listen_fd : ℤ) (s : Watched) : WatchedTurn → Option (Watched × List ℕ)
  | .run turn =>
      if s.handling && turn.ofParent then none
      else
        (step listen_fd s.server turn).map fun r =>
          ({ s with
            server := r.1
            pending := s.pending || decide (exitedChildren s.server < exitedChildren r.1) }, [])
  | .deliver =>
      if s.pending && !s.handling then some ({ s with pending := false, handling := true }, [])
      else none
  | .waitpid (some i) =>
      if s.handling ∧ s.isZombie i then some ({ s with reaped := s.reaped ++ [i] }, [i]) else none
  | .waitpid none =>
      if s.handling ∧ ∀ i < s.server.children.length, ¬ s.isZombie i then
        some ({ s with handling := false }, [])
      else none

def watchedServer (listen_fd : ℤ) : Machine Watched WatchedTurn ℕ where
  start :=
    { server := (forkServer listen_fd).start
      pending := false
      handling := false
      reaped := [] }
  step := watchedStep listen_fd

theorem exited_iff {s : Server} {i : ℕ} :
    s.exited i = true ↔ ∃ p : Process, s.children[i]? = some p ∧ p.hasExited = true := by
  cases here : s.children[i]? <;> simp [Server.exited, here]

theorem isZombie_lt {s : Watched} {i : ℕ} (h : s.isZombie i) : i < s.server.children.length := by
  obtain ⟨p, here, -⟩ := exited_iff.mp h.1
  exact (List.getElem?_eq_some_iff.mp here).1

/-- A child that has exited takes no turn. -/
theorem exited_idle {p q : Process} (hs : (∃ valread, recv p valread = some q) ∨ send p = some q) :
    p.hasExited = false := by
  rcases hs with ⟨valread, hs⟩ | hs
  · unfold recv at hs
    split at hs
    · rename_i phase
      rw [Process.hasExited, phase]
    · cases hs
  · unfold send at hs
    split at hs
    · rename_i phase
      rw [Process.hasExited, phase]
    · cases hs

theorem fork_exits {listen_fd : ℤ} {s t : Server} {created : Bool}
    (hs : fork listen_fd s created = some t) (i : ℕ) : t.exited i = s.exited i := by
  unfold fork at hs
  split at hs
  · split at hs <;> cases hs
    · rw [Server.exited, Server.exited]
      rcases Nat.lt_trichotomy i s.children.length with old | rfl | beyond
      · rw [List.getElem?_append_left old]
      · rw [List.getElem?_concat_length, List.getElem?_eq_none (Nat.le_refl _)]
        rfl
      · rw [List.getElem?_eq_none (by simp; omega), List.getElem?_eq_none (by omega)]
    · rfl
  · cases hs

/-- A turn of the server: who had exited has exited, at the same place, and nobody exits
without being counted. -/
theorem step_exits {listen_fd : ℤ} {s t : Server} {turn : Turn} {o : List Unit}
    (hs : step listen_fd s turn = some (t, o)) :
    (∀ i, s.exited i = true → t.exited i = true) ∧
      ((∀ i, t.exited i = true → s.exited i = true) ∨ exitedChildren s < exitedChildren t) := by
  rcases step_cases hs with ⟨fd, -, taken⟩ | ⟨created, -, made⟩ | ⟨i, p, q, here, went, rfl⟩
  · have same : ∀ i, t.exited i = s.exited i := fun i => by
      rw [Server.exited, accept_children taken, Server.exited]
    exact ⟨fun i h => by rwa [same], .inl fun i h => by rwa [← same]⟩
  · have same := fork_exits made
    exact ⟨fun i h => by rwa [same], .inl fun i h => by rwa [← same]⟩
  · have running := exited_idle went
    have count := countP_set_add Process.hasExited q here
    constructor
    · intro j exited
      obtain ⟨r, there, gone⟩ := exited_iff.mp exited
      have other : i ≠ j := by
        rintro rfl
        cases here.symm.trans there
        rw [running] at gone
        cases gone
      exact exited_iff.mpr ⟨r, by rw [List.getElem?_set_ne other, there], gone⟩
    · cases gone : q.hasExited with
      | true =>
          right
          rw [running, gone] at count
          simp only [exitedChildren]
          simp at count
          omega
      | false =>
          left
          intro j exited
          obtain ⟨r, there, left⟩ := exited_iff.mp exited
          rcases getElem?_set_cases there with ⟨-, rfl⟩ | ⟨-, old⟩
          · rw [gone] at left
            cases left
          · exact exited_iff.mpr ⟨r, old, left⟩

/-! ## No zombie is forgotten -/

structure Reaps (s : Watched) (os : List ℕ) : Prop where
  watched : ∀ i, s.isZombie i → s.pending = true ∨ s.handling = true
  reaped : s.reaped = os
  gone : ∀ i ∈ s.reaped, s.server.exited i = true
  once : s.reaped.Nodup

theorem Reaps.step {listen_fd : ℤ} {s t : Watched} {turn : WatchedTurn} {os o : List ℕ}
    (h : Reaps s os) (hs : watchedStep listen_fd s turn = some (t, o)) : Reaps t (os ++ o) := by
  cases turn with
  | run turn =>
      obtain ⟨-, hs⟩ := Option.ite_none_left_eq_some.mp hs
      obtain ⟨⟨server, u⟩, ran, eq⟩ := Option.map_eq_some_iff.mp hs
      cases eq
      obtain ⟨stays, fresh⟩ := step_exits ran
      refine ⟨fun i zombie => ?_, by simpa using h.reaped, fun i hi => stays i (h.gone i hi),
        h.once⟩
      rcases fresh with old | more
      · rcases h.watched i ⟨old i zombie.1, zombie.2⟩ with pending | handling
        · exact .inl (by simp [pending])
        · exact .inr handling
      · exact .inl (by simp [more])
  | deliver =>
      obtain ⟨-, eq⟩ := Option.ite_none_right_eq_some.mp hs
      cases eq
      exact ⟨fun _ _ => .inr rfl, by simpa using h.reaped, h.gone, h.once⟩
  | waitpid child =>
      cases child with
      | some i =>
          obtain ⟨⟨handling, zombie⟩, eq⟩ := Option.ite_none_right_eq_some.mp hs
          cases eq
          refine ⟨fun _ _ => .inr handling, by rw [h.reaped], fun j hj => ?_, ?_⟩
          · rcases List.mem_append.mp hj with old | new
            · exact h.gone j old
            · rw [List.mem_singleton.mp new]
              exact zombie.1
          · rw [List.nodup_append]
            refine ⟨h.once, List.nodup_singleton i, fun j hj k hk same => ?_⟩
            rw [List.mem_singleton.mp hk] at same
            exact zombie.2 (same ▸ hj)
      | none =>
          obtain ⟨⟨-, none⟩, eq⟩ := Option.ite_none_right_eq_some.mp hs
          cases eq
          exact ⟨fun i zombie => absurd zombie (none i (isZombie_lt zombie)),
            by simpa using h.reaped, h.gone, h.once⟩

/-- The children that `waitpid` can return. -/
def Watched.zombies (s : Watched) : List ℕ :=
  (List.range s.server.children.length).filter fun i => s.isZombie i

theorem mem_zombies {s : Watched} {i : ℕ} : i ∈ s.zombies ↔ s.isZombie i := by
  simp only [Watched.zombies, List.mem_filter, List.mem_range, decide_eq_true_eq]
  exact ⟨And.right, fun zombie => ⟨isZombie_lt zombie, zombie⟩⟩

/-- A turn of the parent's handler, or the signal that calls it. -/
def WatchedTurn.ofHandler : WatchedTurn → Bool
  | .run _ => false
  | .deliver | .waitpid _ => true

/-- The handler returns, and leaves no zombie. -/
theorem handler_returns (listen_fd : ℤ) (s : Watched) (handling : s.handling = true) :
    ∃ turns t os, (watchedServer listen_fd).runFrom s turns = some (t, os) ∧
      (∀ turn ∈ turns, turn.ofHandler = true) ∧ t.server = s.server ∧ t.pending = s.pending ∧
        t.handling = false ∧ ∀ i, ¬ t.isZombie i := by
  induction count : s.zombies.length using Nat.strongRecOn generalizing s with
  | ind n ih =>
      cases zombies : s.zombies with
      | nil =>
          have nobody : ∀ i, ¬ s.isZombie i := fun i zombie => by
            rw [← mem_zombies, zombies] at zombie
            cases zombie
          refine ⟨[.waitpid none], { s with handling := false }, [], ?_,
            by simp [WatchedTurn.ofHandler], rfl, rfl, rfl, nobody⟩
          simp only [Machine.runFrom_singleton, watchedServer, watchedStep]
          exact if_pos ⟨handling, fun i _ => nobody i⟩
      | cons i rest =>
          have first : s.isZombie i := mem_zombies.mp (by rw [zombies]; exact List.mem_cons_self)
          have reaps : (watchedServer listen_fd).step s (.waitpid (some i)) =
              some ({ s with reaped := s.reaped ++ [i] }, [i]) := if_pos ⟨handling, first⟩
          have fewer : Watched.zombies { s with reaped := s.reaped ++ [i] } =
              s.zombies.filter fun j => decide (j ≠ i) := by
            unfold Watched.zombies Watched.isZombie
            rw [List.filter_filter]
            congr 1
            funext j
            by_cases own : j = i <;> simp [own, and_comm]
          have less : (Watched.zombies { s with reaped := s.reaped ++ [i] }).length < n := by
            rw [fewer, ← count, List.length_filter_lt_length_iff_exists]
            exact ⟨i, mem_zombies.mpr first, by simp⟩
          obtain ⟨turns, t, os, ran, handler, rest⟩ :=
            ih _ less { s with reaped := s.reaped ++ [i] } handling rfl
          refine ⟨.waitpid (some i) :: turns, t, [i] ++ os, ?_, ?_, rest⟩
          · rw [Machine.runFrom, reaps, Option.bind_some, ran]
            rfl
          · intro turn ht
            rcases List.mem_cons.mp ht with rfl | later
            · rfl
            · exact handler turn later

theorem reaches_reaps {listen_fd : ℤ} {turns : List WatchedTurn} {s : Watched} {os : List ℕ}
    (run : (watchedServer listen_fd).Reaches turns s os) : Reaps s os := by
  refine run.induct (P := fun _ s os => Reaps s os) ?_ fun _ h hs => h.step hs
  exact ⟨fun i zombie => absurd zombie.1 (by simp [watchedServer, forkServer, Server.exited]), rfl,
    nofun, List.nodup_nil⟩

/-- For every sequence of results of the system calls and every interleaving of the parent,
the children and the signal: no child is waited for twice, nor before it has exited; when
no signal is pending and the handler does not run, every child that has exited was waited
for; and until then the signal and the handler suffice to get there. -/
theorem every_child_reaped_once (listen_fd : ℤ) {turns : List WatchedTurn} {s : Watched}
    {os : List ℕ} (run : (watchedServer listen_fd).Reaches turns s os) :
    os.Nodup ∧ (∀ i ∈ os, s.server.exited i = true) ∧
      (s.pending = false → s.handling = false → ∀ i, s.server.exited i = true → i ∈ os) ∧
      ∃ more t os', (watchedServer listen_fd).runFrom s more = some (t, os') ∧
        (∀ turn ∈ more, turn.ofHandler = true) ∧ t.server = s.server ∧
          ∀ i, s.server.exited i = true → i ∈ os ++ os' := by
  have h := reaches_reaps run
  have settled : s.pending = false → s.handling = false →
      ∀ i, s.server.exited i = true → i ∈ os := by
    intro quiet idle i exited
    by_contra waiting
    rcases h.watched i ⟨exited, h.reaped ▸ waiting⟩ with pending | handling
    · rw [quiet] at pending
      cases pending
    · rw [idle] at handling
      cases handling
  refine ⟨h.reaped ▸ h.once, h.reaped ▸ h.gone, settled, ?_⟩
  -- the handler from where it stands, or from the signal on
  have handled : ∀ (u : Watched) (before os₁), u.handling = true → u.server = s.server →
      (watchedServer listen_fd).runFrom s before = some (u, os₁) →
      (∀ turn ∈ before, turn.ofHandler = true) → ∃ more t os',
        (watchedServer listen_fd).runFrom s more = some (t, os') ∧
          (∀ turn ∈ more, turn.ofHandler = true) ∧ t.server = s.server ∧
            ∀ i, s.server.exited i = true → i ∈ os ++ os' := by
    intro u before os₁ handling same ran ofHandler
    obtain ⟨turns', t, os₂, later, handler, server, -, -, none⟩ :=
      handler_returns listen_fd u handling
    have whole : (watchedServer listen_fd).runFrom s (before ++ turns') = some (t, os₁ ++ os₂) := by
      rw [Machine.runFrom_append, ran, Option.bind_some, later]
      rfl
    have reaps := reaches_reaps (Machine.reaches_append.mpr ⟨s, os, os₁ ++ os₂, run, whole, rfl⟩)
    refine ⟨_, t, os₁ ++ os₂, whole, ?_, server.trans same, fun i exited => ?_⟩
    · intro turn ht
      rcases List.mem_append.mp ht with first | second
      · exact ofHandler turn first
      · exact handler turn second
    · by_contra waiting
      exact none i ⟨by rwa [server, same], reaps.reaped ▸ waiting⟩
  cases handling : s.handling with
  | true => exact handled s [] [] handling rfl rfl nofun
  | false =>
      cases pending : s.pending with
      | true =>
          refine handled { s with pending := false, handling := true } [.deliver] [] rfl rfl ?_
            (by simp [WatchedTurn.ofHandler])
          simp only [Machine.runFrom_singleton, watchedServer, watchedStep, pending, handling]
          rfl
      | false =>
          exact ⟨[], s, [], rfl, nofun, rfl, by simpa using settled pending handling⟩

/-- Two children exit before the signal is delivered once. -/
theorem every_child_reaped_once_merged :
    ∃ turns s, (watchedServer 3).Reaches turns s [1, 0] ∧
      ∀ i, s.server.exited i = true → i ∈ [1, 0] := by
  have run : (watchedServer 3).Reaches
      ([.accept 4, .fork true, .accept 4, .fork true, .recv 0 0, .recv 1 0].map .run ++
        [.deliver, .waitpid (some 1), .waitpid (some 0), .waitpid none]) _ [1, 0] := rfl
  exact ⟨_, _, run, (every_child_reaped_once 3 run).2.2.1 rfl rfl⟩

end StudyCode.ForkServer

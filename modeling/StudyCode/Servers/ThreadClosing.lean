import StudyCode.Servers.ThreadOwnership

/-!
# Runs of the server with one thread for each client

What the owners keep from turn to turn, read off the trace of a run: the calls
reach the client they are meant for, and each accepted connection is closed
once, when nobody is at work on it any more.
-/
namespace StudyCode.ThreadServer
open StudyCode.Scheduled

/-- A system call on a number that still refers to the connection it is made for. -/
def Event.Proper : Event → Prop
  | .accept _ _ => True
  | .recv conn _ file | .send conn _ file | .close _ conn _ file => file = some conn
  | .dangling _ => False

/-- The connection and the number of a call that uses an accepted descriptor. -/
def Event.on? : Event → Option (ℕ × ℤ)
  | .recv conn fd _ | .send conn fd _ | .close _ conn fd _ => some (conn, fd)
  | .accept _ _ | .dangling _ => none

def Event.closes (k : ℕ) : Event → Bool
  | .close _ conn _ _ => conn = k
  | _ => false

variable {s t : Server} {turns : List Turn} {os : List Event}

theorem Effect.proper {o : List Event} (effect : Effect s t o) : ∀ e ∈ o, e.Proper := by
  cases effect <;> simp [Event.Proper]

theorem reaches_proper (run : threadServer.Reaches turns s os) : ∀ e ∈ os, e.Proper :=
  run.forall_mem fun before hs => ((reaches_sound before).step hs).2.2.proper

/-- The numbers in use, and those that were used, came from `accept`. -/
structure Accepted (s : Server) (os : List Event) : Prop where
  numbered : ∀ {k : ℕ} {fd : ℤ}, .accept k fd ∈ os → k < s.accepts
  once : ∀ {k : ℕ} {fd fd' : ℤ}, .accept k fd ∈ os → .accept k fd' ∈ os → fd = fd'
  files : ∀ {fd : ℤ} {k : ℕ}, s.fds fd = some k → .accept k fd ∈ os
  used : ∀ {e : Event}, e ∈ os → ∀ {k : ℕ} {fd : ℤ}, e.on? = some (k, fd) → .accept k fd ∈ os

/-- A call on an open descriptor, which keeps or closes it. -/
theorem Accepted.call {e : Event} {conn : ℕ} {fd : ℤ} (h : Accepted s os)
    (file : s.fds fd = some conn) (on : e.on? = some (conn, fd))
    (fds : ∀ {n : ℤ} {k : ℕ}, t.fds n = some k → s.fds n = some k)
    (accepts : t.accepts = s.accepts) : Accepted t (os ++ [e]) := by
  have old : ∀ {k : ℕ} {n : ℤ}, .accept k n ∈ os ++ [e] → .accept k n ∈ os := by
    intro k n he
    rcases List.mem_append.mp he with past | now
    · exact past
    · rw [← List.mem_singleton.mp now] at on
      cases on
  refine ⟨?_, ?_, ?_, ?_⟩
  · intro k n he
    rw [accepts]
    exact h.numbered (old he)
  · exact fun he he' => h.once (old he) (old he')
  · exact fun held => List.mem_append_left _ (h.files (fds held))
  · intro e' he' k n on'
    refine List.mem_append_left _ ?_
    rcases List.mem_append.mp he' with past | now
    · exact h.used past on'
    · rw [List.mem_singleton.mp now, on] at on'
      cases on'
      exact h.files file

theorem Effect.accepted {o : List Event} (effect : Effect s t o) (h : Accepted s os) :
    Accepted t (os ++ o) := by
  cases effect with
  | quiet fds accepts pending =>
      rw [List.append_nil]
      exact ⟨accepts ▸ h.numbered, h.once, fds ▸ h.files, h.used⟩
  | recv conn fd file fds accepts pending =>
      exact h.call file rfl (by rw [fds]; exact id) accepts
  | send conn fd file fds accepts pending =>
      exact h.call file rfl (by rw [fds]; exact id) accepts
  | close thread conn fd file fds accepts pending =>
      refine h.call file rfl ?_ accepts
      intro n k held
      rw [fds, Function.update_apply] at held
      split at held
      · cases held
      · exact held
  | accept fd fds accepts pending =>
      have split : ∀ {k : ℕ} {n : ℤ}, .accept k n ∈ os ++ [.accept s.accepts fd] →
          .accept k n ∈ os ∨ k = s.accepts ∧ n = fd := by
        intro k n he
        rcases List.mem_append.mp he with past | now
        · exact .inl past
        · cases List.mem_singleton.mp now
          exact .inr ⟨rfl, rfl⟩
      refine ⟨?_, ?_, ?_, ?_⟩
      · intro k n he
        rw [accepts]
        rcases split he with past | ⟨rfl, -⟩
        · exact Nat.lt_succ_of_lt (h.numbered past)
        · exact Nat.lt_succ_self _
      · intro k n n' he he'
        rcases split he with past | ⟨rfl, rfl⟩ <;> rcases split he' with past' | ⟨new, rfl⟩
        · exact h.once past past'
        · exact absurd (h.numbered past) (Nat.not_lt.mpr (Nat.le_of_eq new.symm))
        · exact absurd (h.numbered past') (Nat.lt_irrefl _)
        · rfl
      · intro n k held
        rw [fds, Function.update_apply] at held
        split at held
        · rename_i here
          cases held
          rw [here]
          exact List.mem_append_right _ (List.mem_singleton_self _)
        · exact List.mem_append_left _ (h.files held)
      · intro e he k n on
        refine List.mem_append_left _ ?_
        rcases List.mem_append.mp he with past | now
        · exact h.used past on
        · rw [List.mem_singleton.mp now] at on
          cases on

theorem reaches_accepted (run : threadServer.Reaches turns s os) : Accepted s os := by
  refine run.induct (P := fun _ s os => Accepted s os)
    ⟨fun he => (List.not_mem_nil he).elim, fun he => (List.not_mem_nil he).elim,
      fun held => (Option.some_ne_none _ held.symm).elim, fun he => (List.not_mem_nil he).elim⟩ ?_
  exact fun before h hs => ((reaches_sound before).step hs).2.2.accepted h

/-! ## Closing -/

/-- The calls of `close` for `k`: none while someone is at work on it, and one after that. -/
structure Closes (k : ℕ) (s : Server) (os : List Event) : Prop where
  early : s.accepts ≤ k → os.countP (Event.closes k) = 0
  working : s.Pending k → os.countP (Event.closes k) = 0
  done : k < s.accepts → ¬ s.Pending k → os.countP (Event.closes k) = 1

theorem Sound.pending_lt (sound : Sound s) {k : ℕ} (pending : s.Pending k) : k < s.accepts := by
  rcases pending with at_ | ⟨i, h, here, rfl, -⟩
  · exact sound.accepted at_
  · exact sound.old here

/-- A turn that closes nothing and changes nobody's work. -/
theorem Closes.quiet {k : ℕ} {o : List Event} (h : Closes k s os)
    (none : o.countP (Event.closes k) = 0) (accepts : t.accepts = s.accepts)
    (pending : t.Pending k ↔ s.Pending k) : Closes k t (os ++ o) := by
  refine ⟨?_, ?_, ?_⟩ <;> rw [List.countP_append, none, Nat.add_zero]
  · rw [accepts]
    exact h.early
  · rw [pending]
    exact h.working
  · rw [accepts, pending]
    exact h.done

theorem Effect.closes {k : ℕ} {o : List Event} (effect : Effect s t o) (sound : Sound s)
    (h : Closes k s os) : Closes k t (os ++ o) := by
  cases effect with
  | quiet fds accepts pending => exact h.quiet rfl accepts (pending k)
  | recv conn fd file fds accepts pending => exact h.quiet rfl accepts (pending k)
  | send conn fd file fds accepts pending => exact h.quiet rfl accepts (pending k)
  | accept fd fds accepts pending =>
      have silent : [Event.accept s.accepts fd].countP (Event.closes k) = 0 := rfl
      refine ⟨?_, ?_, ?_⟩ <;> rw [List.countP_append, silent, Nat.add_zero]
      · exact fun late => h.early (by omega)
      · rw [pending]
        rintro (old | rfl)
        · exact h.working old
        · exact h.early (Nat.le_refl _)
      · rw [pending, not_or]
        rintro lt ⟨idle, other⟩
        exact h.done (by omega) idle
  | close thread conn fd file fds accepts was pending =>
      by_cases own : k = conn
      · subst own
        have gone : ¬ t.Pending k := fun now => ((pending k).mp now).2 rfl
        refine ⟨?_, fun now => absurd now gone, fun _ _ => ?_⟩
        · intro early
          exact absurd (sound.pending_lt was) (by omega)
        · rw [List.countP_append, h.working was]
          simp [Event.closes]
      · refine h.quiet ?_ accepts ?_
        · simp [Event.closes, Ne.symm own]
        · rw [pending]
          exact and_iff_left own

theorem reaches_closes (run : threadServer.Reaches turns s os) (k : ℕ) : Closes k s os := by
  refine run.induct (P := fun _ s os => Closes k s os)
    ⟨fun _ => rfl, fun _ => rfl, fun lt => absurd lt (Nat.not_lt_zero k)⟩ ?_
  exact fun before h hs => ((reaches_sound before).step hs).2.2.closes (reaches_sound before) h

/-- A thread that closed is the one of that connection and has left; where `run`
closed, there is no thread for the connection. -/
def ClosedBy (s : Server) (thread : Option ℕ) (conn : ℕ) : Prop :=
  match thread with
  | some i => s.handlers[i]? = some ⟨conn, .exited⟩
  | none => ∀ (i : ℕ) (h : Handler), s.handlers[i]? = some h → h.conn ≠ conn

theorem Evolves.closedBy (evolves : Evolves s t) {thread : Option ℕ} {conn : ℕ}
    (idle : ¬ s.Pending conn) (h : ClosedBy s thread conn) : ClosedBy t thread conn := by
  cases thread with
  | some i =>
      obtain ⟨⟨conn', stage⟩, here, same, left⟩ := evolves.kept h
      cases same
      cases left rfl
      exact here
  | none =>
      rintro i h' here rfl
      rcases evolves.given here with ⟨g, hg, same⟩ | at_
      · exact h i g hg same
      · exact idle (.inl at_)

theorem Effect.closedBy {o : List Event} (effect : Effect s t o) (sound : Sound s)
    {thread : Option ℕ} {conn : ℕ} {fd : ℤ} {file : Option ℕ}
    (he : .close thread conn fd file ∈ o) : ClosedBy t thread conn := by
  cases effect with
  | close thread' conn' fd' held fds accepts was pending left main =>
      cases List.mem_singleton.mp he
      cases thread with
      | some i => exact left i rfl
      | none =>
          obtain ⟨at_, handlers⟩ := main rfl
          rintro i h here rfl
          rw [handlers] at here
          exact sound.given here at_
  | _ => simp at he

theorem reaches_closedBy (run : threadServer.Reaches turns s os) {thread : Option ℕ} {conn : ℕ}
    {fd : ℤ} {file : Option ℕ} (he : .close thread conn fd file ∈ os) :
    ClosedBy s thread conn := by
  revert he
  refine run.induct (P := fun _ s os => .close thread conn fd file ∈ os →
    ClosedBy s thread conn) (fun he => nomatch he) ?_
  intro turns s os turn t o before ih hs he
  have sound := reaches_sound before
  obtain ⟨-, evolves, effect⟩ := sound.step hs
  rcases List.mem_append.mp he with past | now
  · -- who is at work has not closed yet
    have idle : ¬ s.Pending conn := by
      intro pending
      have none := (reaches_closes before conn).working pending
      exact List.countP_eq_zero.mp none _ past (by simp [Event.closes])
    exact evolves.closedBy idle (ih past)
  · exact effect.closedBy sound now

/-- For every sequence of results of `accept`, `pthread_create` and `recv`, every
reuse of numbers and of cells, and any interleaving: every call reaches the
connection it is made for, on the number that was accepted for it; no two
threads have one connection; a connection is not closed while someone is at work
on it, and was closed once afterwards, by its thread, or by `run` where it has none. -/
theorem thread_server_closes_once (run : threadServer.Reaches turns s os) :
    (∀ e ∈ os, e.Proper) ∧
    (∀ e ∈ os, ∀ k fd, e.on? = some (k, fd) → ∀ fd', .accept k fd' ∈ os ↔ fd' = fd) ∧
    (∀ (i j : ℕ) (h h' : Handler), s.handlers[i]? = some h → s.handlers[j]? = some h' →
      h.conn = h'.conn → i = j) ∧
    (∀ k < s.accepts, (s.Pending k → os.countP (Event.closes k) = 0) ∧
      (¬ s.Pending k → os.countP (Event.closes k) = 1)) ∧
    ∀ thread conn fd file, .close thread conn fd file ∈ os → ClosedBy s thread conn := by
  have accepted := reaches_accepted run
  refine ⟨reaches_proper run, ?_, ?_, ?_, fun _ _ _ _ he => reaches_closedBy run he⟩
  · intro e he k fd on fd'
    have here := accepted.used he on
    constructor
    · exact fun he' => accepted.once he' here
    · rintro rfl
      exact here
  · exact fun i j h h' hi hj same => (reaches_sound run).apart hi hj same
  · intro k lt
    have closes := reaches_closes run k
    exact ⟨closes.working, closes.done lt⟩

/-- Number 5 serves a client, is closed by its thread, and goes to a client for
whom no thread can be created. -/
theorem thread_server_closes_once_reused :
    ∃ turns s os, threadServer.Reaches turns s os ∧
      os = [.accept 0 5, .recv 0 5 (some 0), .send 0 5 (some 0), .close (some 0) 0 5 (some 0),
        .accept 1 5, .close none 1 5 (some 1)] ∧
      ∀ k < s.accepts, (s.Pending k → os.countP (Event.closes k) = 0) ∧
        (¬ s.Pending k → os.countP (Event.closes k) = 1) := by
  have run : threadServer.Reaches
      [.accept 5, .makeUnique 0, .createThread true, .accept (-1), .load 0, .delete 0, .recv 0 0,
        .send 0, .close 0, .accept 5, .makeUnique 0, .createThread false, .closeFailed] _ _ := rfl
  exact ⟨_, _, _, run, rfl, (thread_server_closes_once run).2.2.2.1⟩

end StudyCode.ThreadServer

import StudyCode.Lib.Custody
import StudyCode.Lib.Roster
import StudyCode.Lib.Trace
import StudyCode.Servers.ThreadServer

/-!
# Each connection has one thread, and is closed once

Whoever is at work on a connection, `run` or a thread, owns its descriptor and
the cell the descriptor travels in. The turns of the others leave both alone,
and a number that is closed was the closer's own until then.
-/
namespace StudyCode.ThreadServer
open StudyCode.Scheduled StudyCode.Custody StudyCode.Monitor

/-- What a thread at a stage relies on for its connection. -/
def Server.Holds (s : Server) (conn : ℕ) : Stage → Prop
  | .created p => ∃ fd, s.heap p = some ⟨fd, conn⟩ ∧ s.fds fd = some conn
  | .loaded p fd => s.heap p = some ⟨fd, conn⟩ ∧ s.fds fd = some conn
  | .receiving fd | .sending fd | .closing fd => s.fds fd = some conn
  | .exited => True

/-- What `run` relies on for the connection it is at. -/
def Server.MainHolds (s : Server) : Prop :=
  match s.main with
  | .accepting => True
  | .accepted conn fd | .failed conn fd => s.fds fd = some conn
  | .stored conn fd p => s.heap p = some ⟨fd, conn⟩ ∧ s.fds fd = some conn

def Main.conn? : Main → Option ℕ
  | .accepting => none
  | .accepted conn _ | .stored conn _ _ | .failed conn _ => some conn

structure Sound (s : Server) : Prop where
  main : s.MainHolds
  handlers : ∀ {i : ℕ} {h : Handler}, s.handlers[i]? = some h → s.Holds h.conn h.stage
  apart : ∀ {i j : ℕ} {h h' : Handler}, s.handlers[i]? = some h → s.handlers[j]? = some h' →
    h.conn = h'.conn → i = j
  given : ∀ {i : ℕ} {h : Handler}, s.handlers[i]? = some h → s.main.conn? ≠ some h.conn
  accepted : ∀ {k : ℕ}, s.main.conn? = some k → k < s.accepts
  old : ∀ {i : ℕ} {h : Handler}, s.handlers[i]? = some h → h.conn < s.accepts

/-- The turn leaves the connection `k` its descriptor and its cell. -/
structure Leaves (k : ℕ) (s t : Server) : Prop where
  fds : Spares id k s.fds t.fds
  heap : Spares Cell.conn k s.heap t.heap

variable {s t : Server}

theorem Leaves.of_eq {k : ℕ} (fds : t.fds = s.fds) (heap : t.heap = s.heap) : Leaves k s t := by
  refine ⟨?_, ?_⟩
  · rw [fds]
    exact Spares.refl _
  · rw [heap]
    exact Spares.refl _

theorem Server.Holds.leaves {conn : ℕ} {stage : Stage} (h : s.Holds conn stage)
    (leaves : Leaves conn s t) : t.Holds conn stage := by
  cases stage with
  | created p =>
      obtain ⟨fd, cell, file⟩ := h
      exact ⟨fd, leaves.heap p _ cell rfl, leaves.fds fd _ file rfl⟩
  | loaded p fd => exact ⟨leaves.heap p _ h.1 rfl, leaves.fds fd _ h.2 rfl⟩
  | receiving fd => exact leaves.fds fd _ h rfl
  | sending fd => exact leaves.fds fd _ h rfl
  | closing fd => exact leaves.fds fd _ h rfl
  | exited => trivial

theorem Server.MainHolds.leaves (h : s.MainHolds) (main : t.main = s.main)
    (leaves : ∀ k, s.main.conn? = some k → Leaves k s t) : t.MainHolds := by
  unfold Server.MainHolds at h ⊢
  rw [main]
  cases at_ : s.main with
  | accepting => trivial
  | accepted conn fd =>
      rw [at_] at h leaves
      exact (leaves conn rfl).fds fd _ h rfl
  | stored conn fd p =>
      rw [at_] at h leaves
      exact ⟨(leaves conn rfl).heap p _ h.1 rfl, (leaves conn rfl).fds fd _ h.2 rfl⟩
  | failed conn fd =>
      rw [at_] at h leaves
      exact (leaves conn rfl).fds fd _ h rfl

/-- A turn of thread `i` touches nothing but what belongs to its connection. -/
theorem Sound.thread {i : ℕ} {h : Handler} {stage : Stage} (sound : Sound s)
    (here : s.handlers[i]? = some h) (main : t.main = s.main) (accepts : t.accepts = s.accepts)
    (handlers : t.handlers = s.handlers.set i { h with stage := stage })
    (leaves : ∀ k, k ≠ h.conn → Leaves k s t) (holds : t.Holds h.conn stage) : Sound t := by
  have same : ∀ {j : ℕ} {h' : Handler}, t.handlers[j]? = some h' →
      i = j ∧ h' = { h with stage := stage } ∨ i ≠ j ∧ s.handlers[j]? = some h' := by
    intro j h' hj
    rw [handlers] at hj
    exact getElem?_set_cases hj
  have conns : ∀ {j : ℕ} {h' : Handler}, t.handlers[j]? = some h' →
      ∃ h'', s.handlers[j]? = some h'' ∧ h''.conn = h'.conn := by
    intro j h' hj
    rcases same hj with ⟨rfl, rfl⟩ | ⟨-, old⟩
    · exact ⟨h, here, rfl⟩
    · exact ⟨h', old, rfl⟩
  refine ⟨?_, ?_, ?_, ?_, ?_, ?_⟩
  · refine sound.main.leaves main fun k hk => leaves k ?_
    rintro rfl
    exact sound.given here hk
  · intro j h' hj
    rcases same hj with ⟨rfl, rfl⟩ | ⟨other, old⟩
    · exact holds
    · exact (sound.handlers old).leaves (leaves _ fun eq => other (sound.apart here old eq.symm))
  · intro j j' h' h'' hj hj' eq
    obtain ⟨g, hg, eg⟩ := conns hj
    obtain ⟨g', hg', eg'⟩ := conns hj'
    exact sound.apart hg hg' (by rw [eg, eg', eq])
  · intro j h' hj
    obtain ⟨g, hg, eg⟩ := conns hj
    rw [main, ← eg]
    exact sound.given hg
  · rw [main, accepts]
    exact sound.accepted
  · intro j h' hj
    obtain ⟨g, hg, eg⟩ := conns hj
    rw [accepts, ← eg]
    exact sound.old hg

/-- A turn of `run` that creates no thread. -/
theorem Sound.run (sound : Sound s) (handlers : t.handlers = s.handlers)
    (accepts : s.accepts ≤ t.accepts)
    (leaves : ∀ {i : ℕ} {h : Handler}, s.handlers[i]? = some h → Leaves h.conn s t)
    (main : t.MainHolds)
    (conn : ∀ {k : ℕ}, t.main.conn? = some k →
      s.main.conn? = some k ∨ s.accepts ≤ k ∧ k < t.accepts) : Sound t := by
  refine ⟨main, ?_, ?_, ?_, ?_, ?_⟩
  · rw [handlers]
    exact fun here => (sound.handlers here).leaves (leaves here)
  · rw [handlers]
    exact sound.apart
  · rw [handlers]
    intro i h here at_
    rcases conn at_ with same | ⟨new, -⟩
    · exact sound.given here same
    · exact absurd (sound.old here) (Nat.not_lt.mpr new)
  · intro k at_
    rcases conn at_ with same | ⟨-, new⟩
    · exact Nat.lt_of_lt_of_le (sound.accepted same) accepts
    · exact new
  · rw [handlers]
    exact fun here => Nat.lt_of_lt_of_le (sound.old here) accepts

/-- `run` hands the connection it is at over to a new thread. -/
theorem Sound.create {conn : ℕ} {fd : ℤ} {p : ℕ} (sound : Sound s)
    (at_ : s.main = .stored conn fd p) :
    Sound { s with main := .accepting, handlers := s.handlers ++ [⟨conn, .created p⟩] } := by
  have held := sound.main
  rw [Server.MainHolds, at_] at held
  have given : ∀ {i : ℕ} {h : Handler}, s.handlers[i]? = some h → h.conn ≠ conn := by
    rintro i h here rfl
    exact sound.given here (by rw [at_]; rfl)
  refine ⟨trivial, ?_, ?_, ?_, ?_, ?_⟩
  · intro i h here
    rcases getElem?_concat_cases here with old | ⟨-, rfl⟩
    · exact (sound.handlers old).leaves (.of_eq rfl rfl)
    · exact ⟨fd, held⟩
  · intro i j h h' hi hj eq
    rcases getElem?_concat_cases hi with old | ⟨rfl, rfl⟩ <;>
      rcases getElem?_concat_cases hj with old' | ⟨rfl, rfl⟩
    · exact sound.apart old old' eq
    · exact absurd eq (given old)
    · exact absurd eq.symm (given old')
    · rfl
  · exact fun _ none => nomatch none
  · exact fun none => nomatch none
  · intro i h here
    rcases getElem?_concat_cases here with old | ⟨-, rfl⟩
    · exact sound.old old
    · exact sound.accepted (by rw [at_]; rfl)

/-! ## Turns -/

/-- `run` or a thread is still at work on the connection. -/
def Server.Pending (s : Server) (k : ℕ) : Prop :=
  s.main.conn? = some k ∨
    ∃ (i : ℕ) (h : Handler), s.handlers[i]? = some h ∧ h.conn = k ∧ h.stage ≠ .exited

/-- Threads keep their connections, and a new one gets that of `run`. -/
structure Evolves (s t : Server) : Prop where
  accepts : s.accepts ≤ t.accepts
  kept : ∀ {i : ℕ} {h : Handler}, s.handlers[i]? = some h →
    ∃ h', t.handlers[i]? = some h' ∧ h'.conn = h.conn ∧ (h.stage = .exited → h'.stage = .exited)
  given : ∀ {i : ℕ} {h' : Handler}, t.handlers[i]? = some h' →
    (∃ h, s.handlers[i]? = some h ∧ h.conn = h'.conn) ∨ s.main.conn? = some h'.conn

/-- What a turn does to the descriptors, and who is at work after it. -/
inductive Effect (s t : Server) : List Event → Prop
  | quiet : t.fds = s.fds → t.accepts = s.accepts → (∀ k, t.Pending k ↔ s.Pending k) →
      Effect s t []
  | recv (conn : ℕ) (fd : ℤ) : s.fds fd = some conn → t.fds = s.fds → t.accepts = s.accepts →
      (∀ k, t.Pending k ↔ s.Pending k) → Effect s t [.recv conn fd (some conn)]
  | send (conn : ℕ) (fd : ℤ) : s.fds fd = some conn → t.fds = s.fds → t.accepts = s.accepts →
      (∀ k, t.Pending k ↔ s.Pending k) → Effect s t [.send conn fd (some conn)]
  | accept (fd : ℤ) : t.fds = Function.update s.fds fd (some s.accepts) →
      t.accepts = s.accepts + 1 → (∀ k, t.Pending k ↔ s.Pending k ∨ k = s.accepts) →
      Effect s t [.accept s.accepts fd]
  | close (thread : Option ℕ) (conn : ℕ) (fd : ℤ) : s.fds fd = some conn →
      t.fds = Function.update s.fds fd none → t.accepts = s.accepts → s.Pending conn →
      (∀ k, t.Pending k ↔ s.Pending k ∧ k ≠ conn) →
      (∀ i, thread = some i → t.handlers[i]? = some ⟨conn, .exited⟩) →
      (thread = none → s.main.conn? = some conn ∧ t.handlers = s.handlers) →
      Effect s t [.close thread conn fd (some conn)]

theorem Evolves.of_set {i : ℕ} {h : Handler} {stage : Stage} (here : s.handlers[i]? = some h)
    (atWork : h.stage ≠ .exited) (accepts : t.accepts = s.accepts)
    (handlers : t.handlers = s.handlers.set i { h with stage := stage }) : Evolves s t := by
  refine ⟨Nat.le_of_eq accepts.symm, ?_, ?_⟩
  · intro j g hg
    rw [handlers]
    by_cases own : i = j
    · subst own
      rw [here] at hg
      cases hg
      exact ⟨_, getElem?_set_here here _, rfl, fun done => absurd done atWork⟩
    · exact ⟨g, by rw [List.getElem?_set_ne own, hg], rfl, id⟩
  · intro j g hg
    rw [handlers] at hg
    rcases getElem?_set_cases hg with ⟨rfl, rfl⟩ | ⟨-, old⟩
    · exact .inl ⟨h, here, rfl⟩
    · exact .inl ⟨g, old, rfl⟩

theorem Evolves.of_eq (accepts : s.accepts ≤ t.accepts) (handlers : t.handlers = s.handlers) :
    Evolves s t := by
  refine ⟨accepts, ?_, ?_⟩ <;> rw [handlers]
  · exact fun {i h} here => ⟨h, here, rfl, id⟩
  · exact fun {i h} here => .inl ⟨h, here, rfl⟩

/-- Who is at work after a turn of thread `i`, which was. -/
theorem Sound.pending {i : ℕ} {h : Handler} {stage : Stage} (sound : Sound s)
    (here : s.handlers[i]? = some h) (atWork : h.stage ≠ .exited) (main : t.main = s.main)
    (handlers : t.handlers = s.handlers.set i { h with stage := stage }) (k : ℕ) :
    t.Pending k ↔ s.Pending k ∧ (stage = .exited → k ≠ h.conn) := by
  unfold Server.Pending
  rw [main, handlers]
  constructor
  · rintro (at_ | ⟨j, g, hg, rfl, busy⟩)
    · refine ⟨.inl at_, ?_⟩
      rintro - rfl
      exact sound.given here at_
    · rcases getElem?_set_cases hg with ⟨rfl, rfl⟩ | ⟨own, old⟩
      · exact ⟨.inr ⟨i, h, here, rfl, atWork⟩, fun done => absurd done busy⟩
      · exact ⟨.inr ⟨j, g, old, rfl, busy⟩, fun _ eq => own (sound.apart here old eq.symm)⟩
  · rintro ⟨at_ | ⟨j, g, hg, rfl, busy⟩, other⟩
    · exact .inl at_
    · by_cases own : i = j
      · subst own
        rw [here] at hg
        cases hg
        exact .inr ⟨i, _, getElem?_set_here here _, rfl, fun done => other done rfl⟩
      · exact .inr ⟨j, g, by rw [List.getElem?_set_ne own, hg], rfl, busy⟩

theorem Sound.pending_on {i : ℕ} {h : Handler} {stage : Stage} (sound : Sound s)
    (here : s.handlers[i]? = some h) (atWork : h.stage ≠ .exited) (on : stage ≠ .exited)
    (main : t.main = s.main) (handlers : t.handlers = s.handlers.set i { h with stage := stage })
    (k : ℕ) : t.Pending k ↔ s.Pending k :=
  (sound.pending here atWork main handlers k).trans (and_iff_left fun done => absurd done on)

theorem Sound.pending_off {i : ℕ} {h : Handler} (sound : Sound s)
    (here : s.handlers[i]? = some h) (atWork : h.stage ≠ .exited) (main : t.main = s.main)
    (handlers : t.handlers = s.handlers.set i { h with stage := .exited }) (k : ℕ) :
    t.Pending k ↔ s.Pending k ∧ k ≠ h.conn :=
  (sound.pending here atWork main handlers k).trans (and_congr_right' (imp_iff_right rfl))

/-- A turn of thread `i` that leaves descriptors and cells alone. -/
theorem Sound.goOn {i : ℕ} {h : Handler} (sound : Sound s)
    (here : s.handlers[i]? = some h) (atWork : h.stage ≠ .exited) (stage : Stage)
    (holds : s.Holds h.conn stage) :
    Sound (s.goOn i h stage) ∧ Evolves s (s.goOn i h stage) :=
  ⟨sound.thread here rfl rfl rfl (fun _ _ => .of_eq rfl rfl) (holds.leaves (.of_eq rfl rfl)),
    .of_set here atWork rfl rfl⟩

theorem Sound.load {i : ℕ} {h : Handler} {o : List Event} (sound : Sound s)
    (here : s.handlers[i]? = some h) (hs : load s i h = some (t, o)) :
    Sound t ∧ Evolves s t ∧ Effect s t o := by
  obtain ⟨conn, stage⟩ := h
  have holds := sound.handlers here
  cases stage with
  | created p =>
      obtain ⟨fd, cell, file⟩ := holds
      simp only [ThreadServer.load, cell] at hs
      cases hs
      obtain ⟨sound', evolves⟩ := sound.goOn here (by simp) (.loaded p fd) ⟨cell, file⟩
      exact ⟨sound', evolves,
        .quiet rfl rfl (sound.pending_on here (by simp) (by simp) rfl rfl)⟩
  | _ => cases hs

theorem Sound.delete {i : ℕ} {h : Handler} {o : List Event} (sound : Sound s)
    (here : s.handlers[i]? = some h) (hs : delete s i h = some (t, o)) :
    Sound t ∧ Evolves s t ∧ Effect s t o := by
  obtain ⟨conn, stage⟩ := h
  have holds := sound.handlers here
  cases stage with
  | loaded p fd =>
      obtain ⟨cell, file⟩ := holds
      simp only [ThreadServer.delete, cell] at hs
      cases hs
      have leaves : ∀ k, k ≠ conn → Leaves k s
          { s.goOn i ⟨conn, .loaded p fd⟩ (.receiving fd) with
            heap := Function.update s.heap p none } := by
        intro k other
        refine ⟨Spares.refl _, spares_update (fun c hc => ?_) none⟩
        rw [cell] at hc
        cases hc
        exact other.symm
      exact ⟨sound.thread here rfl rfl rfl leaves file, .of_set here (by simp) rfl rfl,
        .quiet rfl rfl (sound.pending_on here (by simp) (by simp) rfl rfl)⟩
  | _ => cases hs

theorem Sound.recv {i : ℕ} {h : Handler} {valread : ℤ} {o : List Event} (sound : Sound s)
    (here : s.handlers[i]? = some h) (hs : recv s i h valread = some (t, o)) :
    Sound t ∧ Evolves s t ∧ Effect s t o := by
  obtain ⟨conn, stage⟩ := h
  have holds := sound.handlers here
  cases stage with
  | receiving fd =>
      have file : s.fds fd = some conn := holds
      cases hs
      rw [file]
      obtain ⟨sound', evolves⟩ := sound.goOn here (by simp)
        (if valread < 0 then .closing fd else .sending fd) (by split <;> exact file)
      exact ⟨sound', evolves, .recv conn fd file rfl rfl
        (sound.pending_on here (by simp) (by split <;> simp) rfl rfl)⟩
  | _ => cases hs

theorem Sound.send {i : ℕ} {h : Handler} {o : List Event} (sound : Sound s)
    (here : s.handlers[i]? = some h) (hs : send s i h = some (t, o)) :
    Sound t ∧ Evolves s t ∧ Effect s t o := by
  obtain ⟨conn, stage⟩ := h
  have holds := sound.handlers here
  cases stage with
  | sending fd =>
      have file : s.fds fd = some conn := holds
      cases hs
      rw [file]
      obtain ⟨sound', evolves⟩ := sound.goOn here (by simp) (.closing fd) file
      exact ⟨sound', evolves, .send conn fd file rfl rfl
        (sound.pending_on here (by simp) (by simp) rfl rfl)⟩
  | _ => cases hs

/-- Giving a number back takes it from nobody else. -/
theorem leaves_close {conn k : ℕ} {fd : ℤ} (file : s.fds fd = some conn) (other : k ≠ conn)
    (fds : t.fds = Function.update s.fds fd none) (heap : t.heap = s.heap) : Leaves k s t := by
  refine ⟨?_, ?_⟩
  · rw [fds]
    refine spares_update (fun j hj => ?_) none
    rw [file] at hj
    cases hj
    exact other.symm
  · rw [heap]
    exact Spares.refl _

theorem Sound.close {i : ℕ} {h : Handler} {o : List Event} (sound : Sound s)
    (here : s.handlers[i]? = some h) (hs : close s i h = some (t, o)) :
    Sound t ∧ Evolves s t ∧ Effect s t o := by
  obtain ⟨conn, stage⟩ := h
  have holds := sound.handlers here
  cases stage with
  | closing fd =>
      have file : s.fds fd = some conn := holds
      cases hs
      rw [file]
      refine ⟨sound.thread here rfl rfl rfl
          (fun k other => leaves_close file other rfl rfl) trivial,
        .of_set here (by simp) rfl rfl, ?_⟩
      refine .close (some i) conn fd file rfl rfl (.inr ⟨i, _, here, rfl, by simp⟩)
        (sound.pending_off here (by simp) rfl rfl) ?_ nofun
      intro j same
      cases same
      exact getElem?_set_here here _
  | _ => cases hs

theorem Sound.accept {fd : ℤ} {o : List Event} (sound : Sound s)
    (hs : step s (.accept fd) = some (t, o)) : Sound t ∧ Evolves s t ∧ Effect s t o := by
  simp only [step] at hs
  split at hs
  · rename_i at_
    split at hs
    · cases hs
      exact ⟨sound, .of_eq (Nat.le_refl _) rfl, .quiet rfl rfl fun k => Iff.rfl⟩
    · split at hs
      · rename_i free
        cases hs
        refine ⟨sound.run rfl (Nat.le_succ _) ?_ ?_ ?_, .of_eq (Nat.le_succ _) rfl,
          .accept fd rfl rfl fun k => ?_⟩
        · exact fun _ => ⟨spares_alloc free _, Spares.refl _⟩
        · simp [Server.MainHolds]
        · intro k hk
          cases hk
          exact .inr ⟨Nat.le_refl _, Nat.lt_succ_self _⟩
        · simp only [Server.Pending, at_, Main.conn?, Option.some.injEq, reduceCtorEq, false_or]
          rw [or_comm, eq_comm]
      · cases hs
  · cases hs

theorem Sound.makeUnique {p : ℕ} {o : List Event} (sound : Sound s)
    (hs : step s (.makeUnique p) = some (t, o)) : Sound t ∧ Evolves s t ∧ Effect s t o := by
  have held := sound.main
  simp only [step] at hs
  split at hs
  · rename_i conn fd at_
    obtain ⟨free, eq⟩ := Option.ite_none_right_eq_some.mp hs
    cases eq
    rw [Server.MainHolds, at_] at held
    have same : s.main.conn? = some conn := by rw [at_]; rfl
    refine ⟨sound.run rfl (Nat.le_refl _) ?_ ?_ ?_, .of_eq (Nat.le_refl _) rfl,
      .quiet rfl rfl fun k => ?_⟩
    · exact fun _ => ⟨Spares.refl _, spares_alloc free _⟩
    · exact ⟨Function.update_self .., held⟩
    · intro k hk
      exact .inl (same.trans hk)
    · rw [Server.Pending, Server.Pending, same]
      rfl
  · cases hs

theorem Sound.createThread {created : Bool} {o : List Event} (sound : Sound s)
    (hs : step s (.createThread created) = some (t, o)) :
    Sound t ∧ Evolves s t ∧ Effect s t o := by
  have held := sound.main
  simp only [step] at hs
  split at hs
  · rename_i conn fd p at_
    rw [Server.MainHolds, at_] at held
    have same : s.main.conn? = some conn := by rw [at_]; rfl
    cases created with
    | true =>
        cases hs
        have stays : ∀ {i : ℕ} {h : Handler}, s.handlers[i]? = some h →
            (s.handlers ++ [⟨conn, .created p⟩])[i]? = some h := fun here =>
          (List.getElem?_append_left (List.getElem?_eq_some_iff.mp here).1).trans here
        refine ⟨sound.create at_, ⟨Nat.le_refl _, fun here => ⟨_, stays here, rfl, id⟩, ?_⟩,
          .quiet rfl rfl fun k => ?_⟩
        · intro i h here
          rcases getElem?_concat_cases here with old | ⟨-, rfl⟩
          · exact .inl ⟨h, old, rfl⟩
          · exact .inr same
        · rw [Server.Pending, Server.Pending, same]
          constructor
          · rintro (none | ⟨i, h, here, rfl, busy⟩)
            · cases none
            · rcases getElem?_concat_cases here with old | ⟨-, rfl⟩
              · exact .inr ⟨i, h, old, rfl, busy⟩
              · exact .inl rfl
          · rintro (own | ⟨i, h, here, rfl, busy⟩)
            · cases own
              exact .inr ⟨_, _, List.getElem?_concat_length, rfl, by simp⟩
            · exact .inr ⟨i, h, stays here, rfl, busy⟩
    | false =>
        cases hs
        refine ⟨sound.run rfl (Nat.le_refl _) (fun _ => .of_eq rfl rfl) held.2 ?_,
          .of_eq (Nat.le_refl _) rfl, .quiet rfl rfl fun k => ?_⟩
        · intro k hk
          exact .inl (same.trans hk)
        · rw [Server.Pending, Server.Pending, same]
          rfl
  · cases hs

theorem Sound.closeFailed {o : List Event} (sound : Sound s)
    (hs : step s .closeFailed = some (t, o)) : Sound t ∧ Evolves s t ∧ Effect s t o := by
  have held := sound.main
  simp only [step] at hs
  split at hs
  · rename_i conn fd at_
    rw [Server.MainHolds, at_] at held
    have same : s.main.conn? = some conn := by rw [at_]; rfl
    cases hs
    rw [held]
    have others : ∀ {i : ℕ} {h : Handler}, s.handlers[i]? = some h → h.conn ≠ conn := by
      rintro i h here rfl
      exact sound.given here same
    refine ⟨sound.run rfl (Nat.le_refl _) ?_ trivial nofun, .of_eq (Nat.le_refl _) rfl, ?_⟩
    · exact fun here => leaves_close held (others here) rfl rfl
    · refine .close none conn fd held rfl rfl (.inl same) ?_ nofun fun _ => ⟨same, rfl⟩
      intro k
      rw [Server.Pending, Server.Pending, same]
      constructor
      · rintro (none | ⟨i, h, here, rfl, busy⟩)
        · cases none
        · exact ⟨.inr ⟨i, h, here, rfl, busy⟩, others here⟩
      · rintro ⟨own | busy, other⟩
        · exact absurd (Option.some.inj own).symm other
        · exact .inr busy
  · cases hs

theorem Sound.step {turn : Turn} {o : List Event} (sound : Sound s)
    (hs : step s turn = some (t, o)) : Sound t ∧ Evolves s t ∧ Effect s t o := by
  cases turn with
  | accept fd => exact sound.accept hs
  | makeUnique p => exact sound.makeUnique hs
  | createThread created => exact sound.createThread hs
  | closeFailed => exact sound.closeFailed hs
  | load i =>
      obtain ⟨h, here, hs⟩ := Option.bind_eq_some_iff.mp hs
      exact sound.load here hs
  | delete i =>
      obtain ⟨h, here, hs⟩ := Option.bind_eq_some_iff.mp hs
      exact sound.delete here hs
  | recv i valread =>
      obtain ⟨h, here, hs⟩ := Option.bind_eq_some_iff.mp hs
      exact sound.recv here hs
  | send i =>
      obtain ⟨h, here, hs⟩ := Option.bind_eq_some_iff.mp hs
      exact sound.send here hs
  | close i =>
      obtain ⟨h, here, hs⟩ := Option.bind_eq_some_iff.mp hs
      exact sound.close here hs

theorem sound_start : Sound threadServer.start :=
  ⟨trivial, nofun, nofun, nofun, nofun, nofun⟩

theorem reaches_sound {turns : List Turn} {s : Server} {os : List Event}
    (run : threadServer.Reaches turns s os) : Sound s :=
  run.invariant (P := Sound) sound_start fun sound hs => (sound.step hs).1

end StudyCode.ThreadServer

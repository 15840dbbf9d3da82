import StudyCode.Tcp.Ownership
import StudyCode.Tcp.Statements

/-!
# When the loop thread uses a destroyed `Connection`

`closeConnection` publishes the closed status before its last two uses of the
object. A sweep between the two destroys what the loop thread is still in, and
apart from that the loop thread uses live objects only.
-/
namespace StudyCode.Tcp
open StudyCode.ByteString StudyCode.Scheduled

/-- `closeConnection` has published the status and still has a use to come. -/
def Stmt.published : Stmt → Bool
  | .closefd => true
  | .logClosed => true
  | _ => false

/-- The status that the loop thread finds when it comes to a statement. -/
def Stmt.status (stmt : Stmt) : ConnStatus := if stmt.published then .closed else .connected

/-- The connection whose descriptor is still open although it is closed. -/
def Stmt.closing (p : ℕ) : Stmt → Option ℕ
  | .closefd => some p
  | _ => none

/-- Every run of the methods is a run of the statements with the same system calls. -/
theorem epollServer_refines {turns : List Turn} {s : EpollState} {os : List Event}
    (run : epollServer.Reaches turns s os) :
    ∃ statements, lifetimeServer.Reaches statements s.toLifetime os := by
  refine run.refines (f := EpollState.toLifetime) rfl fun before hs => ?_
  refine epollStep_refines hs fun e he => ?_
  obtain ⟨c, hc, -⟩ := (reaches_owning before).waiting.connected e he
  exact hc ▸ Option.some_ne_none c

/-- The loop thread is in a method of a registered object, at a statement that
finds the status it expects. -/
structure Inside (s : Server) (p : ℕ) (stmt : Stmt) (rest : List (ℕ × Bool)) : Prop where
  sound : Sound s (stmt.closing p)
  waiting : Waiting s rest
  other : p ∉ rest.map Prod.fst
  registered : ∃ r ∈ s.registered, r.conn = p
  live : ∃ c, s.host.heap p = some c ∧ c.status = stmt.status

/-- The invariant of the runs whose sweeps come at the right time. -/
def Safe (s : LifetimeState) : Prop :=
  match s.loop with
  | .dispatching events => Sound s.server none ∧ Waiting s.server events
  | .inside p stmt rest => Inside s.server p stmt rest
  | .lost => False

/-- No step that may come next uses a destroyed object. -/
def Harmless (s : LifetimeState) : Prop :=
  ∀ turn t o, lifetimeStep s turn = some (t, o) → ∀ p, .dangling p ∉ o

/-- A sweep does not come while the loop thread is between the assignment and
the end of `closeConnection`. -/
def SweepsOutside (s : LifetimeState) (turn : LifetimeTurn) : Prop :=
  turn = .main .sweep → ∀ p stmt rest, s.loop = .inside p stmt rest → stmt.published = false

theorem effect_harmless {h : Host} {p : ℕ} {c : Connection} (hp : h.heap p = some c) (stmt : Stmt) :
    ∀ q, .dangling q ∉ (stmt.effect p c h).2 := by
  intro q
  cases stmt <;> simp [Stmt.effect, emit, skip, setStatus, withThis, hp, closefd]
  split <;> simp

theorem Safe.harmless {s : LifetimeState} (h : Safe s) : Harmless s := by
  obtain ⟨server, loop⟩ := s
  intro turn t o hs p
  cases turn with
  | main turn =>
      obtain ⟨r, step, eq⟩ := Option.map_eq_some_iff.mp hs
      cases eq
      cases loop with
      | dispatching events => simp [(h.1.mainEffect step).1]
      | inside q stmt rest => simp [(h.sound.mainEffect step).1]
      | lost => exact h.elim
  | epollWait batch =>
      simp only [lifetimeStep] at hs
      split at hs
      · obtain ⟨-, eq⟩ := Option.ite_none_right_eq_some.mp hs
        cases eq
        exact List.not_mem_nil
      · cases hs
  | test =>
      simp only [lifetimeStep] at hs
      split at hs
      · rename_i q readable rest
        obtain ⟨c, hc, status⟩ := h.2.connected (q, readable) List.mem_cons_self
        have hq : server.host.heap q = some c := hc
        simp only [hq, status] at hs
        split at hs <;> cases hs <;> exact List.not_mem_nil
      · cases hs
  | statement received sent =>
      simp only [lifetimeStep] at hs
      split at hs
      · rename_i q stmt rest
        obtain ⟨c, hc, -⟩ := h.live
        have hq : server.host.heap q = some c := hc
        simp only [hq] at hs
        cases hs
        exact effect_harmless hq stmt p
      · cases hs

/-- The statements before the assignment write nothing to the host, and what
follows them in a connected object expects it connected. -/
theorem Stmt.quiet {stmt : Stmt} (early : stmt.published = false) (before : stmt ≠ .assignClosed)
    (c : Connection) (received : Option Str) (sent : Option ℕ) (p : ℕ) (h : Host) :
    (stmt.effect p c h).1 = h ∧
      ∀ following, stmt.next c received sent = some following → following.published = false := by
  constructor
  · cases stmt with
    | assignClosed => exact absurd rfl before
    | closefd => cases early
    | _ => rfl
  · intro following next
    cases stmt with
    | assignClosed => exact absurd rfl before
    | closefd | logClosed => cases early
    | readStatus | recv | sendStatus _ | send _ | closeStatus =>
        simp only [Stmt.next] at next
        split at next <;> cases next <;> rfl
    | _ =>
        cases next
        rfl

theorem Stmt.status_of_early {stmt : Stmt} (early : stmt.published = false) :
    stmt.status = .connected := by
  simp [Stmt.status, early]

theorem Stmt.closing_of_early {stmt : Stmt} (early : stmt.published = false) (p : ℕ) :
    stmt.closing p = none := by
  cases stmt <;> first | rfl | cases early

/-- A statement of the loop thread keeps the invariant. -/
theorem Inside.statement {server : Server} {p : ℕ} {stmt : Stmt} {rest : List (ℕ × Bool)}
    (h : Inside server p stmt rest) {c : Connection} (hp : server.host.heap p = some c)
    (received : Option Str) (sent : Option ℕ) :
    Safe {
      server := { server with host := (stmt.effect p c server.host).1 }
      loop :=
        match stmt.next c received sent with
        | some following => .inside p following rest
        | none => .dispatching rest } := by
  obtain ⟨d, hd, status⟩ := h.live
  rw [hp] at hd
  cases hd
  -- only the assignment and `closefd` write to the host
  by_cases assign : stmt = .assignClosed
  · subst assign
    obtain ⟨r, hr, rfl⟩ := h.registered
    have marked : (Stmt.assignClosed.effect r.conn c server.host).1 =
        { server.host with
          heap :=
            Function.update server.host.heap r.conn (some { c with status := .closed }) } := by
      simp [Stmt.effect, setStatus, withThis, hp]
    rw [marked]
    exact {
      sound := h.sound.markClosed hp status (h.sound.registered_old hr)
      waiting := h.waiting.of_heap h.other (fun q ne => Function.update_of_ne ne _ _) rfl
      other := h.other
      registered := ⟨r, hr, rfl⟩
      live := ⟨_, Function.update_self _ _ _, rfl⟩ }
  by_cases close : stmt = .closefd
  · subst close
    have positive := h.sound.positive hp
    have closed : (Stmt.closefd.effect p c server.host).1 =
        { server.host with fds := Function.update server.host.fds c.clientfd none } := by
      simp [Stmt.effect, Tcp.closefd, positive]
    rw [closed]
    exact {
      sound := h.sound.closeOwn hp status
      waiting := h.waiting.of_heap h.other (fun _ _ => rfl) rfl
      other := h.other
      registered := h.registered
      live := ⟨c, hp, status⟩ }
  by_cases last : stmt = .logClosed
  · subst last
    exact ⟨h.sound, h.waiting⟩
  · have early : stmt.published = false := by
      cases stmt <;> first | rfl | exact absurd rfl close | exact absurd rfl last
    have sound := h.sound
    rw [Stmt.closing_of_early early] at sound
    rw [Stmt.status_of_early early] at status
    obtain ⟨same, later⟩ := Stmt.quiet early assign c received sent p server.host
    rw [same]
    cases next : stmt.next c received sent with
    | none => exact ⟨sound, h.waiting⟩
    | some following =>
        have soon := later following next
        exact {
          sound := by
            rw [Stmt.closing_of_early soon]
            exact sound
          waiting := h.waiting
          other := h.other
          registered := h.registered
          live := ⟨c, hp, status.trans (Stmt.status_of_early soon).symm⟩ }

theorem Safe.step {s t : LifetimeState} {turn : LifetimeTurn} {o : List Event} (h : Safe s)
    (hs : lifetimeStep s turn = some (t, o)) (outside : SweepsOutside s turn) : Safe t := by
  obtain ⟨server, loop⟩ := s
  cases turn with
  | main turn =>
      obtain ⟨r, step, eq⟩ := Option.map_eq_some_iff.mp hs
      cases eq
      cases loop with
      | dispatching events =>
          obtain ⟨sound, -, frame⟩ := h.1.mainStep step fun _ => rfl
          exact ⟨sound, h.2.frame h.1 frame⟩
      | inside p stmt rest =>
          have early : turn = .sweep → stmt.published = false :=
            fun sweep => outside (congrArg _ sweep) p stmt rest rfl
          obtain ⟨sound, -, frame⟩ := Sound.mainStep h.sound step
            fun sweep => Stmt.closing_of_early (early sweep) p
          obtain ⟨c, hp, status⟩ := h.live
          obtain ⟨reg, hr, own⟩ := h.registered
          have old : p < server.accepts := own ▸ (h.sound.files reg hr).2
          refine ⟨sound, h.waiting.frame h.sound frame, h.other,
            ⟨reg, frame.registered reg hr, own⟩, c, ?_, status⟩
          by_cases sweep : turn = .sweep
          · rcases frame.heap old with same | ⟨-, d, hd, closed⟩
            · exact same.trans hp
            · rw [hp] at hd
              cases hd
              rw [Stmt.status_of_early (early sweep)] at status
              rw [status] at closed
              cases closed
          · exact ((Sound.mainEffect h.sound step).2.heap sweep old).trans hp
      | lost => exact h.elim
  | epollWait batch =>
      simp only [lifetimeStep] at hs
      split at hs
      · obtain ⟨ready, eq⟩ := Option.ite_none_right_eq_some.mp hs
        cases eq
        exact ⟨h.1, h.1.waiting_of_ready ready⟩
      · cases hs
  | test =>
      simp only [lifetimeStep] at hs
      split at hs
      · rename_i p readable rest
        obtain ⟨c, hc, status⟩ := h.2.connected (p, readable) List.mem_cons_self
        obtain ⟨other, waiting⟩ := h.2.tail
        have hp : server.host.heap p = some c := hc
        simp only [hp, status] at hs
        split at hs
        · cases hs
          have registered := h.2.registered (p, readable) List.mem_cons_self
          exact ⟨h.1, waiting, other, registered, c, hp, status⟩
        · cases hs
          exact ⟨h.1, waiting⟩
      · cases hs
  | statement received sent =>
      simp only [lifetimeStep] at hs
      split at hs
      · rename_i p stmt rest
        obtain ⟨c, hc, -⟩ := h.live
        have hp : server.host.heap p = some c := hc
        simp only [hp] at hs
        cases hs
        exact Inside.statement h hp received sent
      · cases hs

/-- In a method of a destroyed object the next statement uses it. -/
theorem harmful_of_gone {s : LifetimeState} {p : ℕ} {stmt : Stmt} {rest : List (ℕ × Bool)}
    (loop : s.loop = .inside p stmt rest) (gone : s.server.host.heap p = none) : ¬ Harmless s := by
  intro harmless
  have uses : lifetimeStep s (.statement none none) =
      some ({ s with loop := .lost }, [.dangling p]) := by
    simp [lifetimeStep, loop, gone]
  exact harmless _ _ _ uses p (List.mem_singleton_self _)

/-- A sweep at the wrong time frees the object, and the loop thread's next
statement uses it. -/
theorem Safe.sweep_harmful {s t : LifetimeState} {turn : LifetimeTurn} {o : List Event} (h : Safe s)
    (hs : lifetimeStep s turn = some (t, o)) (not : ¬ SweepsOutside s turn) : ¬ Harmless t := by
  simp only [SweepsOutside, Classical.not_imp, not_forall, Bool.not_eq_false] at not
  obtain ⟨rfl, p, stmt, rest, loop, published⟩ := not
  obtain ⟨server, loop'⟩ := s
  cases loop
  obtain ⟨c, hc, status⟩ := h.live
  have hp : server.host.heap p = some c := hc
  have closed : server.host.closed p = true :=
    closed_eq_true.mpr ⟨c, hp, status.trans (by simp [Stmt.status, published])⟩
  obtain ⟨r, step, eq⟩ := Option.map_eq_some_iff.mp hs
  cases eq
  obtain ⟨-, effect⟩ := h.sound.mainEffect step
  generalize r.1 = swept at effect ⊢
  cases effect with
  | swept main =>
      have sweeping : server.main = .sweeping := main
      have listed : p ∈ server.connections := h.sound.listed_of_heap hc (by simp [sweeping])
      have gone : (server.host.sweep server.connections).heap p = none := if_pos ⟨listed, closed⟩
      exact harmful_of_gone rfl gone

theorem safe_start : Safe lifetimeServer.start :=
  show Sound startServer none ∧ Waiting startServer [] from ⟨sound_start, waiting_nil _⟩

/-- In every run: no reachable state lets the loop thread use a destroyed
object if and only if every sweep of the run comes while the loop thread is not
between the assignment of `CLOSED` and the end of `closeConnection`. Such a run
has no use of a destroyed object. -/
theorem loop_uses_live_objects_iff {turns : List LifetimeTurn} {s : LifetimeState}
    {os : List Event} (run : lifetimeServer.Reaches turns s os) :
    (lifetimeServer.Always Harmless turns ↔ lifetimeServer.Meets SweepsOutside turns) ∧
      (lifetimeServer.Meets SweepsOutside turns → ∀ p, .dangling p ∉ os) := by
  have iff : lifetimeServer.Always Harmless turns ↔ lifetimeServer.Meets SweepsOutside turns :=
    run.always_iff_meets safe_start Safe.harmless (fun h hs outside => h.step hs outside)
      fun h hs not => h.sweep_harmful hs not
  refine ⟨iff, fun meets p used => ?_⟩
  have harmless := (iff.mpr meets).forall_mem (R := fun e => ∀ q, e ≠ .dangling q)
    (fun quiet hs e he q eq => quiet _ _ _ hs q (eq ▸ he)) run
  exact harmless _ used p rfl

/-- A client leaves while another one is accepted: the sweep comes between the
assignment and `closefd`, which then reads the destroyed object. -/
theorem loop_uses_destroyed_object :
    ¬ ∀ turns s os, lifetimeServer.Reaches turns s os → ∀ p, .dangling p ∉ os := by
  intro never
  have run : lifetimeServer.Reaches
      [.main (.accept 7), .main .construct, .main .push, .main (.addConnection true),
        .main .sweep, .epollWait [(⟨7, 0, 0⟩, true)], .main (.accept 8), .main .construct,
        .main .push, .main (.addConnection true), .test, .statement none none,
        .statement none none, .statement (some []) none, .statement none none,
        .statement none none, .statement none none, .main .sweep, .statement none none] _ _ := rfl
  exact never _ _ _ run 0 (by decide)

/-- The same visit with the sweep after the last statement of `closeConnection`. -/
theorem loop_uses_live_objects_iff_late_sweep :
    ∃ turns s os, lifetimeServer.Reaches turns s os ∧ s.server.host.heap 0 = none ∧
      (lifetimeServer.Always Harmless turns ↔ lifetimeServer.Meets SweepsOutside turns) := by
  have run : lifetimeServer.Reaches
      [.main (.accept 7), .main .construct, .main .push, .main (.addConnection true),
        .main .sweep, .epollWait [(⟨7, 0, 0⟩, true)], .main (.accept 8), .main .construct,
        .main .push, .main (.addConnection true), .test, .statement none none,
        .statement none none, .statement (some []) none, .statement none none,
        .statement none none, .statement none none, .statement none none,
        .statement none none, .main .sweep] _ _ := rfl
  exact ⟨_, _, _, run, rfl, (loop_uses_live_objects_iff run).1⟩

end StudyCode.Tcp

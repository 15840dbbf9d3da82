import Mathlib.Data.List.Nodup
import StudyCode.Tcp.Server

/-!
# The invariant of the server

A descriptor belongs to the accept that opened it until it is closed, and the
number may then come back for another client. `Sound` relates the objects, their
status and the kernel's table; `closing` is the connection whose status is
already closed while its descriptor is still open, which no turn of
`epollServer` leaves behind.
-/
namespace StudyCode.Tcp
open StudyCode.ByteString StudyCode.Scheduled

structure Sound (s : Server) (closing : Option ℕ) : Prop where
  positive : ∀ {p c}, s.host.heap p = some c → 0 < c.clientfd
  owns : ∀ {p c}, s.host.heap p = some c → c.status = .connected ∨ closing = some p →
    s.host.fds c.clientfd = some p
  owned : ∀ {fd p}, s.host.fds fd = some p → s.main = .accepted fd ∧ p = s.accepts ∨
    ∃ c, s.host.heap p = some c ∧ c.clientfd = fd ∧ (c.status = .connected ∨ closing = some p)
  fresh : ∀ {p}, s.accepts ≤ p → s.host.heap p = none
  handed : ∀ {fd}, s.main = .accepted fd → 0 < fd ∧ s.host.fds fd = some s.accepts
  adding : ∀ {p}, s.main = .constructed p ∨ s.main = .pushed p →
    (∃ c, s.host.heap p = some c ∧ c.status = .connected) ∧ ∀ r ∈ s.registered, r.conn ≠ p
  listed : s.connections.Nodup
  live : ∀ p ∈ s.connections, s.host.heap p ≠ none
  unlisted : ∀ {p}, s.main = .constructed p → p ∉ s.connections
  kept : ∀ {p}, s.host.heap p ≠ none → s.main = .constructed p ∨ p ∈ s.connections
  files : ∀ r ∈ s.registered, r.file = r.conn ∧ r.conn < s.accepts
  once : ∀ r ∈ s.registered, ∀ r' ∈ s.registered, r.conn = r'.conn → r = r'

/-- What the main thread never does: it destroys nothing that is connected and
takes nothing out of the interest list. -/
structure Frame (s t : Server) : Prop where
  heap : ∀ {p}, p < s.accepts → t.host.heap p = s.host.heap p ∨
    t.host.heap p = none ∧ ∃ c, s.host.heap p = some c ∧ c.status = .closed
  accepts : s.accepts ≤ t.accepts
  registered : ∀ r ∈ s.registered, r ∈ t.registered

theorem frame_of_heap {s t : Server} (heap : t.host.heap = s.host.heap)
    (accepts : t.accepts = s.accepts) (registered : ∀ r ∈ s.registered, r ∈ t.registered) :
    Frame s t :=
  ⟨fun _ => .inl (congrFun heap _), accepts.ge, registered⟩

theorem sound_start : Sound startServer none := by
  refine ⟨?_, ?_, ?_, fun _ => rfl, ?_, ?_, List.nodup_nil, ?_, ?_, ?_, ?_, ?_⟩ <;>
    simp [startServer]

variable {s t : Server} {closing : Option ℕ}

/-- An object is in the list, unless it waits to be pushed. -/
theorem Sound.listed_of_heap {p : ℕ} {c : Connection} (h : Sound s closing)
    (hp : s.host.heap p = some c) (other : s.main ≠ .constructed p) : p ∈ s.connections :=
  (h.kept (by simp [hp])).resolve_left other

theorem Sound.accept (h : Sound s closing) {clientfd : ℤ} (main : s.main = .accepting)
    (positive : 0 < clientfd) (notOpen : s.host.fds clientfd = none) :
    Sound { s with
      host := { s.host with fds := Function.update s.host.fds clientfd (some s.accepts) }
      main := .accepted clientfd } closing where
  positive := h.positive
  owns := by
    intro p c hp status
    have owns := h.owns hp status
    have other : c.clientfd ≠ clientfd := by
      intro same
      rw [same, notOpen] at owns
      cases owns
    exact (Function.update_of_ne other _ _).trans owns
  owned := by
    intro fd p hp
    change Function.update s.host.fds clientfd (some s.accepts) fd = some p at hp
    by_cases new : fd = clientfd
    · subst new
      rw [Function.update_self] at hp
      cases hp
      exact .inl ⟨rfl, rfl⟩
    · rw [Function.update_of_ne new] at hp
      rcases h.owned hp with ⟨accepted, -⟩ | held
      · rw [main] at accepted
        cases accepted
      · exact .inr held
  fresh := h.fresh
  handed := by
    intro fd accepted
    cases accepted
    exact ⟨positive, Function.update_self _ _ _⟩
  adding := by rintro p (adding | adding) <;> cases adding
  listed := h.listed
  live := h.live
  unlisted := by
    intro p constructed
    cases constructed
  kept := by
    intro p hp
    rcases h.kept hp with constructed | listed
    · rw [main] at constructed
      cases constructed
    · exact .inr listed
  files := h.files
  once := h.once

theorem Sound.construct (h : Sound s closing) {clientfd : ℤ} (main : s.main = .accepted clientfd) :
    Sound { s with
      host := { s.host with
        heap := Function.update s.host.heap s.accepts
          (some { clientfd := clientfd, status := .connected }) }
      accepts := s.accepts + 1
      main := .constructed s.accepts } closing := by
  obtain ⟨positive, mine⟩ := h.handed main
  have unborn : s.host.heap s.accepts = none := h.fresh (Nat.le_refl _)
  have old : ∀ {p}, p ≠ s.accepts →
      Function.update s.host.heap s.accepts
          (some { clientfd := clientfd, status := .connected }) p =
        s.host.heap p := fun ne => Function.update_of_ne ne _ _
  have new : Function.update s.host.heap s.accepts
      (some { clientfd := clientfd, status := .connected }) s.accepts =
        some { clientfd := clientfd, status := .connected } := Function.update_self _ _ _
  have known : ∀ {p}, s.host.heap p ≠ none → p ≠ s.accepts := by
    rintro p hp rfl
    exact hp unborn
  exact {
    positive := by
      intro p c hp
      rcases update_eq_some.mp hp with ⟨-, made⟩ | ⟨-, hp⟩
      · cases made
        exact positive
      · exact h.positive hp
    owns := by
      intro p c hp status
      rcases update_eq_some.mp hp with ⟨rfl, made⟩ | ⟨-, hp⟩
      · cases made
        exact mine
      · exact h.owns hp status
    owned := by
      intro fd p hp
      refine .inr ?_
      rcases h.owned hp with ⟨accepted, rfl⟩ | ⟨c, hc, held⟩
      · rw [main] at accepted
        cases accepted
        exact ⟨_, new, rfl, .inl rfl⟩
      · exact ⟨c, (old (known (by simp [hc]))).trans hc, held⟩
    fresh := by
      intro p later
      have beyond : s.accepts + 1 ≤ p := later
      exact (old (by omega)).trans (h.fresh (by omega))
    handed := by
      intro fd accepted
      cases accepted
    adding := by
      rintro p (constructed | pushed)
      · cases constructed
        refine ⟨⟨_, new, rfl⟩, fun r hr own => ?_⟩
        have := (h.files r hr).2
        omega
      · cases pushed
    listed := h.listed
    live := by
      intro p hp
      have was := h.live p hp
      change Function.update s.host.heap s.accepts _ p ≠ none
      rw [old (known was)]
      exact was
    unlisted := by
      intro p constructed hp
      cases constructed
      exact h.live _ hp unborn
    kept := by
      intro p hp
      change Function.update s.host.heap s.accepts _ p ≠ none at hp
      by_cases own : p = s.accepts
      · exact .inl (congrArg MainThread.constructed own.symm)
      · rw [old own] at hp
        rcases h.kept hp with constructed | listed
        · rw [main] at constructed
          cases constructed
        · exact .inr listed
    files := fun r hr => ⟨(h.files r hr).1, Nat.lt_succ_of_lt (h.files r hr).2⟩
    once := h.once }

theorem Sound.push (h : Sound s closing) {conn : ℕ} (main : s.main = .constructed conn) :
    Sound { s with connections := s.connections ++ [conn], main := .pushed conn } closing where
  positive := h.positive
  owns := h.owns
  owned := by
    intro fd p hp
    rcases h.owned hp with ⟨accepted, -⟩ | held
    · rw [main] at accepted
      cases accepted
    · exact .inr held
  fresh := h.fresh
  handed := by
    intro fd accepted
    cases accepted
  adding := by
    rintro p (constructed | pushed)
    · cases constructed
    · cases pushed
      exact h.adding (.inl main)
  listed := by
    refine List.nodup_append.mpr ⟨h.listed, by simp, ?_⟩
    rintro p hp q hq rfl
    rw [List.mem_singleton.mp hq] at hp
    exact h.unlisted main hp
  live := by
    intro p hp
    rcases List.mem_append.mp hp with old | new
    · exact h.live p old
    · obtain ⟨⟨c, hc, -⟩, -⟩ := h.adding (.inl main)
      rw [List.mem_singleton.mp new, hc]
      exact Option.some_ne_none c
  unlisted := by
    intro p constructed
    cases constructed
  kept := by
    intro p hp
    refine .inr (List.mem_append.mpr ?_)
    rcases h.kept hp with constructed | listed
    · rw [main] at constructed
      cases constructed
      exact .inr (List.mem_singleton_self _)
    · exact .inl listed
  files := h.files
  once := h.once

/-- The main thread goes on to its sweep, having added `added` to the interest list. -/
theorem Sound.toSweep (h : Sound s closing) (added : List Registration)
    (waiting : s.main = .accepting ∧ added = [] ∨ ∃ conn c, s.main = .pushed conn ∧
      s.host.heap conn = some c ∧ (added = [] ∨ added = [⟨c.clientfd, conn, conn⟩])) :
    Sound { s with registered := s.registered ++ added, main := .sweeping } closing := by
  have notAccepted : ∀ fd, s.main ≠ .accepted fd := by
    rintro fd accepted
    rcases waiting with ⟨main, -⟩ | ⟨conn, c, main, -⟩ <;> rw [main] at accepted <;> cases accepted
  have notConstructed : ∀ p, s.main ≠ .constructed p := by
    rintro p constructed
    rcases waiting with ⟨main, -⟩ | ⟨conn, c, main, -⟩ <;> rw [main] at constructed <;>
      cases constructed
  have new : ∀ r ∈ added, s.main = .pushed r.conn ∧ r.file = r.conn ∧ r.conn < s.accepts := by
    intro r hr
    rcases waiting with ⟨-, rfl⟩ | ⟨conn, c, main, hc, rfl | rfl⟩
    · cases hr
    · cases hr
    · rw [List.mem_singleton.mp hr]
      refine ⟨main, rfl, ?_⟩
      by_contra late
      rw [h.fresh (Nat.le_of_not_lt late)] at hc
      cases hc
  have single : ∀ r ∈ added, ∀ r' ∈ added, r = r' := by
    intro r hr r' hr'
    rcases waiting with ⟨-, rfl⟩ | ⟨conn, c, main, hc, rfl | rfl⟩
    · cases hr
    · cases hr
    · rw [List.mem_singleton.mp hr, List.mem_singleton.mp hr']
  exact {
    positive := h.positive
    owns := h.owns
    owned := fun hp => (h.owned hp).imp_left fun accepted => absurd accepted.1 (notAccepted _)
    fresh := h.fresh
    handed := by
      intro fd accepted
      cases accepted
    adding := by rintro p (adding | adding) <;> cases adding
    listed := h.listed
    live := h.live
    unlisted := by
      intro p constructed
      cases constructed
    kept := fun hp => .inr ((h.kept hp).resolve_left (notConstructed _))
    files := by
      intro r hr
      rcases List.mem_append.mp hr with old | added
      · exact h.files r old
      · exact (new r added).2
    once := by
      intro r hr r' hr' same
      -- a connection that is being pushed was never registered before
      rcases List.mem_append.mp hr with old | added <;>
        rcases List.mem_append.mp hr' with old' | added'
      · exact h.once r old r' old' same
      · exact absurd same ((h.adding (.inr (new r' added').1)).2 r old)
      · exact absurd same.symm ((h.adding (.inr (new r added).1)).2 r' old')
      · exact single r added r' added' }

theorem Sound.sweep (h : Sound s none) (main : s.main = .sweeping) :
    Sound { s with
      host := s.host.sweep s.connections
      connections := s.connections.filter fun p => !s.host.closed p
      main := .accepting } none := by
  have was : ∀ {p c}, (s.host.sweep s.connections).heap p = some c → s.host.heap p = some c := by
    intro p c hp
    rcases sweep_heap s.host s.connections p with same | ⟨gone, -⟩
    · rwa [same] at hp
    · rw [gone] at hp
      cases hp
  have stays : ∀ {p}, s.host.closed p = false →
      (s.host.sweep s.connections).heap p = s.host.heap p :=
    fun notClosed => if_neg (by simp [notClosed])
  have notClosed : ∀ {p c}, s.host.heap p = some c → c.status = .connected →
      s.host.closed p = false := by
    intro p c hp status
    simp [Host.closed, hp, status]
  exact {
    positive := fun hp => h.positive (was hp)
    owns := fun hp status => h.owns (was hp) status
    owned := by
      intro fd p hp
      rcases h.owned hp with ⟨accepted, -⟩ | ⟨c, hc, own, status | closing⟩
      · rw [main] at accepted
        cases accepted
      · exact .inr ⟨c, (stays (notClosed hc status)).trans hc, own, .inl status⟩
      · cases closing
    fresh := by
      intro p later
      rcases sweep_heap s.host s.connections p with same | ⟨gone, -⟩
      · exact same.trans (h.fresh later)
      · exact gone
    handed := by
      intro fd accepted
      cases accepted
    adding := by rintro p (adding | adding) <;> cases adding
    listed := h.listed.filter _
    live := by
      intro p hp
      obtain ⟨listed, open'⟩ := List.mem_filter.mp hp
      change (s.host.sweep s.connections).heap p ≠ none
      rw [stays (by simpa using open')]
      exact h.live p listed
    unlisted := by
      intro p constructed
      cases constructed
    kept := by
      intro p hp
      obtain ⟨c, hc⟩ := Option.ne_none_iff_exists'.mp hp
      have listed : p ∈ s.connections := h.listed_of_heap (was hc) (by simp [main])
      refine .inr (List.mem_filter.mpr ⟨listed, ?_⟩)
      by_contra closed
      have swept : (s.host.sweep s.connections).heap p = none :=
        if_pos ⟨listed, by simpa using closed⟩
      exact hp swept
    files := h.files
    once := h.once }

/-- What the turns of the main thread make of a sound server. -/
inductive MainEffect (s : Server) : MainTurn → Server → Prop
  | accepted (clientfd : ℤ) : s.main = .accepting → 0 < clientfd → s.host.fds clientfd = none →
      MainEffect s (.accept clientfd) { s with
        host := { s.host with fds := Function.update s.host.fds clientfd (some s.accepts) }
        main := .accepted clientfd }
  | nobody (clientfd : ℤ) : s.main = .accepting →
      MainEffect s (.accept clientfd) { s with main := .sweeping }
  | constructed (clientfd : ℤ) : s.main = .accepted clientfd →
      MainEffect s .construct { s with
        host := { s.host with
          heap := Function.update s.host.heap s.accepts
            (some { clientfd := clientfd, status := .connected }) }
        accepts := s.accepts + 1
        main := .constructed s.accepts }
  | pushed (conn : ℕ) : s.main = .constructed conn →
      MainEffect s .push
        { s with connections := s.connections ++ [conn], main := .pushed conn }
  | registered (conn : ℕ) (c : Connection) : s.main = .pushed conn →
      s.host.heap conn = some c → c.status = .connected →
      MainEffect s (.addConnection true) { s with
        registered := s.registered ++ [⟨c.clientfd, conn, conn⟩]
        main := .sweeping }
  | refused (conn : ℕ) (c : Connection) : s.main = .pushed conn →
      s.host.heap conn = some c → c.status = .connected →
      MainEffect s (.addConnection false) { s with main := .sweeping }
  | swept : s.main = .sweeping →
      MainEffect s .sweep { s with
        host := s.host.sweep s.connections
        connections := s.connections.filter fun p => !s.host.closed p
        main := .accepting }

/-- In a sound server the main thread finds the object that it adds and the ones
that it sweeps, and it makes no system call on a client. -/
theorem Sound.mainEffect {turn : MainTurn} {o : List Event} (h : Sound s closing)
    (hs : mainStep s turn = some (t, o)) : o = [] ∧ MainEffect s turn t := by
  cases turn with
  | accept clientfd =>
      simp only [mainStep] at hs
      split at hs
      · rename_i main
        split at hs
        · rename_i positive
          obtain ⟨notOpen, eq⟩ := Option.ite_none_right_eq_some.mp hs
          cases eq
          exact ⟨rfl, .accepted clientfd main positive notOpen⟩
        · cases hs
          exact ⟨rfl, .nobody clientfd main⟩
      · cases hs
  | construct =>
      simp only [mainStep] at hs
      split at hs
      · rename_i clientfd main
        cases hs
        exact ⟨rfl, .constructed clientfd main⟩
      · cases hs
  | push =>
      simp only [mainStep] at hs
      split at hs
      · rename_i conn main
        cases hs
        exact ⟨rfl, .pushed conn main⟩
      · cases hs
  | addConnection added =>
      simp only [mainStep] at hs
      split at hs
      · rename_i conn main
        obtain ⟨⟨c, hc, status⟩, -⟩ := h.adding (.inr main)
        have mine := h.owns hc (.inl status)
        simp only [hc, mine] at hs
        cases added with
        | true =>
            cases hs
            exact ⟨rfl, .registered conn c main hc status⟩
        | false =>
            cases hs
            exact ⟨rfl, .refused conn c main hc status⟩
      · cases hs
  | sweep =>
      simp only [mainStep] at hs
      split at hs
      · rename_i main
        rw [sweepOut_live h.listed h.live] at hs
        cases hs
        exact ⟨rfl, .swept main⟩
      · cases hs

/-- A turn of the main thread keeps the invariant, makes no system call on a
client and destroys nothing that is connected. Only the sweep needs that no
connection is on its way to be closed. -/
theorem Sound.mainStep {turn : MainTurn} {o : List Event} (h : Sound s closing)
    (hs : mainStep s turn = some (t, o)) (idle : turn = .sweep → closing = none) :
    Sound t closing ∧ o = [] ∧ Frame s t := by
  obtain ⟨quiet, effect⟩ := h.mainEffect hs
  suffices Sound t closing ∧ Frame s t from ⟨this.1, quiet, this.2⟩
  cases effect with
  | accepted clientfd main positive notOpen =>
      exact ⟨h.accept main positive notOpen, frame_of_heap rfl rfl fun _ => id⟩
  | nobody clientfd main =>
      have sound := h.toSweep [] (.inl ⟨main, rfl⟩)
      rw [List.append_nil] at sound
      exact ⟨sound, frame_of_heap rfl rfl fun _ => id⟩
  | constructed clientfd main =>
      refine ⟨h.construct main, fun before => .inl ?_, Nat.le_succ _, fun _ => id⟩
      exact Function.update_of_ne (Nat.ne_of_lt before) _ _
  | pushed conn main => exact ⟨h.push main, frame_of_heap rfl rfl fun _ => id⟩
  | registered conn c main hc status =>
      exact ⟨h.toSweep _ (.inr ⟨conn, c, main, hc, .inr rfl⟩),
        frame_of_heap rfl rfl fun r hr => List.mem_append_left _ hr⟩
  | refused conn c main hc status =>
      have sound := h.toSweep [] (.inr ⟨conn, c, main, hc, .inl rfl⟩)
      rw [List.append_nil] at sound
      exact ⟨sound, frame_of_heap rfl rfl fun _ => id⟩
  | swept main =>
      obtain rfl := idle rfl
      exact ⟨h.sweep main, fun _ => sweep_heap s.host s.connections _, Nat.le_refl _, fun _ => id⟩

/-- Only the sweep touches the objects that exist. -/
theorem MainEffect.heap {turn : MainTurn} (effect : MainEffect s turn t) (other : turn ≠ .sweep)
    {p : ℕ} (old : p < s.accepts) : t.host.heap p = s.host.heap p := by
  cases effect with
  | constructed clientfd main => exact Function.update_of_ne (Nat.ne_of_lt old) _ _
  | swept main => exact absurd rfl other
  | accepted | nobody | pushed | registered | refused => rfl

/-- The assignment in `closeConnection` of a connection that is not being added. -/
theorem Sound.markClosed {p : ℕ} {c : Connection} (h : Sound s none)
    (hp : s.host.heap p = some c) (status : c.status = .connected)
    (old : s.main ≠ .constructed p ∧ s.main ≠ .pushed p) :
    Sound { s with
      host := { s.host with
        heap := Function.update s.host.heap p (some { c with status := .closed }) } } (some p) := by
  have positive := h.positive hp
  have mine := h.owns hp (.inl status)
  have new : Function.update s.host.heap p (some { c with status := .closed }) p =
      some { c with status := .closed } := Function.update_self _ _ _
  have others : ∀ {q}, q ≠ p →
      Function.update s.host.heap p (some { c with status := .closed }) q = s.host.heap q :=
    fun ne => Function.update_of_ne ne _ _
  exact {
    positive := by
      intro q d hq
      rcases update_eq_some.mp hq with ⟨-, marked⟩ | ⟨-, hq⟩
      · cases marked
        exact positive
      · exact h.positive hq
    owns := by
      intro q d hq alive
      rcases update_eq_some.mp hq with ⟨rfl, marked⟩ | ⟨ne, hq⟩
      · cases marked
        exact mine
      · rcases alive with alive | closing
        · exact h.owns hq (.inl alive)
        · cases closing
          exact absurd rfl ne
    owned := by
      intro fd q hq
      rcases h.owned hq with accepted | ⟨d, hd, own, alive | closing⟩
      · exact .inl accepted
      · refine .inr ?_
        by_cases same : q = p
        · subst same
          rw [hp] at hd
          cases hd
          exact ⟨_, new, own, .inr rfl⟩
        · exact ⟨d, (others same).trans hd, own, .inl alive⟩
      · cases closing
    fresh := by
      intro q later
      have unborn := h.fresh later
      have ne : q ≠ p := by
        rintro rfl
        rw [hp] at unborn
        cases unborn
      exact (others ne).trans unborn
    handed := h.handed
    adding := by
      intro q adding
      obtain ⟨⟨d, hd, alive⟩, unregistered⟩ := h.adding adding
      have ne : q ≠ p := by
        rintro rfl
        rcases adding with constructed | pushed
        · exact old.1 constructed
        · exact old.2 pushed
      exact ⟨⟨d, (others ne).trans hd, alive⟩, unregistered⟩
    listed := h.listed
    live := by
      intro q hq
      change Function.update s.host.heap p _ q ≠ none
      by_cases own : q = p
      · subst own
        rw [new]
        exact Option.some_ne_none _
      · rw [others own]
        exact h.live q hq
    unlisted := h.unlisted
    kept := by
      intro q hq
      change Function.update s.host.heap p _ q ≠ none at hq
      by_cases own : q = p
      · subst own
        exact h.kept (by simp [hp])
      · rw [others own] at hq
        exact h.kept hq
    files := h.files
    once := h.once }

/-- The call of `closefd` in `closeConnection`. -/
theorem Sound.closeOwn {p : ℕ} {c : Connection} (h : Sound s (some p))
    (hp : s.host.heap p = some c) (status : c.status = .closed) :
    Sound { s with
      host := { s.host with fds := Function.update s.host.fds c.clientfd none } } none := by
  have mine := h.owns hp (.inr rfl)
  have others : ∀ {fd q}, s.host.fds fd = some q → q ≠ p →
      Function.update s.host.fds c.clientfd none fd = some q := by
    intro fd q hfd ne
    have otherFd : fd ≠ c.clientfd := by
      rintro rfl
      rw [mine] at hfd
      cases hfd
      exact ne rfl
    exact (Function.update_of_ne otherFd _ _).trans hfd
  exact {
    positive := h.positive
    owns := by
      intro q d hq alive
      rcases alive with alive | closing
      · refine others (h.owns hq (.inl alive)) ?_
        rintro rfl
        rw [hp] at hq
        cases hq
        rw [status] at alive
        cases alive
      · cases closing
    owned := by
      intro fd q hq
      change Function.update s.host.fds c.clientfd none fd = some q at hq
      have otherFd : fd ≠ c.clientfd := by
        rintro rfl
        rw [Function.update_self] at hq
        cases hq
      rw [Function.update_of_ne otherFd] at hq
      rcases h.owned hq with accepted | ⟨d, hd, own, alive | closing⟩
      · exact .inl accepted
      · exact .inr ⟨d, hd, own, .inl alive⟩
      · cases closing
        rw [hp] at hd
        cases hd
        exact absurd own.symm otherFd
    fresh := h.fresh
    handed := by
      intro fd accepted
      obtain ⟨positive, handed⟩ := h.handed accepted
      refine ⟨positive, others handed ?_⟩
      rintro rfl
      rw [h.fresh (Nat.le_refl _)] at hp
      cases hp
    adding := h.adding
    listed := h.listed
    live := h.live
    unlisted := h.unlisted
    kept := h.kept
    files := h.files
    once := h.once }

theorem Sound.hangUp {p : ℕ} {c : Connection} (h : Sound s none) (hp : s.host.heap p = some c)
    (status : c.status = .connected) (old : s.main ≠ .constructed p ∧ s.main ≠ .pushed p) :
    Sound { s with host := s.host.hangUp p c } none :=
  (h.markClosed hp status old).closeOwn (c := { c with status := .closed })
    (Function.update_self _ _ _) rfl

/-- An armed entry leads to a connected object that is not being added. -/
theorem Sound.armed {r : Registration} (h : Sound s none) (armed : s.Armed r) :
    ∃ c, s.host.heap r.conn = some c ∧ c.status = .connected := by
  obtain ⟨hr, file⟩ := armed
  obtain ⟨same, old⟩ := h.files r hr
  rcases h.owned file with ⟨-, new⟩ | ⟨c, hc, -, status | closing⟩
  · omega
  · rw [same] at hc
    exact ⟨c, hc, status⟩
  · cases closing

theorem Sound.registered_old {r : Registration} (h : Sound s closing) (hr : r ∈ s.registered) :
    s.main ≠ .constructed r.conn ∧ s.main ≠ .pushed r.conn :=
  ⟨fun constructed => (h.adding (.inl constructed)).2 r hr rfl,
    fun pushed => (h.adding (.inr pushed)).2 r hr rfl⟩

/-! ## The events of a batch -/

/-- The events that the loop thread still has to handle are about different
connected objects. -/
structure Waiting (s : Server) (events : List (ℕ × Bool)) : Prop where
  connected : ∀ e ∈ events, ∃ c, s.host.heap e.1 = some c ∧ c.status = .connected
  registered : ∀ e ∈ events, ∃ r ∈ s.registered, r.conn = e.1
  distinct : (events.map Prod.fst).Nodup

theorem waiting_nil (s : Server) : Waiting s [] :=
  ⟨fun _ he => (List.not_mem_nil he).elim, fun _ he => (List.not_mem_nil he).elim, List.nodup_nil⟩

variable {events : List (ℕ × Bool)}

theorem Waiting.frame (h : Waiting s events) (sound : Sound s closing) (frame : Frame s t) :
    Waiting t events where
  connected := by
    intro e he
    obtain ⟨c, hc, status⟩ := h.connected e he
    obtain ⟨r, hr, own⟩ := h.registered e he
    refine ⟨c, ?_, status⟩
    have old : e.1 < s.accepts := own ▸ (sound.files r hr).2
    rcases frame.heap old with same | ⟨-, d, hd, closed⟩
    · exact same.trans hc
    · rw [hc] at hd
      cases hd
      rw [status] at closed
      cases closed
  registered := by
    intro e he
    obtain ⟨r, hr, own⟩ := h.registered e he
    exact ⟨r, frame.registered r hr, own⟩
  distinct := h.distinct

/-- What happens to one object does not concern the events about others. -/
theorem Waiting.of_heap {p : ℕ} (h : Waiting s events) (other : p ∉ events.map Prod.fst)
    (heap : ∀ q, q ≠ p → t.host.heap q = s.host.heap q) (registered : t.registered = s.registered) :
    Waiting t events where
  connected := by
    intro e he
    obtain ⟨c, hc, status⟩ := h.connected e he
    have ne : e.1 ≠ p := fun own => other (own ▸ List.mem_map_of_mem he)
    exact ⟨c, (heap e.1 ne).trans hc, status⟩
  registered := by
    intro e he
    rw [registered]
    exact h.registered e he
  distinct := h.distinct

theorem Waiting.tail {e : ℕ × Bool} (h : Waiting s (e :: events)) :
    e.1 ∉ events.map Prod.fst ∧ Waiting s events := by
  have distinct := h.distinct
  rw [List.map_cons, List.nodup_cons] at distinct
  exact ⟨distinct.1, fun e he => h.connected e (List.mem_cons_of_mem _ he),
    fun e he => h.registered e (List.mem_cons_of_mem _ he), distinct.2⟩

theorem Sound.waiting_of_ready {batch : List (Registration × Bool)} (h : Sound s none)
    (ready : s.Ready batch) : Waiting s (batch.map fun b => (b.1.conn, b.2)) where
  connected := by
    intro e he
    obtain ⟨b, hb, rfl⟩ := List.mem_map.mp he
    exact h.armed (ready.2.2 b.1 (List.mem_map_of_mem hb))
  registered := by
    intro e he
    obtain ⟨b, hb, rfl⟩ := List.mem_map.mp he
    exact ⟨b.1, (ready.2.2 b.1 (List.mem_map_of_mem hb)).1, rfl⟩
  distinct := by
    have conns : (batch.map fun b => (b.1.conn, b.2)).map Prod.fst =
        (batch.map Prod.fst).map Registration.conn := by simp
    rw [conns]
    refine List.Nodup.map_on (fun r hr r' hr' same => ?_) ready.2.1
    exact h.once r (ready.2.2 r hr).1 r' (ready.2.2 r' hr').1 same

end StudyCode.Tcp

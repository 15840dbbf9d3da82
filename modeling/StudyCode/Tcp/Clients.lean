import StudyCode.Lib.Machine
import StudyCode.Tcp.Connection

/-!
# Clients that come and go

The history that `PollLoop` and `SelectLoop` run against. A client is accepted
under any number that is not open, its connection may be closed at any time, and
the sweep of the main thread destroys closed ones.
-/
namespace StudyCode.Tcp
open StudyCode.ByteString

structure Clients where
  host : Host
  accepts : ℕ

inductive ClientTurn where
  | connect (clientfd : ℤ)
  | close (conn : ℕ)
  | destroy (conn : ℕ)
  deriving DecidableEq, Repr

def clientStep (s : Clients) : ClientTurn → Option Clients
  | .connect clientfd =>
      if 0 < clientfd ∧ s.host.fds clientfd = none then
        some {
          host := {
            heap := Function.update s.host.heap s.accepts
              (some { clientfd := clientfd, status := .connected })
            fds := Function.update s.host.fds clientfd (some s.accepts) }
          accepts := s.accepts + 1 }
      else none
  | .close conn =>
      if (s.host.heap conn).isSome then
        some { s with host := (closeConnection conn s.host).1 }
      else none
  | .destroy conn =>
      if s.host.closed conn then some { s with host := (destroy conn s.host).1 } else none

def noClients : Clients where
  host := { heap := fun _ => none, fds := fun _ => none }
  accepts := 0

/-- What the loops do when they run. -/
inductive LoopEvent where
  | readData (conn : ℕ)
  | dangling (conn : ℕ)
  deriving DecidableEq, Repr

/-! ## What stays true of the clients -/

structure Clients.Sound (s : Clients) : Prop where
  positive : ∀ {p c}, s.host.heap p = some c → 0 < c.clientfd
  owns : ∀ {p c}, s.host.heap p = some c → c.status = .connected → s.host.fds c.clientfd = some p
  fresh : ∀ {p}, s.accepts ≤ p → s.host.heap p = none

/-- A connection that still exists has the number it always had. -/
structure Clients.Evolves (s t : Clients) : Prop where
  accepts : s.accepts ≤ t.accepts
  same : ∀ {p d}, p < s.accepts → t.host.heap p = some d →
    ∃ c, s.host.heap p = some c ∧ c.clientfd = d.clientfd

theorem Clients.Evolves.refl (s : Clients) : s.Evolves s :=
  ⟨Nat.le_refl _, fun _ hp => ⟨_, hp, rfl⟩⟩

theorem Clients.Evolves.trans {s t u : Clients} (h : s.Evolves t) (h' : t.Evolves u) :
    s.Evolves u where
  accepts := Nat.le_trans h.accepts h'.accepts
  same := by
    intro p e old hp
    obtain ⟨d, hd, number⟩ := h'.same (Nat.lt_of_lt_of_le old h.accepts) hp
    obtain ⟨c, hc, number'⟩ := h.same old hd
    exact ⟨c, hc, number'.trans number⟩

theorem noClients_sound : noClients.Sound :=
  { positive := fun hp => nomatch hp
    owns := fun hp _ => nomatch hp
    fresh := fun _ => rfl }

variable {s t : Clients} {p : ℕ} {c : Connection}

theorem Clients.Sound.old (h : s.Sound) (hp : s.host.heap p = some c) : p < s.accepts := by
  by_contra late
  rw [h.fresh (Nat.le_of_not_lt late)] at hp
  cases hp

theorem Clients.Sound.connect (h : s.Sound) {clientfd : ℤ} (positive : 0 < clientfd)
    (notOpen : s.host.fds clientfd = none) :
    (Clients.mk {
      heap := Function.update s.host.heap s.accepts
        (some { clientfd := clientfd, status := .connected })
      fds := Function.update s.host.fds clientfd (some s.accepts) } (s.accepts + 1)).Sound where
  positive := by
    intro p c hp
    rcases update_eq_some.mp hp with ⟨-, new⟩ | ⟨-, hp⟩
    · cases new
      exact positive
    · exact h.positive hp
  owns := by
    intro p c hp status
    rcases update_eq_some.mp hp with ⟨rfl, new⟩ | ⟨-, hp⟩
    · cases new
      exact Function.update_self _ _ _
    · have owns := h.owns hp status
      have other : c.clientfd ≠ clientfd := by
        intro same
        rw [same, notOpen] at owns
        cases owns
      exact (Function.update_of_ne other _ _).trans owns
  fresh := by
    intro p late
    have beyond : s.accepts + 1 ≤ p := late
    exact (Function.update_of_ne (by omega) _ _).trans (h.fresh (by omega))

theorem Clients.Sound.hangUp (h : s.Sound) (hp : s.host.heap p = some c)
    (status : c.status = .connected) :
    Clients.Sound { s with host := s.host.hangUp p c } where
  positive := by
    intro q d hq
    rcases update_eq_some.mp hq with ⟨-, own⟩ | ⟨-, hq⟩
    · have positive := h.positive hp
      cases own
      exact positive
    · exact h.positive hq
  owns := by
    intro q d hq alive
    rcases update_eq_some.mp hq with ⟨-, own⟩ | ⟨ne, hq⟩
    · cases own
      cases alive
    · have owns := h.owns hq alive
      have other : d.clientfd ≠ c.clientfd := by
        intro same
        rw [same, h.owns hp status] at owns
        exact ne (Option.some.inj owns).symm
      exact (Function.update_of_ne other _ _).trans owns
  fresh := by
    intro q late
    have unborn := h.fresh late
    have ne : q ≠ p := by
      rintro rfl
      rw [hp] at unborn
      cases unborn
    exact (Function.update_of_ne ne _ _).trans unborn

theorem Clients.evolves_hangUp (hp : s.host.heap p = some c) :
    s.Evolves { s with host := s.host.hangUp p c } where
  accepts := Nat.le_refl _
  same := by
    intro q d _ hq
    rcases update_eq_some.mp hq with ⟨rfl, own⟩ | ⟨-, hq⟩
    · cases own
      exact ⟨c, hp, rfl⟩
    · exact ⟨d, hq, rfl⟩

/-- What a method leaves of the clients when it keeps them or hangs one up. -/
theorem Clients.Sound.host_cases (h : s.Sound) (hp : s.host.heap p = some c) {host : Host}
    (result : host = s.host ∨ c.status = .connected ∧ host = s.host.hangUp p c) :
    Clients.Sound { s with host := host } ∧ s.Evolves { s with host := host } := by
  rcases result with rfl | ⟨status, rfl⟩
  · exact ⟨h, .refl s⟩
  · exact ⟨h.hangUp hp status, Clients.evolves_hangUp hp⟩

theorem Clients.Sound.readData (h : s.Sound) (hp : s.host.heap p = some c)
    (received : Option Str) (sent : Option ℕ) :
    Clients.Sound { s with host := (readData p received sent s.host).1 } ∧
      s.Evolves { s with host := (readData p received sent s.host).1 } := by
  refine h.host_cases hp ?_
  cases status : c.status with
  | closed => exact .inl (by rw [readData_of_closed hp status])
  | connected =>
      obtain ⟨es, -, eq | eq⟩ := readData_connected hp status (h.positive hp) received sent
      · exact .inl (by rw [eq])
      · exact .inr ⟨rfl, by rw [eq]⟩

theorem Clients.Sound.step {turn : ClientTurn} (h : s.Sound) (hs : clientStep s turn = some t) :
    t.Sound ∧ s.Evolves t := by
  cases turn with
  | connect clientfd =>
      obtain ⟨⟨positive, notOpen⟩, eq⟩ := Option.ite_none_right_eq_some.mp hs
      cases eq
      refine ⟨h.connect positive notOpen, Nat.le_succ _, fun old hp => ?_⟩
      rcases update_eq_some.mp hp with ⟨rfl, -⟩ | ⟨-, hp⟩
      · exact absurd old (Nat.lt_irrefl _)
      · exact ⟨_, hp, rfl⟩
  | close conn =>
      obtain ⟨live, eq⟩ := Option.ite_none_right_eq_some.mp hs
      cases eq
      obtain ⟨c, hp⟩ := Option.isSome_iff_exists.mp live
      refine h.host_cases hp ?_
      cases status : c.status with
      | closed => exact .inl (by rw [closeConnection_closed hp status])
      | connected => exact .inr ⟨rfl, by rw [closeConnection_connected hp status (h.positive hp)]⟩
  | destroy conn =>
      obtain ⟨closed, eq⟩ := Option.ite_none_right_eq_some.mp hs
      cases eq
      obtain ⟨c, hp, status⟩ := closed_eq_true.mp closed
      rw [destroy_closed hp status]
      have was : ∀ {q d}, (s.host.free conn).heap q = some d → s.host.heap q = some d := by
        intro q d hq
        rcases update_eq_some.mp hq with ⟨-, gone⟩ | ⟨-, hq⟩
        · cases gone
        · exact hq
      refine ⟨⟨fun hq => h.positive (was hq), fun hq => h.owns (was hq), ?_⟩, Nat.le_refl _,
        fun _ hq => ⟨_, was hq, rfl⟩⟩
      intro q late
      by_contra some
      obtain ⟨d, hq⟩ := Option.ne_none_iff_exists'.mp some
      have old := h.fresh late
      rw [was hq] at old
      cases old

/-- A method of a connection destroys nothing and leaves the other objects alone. -/
theorem readData_heap (h : s.Sound) (hp : s.host.heap p = some c) (received : Option Str)
    (sent : Option ℕ) (q : ℕ) :
    ((readData p received sent s.host).1.heap q = none ↔ s.host.heap q = none) ∧
      (q ≠ p → (readData p received sent s.host).1.heap q = s.host.heap q) := by
  cases status : c.status with
  | closed =>
      rw [readData_of_closed hp status]
      exact ⟨Iff.rfl, fun _ => rfl⟩
  | connected =>
      obtain ⟨es, -, eq | eq⟩ := readData_connected hp status (h.positive hp) received sent
      · simp [eq]
      · rw [eq]
        by_cases own : q = p
        · subst own
          simp [Host.hangUp, hp]
        · simp [Host.hangUp, own]

/-! ## Numbers -/

/-- `p` exists and has the number `fd`. -/
def Clients.HasNumber (s : Clients) (p : ℕ) (fd : ℤ) : Prop :=
  ∃ c, s.host.heap p = some c ∧ c.clientfd = fd

theorem Clients.HasNumber.unique {fd fd' : ℤ} (h : s.HasNumber p fd) (h' : s.HasNumber p fd') :
    fd = fd' := by
  obtain ⟨c, hc, rfl⟩ := h
  obtain ⟨d, hd, rfl⟩ := h'
  cases hc.symm.trans hd
  rfl

theorem Clients.HasNumber.later {fd : ℤ} (number : s.HasNumber p fd) (h : s.Sound)
    (evolves : s.Evolves t) (live : t.host.heap p ≠ none) : t.HasNumber p fd := by
  obtain ⟨c, hc, rfl⟩ := number
  obtain ⟨d, hd⟩ := Option.ne_none_iff_exists'.mp live
  obtain ⟨c', hc', same⟩ := evolves.same (h.old hc) hd
  cases hc.symm.trans hc'
  exact ⟨d, hd, same.symm⟩

/-- What happens to the others does not concern `p`. -/
theorem clientStep_other {turn : ClientTurn} (h : s.Sound) (hs : clientStep s turn = some t)
    (hp : s.host.heap p = some c) (close : turn ≠ .close p) (destroy : turn ≠ .destroy p) :
    t.host.heap p = some c := by
  cases turn with
  | connect clientfd =>
      obtain ⟨-, eq⟩ := Option.ite_none_right_eq_some.mp hs
      cases eq
      exact (Function.update_of_ne (Nat.ne_of_lt (h.old hp)) _ _).trans hp
  | close conn =>
      have ne : p ≠ conn := fun own => close (own ▸ rfl)
      obtain ⟨live, eq⟩ := Option.ite_none_right_eq_some.mp hs
      cases eq
      obtain ⟨d, hd⟩ := Option.isSome_iff_exists.mp live
      cases status : d.status with
      | closed => rwa [closeConnection_closed hd status]
      | connected =>
          rw [closeConnection_connected hd status (h.positive hd)]
          exact (Function.update_of_ne ne _ _).trans hp
  | destroy conn =>
      have ne : p ≠ conn := fun own => destroy (own ▸ rfl)
      obtain ⟨closed, eq⟩ := Option.ite_none_right_eq_some.mp hs
      cases eq
      obtain ⟨d, hd, status⟩ := closed_eq_true.mp closed
      rw [destroy_closed hd status]
      exact (Function.update_of_ne ne _ _).trans hp

theorem clientStep_live {turn : ClientTurn} (h : s.Sound) (hs : clientStep s turn = some t)
    (live : s.host.heap p ≠ none) (destroy : turn ≠ .destroy p) : t.host.heap p ≠ none := by
  obtain ⟨c, hp⟩ := Option.ne_none_iff_exists'.mp live
  by_cases close : turn = .close p
  · subst close
    obtain ⟨-, eq⟩ := Option.ite_none_right_eq_some.mp hs
    cases eq
    cases status : c.status with
    | closed => rwa [closeConnection_closed hp status]
    | connected =>
        rw [closeConnection_connected hp status (h.positive hp)]
        simp [Host.hangUp]
  · rw [clientStep_other h hs hp close destroy]
    exact Option.some_ne_none c

end StudyCode.Tcp

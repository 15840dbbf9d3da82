import StudyCode.Tcp.Ownership

/-!
# A registration that fails

The main thread lists a connection before it registers it, and drops what
`addConnection` returns. The open connections in the list are all in the
interest list of the loop exactly in the runs in which no registration fails.
-/
namespace StudyCode.Tcp
open StudyCode.ByteString StudyCode.Scheduled

/-- What `EpollLoop::addConnection` returns: `epfd` is the result of
`epoll_create1`, and `ctl` that of `epoll_ctl`. -/
def addConnection (epfd ctl : ℤ) : Bool :=
  if epfd < 0 then false else if ctl < 0 then false else true

/-- A turn of the server, with the result of `epoll_ctl` where it is called. -/
inductive KernelTurn where
  | accept (clientfd : ℤ)
  | construct
  | push
  | addConnection (ctl : ℤ)
  | sweep
  | epollWait (batch : List (Registration × Bool))
  | event (received : Option Str) (sent : Option ℕ)
  deriving DecidableEq, Repr

def KernelTurn.turn (epfd : ℤ) : KernelTurn → Turn
  | .accept clientfd => .main (.accept clientfd)
  | .construct => .main .construct
  | .push => .main .push
  | .addConnection ctl => .main (.addConnection (Tcp.addConnection epfd ctl))
  | .sweep => .main .sweep
  | .epollWait batch => .epollWait batch
  | .event received sent => .event received sent

/-- The server after `epoll_create1` returned `epfd`. -/
def registeringServer (epfd : ℤ) : Machine EpollState KernelTurn Event where
  start := epollServer.start
  step s turn := epollStep s (turn.turn epfd)

/-- Every open connection in the list can be seen by the loop, but for the one
whose `addConnection` the main thread is about to call. -/
def Served (s : Server) : Prop :=
  ∀ p ∈ s.connections, ∀ c, s.host.heap p = some c → c.status = .connected →
    s.main = .pushed p ∨ ∃ r, s.Armed r ∧ r.conn = p ∧ r.fd = c.clientfd

/-- If the main thread registers a connection now, it succeeds. -/
def Registers (epfd : ℤ) (_ : EpollState) : KernelTurn → Prop
  | .addConnection ctl => 0 ≤ epfd ∧ 0 ≤ ctl
  | _ => True

variable {s t : Server}

/-- The entry of an open connection is there as long as it is open. -/
theorem Sound.armed_of_entry (h : Sound s none) {p : ℕ} {c : Connection} {r : Registration}
    (hp : s.host.heap p = some c) (status : c.status = .connected) (hr : r ∈ s.registered)
    (own : r.conn = p) (number : r.fd = c.clientfd) : s.Armed r := by
  refine ⟨hr, ?_⟩
  rw [number, h.owns hp (.inl status), (h.files r hr).1, own]

/-- What neither lists, nor opens, nor forgets keeps the listed connections served. -/
theorem Served.of_frame (h : Served s) (sound : Sound t none)
    (old : ∀ {p c}, p ∈ t.connections → t.host.heap p = some c → c.status = .connected →
      p ∈ s.connections ∧ s.host.heap p = some c)
    (main : ∀ {p}, s.main = .pushed p → t.main = .pushed p)
    (registered : ∀ r ∈ s.registered, r ∈ t.registered) : Served t := by
  intro p listed c hp status
  obtain ⟨before, same⟩ := old listed hp status
  rcases h p before c same status with adding | ⟨r, armed, own, number⟩
  · exact .inl (main adding)
  · exact .inr ⟨r, sound.armed_of_entry hp status (registered r armed.1) own number, own, number⟩

/-- The connection that is pushed is the one that is about to be added. -/
theorem Served.push {conn : ℕ} (served : Served s) (main : s.main = .constructed conn) :
    Served { s with connections := s.connections ++ [conn], main := .pushed conn } := by
  intro p listed c hp status
  rcases List.mem_append.mp listed with before | new
  · rcases served p before c hp status with adding | entered
    · rw [main] at adding
      cases adding
    · exact .inr entered
  · rw [List.mem_singleton.mp new]
    exact .inl rfl

/-- A registration that succeeds serves its connection. -/
theorem Served.register {conn : ℕ} {c : Connection} (served : Served s)
    (main : s.main = .pushed conn) (hc : s.host.heap conn = some c)
    (sound : Sound { s with
      registered := s.registered ++ [⟨c.clientfd, conn, conn⟩]
      main := .sweeping } none) :
    Served { s with
      registered := s.registered ++ [⟨c.clientfd, conn, conn⟩]
      main := .sweeping } := by
  intro p listed d hp status
  by_cases own : p = conn
  · subst own
    cases hc.symm.trans hp
    have entered : Registration.mk c.clientfd p p ∈ s.registered ++ [⟨c.clientfd, p, p⟩] := by simp
    exact .inr ⟨_, sound.armed_of_entry hp status entered rfl rfl, rfl, rfl⟩
  · rcases served p listed d hp status with adding | ⟨r, armed, conn', number⟩
    · rw [main] at adding
      cases adding
      exact absurd rfl own
    · have entered := List.mem_append_left [⟨c.clientfd, conn, conn⟩] armed.1
      exact .inr ⟨r, sound.armed_of_entry hp status entered conn' number, conn', number⟩

/-- A registration that fails leaves its connection listed, open and unserved. -/
theorem Sound.refused_not_served {conn : ℕ} {c : Connection} (h : Sound s none)
    (main : s.main = .pushed conn) (hc : s.host.heap conn = some c)
    (status : c.status = .connected) : ¬ Served { s with main := .sweeping } := by
  intro kept
  obtain ⟨-, fresh⟩ := h.adding (.inr main)
  have listed : conn ∈ s.connections := h.listed_of_heap hc (by simp [main])
  rcases kept conn listed c hc status with adding | ⟨r, armed, own, -⟩
  · cases adding
  · exact fresh r armed.1 own

theorem Served.mainStep {turn : MainTurn} {o : List Event} (served : Served s) (h : Sound s none)
    (hs : mainStep s turn = some (t, o)) : Served t ↔ turn ≠ .addConnection false := by
  have sound := (h.mainStep hs fun _ => rfl).1
  obtain ⟨-, effect⟩ := h.mainEffect hs
  cases effect with
  | accepted clientfd main positive notOpen =>
      refine iff_of_true ?_ (by simp)
      exact served.of_frame sound (fun listed hp _ => ⟨listed, hp⟩) (by simp [main]) fun _ => id
  | nobody clientfd main =>
      refine iff_of_true ?_ (by simp)
      exact served.of_frame sound (fun listed hp _ => ⟨listed, hp⟩) (by simp [main]) fun _ => id
  | constructed clientfd main =>
      refine iff_of_true ?_ (by simp)
      refine served.of_frame sound (fun {p c} listed hp _ => ⟨listed, ?_⟩) (by simp [main])
        fun _ => id
      have other : p ≠ s.accepts := by
        rintro rfl
        exact h.live _ listed (h.fresh (Nat.le_refl _))
      exact (Function.update_of_ne other _ _).symm.trans hp
  | pushed conn main => exact iff_of_true (served.push main) (by simp)
  | registered conn c main hc status => exact iff_of_true (served.register main hc sound) (by simp)
  | refused conn c main hc status =>
      exact iff_of_false (h.refused_not_served main hc status) (by simp)
  | swept main =>
      refine iff_of_true ?_ (by simp)
      refine served.of_frame sound (fun {p c} listed hp _ => ⟨(List.mem_filter.mp listed).1, ?_⟩)
        (by simp [main]) fun _ => id
      rcases sweep_heap s.host s.connections p with same | ⟨gone, -⟩
      · exact same.symm.trans hp
      · rw [gone] at hp
        cases hp

/-- The loop thread hangs up on a connection or leaves all as they are. -/
theorem Served.event {p : ℕ} {readable : Bool} {received : Option Str} {sent : Option ℕ}
    {c : Connection} (served : Served s) (h : Sound s none) (hp : s.host.heap p = some c)
    (status : c.status = .connected) (entered : ∃ r ∈ s.registered, r.conn = p) :
    Served { s with host := (handleEvent p readable received sent s.host).1 } := by
  obtain ⟨es, -, eq | eq⟩ :=
    handleEvent_connected hp status (h.positive hp) readable received sent
  · rw [eq]
    exact served
  · rw [eq]
    obtain ⟨r, hr, rfl⟩ := entered
    have sound := h.hangUp hp status (h.registered_old hr)
    refine served.of_frame sound (fun {q d} listed hq connected => ⟨listed, ?_⟩) id fun _ => id
    have other : q ≠ r.conn := by
      rintro rfl
      cases (Function.update_self _ _ _).symm.trans hq
      cases connected
    exact (Function.update_of_ne other _ _).symm.trans hq

theorem addConnection_eq_true {epfd ctl : ℤ} :
    addConnection epfd ctl = true ↔ 0 ≤ epfd ∧ 0 ≤ ctl := by
  unfold addConnection
  split
  · simp
    omega
  · split <;> simp <;> omega

/-- A turn of the server keeps the listed connections served unless a registration fails. -/
theorem Owning.served_iff {s t : EpollState} {turn : Turn} {o : List Event} (h : Owning s)
    (served : Served s.server) (hs : epollStep s turn = some (t, o)) :
    Served t.server ↔ turn ≠ .main (.addConnection false) := by
  cases turn with
  | main main =>
      obtain ⟨r, step, eq⟩ := Option.map_eq_some_iff.mp hs
      cases eq
      rw [served.mainStep h.sound step, ne_eq, ne_eq, Turn.main.injEq]
  | epollWait batch =>
      refine iff_of_true ?_ (by simp)
      simp only [epollStep] at hs
      split at hs
      · obtain ⟨-, eq⟩ := Option.ite_none_right_eq_some.mp hs
        cases eq
        exact served
      · cases hs
  | event received sent =>
      refine iff_of_true ?_ (by simp)
      simp only [epollStep] at hs
      split at hs
      · cases hs
      · rename_i p readable rest events
        cases hs
        have waiting := h.waiting
        rw [events] at waiting
        obtain ⟨c, hp, status⟩ := waiting.connected (p, readable) List.mem_cons_self
        exact served.event h.sound hp status
          (waiting.registered (p, readable) List.mem_cons_self)

theorem registering_step_iff {epfd : ℤ} {s t : EpollState} {turn : KernelTurn} {o : List Event}
    (h : Owning s) (served : Served s.server) (hs : epollStep s (turn.turn epfd) = some (t, o)) :
    Served t.server ↔ Registers epfd s turn := by
  rw [h.served_iff served hs]
  cases turn with
  | addConnection ctl =>
      rw [Registers, ← addConnection_eq_true, KernelTurn.turn]
      cases addConnection epfd ctl <;> simp
  | _ => simp [KernelTurn.turn, Registers]

/-- For every result of `epoll_create1` and of each `epoll_ctl`, and every schedule of the
main thread and the loop thread, a `readData` being one turn: in all states of the run the
open connections in the list can be seen by the loop if and only if every registration in
the run succeeds. -/
theorem listed_are_registered_iff (epfd : ℤ) {turns : List KernelTurn} {s : EpollState}
    {es : List Event} (run : (registeringServer epfd).Reaches turns s es) :
    (registeringServer epfd).Always (fun s => Served s.server) turns ↔
      (registeringServer epfd).Meets (Registers epfd) turns := by
  have start : Owning (registeringServer epfd).start ∧
      Served (registeringServer epfd).start.server :=
    ⟨owning_start, fun p listed => (List.not_mem_nil listed).elim⟩
  exact run.always_iff_meets (J := fun s => Owning s ∧ Served s.server) start And.right
    (fun kept hs registers => ⟨(kept.1.step hs).1,
      (registering_step_iff kept.1 kept.2 hs).mpr registers⟩)
    fun kept hs not served => not ((registering_step_iff kept.1 kept.2 hs).mp served)

/-- One client is added, talks and leaves. -/
theorem listed_are_registered_iff_client :
    ∃ turns s es, (registeringServer 3).Reaches turns s es ∧ s.server.host.closed 0 = true ∧
      ((registeringServer 3).Always (fun s => Served s.server) turns ↔
        (registeringServer 3).Meets (Registers 3) turns) := by
  have run : (registeringServer 3).Reaches
      [.accept 7, .construct, .push, .addConnection 0, .epollWait [(⟨7, 0, 0⟩, true)],
        .event (some (bytes "hello\n")) (some 7), .epollWait [(⟨7, 0, 0⟩, true)],
        .event (some []) none] _ _ := rfl
  exact ⟨_, _, _, run, rfl, listed_are_registered_iff 3 run⟩

/-- A client whose `epoll_ctl` fails stays in the list, open and out of sight. -/
theorem listed_not_registered :
    ¬ ∀ epfd turns s es, (registeringServer epfd).Reaches turns s es → Served s.server := by
  intro claim
  have run : (registeringServer 3).Reaches
      [.accept 7, .construct, .push, .addConnection (-1), .sweep] _ _ := rfl
  rcases claim 3 _ _ _ run 0 (by decide) _ rfl rfl with pushed | ⟨r, armed, -⟩
  · cases pushed
  · exact (List.not_mem_nil armed.1).elim

end StudyCode.Tcp

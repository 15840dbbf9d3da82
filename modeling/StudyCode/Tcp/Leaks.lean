import StudyCode.Tcp.Registering

/-!
# What the server gives back

An open descriptor is in the hands of the main thread or of a connected object that the
loop watches, and is closed by the `readData` that finds the client gone; an object is in
`g_connections` or about to be pushed there, and is destroyed by the first sweep after
that. A connection whose registration fails is left out: nobody reads it any more. As in
`epollServer`, a `readData` is one turn.
-/
namespace StudyCode.Tcp
open StudyCode.ByteString StudyCode.Scheduled

/-- `p` was made, and is destroyed. -/
def Server.Gone (s : Server) (p : ℕ) : Prop := p < s.accepts ∧ s.host.heap p = none

variable {s t : EpollState} {turn : Turn} {o : List Event} {p : ℕ}

theorem Effect.gone (effect : Effect s t o) (gone : s.server.Gone p) : t.server.Gone p := by
  obtain ⟨old, empty⟩ := gone
  cases effect with
  | main frame =>
      refine ⟨Nat.lt_of_lt_of_le old frame.accepts, ?_⟩
      rcases frame.heap old with same | ⟨none, -⟩
      · exact same.trans empty
      · exact none
  | talk q c es hq status talk eq =>
      rw [eq]
      exact ⟨old, empty⟩
  | hangUp q c es hq status talk eq =>
      rw [eq]
      have other : p ≠ q := by
        rintro rfl
        rw [empty] at hq
        cases hq
      exact ⟨old, (Function.update_of_ne other _ _).trans empty⟩

/-- The sweep destroys whatever is closed. -/
theorem Owning.swept (h : Owning s) (hs : epollStep s (.main .sweep) = some (t, o))
    (done : s.server.Finished p) : t.server.Gone p := by
  obtain ⟨r, step, eq⟩ := Option.map_eq_some_iff.mp hs
  cases eq
  obtain ⟨old, closed⟩ := done
  obtain ⟨-, effect⟩ := h.sound.mainEffect step
  have accepts : p < r.1.accepts :=
    Nat.lt_of_lt_of_le old (h.sound.mainStep step fun _ => rfl).2.2.accepts
  obtain ⟨server, events⟩ := r
  cases effect with
  | swept main =>
      refine ⟨accepts, ?_⟩
      rcases sweep_heap s.server.host s.server.connections p with same | ⟨gone, -⟩
      · cases hp : s.server.host.heap p with
        | none => exact same.trans hp
        | some c =>
            have listed := h.sound.listed_of_heap hp (by simp [main])
            exact if_pos ⟨listed, closed_eq_true.mpr ⟨c, hp, closed c hp⟩⟩
      · exact gone

/-- Without a failed registration the loop watches the connected objects. -/
theorem reaches_served {turns : List Turn} {os : List Event}
    (run : epollServer.Reaches turns s os) (entered : .main (.addConnection false) ∉ turns) :
    Served s.server := by
  refine run.induct (P := fun turns s _ => .main (.addConnection false) ∉ turns → Served s.server)
    ?_ ?_ entered
  · exact fun _ p listed => (List.not_mem_nil listed).elim
  · intro turns s os turn t o before ih hs entered
    have served := ih fun member => entered (List.mem_append_left _ member)
    refine ((reaches_owning before).served_iff served hs).mpr ?_
    rintro rfl
    exact entered (List.mem_append_right _ (List.mem_singleton_self _))

/-- The owner of an open descriptor, and who looks after it. -/
theorem Owning.descriptor (h : Owning s) {fd : ℤ} (hp : s.server.host.fds fd = some p) :
    s.server.main = .accepted fd ∨
      ∃ c, s.server.host.heap p = some c ∧ c.clientfd = fd ∧ c.status = .connected ∧
        (s.server.main = .constructed p ∨ s.server.main = .pushed p ∨
          (Served s.server → s.server.Armed ⟨fd, p, p⟩)) := by
  rcases h.sound.owned hp with ⟨accepted, -⟩ | ⟨c, hc, rfl, status | closing⟩
  · exact .inl accepted
  · refine .inr ⟨c, hc, rfl, status, ?_⟩
    rcases h.sound.kept (hc ▸ Option.some_ne_none c) with constructed | listed
    · exact .inl constructed
    · by_cases adding : s.server.main = .pushed p
      · exact .inr (.inl adding)
      · refine .inr (.inr fun served => ?_)
        obtain ⟨⟨fd, file, conn⟩, armed, rfl, rfl⟩ :=
          (served p listed c hc status).resolve_left adding
        obtain rfl : file = conn := (h.sound.files _ armed.1).1
        exact armed
  · cases closing

/-- `recv` finds the end of the stream or fails, or `send` fails. -/
def LetsGo (received : Option Str) (sent : Option ℕ) : Prop :=
  received = none ∨ received = some [] ∨ sent = none

theorem readData_letsGo {h : Host} {c : Connection} (hp : h.heap p = some c)
    (status : c.status = .connected) (positive : 0 < c.clientfd) {received : Option Str}
    {sent : Option ℕ} (go : LetsGo received sent) :
    (readData p received sent h).1 = h.hangUp p c := by
  have hangs := closeConnection_connected hp status positive
  have ended : received = none ∨ received = some [] →
      (readData p received sent h).1 = h.hangUp p c := by
    intro ended
    rw [readData_ended hp status ended, hangs]
  rcases go with none | empty | rfl
  · exact ended (.inl none)
  · exact ended (.inr empty)
  · match received with
    | none => exact ended (.inl rfl)
    | some [] => exact ended (.inr rfl)
    | some (b :: bs) => rw [readData_data hp status, sendData_failed hp status, hangs]

/-- The next event lets a client go: its descriptor is closed in that turn. -/
theorem Owning.event_letsGo (h : Owning s) {rest : List (ℕ × Bool)}
    (events : s.events = (p, true) :: rest) {received : Option Str} {sent : Option ℕ}
    (go : LetsGo received sent) :
    ∃ c t o, s.server.host.heap p = some c ∧ epollStep s (.event received sent) = some (t, o) ∧
      t.server.host.closed p = true ∧ t.server.host.fds c.clientfd = none := by
  have waiting := h.waiting
  rw [events] at waiting
  obtain ⟨c, hp, status⟩ := waiting.connected (p, true) List.mem_cons_self
  have hangs : (handleEvent p true received sent s.server.host).1 = s.server.host.hangUp p c := by
    rw [← readData_letsGo hp status (h.sound.positive hp) go]
    simp [handleEvent, withThis, hp, status]
  refine ⟨c, _, _, hp, by simp only [epollStep, events]; rfl, ?_⟩
  simp only [hangs, Host.hangUp]
  exact ⟨closed_eq_true.mpr ⟨_, Function.update_self _ _ _, rfl⟩, Function.update_self _ _ _⟩

/-- `epoll_wait` may report a connection that the loop watches. -/
theorem epollWait_armed {r : Registration} (armed : s.server.Armed r) (waits : s.events = []) :
    ∃ t, epollStep s (.epollWait [(r, true)]) = some (t, []) ∧ t.events = [(r.conn, true)] := by
  have ready : s.server.Ready [(r, true)] := by
    refine ⟨by simp [maxEvents], by simp, ?_⟩
    intro r' member
    rw [List.mem_singleton.mp member]
    exact armed
  exact ⟨_, by simp only [epollStep, waits, ready, if_true]; rfl, rfl⟩

/-- What is closed is gone and off the list after the next sweep. -/
theorem closed_swept {turns more : List Turn} {os os' : List Event}
    (run : epollServer.Reaches turns s os) (closed : s.server.host.closed p = true)
    (run' : epollServer.Reaches (turns ++ more) t os') (swept : .main .sweep ∈ more) :
    t.server.host.heap p = none ∧ p ∉ t.server.connections := by
  have sound := (reaches_owning run).sound
  obtain ⟨c, hc, status⟩ := closed_eq_true.mp closed
  have old : p < s.server.accepts := by
    by_contra late
    rw [sound.fresh (Nat.le_of_not_lt late)] at hc
    cases hc
  have done : s.server.Finished p := by
    refine ⟨old, fun d hd => ?_⟩
    rw [hc] at hd
    cases hd
    exact status
  obtain ⟨first, last, rfl⟩ := List.append_of_mem swept
  have split : turns ++ (first ++ .main .sweep :: last) =
      (turns ++ first ++ [.main .sweep]) ++ last := by simp
  rw [split] at run'
  obtain ⟨u, ou, hu⟩ := run'.of_append
  obtain ⟨v, ov, o, hv, step, -⟩ := Machine.reaches_snoc.mp hu
  have still := run.later (P := fun s => s.server.Finished p)
    (fun before done hs => ((reaches_owning before).step hs).2.finished done) done hv
  have gone := hu.later (P := fun s => s.server.Gone p)
    (fun before gone hs => ((reaches_owning before).step hs).2.gone gone)
    ((reaches_owning hv).swept step still) run'
  exact ⟨gone.2, fun listed => (reaches_owning run').sound.live p listed gone.2⟩

/-- In every state that the main thread and the loop thread can reach, a `readData` being
one turn. Each open descriptor was just accepted, or belongs to a connected object that
the main thread is still setting up or the loop watches, unless a registration has failed
in the run. What the loop watches `epoll_wait` may report, and when the loop comes to the
event and the client is gone or takes no answer, the descriptor is closed in that turn.
Each object is listed, once, or about to be, and one that is closed is destroyed and off
the list from the next sweep on, for good. -/
theorem server_gives_back {turns : List Turn} {os : List Event}
    (run : epollServer.Reaches turns s os) :
    (∀ fd p, s.server.host.fds fd = some p → s.server.main = .accepted fd ∨
      ∃ c, s.server.host.heap p = some c ∧ c.clientfd = fd ∧ c.status = .connected ∧
        (s.server.main = .constructed p ∨ s.server.main = .pushed p ∨
          s.server.Armed ⟨fd, p, p⟩ ∨ .main (.addConnection false) ∈ turns)) ∧
    (∀ r, s.server.Armed r → s.events = [] →
      ∃ t, epollStep s (.epollWait [(r, true)]) = some (t, []) ∧ t.events = [(r.conn, true)]) ∧
    (∀ p rest, s.events = (p, true) :: rest → ∀ received sent, LetsGo received sent →
      ∃ c t o, s.server.host.heap p = some c ∧ epollStep s (.event received sent) = some (t, o) ∧
        t.server.host.closed p = true ∧ t.server.host.fds c.clientfd = none) ∧
    s.server.connections.Nodup ∧
    (∀ p, s.server.host.heap p ≠ none →
      s.server.main = .constructed p ∨ p ∈ s.server.connections) ∧
    ∀ p, s.server.host.closed p = true → ∀ more t os', epollServer.Reaches (turns ++ more) t os' →
      .main .sweep ∈ more → t.server.host.heap p = none ∧ p ∉ t.server.connections := by
  have owning := reaches_owning run
  refine ⟨?_, fun r => epollWait_armed,
    fun p rest events received sent => owning.event_letsGo events, owning.sound.listed,
    fun p => owning.sound.kept, fun p closed more t os' run' => closed_swept run closed run'⟩
  intro fd p hp
  rcases owning.descriptor hp with accepted | ⟨c, hc, number, status, held⟩
  · exact .inl accepted
  · refine .inr ⟨c, hc, number, status, ?_⟩
    by_cases refused : .main (.addConnection false) ∈ turns
    · exact .inr (.inr (.inr refused))
    · rcases held with constructed | pushed | watched
      · exact .inl constructed
      · exact .inr (.inl pushed)
      · exact .inr (.inr (.inl (watched (reaches_served run refused))))

/-- A client whose end the loop is about to find, and the sweep after the next accept. -/
theorem server_gives_back_left :
    ∃ turns s os, epollServer.Reaches turns s os ∧ s.server.Armed ⟨7, 0, 0⟩ ∧
      s.events = [(0, true)] ∧
      (∃ c t o, s.server.host.heap 0 = some c ∧ epollStep s (.event (some []) none) = some (t, o) ∧
        t.server.host.closed 0 = true ∧ t.server.host.fds c.clientfd = none) ∧
      ∃ u os' v os'', epollServer.Reaches (turns ++ [.event (some []) none]) u os' ∧
        epollServer.Reaches (turns ++ [.event (some []) none] ++
          [.main (.accept (-1)), .main .sweep]) v os'' ∧ v.server.host.heap 0 = none := by
  have run : epollServer.Reaches
      [.main (.accept 7), .main .construct, .main .push, .main (.addConnection true),
        .main .sweep, .epollWait [(⟨7, 0, 0⟩, true)]] _ _ := rfl
  have left : epollServer.Reaches
      ([.main (.accept 7), .main .construct, .main .push, .main (.addConnection true),
        .main .sweep, .epollWait [(⟨7, 0, 0⟩, true)]] ++ [.event (some []) none]) _ _ := rfl
  have later : epollServer.Reaches
      ([.main (.accept 7), .main .construct, .main .push, .main (.addConnection true),
        .main .sweep, .epollWait [(⟨7, 0, 0⟩, true)]] ++ [.event (some []) none] ++
        [.main (.accept (-1)), .main .sweep]) _ _ := rfl
  exact ⟨_, _, _, run, by decide, rfl,
    (server_gives_back run).2.2.1 0 _ rfl (some []) none (.inr (.inl rfl)), _, _, _, _, left, later,
    ((server_gives_back left).2.2.2.2.2 0 rfl _ _ _ later (by decide)).1⟩

end StudyCode.Tcp

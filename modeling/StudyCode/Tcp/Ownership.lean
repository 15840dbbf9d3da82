import StudyCode.Tcp.ServerInvariant

/-!
# The server closes what it owns, once

Between its turns the loop thread has no connection half closed, so `Sound`
holds with nothing closing, and what waits in its batch is connected. From that
every `close` is made by the owner of the number.
-/
namespace StudyCode.Tcp
open StudyCode.ByteString StudyCode.Scheduled

structure Owning (s : EpollState) : Prop where
  sound : Sound s.server none
  waiting : Waiting s.server s.events

/-- A turn leaves the host to the main thread, or lets one waiting connection
talk and then perhaps close. -/
inductive Effect (s t : EpollState) : List Event → Prop
  | main : Frame s.server t.server → Effect s t []
  | talk (p : ℕ) (c : Connection) (es : List Event) : s.server.host.heap p = some c →
      c.status = .connected → Talk p c es → t.server = s.server → Effect s t es
  | hangUp (p : ℕ) (c : Connection) (es : List Event) : s.server.host.heap p = some c →
      c.status = .connected → Talk p c es →
      t.server = { s.server with host := s.server.host.hangUp p c } →
      Effect s t (es ++ [.close p c.clientfd (some p)])

theorem Owning.step {s t : EpollState} {turn : Turn} {o : List Event} (h : Owning s)
    (hs : epollStep s turn = some (t, o)) : Owning t ∧ Effect s t o := by
  cases turn with
  | main turn =>
      obtain ⟨r, step, eq⟩ := Option.map_eq_some_iff.mp hs
      cases eq
      obtain ⟨sound, silent, frame⟩ := h.sound.mainStep step fun _ => rfl
      rw [silent]
      exact ⟨⟨sound, h.waiting.frame h.sound frame⟩, .main frame⟩
  | epollWait batch =>
      simp only [epollStep] at hs
      split at hs
      · obtain ⟨ready, eq⟩ := Option.ite_none_right_eq_some.mp hs
        cases eq
        exact ⟨⟨h.sound, h.sound.waiting_of_ready ready⟩,
          .main (frame_of_heap rfl rfl fun _ => id)⟩
      · cases hs
  | event received sent =>
      simp only [epollStep] at hs
      split at hs
      · cases hs
      · rename_i p readable rest events
        cases hs
        have waiting := h.waiting
        rw [events] at waiting
        obtain ⟨c, hp, status⟩ := waiting.connected (p, readable) List.mem_cons_self
        obtain ⟨r, hr, rfl⟩ := waiting.registered (p, readable) List.mem_cons_self
        obtain ⟨other, rest⟩ := waiting.tail
        have mine := h.sound.owns hp (.inl status)
        obtain ⟨es, talk, eq | eq⟩ :=
          handleEvent_connected hp status (h.sound.positive hp) readable received sent
        · rw [eq]
          exact ⟨⟨h.sound, rest⟩, .talk r.conn c es hp status talk rfl⟩
        · rw [eq, mine]
          exact ⟨⟨h.sound.hangUp hp status (h.sound.registered_old hr),
              rest.of_heap other (fun q ne => Function.update_of_ne ne _ _) rfl⟩,
            .hangUp r.conn c es hp status talk rfl⟩

theorem owning_start : Owning epollServer.start :=
  ⟨sound_start, waiting_nil _⟩

theorem reaches_owning {turns : List Turn} {s : EpollState} {os : List Event}
    (run : epollServer.Reaches turns s os) : Owning s :=
  run.invariant (P := Owning) owning_start fun h hs => (h.step hs).1

/-! ## Runs -/

/-- A system call that respects who owns the descriptor and who still talks. -/
def Event.Proper : Event → Prop
  | .recv _ _ status => status = .connected
  | .send _ _ status _ => status = .connected
  | .close conn _ file => file = some conn
  | .dangling _ => False

def Event.closedBy (p : ℕ) : Event → Bool
  | .close conn _ _ => conn = p
  | _ => false

/-- `p` may still make its one call of `close`: it is connected, or not made yet. -/
def Server.MayClose (s : Server) (p : ℕ) : Prop :=
  s.accepts ≤ p ∨ ∃ c, s.host.heap p = some c ∧ c.status = .connected

/-- `p` is closed, or was and is destroyed. -/
def Server.Finished (s : Server) (p : ℕ) : Prop :=
  p < s.accepts ∧ ∀ c, s.host.heap p = some c → c.status = .closed

theorem Talk.proper {p : ℕ} {c : Connection} {es : List Event} (talk : Talk p c es) :
    ∀ e ∈ es, e.Proper := by
  intro e he
  rcases talk e he with rfl | ⟨msg, rfl⟩ <;> rfl

theorem Talk.countP {p q : ℕ} {c : Connection} {es : List Event} (talk : Talk p c es) :
    es.countP (Event.closedBy q) = 0 := by
  refine List.countP_eq_zero.mpr fun e he => ?_
  rcases talk e he with rfl | ⟨msg, rfl⟩ <;> simp [Event.closedBy]

theorem Effect.proper {s t : EpollState} {o : List Event} (effect : Effect s t o) :
    ∀ e ∈ o, e.Proper := by
  cases effect with
  | main frame => simp
  | talk p c es hp status talk eq => exact talk.proper
  | hangUp p c es hp status talk eq =>
      intro e he
      rcases List.mem_append.mp he with said | closed
      · exact talk.proper e said
      · rw [List.mem_singleton.mp closed]
        rfl

theorem Effect.finished {s t : EpollState} {o : List Event} {p : ℕ} (effect : Effect s t o)
    (done : s.server.Finished p) : t.server.Finished p := by
  obtain ⟨old, closed⟩ := done
  cases effect with
  | main frame =>
      refine ⟨Nat.lt_of_lt_of_le old frame.accepts, fun c hc => ?_⟩
      rcases frame.heap old with same | ⟨gone, -⟩
      · exact closed c (same ▸ hc)
      · rw [gone] at hc
        cases hc
  | talk q d es hq status talk eq =>
      rw [eq]
      exact ⟨old, closed⟩
  | hangUp q d es hq status talk eq =>
      rw [eq]
      refine ⟨old, fun c hc => ?_⟩
      change Function.update s.server.host.heap q _ p = some c at hc
      by_cases own : p = q
      · subst own
        rw [Function.update_self] at hc
        cases hc
        rfl
      · rw [Function.update_of_ne own] at hc
        exact closed c hc

/-- Closing takes the right to close, and no turn gives it back. -/
theorem Effect.mayClose {s t : EpollState} {o : List Event} {p : ℕ} (h : Owning s)
    (effect : Effect s t o) :
    o.countP (Event.closedBy p) = 0 ∧ (t.server.MayClose p → s.server.MayClose p) ∨
      o.countP (Event.closedBy p) = 1 ∧ s.server.MayClose p ∧ ¬ t.server.MayClose p := by
  cases effect with
  | main frame =>
      refine .inl ⟨rfl, ?_⟩
      rintro (new | ⟨c, hc, status⟩)
      · exact .inl (Nat.le_trans frame.accepts new)
      · by_cases old : p < s.server.accepts
        · rcases frame.heap old with same | ⟨gone, -⟩
          · exact .inr ⟨c, same ▸ hc, status⟩
          · rw [gone] at hc
            cases hc
        · exact .inl (Nat.le_of_not_lt old)
  | talk q d es hq status talk eq =>
      rw [eq]
      exact .inl ⟨talk.countP, id⟩
  | hangUp q d es hq status talk eq =>
      rw [eq, List.countP_append, talk.countP]
      by_cases own : p = q
      · subst own
        refine .inr ⟨by simp [Event.closedBy], .inr ⟨d, hq, status⟩, ?_⟩
        rintro (new | ⟨c, hc, alive⟩)
        · rw [h.sound.fresh new] at hq
          cases hq
        · change Function.update s.server.host.heap p _ p = some c at hc
          rw [Function.update_self] at hc
          cases hc
          cases alive
      · refine .inl ⟨by simp [Event.closedBy, Ne.symm own], ?_⟩
        rintro (new | ⟨c, hc, alive⟩)
        · exact .inl new
        · change Function.update s.server.host.heap q _ p = some c at hc
          rw [Function.update_of_ne own] at hc
          exact .inr ⟨c, hc, alive⟩

/-- What the trace says about the calls of `close` made by `p`. -/
theorem reaches_closes {turns : List Turn} {s : EpollState} {os : List Event}
    (run : epollServer.Reaches turns s os) (p : ℕ) :
    os.countP (Event.closedBy p) = 0 ∨
      os.countP (Event.closedBy p) = 1 ∧ ¬ s.server.MayClose p := by
  refine run.induct (P := fun _ s os => os.countP (Event.closedBy p) = 0 ∨
    os.countP (Event.closedBy p) = 1 ∧ ¬ s.server.MayClose p) (.inl rfl) ?_
  intro turns s os turn t o before ih hs
  rw [List.countP_append]
  rcases ((reaches_owning before).step hs).2.mayClose (p := p) (reaches_owning before) with
    ⟨none, back⟩ | ⟨one, may, never⟩
  · rw [none]
    exact ih.imp_right fun done => ⟨done.1, fun may => done.2 (back may)⟩
  · rcases ih with zero | ⟨-, not⟩
    · exact .inr ⟨by omega, never⟩
    · exact absurd may not

theorem reaches_proper {turns : List Turn} {s : EpollState} {os : List Event}
    (run : epollServer.Reaches turns s os) : ∀ e ∈ os, e.Proper :=
  run.forall_mem fun before hs => ((reaches_owning before).step hs).2.proper

/-- In every state that the main thread and the loop thread can reach in any
interleaving of their method calls: each connected `Connection` owns its open
descriptor and shares its number with no other; what is closed stays closed as
long as the run goes on; every `recv` and `send` was issued by a connected one,
every `close` by the owner of the number at that moment, none by a destroyed
object; and no `Connection` closes twice. -/
theorem descriptor_ownership {turns : List Turn} {s : EpollState} {os : List Event}
    (run : epollServer.Reaches turns s os) :
    (∀ p c, s.server.host.heap p = some c → c.status = .connected →
      s.server.host.fds c.clientfd = some p) ∧
    (∀ p q c d, s.server.host.heap p = some c → s.server.host.heap q = some d →
      c.status = .connected → d.status = .connected → c.clientfd = d.clientfd → p = q) ∧
    (∀ more t os', epollServer.Reaches (turns ++ more) t os' →
      ∀ p c, s.server.host.heap p = some c → c.status = .closed →
        ∀ d, t.server.host.heap p = some d → d.status = .closed) ∧
    (∀ e ∈ os, e.Proper) ∧
    ∀ p, os.countP (Event.closedBy p) ≤ 1 := by
  have sound := (reaches_owning run).sound
  refine ⟨fun p c hp status => sound.owns hp (.inl status), ?_, ?_, reaches_proper run, ?_⟩
  · intro p q c d hp hq status status' same
    have mine := sound.owns hp (.inl status)
    rw [same, sound.owns hq (.inl status')] at mine
    exact (Option.some.inj mine).symm
  · intro more t os' run' p c hp closed
    have old : p < s.server.accepts := by
      by_contra late
      rw [sound.fresh (Nat.le_of_not_lt late)] at hp
      cases hp
    have done : s.server.Finished p := ⟨old, fun d hd => by
      rw [hp] at hd
      cases hd
      exact closed⟩
    have later := run.later (P := fun s => s.server.Finished p)
      (fun before done hs => ((reaches_owning before).step hs).2.finished done) done run'
    exact later.2
  · intro p
    rcases reaches_closes run p with none | ⟨one, -⟩ <;> omega

/-- Descriptor 7 is closed by its first client and handed to a second one
before the first object is swept out. -/
theorem descriptor_ownership_reused :
    ∃ turns s os, epollServer.Reaches turns s os ∧ s.server.host.fds 7 = some 1 ∧
      os = [.recv 0 7 .connected, .close 0 7 (some 0)] ∧
      ∀ p, os.countP (Event.closedBy p) ≤ 1 := by
  have run : epollServer.Reaches
      [.main (.accept 7), .main .construct, .main .push, .main (.addConnection true),
        .main .sweep, .epollWait [(⟨7, 0, 0⟩, true)], .event (some []) none,
        .main (.accept 7), .main .construct, .main .push, .main (.addConnection true),
        .main .sweep] _ _ := rfl
  exact ⟨_, _, _, run, rfl, rfl, (descriptor_ownership run).2.2.2.2⟩

end StudyCode.Tcp

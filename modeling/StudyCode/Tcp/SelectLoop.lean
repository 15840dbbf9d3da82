import StudyCode.Tcp.Clients

/-!
# `SelectLoop`

The loop copies its set under the lock, hands the copy to `select` and walks over
`m_connections` itself, one connection in a turn. The main thread may act between any
two of its turns; a `readData` is one turn. `m_readFds` is the list of the numbers in
the set; nothing is ever taken out of it. `FD_SET` writes outside the set for a number
from `FD_SETSIZE` on, a `push_back` changes the list under a walk that is going on,
and a destroyed object is past use: after each of the three nothing is known of the
loop.
-/
namespace StudyCode.Tcp
open StudyCode.ByteString StudyCode.Scheduled

def fdSetSize : ℤ := 1024

inductive SelectThread where
  | idle
  | copied (tempFds : List ℤ)
  /-- `ready` is what `select` left in the set, `place` the next one of `m_connections` -/
  | walking (ready : List ℤ) (place : ℕ)
  | lost
  deriving DecidableEq, Repr

def SelectThread.isWalking : SelectThread → Bool
  | .walking _ _ => true
  | _ => false

structure SelectState where
  clients : Clients
  readFds : List ℤ
  maxFd : ℤ
  connections : List ℕ
  loop : SelectThread

inductive SelectTurn where
  | client (turn : ClientTurn)
  | addConnection (conn : ℕ)
  | copy
  /-- `readable` are the numbers with something to read -/
  | select (readable : ℤ → Bool)
  /-- `received` and `sent` are what `recv` and `send` return where it calls `readData` -/
  | visit (received : Option Str) (sent : Option ℕ)

/-- `select` on the numbers below `nfds`: `none` for -1 where one is not open. -/
def select (h : Host) (nfds : ℤ) (set : List ℤ) (readable : ℤ → Bool) : Option (List ℤ) :=
  let watched := set.filter (· < nfds)
  if ∀ fd ∈ watched, (h.fds fd).isSome then some (watched.filter readable) else none

def selectStep (s : SelectState) : SelectTurn → Option (SelectState × List LoopEvent)
  | .client turn =>
      (clientStep s.clients turn).map fun clients => ({ s with clients := clients }, [])
  | .addConnection conn =>
      match s.clients.host.heap conn with
      | some c =>
          some ({ s with
            readFds := if c.clientfd < fdSetSize then s.readFds.insert c.clientfd else s.readFds
            maxFd := if s.maxFd < c.clientfd then c.clientfd else s.maxFd
            connections := s.connections ++ [conn]
            loop := if c.clientfd < fdSetSize ∧ s.loop.isWalking = false then s.loop else .lost },
            [])
      | none => none
  | .copy =>
      match s.loop with
      | .idle => some ({ s with loop := .copied s.readFds }, [])
      | _ => none
  | .select readable =>
      match s.loop with
      | .copied tempFds =>
          match select s.clients.host (s.maxFd + 1) tempFds readable with
          | none | some [] => some ({ s with loop := .idle }, [])
          | some (fd :: ready) => some ({ s with loop := .walking (fd :: ready) 0 }, [])
      | _ => none
  | .visit received sent =>
      match s.loop with
      | .walking ready place =>
          match s.connections[place]? with
          | none => some ({ s with loop := .idle }, [])
          | some q =>
              match s.clients.host.heap q with
              | none => some ({ s with loop := .lost }, [.dangling q])
              | some c =>
                  if c.status = .connected ∧ c.clientfd ∈ ready then
                    some ({ s with
                      clients := { s.clients with
                        host := (readData q received sent s.clients.host).1 }
                      loop := .walking ready (place + 1) }, [.readData q])
                  else some ({ s with loop := .walking ready (place + 1) }, [])
      | _ => none

def selectServer : Machine SelectState SelectTurn LoopEvent where
  start := { clients := noClients, readFds := [], maxFd := 0, connections := [], loop := .idle }
  step := selectStep

/-! ## Iterations -/

def SelectThread.Over : SelectThread → Prop
  | .idle | .lost => True
  | _ => False

/-- The loop thread takes the turn, and is already in its iteration. -/
def SelectTurn.OfLoop : SelectTurn → Prop
  | .select _ | .visit _ _ => True
  | _ => False

/-- The turn begins no iteration and does not end `p`, whose number `fd` has something
to read. -/
def SelectTurn.Keeps (p : ℕ) (fd : ℤ) : SelectTurn → Prop
  | .copy => False
  | .select readable => readable fd = true
  | .client turn => turn ≠ .close p ∧ turn ≠ .destroy p
  | .addConnection _ | .visit _ _ => True

/-- The connection `p` is registered and connected. -/
structure SelectState.Serves (s : SelectState) (p : ℕ) (c : Connection) : Prop where
  registered : p ∈ s.connections
  live : s.clients.host.heap p = some c
  connected : c.status = .connected

/-- A whole iteration from `s` on, with what the main thread does meanwhile, in which
`p` stays and has something to read. -/
structure SelectState.Iterates (s : SelectState) (p : ℕ) (fd : ℤ) (iteration : List SelectTurn)
    (t : SelectState) (o : List LoopEvent) : Prop where
  runs : selectServer.runFrom s (.copy :: iteration) = some (t, o)
  ended : t.loop.Over
  keeps : ∀ turn ∈ iteration, turn.Keeps p fd

/-- Left alone, the loop comes to the end of an iteration, whatever is readable and
whatever `recv` and `send` return. -/
def SelectState.Finishes (s : SelectState) : Prop :=
  ∀ (readable : ℤ → Bool) (outcome : ℕ → Option Str × Option ℕ), ∃ visits t o,
    selectServer.runFrom s (.copy :: .select readable ::
      (List.range visits).map fun k => .visit (outcome k).1 (outcome k).2) = some (t, o) ∧
      t.loop.Over

/-- In every state of the run that has a registered and connected `p`, the loop is
there and can finish an iteration; and each one, of the run itself or of the loop left
alone, calls `readData` on `p` where `p` has something to read. -/
def SilencesNobody (turns : List SelectTurn) : Prop :=
  ∀ before s os, before <+: turns → selectServer.Reaches before s os → ∀ p c, s.Serves p c →
    s.loop ≠ .lost ∧ (s.loop = .idle → s.Finishes) ∧
      ∀ iteration t o,
        (before ++ .copy :: iteration <+: turns ∨ ∀ turn ∈ iteration, turn.OfLoop) →
        s.Iterates p c.clientfd iteration t o → .readData p ∈ o

/-! ## What must not happen -/

/-- The turn does nothing undefined. -/
def Defined (s : SelectState) : SelectTurn → Prop
  | .addConnection conn =>
      s.loop.isWalking = false ∧ ∀ c, s.clients.host.heap conn = some c → c.clientfd < fdSetSize
  | .visit _ _ =>
      match s.loop with
      | .walking _ place => ∀ q ∈ s.connections[place]?, s.clients.host.heap q ≠ none
      | _ => True
  | _ => True

/-- The turn does nothing undefined, and hands no set to `select` with a closed number. -/
def Smooth (s : SelectState) (turn : SelectTurn) : Prop :=
  Defined s turn ∧ ∀ readable tempFds, turn = .select readable → s.loop = .copied tempFds →
    ∀ fd ∈ tempFds, (s.clients.host.fds fd).isSome = true

/-- The loop is in an iteration and has yet to come to `p`. -/
def SelectState.Ahead (s : SelectState) (p : ℕ) : Prop :=
  match s.loop with
  | .copied _ => True
  | .walking _ place => p ∉ s.connections.take place
  | .idle | .lost => False

/-- Until the iteration comes to `p` its turns are smooth. -/
def SmoothAhead (p : ℕ) (s : SelectState) (turn : SelectTurn) : Prop := s.Ahead p → Smooth s turn

/-- Where a registered `p` is connected nothing undefined has happened, and until an
iteration comes to `p` all its turns are smooth. -/
def WayIsClear (turns : List SelectTurn) : Prop :=
  ∀ before s os, before <+: turns → selectServer.Reaches before s os → ∀ p c, s.Serves p c →
    selectServer.Meets Defined before ∧
      ∀ iteration t o,
        (before ++ .copy :: iteration <+: turns ∨ ∀ turn ∈ iteration, turn.OfLoop) →
        s.Iterates p c.clientfd iteration t o →
        selectServer.MeetsFrom (SmoothAhead p) s (.copy :: iteration)

/-! ## What a turn does -/

/-- After `addConnection`. -/
def SelectState.withConnection (s : SelectState) (conn : ℕ) (c : Connection)
    (loop : SelectThread) : SelectState :=
  { s with
    readFds := if c.clientfd < fdSetSize then s.readFds.insert c.clientfd else s.readFds
    maxFd := if s.maxFd < c.clientfd then c.clientfd else s.maxFd
    connections := s.connections ++ [conn]
    loop := loop }

inductive SelectMoves (s : SelectState) : SelectTurn → SelectState → List LoopEvent → Prop
  | client {turn : ClientTurn} {clients : Clients} : clientStep s.clients turn = some clients →
      SelectMoves s (.client turn) { s with clients := clients } []
  | added {conn : ℕ} {c : Connection} : s.clients.host.heap conn = some c →
      c.clientfd < fdSetSize → s.loop.isWalking = false →
      SelectMoves s (.addConnection conn) (s.withConnection conn c s.loop) []
  | misplaced {conn : ℕ} {c : Connection} : s.clients.host.heap conn = some c →
      ¬ (c.clientfd < fdSetSize ∧ s.loop.isWalking = false) →
      SelectMoves s (.addConnection conn) (s.withConnection conn c .lost) []
  | copied : s.loop = .idle → SelectMoves s .copy { s with loop := .copied s.readFds } []
  | nothing {readable : ℤ → Bool} {tempFds : List ℤ} : s.loop = .copied tempFds →
      (∀ fd ready,
        select s.clients.host (s.maxFd + 1) tempFds readable ≠ some (fd :: ready)) →
      SelectMoves s (.select readable) { s with loop := .idle } []
  | selected {readable : ℤ → Bool} {tempFds ready : List ℤ} {fd : ℤ} :
      s.loop = .copied tempFds →
      select s.clients.host (s.maxFd + 1) tempFds readable = some (fd :: ready) →
      SelectMoves s (.select readable) { s with loop := .walking (fd :: ready) 0 } []
  | ends {received : Option Str} {sent : Option ℕ} {ready : List ℤ} {place : ℕ} :
      s.loop = .walking ready place → s.connections[place]? = none →
      SelectMoves s (.visit received sent) { s with loop := .idle } []
  | gone {received : Option Str} {sent : Option ℕ} {ready : List ℤ} {place q : ℕ} :
      s.loop = .walking ready place → s.connections[place]? = some q →
      s.clients.host.heap q = none →
      SelectMoves s (.visit received sent) { s with loop := .lost } [.dangling q]
  | reads {received : Option Str} {sent : Option ℕ} {ready : List ℤ} {place q : ℕ}
      {c : Connection} : s.loop = .walking ready place → s.connections[place]? = some q →
      s.clients.host.heap q = some c → c.status = .connected ∧ c.clientfd ∈ ready →
      SelectMoves s (.visit received sent) { s with
        clients := { s.clients with host := (readData q received sent s.clients.host).1 }
        loop := .walking ready (place + 1) } [.readData q]
  | passes {received : Option Str} {sent : Option ℕ} {ready : List ℤ} {place q : ℕ}
      {c : Connection} : s.loop = .walking ready place → s.connections[place]? = some q →
      s.clients.host.heap q = some c → ¬ (c.status = .connected ∧ c.clientfd ∈ ready) →
      SelectMoves s (.visit received sent) { s with loop := .walking ready (place + 1) } []

theorem selectStep_moves {s t : SelectState} {turn : SelectTurn} {o : List LoopEvent}
    (hs : selectStep s turn = some (t, o)) : SelectMoves s turn t o := by
  cases turn with
  | client turn =>
      obtain ⟨clients, step, eq⟩ := Option.map_eq_some_iff.mp hs
      cases eq
      exact .client step
  | addConnection conn =>
      simp only [selectStep] at hs
      split at hs
      · rename_i c hc
        cases hs
        by_cases defined : c.clientfd < fdSetSize ∧ s.loop.isWalking = false
        · rw [if_pos defined]
          exact .added hc defined.1 defined.2
        · rw [if_neg defined]
          exact .misplaced hc defined
      · cases hs
  | copy =>
      simp only [selectStep] at hs
      split at hs
      · rename_i loop
        cases hs
        exact .copied loop
      · cases hs
  | select readable =>
      simp only [selectStep] at hs
      split at hs
      · rename_i tempFds loop
        split at hs
        · rename_i failed
          cases hs
          exact .nothing loop (by simp [failed])
        · rename_i empty
          cases hs
          exact .nothing loop (by simp [empty])
        · rename_i fd ready found
          cases hs
          exact .selected loop found
      · cases hs
  | visit received sent =>
      simp only [selectStep] at hs
      split at hs
      · rename_i ready place loop
        split at hs
        · rename_i past
          cases hs
          exact .ends loop past
        · rename_i q here
          split at hs
          · rename_i free
            cases hs
            exact .gone loop here free
          · rename_i c hq
            split at hs
            · rename_i found
              cases hs
              exact .reads loop here hq found
            · rename_i other
              cases hs
              exact .passes loop here hq other
      · cases hs

/-! ## The invariant of the set -/

/-- The set and the maximum cover the numbers of the registered connections. -/
structure SelectState.Sound (s : SelectState) : Prop where
  clients : s.clients.Sound
  registered : ∀ {p c}, p ∈ s.connections → s.clients.host.heap p = some c →
    s.loop = .lost ∨ c.clientfd ∈ s.readFds
  old : ∀ p ∈ s.connections, p < s.clients.accepts
  below : ∀ fd ∈ s.readFds, fd ≤ s.maxFd
  copied : ∀ tempFds, s.loop = .copied tempFds → ∀ fd ∈ tempFds, fd ∈ s.readFds

/-- The set lies below the limit, so `select` looks at all of it. -/
theorem SelectState.Sound.select_eq {s : SelectState} (h : s.Sound) {tempFds : List ℤ}
    (loop : s.loop = .copied tempFds) (readable : ℤ → Bool) :
    select s.clients.host (s.maxFd + 1) tempFds readable =
      if ∀ fd ∈ tempFds, (s.clients.host.fds fd).isSome = true then
        some (tempFds.filter readable)
      else none := by
  have watched : tempFds.filter (· < s.maxFd + 1) = tempFds :=
    List.filter_eq_self.mpr fun fd hfd => by
      have := h.below fd (h.copied tempFds loop fd hfd)
      simp only [decide_eq_true_eq]
      omega
  simp only [select, watched]

/-- What happens to the clients, and where the loop goes, while the set stays. -/
theorem SelectState.Sound.goesOn {s : SelectState} (h : s.Sound) {clients : Clients}
    (result : clients.Sound ∧ s.clients.Evolves clients) {loop : SelectThread}
    (same : s.loop = .lost → loop = .lost)
    (copied : ∀ tempFds, loop = .copied tempFds → ∀ fd ∈ tempFds, fd ∈ s.readFds) :
    SelectState.Sound { s with clients := clients, loop := loop } where
  clients := result.1
  registered := by
    intro p d listed hp
    obtain ⟨c, hc, number⟩ := result.2.same (h.old p listed) hp
    rcases h.registered listed hc with bad | member
    · exact .inl (same bad)
    · exact .inr (number ▸ member)
  old := fun p listed => Nat.lt_of_lt_of_le (h.old p listed) result.2.accepts
  below := h.below
  copied := copied

theorem mem_withConnection {s : SelectState} {conn : ℕ} {c : Connection} {loop : SelectThread}
    {fd : ℤ} (member : fd ∈ (s.withConnection conn c loop).readFds) :
    fd = c.clientfd ∨ fd ∈ s.readFds := by
  simp only [SelectState.withConnection] at member
  split at member
  · exact List.mem_insert_iff.mp member
  · exact .inr member

theorem SelectState.Sound.withConnection {s : SelectState} (h : s.Sound) {conn : ℕ} {c : Connection}
    (hc : s.clients.host.heap conn = some c) {loop : SelectThread}
    (after : loop = .lost ∨ c.clientfd < fdSetSize ∧ loop = s.loop) :
    (s.withConnection conn c loop).Sound where
  clients := h.clients
  registered := by
    intro p d listed hp
    rcases after with bad | ⟨inside, same⟩
    · exact .inl bad
    · have set : (s.withConnection conn c loop).readFds = s.readFds.insert c.clientfd :=
        if_pos inside
      rw [set]
      rcases List.mem_append.mp listed with old | new
      · rcases h.registered old hp with bad | member
        · exact .inl (same.trans bad)
        · exact .inr (List.mem_insert_of_mem member)
      · rw [List.mem_singleton.mp new] at hp
        cases hc.symm.trans hp
        exact .inr List.mem_insert_self
  old := by
    intro p listed
    rcases List.mem_append.mp listed with old | new
    · exact h.old p old
    · rw [List.mem_singleton.mp new]
      exact h.clients.old hc
  below := by
    intro fd member
    simp only [SelectState.withConnection]
    rcases mem_withConnection member with rfl | old
    · split <;> omega
    · have := h.below fd old
      split <;> omega
  copied := by
    intro tempFds copied fd hfd
    rcases after with bad | ⟨inside, same⟩
    · cases bad.symm.trans copied
    · have set : (s.withConnection conn c loop).readFds = s.readFds.insert c.clientfd :=
        if_pos inside
      rw [set]
      exact List.mem_insert_of_mem (h.copied tempFds (same.symm.trans copied) fd hfd)

theorem SelectState.Sound.step {s t : SelectState} {turn : SelectTurn} {o : List LoopEvent}
    (h : s.Sound) (hs : selectStep s turn = some (t, o)) : t.Sound := by
  have unchanged : s.clients.Sound ∧ s.clients.Evolves s.clients := ⟨h.clients, .refl _⟩
  cases selectStep_moves hs with
  | client step => exact h.goesOn (h.clients.step step) id h.copied
  | added hc inside still => exact h.withConnection hc (.inr ⟨inside, rfl⟩)
  | misplaced hc bad => exact h.withConnection hc (.inl rfl)
  | copied loop =>
      apply h.goesOn unchanged (by simp [loop])
      intro tempFds same fd hfd
      cases same
      exact hfd
  | nothing loop failed => exact h.goesOn unchanged (by simp [loop]) nofun
  | selected loop found => exact h.goesOn unchanged (by simp [loop]) nofun
  | ends loop past => exact h.goesOn unchanged (by simp [loop]) nofun
  | gone loop here free => exact h.goesOn unchanged (by simp [loop]) nofun
  | reads loop here hq found => exact h.goesOn (h.clients.readData hq _ _) (by simp [loop]) nofun
  | passes loop here hq other => exact h.goesOn unchanged (by simp [loop]) nofun

theorem reaches_selectSound {turns : List SelectTurn} {s : SelectState} {os : List LoopEvent}
    (run : selectServer.Reaches turns s os) : s.Sound := by
  refine run.invariant (P := SelectState.Sound) ?_ fun h hs => h.step hs
  exact {
    clients := noClients_sound
    registered := fun listed => (List.not_mem_nil listed).elim
    old := fun _ listed => (List.not_mem_nil listed).elim
    below := fun _ member => (List.not_mem_nil member).elim
    copied := nofun }

/-! ## Coming to `p` -/

/-- The loop has yet to come to the connected `p`, and goes for its number. -/
structure Heading (s : SelectState) (p : ℕ) (c : Connection) : Prop where
  sound : s.Sound
  serves : s.Serves p c
  ahead : s.Ahead p
  goes : ∀ fds, s.loop = .copied fds ∨ (∃ place, s.loop = .walking fds place) → c.clientfd ∈ fds

variable {s t : SelectState} {p : ℕ} {c : Connection} {turn : SelectTurn} {o : List LoopEvent}

/-- A turn of an iteration that has yet to come to `p`: a smooth one leaves it so or
reads `p`, and after any other the iteration is over without it. -/
def ComesTo (s : SelectState) (p : ℕ) (c : Connection) (turn : SelectTurn) (t : SelectState)
    (o : List LoopEvent) : Prop :=
  Smooth s turn ∧ (Heading t p c ∧ .readData p ∉ o ∨ ¬ t.Ahead p ∧ .readData p ∈ o) ∨
    ¬ Smooth s turn ∧ t.loop.Over ∧ .readData p ∉ o

theorem Heading.smooth_of_select (h : Heading s p c) {readable : ℤ → Bool}
    {tempFds set : List ℤ} (ready : readable c.clientfd = true) (loop : s.loop = .copied tempFds)
    (found : select s.clients.host (s.maxFd + 1) tempFds readable = some set) :
    Smooth s (.select readable) ∧ c.clientfd ∈ set := by
  rw [h.sound.select_eq loop] at found
  obtain ⟨allOpen, eq⟩ := Option.ite_none_right_eq_some.mp found
  refine ⟨⟨trivial, ?_⟩, ?_⟩
  · intro _ fds _ same
    cases loop.symm.trans same
    exact allOpen
  · rw [← Option.some.inj eq]
    exact List.mem_filter.mpr ⟨h.goes tempFds (.inl loop), ready⟩

theorem Heading.select_of_smooth (h : Heading s p c) {readable : ℤ → Bool} {tempFds : List ℤ}
    (ready : readable c.clientfd = true) (loop : s.loop = .copied tempFds)
    (smooth : Smooth s (.select readable)) :
    ∃ fd rest, select s.clients.host (s.maxFd + 1) tempFds readable = some (fd :: rest) := by
  rw [h.sound.select_eq loop, if_pos (smooth.2 readable tempFds rfl loop)]
  have member : c.clientfd ∈ tempFds.filter readable :=
    List.mem_filter.mpr ⟨h.goes tempFds (.inl loop), ready⟩
  obtain ⟨fd, rest, eq⟩ := List.exists_cons_of_ne_nil (List.ne_nil_of_mem member)
  exact ⟨fd, rest, congrArg some eq⟩

/-- The walk has gone on by one entry, which was not `p`. -/
theorem Heading.next (h : Heading s p c) {ready : List ℤ} {place q : ℕ}
    (loop : s.loop = .walking ready place) (here : s.connections[place]? = some q)
    (other : q ≠ p) (sound : t.Sound) (serves : t.Serves p c)
    (connections : t.connections = s.connections)
    (walks : t.loop = .walking ready (place + 1)) : Heading t p c := by
  refine ⟨sound, serves, ?_, ?_⟩
  · have ahead := h.ahead
    simp only [SelectState.Ahead, loop] at ahead
    simp only [SelectState.Ahead, walks, connections, List.take_add_one, here]
    simp [ahead, Ne.symm other]
  · intro fds same
    rw [walks] at same
    rcases same with copied | ⟨_, walking⟩
    · cases copied
    · cases walking
      exact h.goes ready (.inr ⟨place, loop⟩)

theorem smooth_visit {ready : List ℤ} {place q : ℕ} {d : Connection} {received : Option Str}
    {sent : Option ℕ} (loop : s.loop = .walking ready place)
    (here : s.connections[place]? = some q) (hq : s.clients.host.heap q = some d) :
    Smooth s (.visit received sent) := by
  refine ⟨?_, nofun⟩
  simp [Defined, loop, here, hq]

theorem Heading.step (h : Heading s p c) (keeps : turn.Keeps p c.clientfd)
    (hs : selectStep s turn = some (t, o)) : ComesTo s p c turn t o := by
  have sound := h.sound.step hs
  obtain ⟨registered, live, connected⟩ := h.serves
  cases selectStep_moves hs with
  | client step =>
      have still := clientStep_other h.sound.clients step live keeps.1 keeps.2
      refine .inl ⟨⟨trivial, nofun⟩, .inl ⟨⟨sound, ?_, h.ahead, h.goes⟩, List.not_mem_nil⟩⟩
      exact ⟨registered, still, connected⟩
  | @added conn d hd inside still =>
      refine .inl ⟨⟨⟨still, ?_⟩, nofun⟩, .inl ⟨⟨sound, ?_, ?_, h.goes⟩, List.not_mem_nil⟩⟩
      · intro d' hd'
        cases hd.symm.trans hd'
        exact inside
      · exact ⟨List.mem_append_left _ registered, live, connected⟩
      · have ahead := h.ahead
        revert ahead
        cases loop : s.loop <;>
          simp [SelectState.Ahead, SelectState.withConnection, loop, SelectThread.isWalking]
            at still ⊢
  | misplaced hd bad =>
      refine .inr ⟨?_, trivial, List.not_mem_nil⟩
      intro smooth
      exact bad ⟨smooth.1.2 _ hd, smooth.1.1⟩
  | copied loop => exact keeps.elim
  | nothing loop failed =>
      refine .inr ⟨?_, trivial, List.not_mem_nil⟩
      intro smooth
      obtain ⟨fd, rest, found⟩ := h.select_of_smooth keeps loop smooth
      exact failed fd rest found
  | selected loop found =>
      obtain ⟨smooth, member⟩ := h.smooth_of_select keeps loop found
      refine .inl ⟨smooth, .inl ⟨⟨sound, ⟨registered, live, connected⟩, List.not_mem_nil, ?_⟩,
        List.not_mem_nil⟩⟩
      intro fds same
      rcases same with copied | ⟨_, walking⟩
      · cases copied
      · cases walking
        exact member
  | ends loop past =>
      -- the walk would be at the end of a list that has `p`, without having come to it
      have ahead := h.ahead
      simp only [SelectState.Ahead, loop] at ahead
      rw [List.take_of_length_le (List.getElem?_eq_none_iff.mp past)] at ahead
      exact absurd registered ahead
  | gone loop here free =>
      refine .inr ⟨?_, trivial, by simp⟩
      intro smooth
      have there := smooth.1
      simp only [Defined, loop] at there
      exact there _ here free
  | @reads received sent ready place q d loop here hq found =>
      refine .inl ⟨smooth_visit loop here hq, ?_⟩
      by_cases own : q = p
      · subst own
        refine .inr ⟨?_, List.mem_singleton_self _⟩
        simp [SelectState.Ahead, List.take_add_one, here]
      · have heap := (readData_heap h.sound.clients hq received sent p).2 (Ne.symm own)
        refine .inl ⟨h.next loop here own sound ?_ rfl rfl, ?_⟩
        · exact ⟨registered, heap.trans live, connected⟩
        · simpa using Ne.symm own
  | @passes received sent ready place q d loop here hq other =>
      refine .inl ⟨smooth_visit loop here hq, .inl ⟨?_, List.not_mem_nil⟩⟩
      have own : q ≠ p := by
        intro own
        subst own
        cases hq.symm.trans live
        exact other ⟨connected, h.goes ready (.inr ⟨place, loop⟩)⟩
      exact h.next loop here own sound ⟨registered, live, connected⟩ rfl rfl

/-! ## A whole iteration -/

theorem over_not_ahead (ended : s.loop.Over) : ¬ s.Ahead p := by
  unfold SelectState.Ahead
  cases loop : s.loop <;> simp [SelectThread.Over, loop] at ended ⊢

/-- Between two iterations nothing is read. -/
theorem over_step (ended : s.loop.Over) {fd : ℤ} (keeps : turn.Keeps p fd)
    (hs : selectStep s turn = some (t, o)) : t.loop.Over ∧ o = [] := by
  cases selectStep_moves hs with
  | client step => exact ⟨ended, rfl⟩
  | added hc inside still => exact ⟨ended, rfl⟩
  | misplaced hc bad => exact ⟨trivial, rfl⟩
  | copied loop => exact keeps.elim
  | nothing loop | selected loop | ends loop | gone loop | reads loop | passes loop =>
      simp [SelectThread.Over, loop] at ended

theorem over_run {turns : List SelectTurn} {fd : ℤ} (ended : s.loop.Over)
    (keeps : ∀ turn ∈ turns, turn.Keeps p fd)
    (run : selectServer.runFrom s turns = some (t, o)) : o = [] := by
  induction turns generalizing s o with
  | nil =>
      cases run
      rfl
  | cons turn turns ih =>
      obtain ⟨⟨u, now⟩, step, mapped⟩ := Option.bind_eq_some_iff.mp run
      obtain ⟨⟨v, later⟩, ran, eq⟩ := Option.map_eq_some_iff.mp mapped
      cases eq
      obtain ⟨ended', rfl⟩ := over_step ended (keeps turn List.mem_cons_self) step
      exact ih ended' (fun turn member => keeps turn (List.mem_cons_of_mem _ member)) ran

/-- An iteration that came to `p` does not come to it again. -/
theorem passed_step (passed : ¬ s.Ahead p) {fd : ℤ} (keeps : turn.Keeps p fd)
    (hs : selectStep s turn = some (t, o)) : ¬ t.Ahead p := by
  have next : ∀ {ready place}, s.loop = .walking ready place →
      p ∈ s.connections.take (place + 1) := by
    intro ready place loop
    simp only [SelectState.Ahead, loop, not_not] at passed
    exact (List.take_prefix_take_left (Nat.le_succ place)).subset passed
  cases selectStep_moves hs with
  | client step => exact passed
  | added hc inside still =>
      revert passed
      cases loop : s.loop <;>
        simp [SelectState.Ahead, SelectState.withConnection, loop, SelectThread.isWalking]
          at still ⊢
  | misplaced hc bad => exact id
  | copied loop => exact keeps.elim
  | nothing loop failed => exact id
  | selected loop found =>
      simp only [SelectState.Ahead, loop] at passed
      exact absurd trivial passed
  | ends loop past => exact id
  | gone loop here free => exact id
  | reads loop here hq found => exact fun ahead => ahead (next loop)
  | passes loop here hq other => exact fun ahead => ahead (next loop)

/-- The rest of an iteration that has yet to come to `p`. -/
theorem Heading.reads_iff {turns : List SelectTurn} (h : Heading s p c)
    (keeps : ∀ turn ∈ turns, turn.Keeps p c.clientfd) (ended : t.loop.Over)
    (run : selectServer.runFrom s turns = some (t, o)) :
    .readData p ∈ o ↔ selectServer.MeetsFrom (SmoothAhead p) s turns := by
  induction turns generalizing s o with
  | nil =>
      cases run
      exact absurd h.ahead (over_not_ahead ended)
  | cons turn turns ih =>
      obtain ⟨⟨u, now⟩, step, mapped⟩ := Option.bind_eq_some_iff.mp run
      obtain ⟨⟨v, later⟩, ran, eq⟩ := Option.map_eq_some_iff.mp mapped
      cases eq
      have first := keeps turn List.mem_cons_self
      have others : ∀ turn ∈ turns, turn.Keeps p c.clientfd :=
        fun turn member => keeps turn (List.mem_cons_of_mem _ member)
      have cons : selectServer.MeetsFrom (SmoothAhead p) s (turn :: turns) ↔
          Smooth s turn ∧ selectServer.MeetsFrom (SmoothAhead p) u turns := by
        simp only [Machine.MeetsFrom, step, Option.mem_def, Option.some.injEq, forall_eq']
        exact and_congr_left fun _ => ⟨fun smooth => smooth h.ahead, fun smooth _ => smooth⟩
      rw [cons, List.mem_append]
      rcases h.step first step with
        ⟨smooth, ⟨heading, quiet⟩ | ⟨passed, read⟩⟩ | ⟨rough, gone, quiet⟩
      · rw [← ih heading others ran]
        exact ⟨fun reads => ⟨smooth, reads.resolve_left quiet⟩, fun reads => .inr reads.2⟩
      · refine iff_of_true (.inl read) ⟨smooth, ?_⟩
        exact Machine.meetsFrom_of_invariant (J := fun s => ¬ s.Ahead p)
          (fun member not hs => passed_step not (others _ member) hs)
          (fun _ not ahead => absurd ahead not) passed
      · refine iff_of_false ?_ fun clear => rough clear.1
        rw [over_run gone others ran]
        exact fun reads => reads.elim quiet List.not_mem_nil

theorem copy_eq (loop : s.loop = .idle) :
    selectStep s .copy = some ({ s with loop := .copied s.readFds }, []) := by
  simp only [selectStep, loop]

/-- An iteration reads `p` exactly when its turns are smooth until it comes to `p`. -/
theorem SelectState.Iterates.reads_iff {turns : List SelectTurn} (sound : s.Sound)
    (serves : s.Serves p c) (h : s.Iterates p c.clientfd turns t o) :
    .readData p ∈ o ↔ selectServer.MeetsFrom (SmoothAhead p) s (.copy :: turns) := by
  obtain ⟨⟨u, now⟩, step, mapped⟩ := Option.bind_eq_some_iff.mp h.runs
  obtain ⟨⟨v, later⟩, ran, eq⟩ := Option.map_eq_some_iff.mp mapped
  cases eq
  have loop : s.loop = .idle := by
    cases loop : s.loop <;> simp [selectServer, selectStep, loop] at step ⊢
  have copied := (copy_eq loop).symm.trans step
  cases copied
  have number := (sound.registered serves.registered serves.live).resolve_left (by simp [loop])
  have heading : Heading { s with loop := .copied s.readFds } p c := by
    refine ⟨sound.step (copy_eq loop), ⟨serves.registered, serves.live, serves.connected⟩,
      trivial, ?_⟩
    rintro fds (same | ⟨_, same⟩)
    · cases same
      exact number
    · cases same
  simp only [List.nil_append, heading.reads_iff h.keeps h.ended ran, Machine.MeetsFrom]
  constructor
  · intro clear
    refine ⟨fun ahead => ?_, ?_⟩
    · simp [SelectState.Ahead, loop] at ahead
    · intro r hr
      cases step.symm.trans hr
      exact clear
  · intro clear
    exact clear.2 _ step

/-! ## Finishing -/

/-- A visit while the walk is going on. -/
theorem visit_cases {ready : List ℤ} {place : ℕ} (loop : s.loop = .walking ready place)
    (received : Option Str) (sent : Option ℕ) :
    ∃ t o, selectStep s (.visit received sent) = some (t, o) ∧
      (t.loop.Over ∨ place < s.connections.length ∧ t.loop = .walking ready (place + 1) ∧
        t.connections = s.connections) := by
  cases here : s.connections[place]? with
  | none =>
      exact ⟨{ s with loop := .idle }, [], by simp only [selectStep, loop, here], .inl trivial⟩
  | some q =>
      have inside : place < s.connections.length := (List.getElem?_eq_some_iff.mp here).1
      cases hq : s.clients.host.heap q with
      | none =>
          exact ⟨{ s with loop := .lost }, [.dangling q], by simp only [selectStep, loop, here, hq],
            .inl trivial⟩
      | some c =>
          simp only [selectStep, loop, here, hq]
          by_cases reads : c.status = .connected ∧ c.clientfd ∈ ready
          · rw [if_pos reads]
            exact ⟨_, _, rfl, .inr ⟨inside, rfl, rfl⟩⟩
          · rw [if_neg reads]
            exact ⟨_, _, rfl, .inr ⟨inside, rfl, rfl⟩⟩

theorem visits_finish {ready : List ℤ} {place : ℕ} (loop : s.loop = .walking ready place)
    (outcome : ℕ → Option Str × Option ℕ) :
    ∃ visits t o, selectServer.runFrom s
      ((List.range visits).map fun k => .visit (outcome k).1 (outcome k).2) = some (t, o) ∧
      t.loop.Over := by
  induction left : s.connections.length - place generalizing s place outcome with
  | zero =>
      obtain ⟨t, o, step, ended | ⟨inside, -⟩⟩ := visit_cases loop (outcome 0).1 (outcome 0).2
      · exact ⟨1, t, o ++ [], Machine.runFrom_cons step rfl, ended⟩
      · omega
  | succ left ih =>
      obtain ⟨u, now, step, ended | ⟨-, next, connections⟩⟩ :=
        visit_cases loop (outcome 0).1 (outcome 0).2
      · exact ⟨1, u, now ++ [], Machine.runFrom_cons step rfl, ended⟩
      · obtain ⟨visits, t, o, ran, ended⟩ :=
          ih next (fun k => outcome (k + 1)) (by rw [connections]; omega)
        refine ⟨visits + 1, t, now ++ o, ?_, ended⟩
        rw [List.range_succ_eq_map, List.map_cons, List.map_map]
        exact Machine.runFrom_cons step ran

/-- The loop is never stuck in an iteration. -/
theorem SelectState.finishes (loop : s.loop = .idle) : s.Finishes := by
  intro readable outcome
  have copies := copy_eq loop
  cases selected : select s.clients.host (s.maxFd + 1) s.readFds readable with
  | none =>
      have step : selectStep { s with loop := .copied s.readFds } (.select readable) =
          some ({ s with loop := .idle }, []) := by simp [selectStep, selected]
      exact ⟨0, _, _, Machine.runFrom_cons copies (Machine.runFrom_cons step rfl), trivial⟩
  | some set =>
      cases set with
      | nil =>
          have step : selectStep { s with loop := .copied s.readFds } (.select readable) =
              some ({ s with loop := .idle }, []) := by simp [selectStep, selected]
          exact ⟨0, _, _, Machine.runFrom_cons copies (Machine.runFrom_cons step rfl), trivial⟩
      | cons fd ready =>
          have step : selectStep { s with loop := .copied s.readFds } (.select readable) =
              some ({ s with loop := .walking (fd :: ready) 0 }, []) := by
            simp [selectStep, selected]
          obtain ⟨visits, t, o, ran, ended⟩ :=
            visits_finish (s := { s with loop := .walking (fd :: ready) 0 }) rfl outcome
          exact ⟨visits, t, _, Machine.runFrom_cons copies (Machine.runFrom_cons step ran), ended⟩

/-! ## Who is read -/

theorem lost_step (kept : s.loop ≠ .lost) (hs : selectStep s turn = some (t, o)) :
    t.loop ≠ .lost ↔ Defined s turn := by
  cases selectStep_moves hs with
  | client step => exact iff_of_true kept trivial
  | added hc inside still =>
      refine iff_of_true kept ⟨still, ?_⟩
      intro d hd
      cases hc.symm.trans hd
      exact inside
  | misplaced hc bad => exact iff_of_false (not_not_intro rfl) fun h => bad ⟨h.2 _ hc, h.1⟩
  | copied loop => simp [Defined]
  | nothing loop failed => simp [Defined]
  | selected loop found => simp [Defined]
  | ends loop past => simp [Defined, loop, past]
  | gone loop here free => simp [Defined, loop, here, free]
  | reads loop here hq found => simp [Defined, loop, here, hq]
  | passes loop here hq other => simp [Defined, loop, here, hq]

theorem lost_forever (lost : s.loop = .lost) (hs : selectStep s turn = some (t, o)) :
    t.loop = .lost := by
  cases selectStep_moves hs with
  | client step => exact lost
  | added hc inside still => exact lost
  | misplaced hc bad => rfl
  | copied loop | nothing loop | selected loop | ends loop | gone loop | reads loop
  | passes loop => simp [lost] at loop

/-- The loop is lost exactly in the runs that did something undefined. -/
theorem lost_iff {turns : List SelectTurn} {os : List LoopEvent}
    (run : selectServer.Reaches turns s os) :
    s.loop ≠ .lost ↔ selectServer.Meets Defined turns := by
  have always := run.always_iff_meets (Q := fun s => s.loop ≠ .lost) (J := fun s => s.loop ≠ .lost)
    (C := Defined) (by decide) id (fun kept hs defined => (lost_step kept hs).mpr defined)
    fun kept hs bad still => bad ((lost_step kept hs).mp still)
  rw [← always]
  constructor
  · rintro kept before t ot ⟨rest, rfl⟩ ht lost
    exact kept (ht.later (fun _ => lost_forever) lost run)
  · intro kept
    exact kept turns s os List.prefix_rfl run

/-- Whatever clients come, leave and are destroyed, in every schedule of the two
threads: while a registered client is connected the loop is not lost and calls
`readData` on it in every iteration that finds something to read if and only if
nothing undefined has happened, and up to where each iteration comes to the client
`select` has open descriptors only, each connection visited still exists, and none is
registered during the walk. -/
theorem select_silences_nobody_iff (turns : List SelectTurn) :
    SilencesNobody turns ↔ WayIsClear turns := by
  refine forall₃_congr fun before s os => forall₂_congr fun first run =>
    forall₃_congr fun p c serves => and_congr (lost_iff run) ?_
  have sound := reaches_selectSound run
  constructor
  · rintro ⟨-, reads⟩ iteration t o taken iterates
    exact (iterates.reads_iff sound serves).mp (reads iteration t o taken iterates)
  · intro clear
    refine ⟨SelectState.finishes, fun iteration t o taken iterates => ?_⟩
    exact (iterates.reads_iff sound serves).mpr (clear iteration t o taken iterates)

/-- One of two clients leaves, and `select` fails from then on. -/
theorem select_silences_the_rest : ¬ ∀ turns, SilencesNobody turns := by
  intro all
  have run : selectServer.Reaches
      [.client (.connect 7), .addConnection 0, .client (.connect 8), .addConnection 1, .copy,
        .select (fun fd => fd == 7), .visit (some []) none, .visit none none, .visit none none]
      _ _ := rfl
  obtain ⟨-, -, reads⟩ :=
    all _ _ _ _ List.prefix_rfl run 1 ⟨8, .connected⟩ ⟨by decide, rfl, rfl⟩
  have read := reads [.select fun _ => true] _ _ (.inr (by simp [SelectTurn.OfLoop]))
    ⟨rfl, trivial, by simp [SelectTurn.Keeps]⟩
  cases read

/-! ## While nobody leaves -/

/-- The turn registers connected clients with numbers below `FD_SETSIZE` and none
during a walk, and no registered one leaves: each that is read has sent something and
takes the answer. -/
def NobodyLeaves (s : SelectState) : SelectTurn → Prop
  | .client (.close conn) => conn ∉ s.connections
  | .client (.destroy conn) => conn ∉ s.connections
  | .client (.connect _) => True
  | .addConnection conn => s.loop.isWalking = false ∧ ∀ c, s.clients.host.heap conn = some c →
      c.status = .connected ∧ c.clientfd < fdSetSize
  | .copy | .select _ => True
  | .visit received sent => ∃ b bs n, received = some (b :: bs) ∧ sent = some n

/-- Everybody registered is connected, and the set holds their numbers. -/
structure AllStay (s : SelectState) : Prop where
  sound : s.Sound
  defined : s.loop ≠ .lost
  connected : ∀ p ∈ s.connections, ∃ c, s.clients.host.heap p = some c ∧ c.status = .connected
  owned : ∀ fd ∈ s.readFds, ∃ p ∈ s.connections, s.clients.HasNumber p fd

/-- What the loop needs of an iteration: the registered objects exist, and what goes to
`select` is open. -/
structure InOrder (s : SelectState) : Prop where
  live : ∀ q ∈ s.connections, s.clients.host.heap q ≠ none
  opened : ∀ tempFds, s.loop = .copied tempFds → ∀ fd ∈ tempFds,
    (s.clients.host.fds fd).isSome = true

theorem AllStay.fds_open (h : AllStay s) {fd : ℤ} (hfd : fd ∈ s.readFds) :
    (s.clients.host.fds fd).isSome = true := by
  obtain ⟨q, hq, d, hd, rfl⟩ := h.owned fd hfd
  obtain ⟨d', hd', alive⟩ := h.connected q hq
  cases hd.symm.trans hd'
  rw [h.sound.clients.owns hd alive]
  rfl

theorem AllStay.inOrder (h : AllStay s) : InOrder s where
  live := by
    intro q hq
    obtain ⟨d, hd, -⟩ := h.connected q hq
    exact hd ▸ Option.some_ne_none d
  opened := fun tempFds loop fd hfd => h.fds_open (h.sound.copied tempFds loop fd hfd)

theorem InOrder.smooth (h : InOrder s)
    (defined : ∀ conn, turn = .addConnection conn → Defined s turn) : Smooth s turn := by
  refine ⟨?_, ?_⟩
  · cases turn with
    | addConnection conn => exact defined conn rfl
    | visit received sent =>
        simp only [Defined]
        split
        · exact fun q hq => h.live q (List.mem_of_getElem? hq)
        · trivial
    | _ => trivial
  · rintro readable tempFds - loop
    exact h.opened tempFds loop

/-- The loop's own turns keep their order. -/
theorem InOrder.step (h : InOrder s) (sound : s.clients.Sound) (own : turn.OfLoop)
    (hs : selectStep s turn = some (t, o)) : InOrder t := by
  cases selectStep_moves hs with
  | client | added | misplaced | copied => exact own.elim
  | nothing | selected | ends | gone | passes => exact ⟨h.live, nofun⟩
  | reads loop here hq found =>
      refine ⟨fun q listed gone => h.live q listed ?_, nofun⟩
      exact (readData_heap sound hq _ _ q).1.mp gone

theorem readData_answered (h : Host) (p : ℕ) (b : UInt8) (bs : Str) (n : ℕ) :
    (readData p (some (b :: bs)) (some n) h).1 = h := by
  cases hp : h.heap p with
  | none => simp [readData, withThis, hp]
  | some c =>
      cases status : c.status with
      | closed => rw [readData_of_closed hp status]
      | connected => rw [readData_data hp status, sendData_sent hp status]

theorem AllStay.step (h : AllStay s) (hs : selectStep s turn = some (t, o))
    (stays : NobodyLeaves s turn) : AllStay t := by
  have sound := h.sound.step hs
  cases selectStep_moves hs with
  | @client turn clients step =>
      have other : ∀ p ∈ s.connections, ∀ c, s.clients.host.heap p = some c →
          clients.host.heap p = some c := by
        intro p hp c hc
        apply clientStep_other h.sound.clients step hc
        · rintro rfl
          exact stays hp
        · rintro rfl
          exact stays hp
      refine ⟨sound, h.defined, fun p hp => ?_, fun fd hfd => ?_⟩
      · obtain ⟨c, hc, status⟩ := h.connected p hp
        exact ⟨c, other p hp c hc, status⟩
      · obtain ⟨p, hp, c, hc, number⟩ := h.owned fd hfd
        exact ⟨p, hp, c, other p hp c hc, number⟩
  | @added conn c hc inside still =>
      obtain ⟨status, -⟩ := stays.2 c hc
      refine ⟨sound, h.defined, fun p hp => ?_, fun fd hfd => ?_⟩
      · rcases List.mem_append.mp hp with old | new
        · exact h.connected p old
        · rw [List.mem_singleton.mp new]
          exact ⟨c, hc, status⟩
      · rcases mem_withConnection hfd with rfl | old
        · exact ⟨conn, List.mem_append_right _ (List.mem_singleton_self _), c, hc, rfl⟩
        · obtain ⟨p, hp, number⟩ := h.owned fd old
          exact ⟨p, List.mem_append_left _ hp, number⟩
  | misplaced hc bad => exact absurd ⟨(stays.2 _ hc).2, stays.1⟩ bad
  | copied | nothing | selected | ends | passes => exact ⟨sound, nofun, h.connected, h.owned⟩
  | gone loop here free => exact absurd free (h.inOrder.live _ (List.mem_of_getElem? here))
  | reads loop here hq found =>
      obtain ⟨b, bs, n, rfl, rfl⟩ := stays
      refine ⟨sound, nofun, ?_, ?_⟩ <;> rw [readData_answered]
      · exact h.connected
      · exact h.owned

theorem AllStay.smooth (h : AllStay s) (stays : NobodyLeaves s turn) : Smooth s turn := by
  apply h.inOrder.smooth
  rintro conn rfl
  exact ⟨stays.1, fun c hc => (stays.2 c hc).2⟩

/-- As long as nobody registered leaves and none is registered during a walk, nobody is
silenced. -/
theorem select_serves_who_stays {turns : List SelectTurn}
    (stays : selectServer.Meets NobodyLeaves turns) : SilencesNobody turns := by
  have start : AllStay selectServer.start := {
    sound := reaches_selectSound (Machine.reaches_nil.mpr ⟨rfl, rfl⟩)
    defined := by decide
    connected := fun _ hp => (List.not_mem_nil hp).elim
    owned := fun _ hfd => (List.not_mem_nil hfd).elim }
  have kept := stays.always start fun h hs stays => h.step hs stays
  have smooth : selectServer.Meets Smooth turns := by
    intro before turn s os first run
    have past : before <+: turns := (List.prefix_append before [turn]).trans first
    exact (kept before s os past run).smooth (stays before turn s os first run)
  refine (select_silences_nobody_iff turns).mpr fun before s os first run p c serves => ⟨?_, ?_⟩
  · exact fun old turn u ou earlier hu => (smooth old turn u ou (earlier.trans first) hu).1
  · rintro iteration t o (later | own) iterates
    · exact (smooth.meetsFrom run later).mono fun _ _ smooth => fun _ => smooth
    · have h := kept before s os first run
      refine ⟨fun _ => h.smooth trivial, ?_⟩
      rintro ⟨u, now⟩ copies
      have step : selectStep s .copy = some (u, now) := copies
      have copied := h.step step trivial
      apply Machine.meetsFrom_of_invariant (J := fun u => InOrder u ∧ u.Sound)
      · rintro u turn v now member ⟨order, sound⟩ hs
        exact ⟨order.step sound.clients (own turn member) hs, sound.step hs⟩
      · rintro u turn member ⟨order, -⟩ -
        apply order.smooth
        rintro conn rfl
        exact (own _ member).elim
      · exact ⟨copied.inOrder, copied.sound⟩

/-- Two clients and an iteration that reads the second of them. -/
theorem select_serves_who_stays_two :
    ∃ turns s os, selectServer.Reaches turns s os ∧ .readData 1 ∈ os ∧ SilencesNobody turns := by
  have run : selectServer.Reaches [.client (.connect 7), .client (.connect 8), .addConnection 0,
      .addConnection 1, .copy, .select (· = 8), .visit (some [104, 105]) (some 4),
      .visit (some [104, 105]) (some 4), .visit (some [104, 105]) (some 4)] _ _ := rfl
  refine ⟨_, _, _, run, by decide, select_serves_who_stays (Machine.meets_of_meetsFrom ?_)⟩
  refine ⟨trivial, ?_⟩
  rintro _ ⟨⟩
  refine ⟨trivial, ?_⟩
  rintro _ ⟨⟩
  refine ⟨⟨rfl, ?_⟩, ?_⟩
  · rintro c ⟨⟩
    decide
  · rintro _ ⟨⟩
    refine ⟨⟨rfl, ?_⟩, ?_⟩
    · rintro c ⟨⟩
      decide
    · simp [Machine.MeetsFrom, NobodyLeaves]

end StudyCode.Tcp

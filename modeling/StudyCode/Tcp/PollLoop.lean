import StudyCode.Tcp.Clients

/-!
# `PollLoop`

The loop copies its two lists under the lock, asks `poll` about the descriptors
of the first and looks for the owner of a ready one in the second, by number and
from the front. The main thread may act between any two of its turns; a `readData`
is one turn. No turn takes anything out of either list.
-/
namespace StudyCode.Tcp
open StudyCode.ByteString StudyCode.Scheduled

inductive PollThread where
  | idle
  | copied (tmpPollFds : List ℤ) (tmpConns : List ℕ)
  /-- `ready` are the entries with `POLLIN` that are still to be handled -/
  | dispatching (ready : List ℤ) (tmpConns : List ℕ)
  | lost
  deriving DecidableEq, Repr

structure PollState where
  clients : Clients
  pollFds : List ℤ
  connections : List ℕ
  loop : PollThread

inductive PollTurn where
  | client (turn : ClientTurn)
  | addConnection (conn : ℕ)
  | copy
  | poll (ready : List ℤ)
  | dispatch (received : Option Str) (sent : Option ℕ)
  deriving DecidableEq, Repr

inductive Search where
  | found (conn : ℕ)
  | nobody
  | dangling (conn : ℕ)
  deriving DecidableEq, Repr

/-- The loop `for(auto conn : tmpConns)` up to the first `getFd() == ready_fd`. -/
def search (h : Host) (fd : ℤ) : List ℕ → Search
  | [] => .nobody
  | q :: qs =>
      match h.heap q with
      | none => .dangling q
      | some c => if c.clientfd = fd then .found q else search h fd qs

def PollThread.next (ready : List ℤ) (tmpConns : List ℕ) : PollThread :=
  match ready with
  | [] => .idle
  | fd :: rest => .dispatching (fd :: rest) tmpConns

def pollStep (s : PollState) : PollTurn → Option (PollState × List LoopEvent)
  | .client turn =>
      (clientStep s.clients turn).map fun clients => ({ s with clients := clients }, [])
  | .addConnection conn =>
      match s.clients.host.heap conn with
      | some c =>
          some ({ s with
            pollFds := s.pollFds ++ [c.clientfd]
            connections := s.connections ++ [conn] }, [])
      | none => none
  | .copy =>
      match s.loop with
      | .idle => some ({ s with loop := .copied s.pollFds s.connections }, [])
      | _ => none
  | .poll ready =>
      match s.loop with
      | .copied tmpPollFds tmpConns =>
          if ready.isSublist tmpPollFds ∧ ∀ fd ∈ ready, (s.clients.host.fds fd).isSome then
            some ({ s with loop := .next ready tmpConns }, [])
          else none
      | _ => none
  | .dispatch received sent =>
      match s.loop with
      | .dispatching (fd :: rest) tmpConns =>
          match search s.clients.host fd tmpConns with
          | .found q =>
              some ({ s with
                clients := { s.clients with
                  host := (readData q received sent s.clients.host).1 }
                loop := .next rest tmpConns }, [.readData q])
          | .nobody => some ({ s with loop := .next rest tmpConns }, [])
          | .dangling q => some ({ s with loop := .lost }, [.dangling q])
      | _ => none

def pollServer : Machine PollState PollTurn LoopEvent where
  start := { clients := noClients, pollFds := [], connections := [], loop := .idle }
  step := pollStep

/-! ## Who is found -/

/-- `poll` reported an entry with the number `fd`, which now belongs to the
connected and registered `p`. -/
structure PollState.Reports (s : PollState) (fd : ℤ) (tmpConns : List ℕ) (p : ℕ)
    (c : Connection) : Prop where
  reported : ∃ rest, s.loop = .dispatching (fd :: rest) tmpConns
  owner : s.clients.host.fds fd = some p
  live : s.clients.host.heap p = some c
  number : c.clientfd = fd
  connected : c.status = .connected
  registered : p ∈ s.connections

/-- The loop calls `readData` on the owner of every entry that `poll` reported. -/
def HandsToOwner (s : PollState) : Prop :=
  ∀ fd tmpConns p c, s.Reports fd tmpConns p c → ∀ received sent, ∃ t,
    pollStep s (.dispatch received sent) = some (t, [.readData p])

/-- The owner of every reported entry is in the copied list, and what was copied
before it still exists and is not a closed connection with the same number. -/
def OwnerFirst (s : PollState) : Prop :=
  ∀ fd tmpConns p c, s.Reports fd tmpConns p c →
    p ∈ tmpConns ∧ ∀ q ∈ tmpConns.takeWhile (· ≠ p), ∃ d, s.clients.host.heap q = some d ∧
      ¬ (d.status = .closed ∧ d.clientfd = fd)

theorem search_eq_found {h : Host} {fd : ℤ} {p : ℕ} {c : Connection} (hp : h.heap p = some c)
    (number : c.clientfd = fd) (conns : List ℕ) :
    search h fd conns = .found p ↔
      p ∈ conns ∧ ∀ q ∈ conns.takeWhile (· ≠ p), ∃ d, h.heap q = some d ∧ d.clientfd ≠ fd := by
  induction conns with
  | nil => simp [search]
  | cons q qs ih =>
      by_cases own : q = p
      · subst own
        simp [search, hp, number]
      · cases hq : h.heap q with
        | none => simp [search, hq, own]
        | some d =>
            by_cases same : d.clientfd = fd
            · simp [search, hq, own, same]
            · simp [search, hq, own, same, ih, Ne.symm own]

/-- Only a closed connection can have the number of a connected one. -/
theorem Clients.Sound.same_number {s : Clients} (h : s.Sound) {fd : ℤ} {p q : ℕ} {d : Connection}
    (owner : s.host.fds fd = some p) (hq : s.host.heap q = some d) (ne : q ≠ p) :
    d.clientfd ≠ fd ↔ ¬ (d.status = .closed ∧ d.clientfd = fd) := by
  constructor
  · rintro other ⟨-, same⟩
    exact other same
  · intro open' same
    cases status : d.status with
    | closed => exact open' ⟨status, same⟩
    | connected =>
        have owns := h.owns hq status
        rw [same, owner] at owns
        exact ne (Option.some.inj owns).symm

theorem handsToOwner_iff {s : PollState} (h : s.clients.Sound) :
    HandsToOwner s ↔ OwnerFirst s := by
  refine forall₄_congr fun fd tmpConns p c => forall_congr' fun reports => ?_
  obtain ⟨rest, loop⟩ := reports.reported
  have iff := search_eq_found reports.live reports.number tmpConns
  have numbers : (∀ q ∈ tmpConns.takeWhile (· ≠ p), ∃ d, s.clients.host.heap q = some d ∧
        d.clientfd ≠ fd) ↔
      ∀ q ∈ tmpConns.takeWhile (· ≠ p), ∃ d, s.clients.host.heap q = some d ∧
        ¬ (d.status = .closed ∧ d.clientfd = fd) := by
    refine forall₂_congr fun q hq => exists_congr fun d => and_congr_right fun hd => ?_
    have ne : q ≠ p := by simpa using List.mem_takeWhile_imp hq
    exact h.same_number reports.owner hd ne
  rw [← numbers, ← iff]
  constructor
  · intro calls
    obtain ⟨t, step⟩ := calls none none
    simp only [pollStep, loop] at step
    split at step <;> cases step
    assumption
  · intro found received sent
    simp only [pollStep, loop, found]
    exact ⟨_, rfl⟩

theorem search_found_live {h : Host} {fd : ℤ} {q : ℕ} {conns : List ℕ}
    (found : search h fd conns = .found q) : ∃ c, h.heap q = some c := by
  induction conns with
  | nil => cases found
  | cons r rs ih =>
      simp only [search] at found
      split at found
      · cases found
      · rename_i c hr
        split at found
        · cases found
          exact ⟨c, hr⟩
        · exact ih found

theorem pollStep_sound {s t : PollState} {turn : PollTurn} {o : List LoopEvent}
    (h : s.clients.Sound) (hs : pollStep s turn = some (t, o)) :
    t.clients.Sound ∧ s.clients.Evolves t.clients := by
  cases turn with
  | client turn =>
      obtain ⟨clients, step, eq⟩ := Option.map_eq_some_iff.mp hs
      cases eq
      exact h.step step
  | addConnection conn =>
      simp only [pollStep] at hs
      split at hs <;> cases hs
      exact ⟨h, .refl _⟩
  | copy =>
      simp only [pollStep] at hs
      split at hs <;> cases hs
      exact ⟨h, .refl _⟩
  | poll ready =>
      simp only [pollStep] at hs
      split at hs
      · obtain ⟨-, eq⟩ := Option.ite_none_right_eq_some.mp hs
        cases eq
        exact ⟨h, .refl _⟩
      · cases hs
  | dispatch received sent =>
      simp only [pollStep] at hs
      split at hs
      · split at hs
        · rename_i q found
          cases hs
          obtain ⟨c, hq⟩ := search_found_live found
          exact h.readData hq received sent
        · cases hs
          exact ⟨h, .refl _⟩
        · cases hs
          exact ⟨h, .refl _⟩
      · cases hs

theorem reaches_pollClients {turns : List PollTurn} {s : PollState} {os : List LoopEvent}
    (run : pollServer.Reaches turns s os) : s.clients.Sound :=
  run.invariant (P := fun s => s.clients.Sound) noClients_sound
    fun h hs => (pollStep_sound h hs).1

/-- Whatever clients come, leave and are destroyed, in every schedule: the loop
calls `readData` on the owner of every ready descriptor in all states of the run
if and only if in all of them the owner was copied, and no connection copied
before it is destroyed by now or closed with the same number. That is so in the runs that
meet `NumbersFresh`, a condition on the history (`poll_serves_fresh_numbers`). -/
theorem poll_hands_to_owner_iff (turns : List PollTurn) :
    pollServer.Always HandsToOwner turns ↔ pollServer.Always OwnerFirst turns :=
  forall₃_congr fun _ _ _ => forall₂_congr fun _ run => handsToOwner_iff (reaches_pollClients run)

/-- A client leaves and its number is handed to the next one: the descriptor of
the new client is taken to the closed connection of the old. -/
theorem poll_hands_to_closed :
    ¬ ∀ turns s os, pollServer.Reaches turns s os → HandsToOwner s := by
  intro always
  have run : pollServer.Reaches
      [.client (.connect 7), .addConnection 0, .copy, .poll [7], .dispatch (some []) none,
        .client (.connect 7), .addConnection 1, .copy, .poll [7, 7]] _ _ := rfl
  obtain ⟨t, step⟩ := always _ _ _ run 7 [0, 1] 1 ⟨7, .connected⟩
    ⟨⟨[7], rfl⟩, rfl, rfl, rfl, rfl, by decide⟩ none none
  cases step

/-! ## While no number comes back -/

/-- The turn registers no number a second time and destroys nothing registered. -/
def NumbersFresh (s : PollState) : PollTurn → Prop
  | .addConnection conn => ∀ fd, s.clients.HasNumber conn fd → fd ∉ s.pollFds
  | .client (.destroy conn) => conn ∉ s.connections
  | _ => True

/-- The entries that the loop thread still works on, and the connections it copied. -/
def PollThread.watched : PollThread → List ℤ × List ℕ
  | .idle => ([], [])
  | .copied tmpPollFds tmpConns => (tmpPollFds, tmpConns)
  | .dispatching ready tmpConns => (ready, tmpConns)
  | .lost => ([], [])

/-- Every number has its owner among the connections. -/
def Clients.Covers (s : Clients) (fds : List ℤ) (conns : List ℕ) : Prop :=
  ∀ fd ∈ fds, ∃ q ∈ conns, s.HasNumber q fd

/-- A registered number belongs to one registered connection. -/
structure Unambiguous (s : PollState) : Prop where
  clients : s.clients.Sound
  live : ∀ q ∈ s.connections, s.clients.host.heap q ≠ none
  numbered : ∀ q ∈ s.connections, ∀ fd, s.clients.HasNumber q fd → fd ∈ s.pollFds
  single : ∀ p ∈ s.connections, ∀ q ∈ s.connections, ∀ fd, s.clients.HasNumber p fd →
    s.clients.HasNumber q fd → p = q
  covered : s.clients.Covers s.pollFds s.connections
  watched : s.clients.Covers s.loop.watched.1 s.loop.watched.2
  listed : ∀ q ∈ s.loop.watched.2, q ∈ s.connections

theorem Unambiguous.ownerFirst {s : PollState} (h : Unambiguous s) : OwnerFirst s := by
  intro fd tmpConns p c reports
  obtain ⟨rest, loop⟩ := reports.reported
  have watched := h.watched
  have listed := h.listed
  rw [loop] at watched listed
  have mine : s.clients.HasNumber p fd := ⟨c, reports.live, reports.number⟩
  obtain ⟨q, hq, number⟩ := watched fd List.mem_cons_self
  obtain rfl := h.single q (listed q hq) p reports.registered fd number mine
  refine ⟨hq, fun r hr => ?_⟩
  have copied : r ∈ tmpConns := (List.takeWhile_prefix _).subset hr
  have ne : r ≠ q := by simpa using List.mem_takeWhile_imp hr
  obtain ⟨d, hd⟩ := Option.ne_none_iff_exists'.mp (h.live r (listed r copied))
  refine ⟨d, hd, fun same => ?_⟩
  exact ne (h.single r (listed r copied) q reports.registered fd ⟨d, hd, same.2⟩ mine)

/-- What happens to the clients keeps the numbers of the connections that stay. -/
theorem Unambiguous.clientsStep {s : PollState} (h : Unambiguous s) {clients : Clients}
    {loop : PollThread} (sound : clients.Sound) (evolves : s.clients.Evolves clients)
    (stay : ∀ q ∈ s.connections, clients.host.heap q ≠ none)
    (watched : clients.Covers loop.watched.1 loop.watched.2)
    (listed : ∀ q ∈ loop.watched.2, q ∈ s.connections) :
    Unambiguous { s with clients := clients, loop := loop } := by
  have was : ∀ q ∈ s.connections, ∀ fd, clients.HasNumber q fd → s.clients.HasNumber q fd := by
    rintro q hq fd ⟨d, hd, number⟩
    obtain ⟨c, hc⟩ := Option.ne_none_iff_exists'.mp (h.live q hq)
    obtain ⟨c', hc', same⟩ := evolves.same (h.clients.old hc) hd
    exact ⟨c', hc', same.trans number⟩
  refine ⟨sound, stay, ?_, ?_, ?_, watched, listed⟩
  · intro q hq fd number
    exact h.numbered q hq fd (was q hq fd number)
  · intro p hp q hq fd number number'
    exact h.single p hp q hq fd (was p hp fd number) (was q hq fd number')
  · intro fd hfd
    obtain ⟨q, hq, number⟩ := h.covered fd hfd
    exact ⟨q, hq, number.later h.clients evolves (stay q hq)⟩

theorem Unambiguous.covers_later {s : PollState} (h : Unambiguous s) {clients : Clients}
    (evolves : s.clients.Evolves clients)
    (stay : ∀ q ∈ s.connections, clients.host.heap q ≠ none) (fds : List ℤ)
    (fewer : ∀ fd ∈ fds, fd ∈ s.loop.watched.1) : clients.Covers fds s.loop.watched.2 := by
  intro fd hfd
  obtain ⟨q, hq, number⟩ := h.watched fd (fewer fd hfd)
  exact ⟨q, hq, number.later h.clients evolves (stay q (h.listed q hq))⟩

/-- Going on to the next entry leaves less to work on. -/
theorem watched_next {clients : Clients} {ready : List ℤ} {tmpConns : List ℕ}
    (covers : clients.Covers ready tmpConns) :
    clients.Covers (PollThread.next ready tmpConns).watched.1
        (PollThread.next ready tmpConns).watched.2 ∧
      ∀ q ∈ (PollThread.next ready tmpConns).watched.2, q ∈ tmpConns := by
  cases ready with
  | nil => exact ⟨fun _ hfd => (List.not_mem_nil hfd).elim, fun _ hq => (List.not_mem_nil hq).elim⟩
  | cons fd rest => exact ⟨covers, fun _ => id⟩

/-- The new entry is the only one with its number. -/
theorem Unambiguous.addConnection {s : PollState} (h : Unambiguous s) {conn : ℕ} {c : Connection}
    (hc : s.clients.host.heap conn = some c) (fresh : c.clientfd ∉ s.pollFds) :
    Unambiguous { s with
      pollFds := s.pollFds ++ [c.clientfd]
      connections := s.connections ++ [conn] } where
  clients := h.clients
  live := by
    intro q hq
    rcases List.mem_append.mp hq with old | new
    · exact h.live q old
    · rw [List.mem_singleton.mp new]
      exact hc ▸ Option.some_ne_none c
  numbered := by
    intro q hq fd number
    rcases List.mem_append.mp hq with old | new
    · exact List.mem_append_left _ (h.numbered q old fd number)
    · rw [List.mem_singleton.mp new] at number
      rw [number.unique ⟨c, hc, rfl⟩]
      exact List.mem_append_right _ (List.mem_singleton_self _)
  single := by
    have other : ∀ q ∈ s.connections, ¬ s.clients.HasNumber q c.clientfd :=
      fun q hq number => fresh (h.numbered q hq _ number)
    intro p hp q hq fd number number'
    rcases List.mem_append.mp hp with old | new <;> rcases List.mem_append.mp hq with old' | new'
    · exact h.single p old q old' fd number number'
    · rw [List.mem_singleton.mp new'] at number'
      rw [number'.unique ⟨c, hc, rfl⟩] at number
      exact absurd number (other p old)
    · rw [List.mem_singleton.mp new] at number
      rw [number.unique ⟨c, hc, rfl⟩] at number'
      exact absurd number' (other q old')
    · rw [List.mem_singleton.mp new, List.mem_singleton.mp new']
  covered := by
    intro fd hfd
    rcases List.mem_append.mp hfd with old | new
    · obtain ⟨q, hq, number⟩ := h.covered fd old
      exact ⟨q, List.mem_append_left _ hq, number⟩
    · rw [List.mem_singleton.mp new]
      exact ⟨conn, List.mem_append_right _ (List.mem_singleton_self _), c, hc, rfl⟩
  watched := h.watched
  listed := fun q hq => List.mem_append_left _ (h.listed q hq)

theorem Unambiguous.step {s t : PollState} {turn : PollTurn} {o : List LoopEvent}
    (h : Unambiguous s) (hs : pollStep s turn = some (t, o)) (fresh : NumbersFresh s turn) :
    Unambiguous t := by
  cases turn with
  | client turn =>
      obtain ⟨clients, step, eq⟩ := Option.map_eq_some_iff.mp hs
      cases eq
      obtain ⟨sound, evolves⟩ := h.clients.step step
      have stay : ∀ q ∈ s.connections, clients.host.heap q ≠ none := by
        intro q hq
        refine clientStep_live h.clients step (h.live q hq) ?_
        rintro rfl
        exact fresh hq
      exact h.clientsStep sound evolves stay (h.covers_later evolves stay _ fun _ => id) h.listed
  | addConnection conn =>
      simp only [pollStep] at hs
      split at hs
      · rename_i c hc
        cases hs
        exact h.addConnection hc (fresh c.clientfd ⟨c, hc, rfl⟩)
      · cases hs
  | copy =>
      simp only [pollStep] at hs
      split at hs <;> cases hs
      exact h.clientsStep h.clients (.refl _) h.live h.covered fun _ => id
  | poll ready =>
      simp only [pollStep] at hs
      split at hs
      · rename_i tmpPollFds tmpConns loop
        obtain ⟨⟨reported, -⟩, eq⟩ := Option.ite_none_right_eq_some.mp hs
        cases eq
        have covers := h.watched
        have listed := h.listed
        rw [loop] at covers listed
        have fewer := (List.isSublist_iff_sublist.mp reported).subset
        obtain ⟨watched, copied⟩ := watched_next fun fd hfd => covers fd (fewer hfd)
        exact h.clientsStep h.clients (.refl _) h.live watched fun q hq => listed q (copied q hq)
      · cases hs
  | dispatch received sent =>
      simp only [pollStep] at hs
      split at hs
      · rename_i fd rest tmpConns loop
        have covers : ∀ {clients : Clients}, s.clients.Evolves clients →
            (∀ q ∈ s.connections, clients.host.heap q ≠ none) → clients.Covers rest tmpConns := by
          intro clients evolves stay
          have later := h.covers_later evolves stay rest
          rw [loop] at later
          exact later fun fd hfd => List.mem_cons_of_mem _ hfd
        have listed := h.listed
        rw [loop] at listed
        split at hs
        · rename_i q found
          cases hs
          obtain ⟨c, hq⟩ := search_found_live found
          obtain ⟨sound, evolves⟩ := h.clients.readData hq received sent
          have stay : ∀ r ∈ s.connections,
              (readData q received sent s.clients.host).1.heap r ≠ none :=
            fun r hr gone => h.live r hr ((readData_heap h.clients hq received sent r).1.mp gone)
          obtain ⟨watched, copied⟩ := watched_next (covers evolves stay)
          exact h.clientsStep sound evolves stay watched fun r hr => listed r (copied r hr)
        · cases hs
          obtain ⟨watched, copied⟩ := watched_next (covers (.refl _) h.live)
          exact h.clientsStep h.clients (.refl _) h.live watched fun r hr => listed r (copied r hr)
        · cases hs
          exact h.clientsStep h.clients (.refl _) h.live (fun _ hfd => (List.not_mem_nil hfd).elim)
            fun _ hq => (List.not_mem_nil hq).elim
      · cases hs

/-- As long as no number comes back for a second registration and nothing
registered is destroyed, the loop serves the owner of every ready descriptor. -/
theorem poll_serves_fresh_numbers {turns : List PollTurn}
    (fresh : pollServer.Meets NumbersFresh turns) : pollServer.Always HandsToOwner turns := by
  have start : Unambiguous pollServer.start := {
    clients := noClients_sound
    live := fun _ hq => (List.not_mem_nil hq).elim
    numbered := fun _ hq => (List.not_mem_nil hq).elim
    single := fun _ hp => (List.not_mem_nil hp).elim
    covered := fun _ hfd => (List.not_mem_nil hfd).elim
    watched := fun _ hfd => (List.not_mem_nil hfd).elim
    listed := fun _ hq => (List.not_mem_nil hq).elim }
  have kept := fresh.always start fun h hs fresh => h.step hs fresh
  intro before t os hp ht
  have h := kept before t os hp ht
  exact (handsToOwner_iff h.clients).mpr h.ownerFirst

/-- Two clients, the first of which leaves while both are reported. -/
theorem poll_serves_fresh_numbers_two :
    ∃ turns s os, pollServer.Reaches turns s os ∧ s.Reports 8 [0, 1] 1 ⟨8, .connected⟩ ∧
      HandsToOwner s := by
  have run : pollServer.Reaches [.client (.connect 7), .client (.connect 8), .addConnection 0,
      .addConnection 1, .copy, .poll [7, 8], .client (.close 0), .dispatch none none] _ _ := rfl
  refine ⟨_, _, _, run, ⟨⟨[], rfl⟩, rfl, rfl, rfl, rfl, by decide⟩,
    poll_serves_fresh_numbers (Machine.meets_of_meetsFrom ?_) _ _ _ List.prefix_rfl run⟩
  refine ⟨trivial, ?_⟩
  rintro _ ⟨⟩
  refine ⟨trivial, ?_⟩
  rintro _ ⟨⟩
  refine ⟨fun _ _ => List.not_mem_nil, ?_⟩
  rintro _ ⟨⟩
  refine ⟨?_, ?_⟩
  · rintro fd ⟨_, ⟨⟩, rfl⟩
    decide
  · simp [Machine.MeetsFrom, NumbersFresh]

end StudyCode.Tcp

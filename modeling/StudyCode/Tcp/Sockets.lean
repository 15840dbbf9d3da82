import StudyCode.Tcp.Dictionary
import StudyCode.Tcp.Ownership

/-!
# The other ends of the sockets

`epollServer` with a stream in each direction for every client; as there, a `readData`
is one turn. A `recv` takes from the stream of the client that the descriptor refers to
at that moment, and what a `send` hands over goes to that client. So a client reads the
answers to its own stream only because a connection never uses a number that has a new
owner.
-/
namespace StudyCode.Tcp
open StudyCode.ByteString StudyCode.Scheduled

/-- The streams belong to the client of an `accept`, under the number of that `accept`. -/
structure Sockets where
  epoll : EpollState
  written : ℕ → Str
  /-- the end of it that no `recv` took yet -/
  pending : ℕ → Str
  /-- what the kernel took from `send` -/
  delivered : ℕ → Str

/-- A `recv` of `sizeof(m_buffer) - 1` bytes: some that are there, the end, or an error. -/
inductive Recv where
  | data (count : ℕ)
  | ended
  | failed
  deriving DecidableEq, Repr

inductive SocketTurn where
  | main (turn : MainTurn)
  | epollWait (batch : List (Registration × Bool))
  | write (client : ℕ) (text : Str)
  | event (recv : Recv) (sent : Option ℕ)
  deriving DecidableEq, Repr

/-- The client of the descriptor that the next event is about. -/
def EpollState.client (s : EpollState) : Option ℕ := do
  let event ← s.events.head?
  let c ← s.server.host.heap event.1
  s.server.host.fds c.clientfd

/-- What a `recv` may find; `none` if it cannot return that. -/
def Recv.result (recv : Recv) (stream : Option Str) : Option (Option Str) :=
  match recv, stream with
  | .data count, some text =>
      if 1 ≤ count ∧ count ≤ bufferSize - 1 ∧ count ≤ text.length then
        some (some (text.take count))
      else none
  | .data _, none => none
  | .ended, some _ => some (some [])
  | .ended, none => none
  | .failed, _ => some none

def Recv.count : Recv → ℕ
  | .data count => count
  | .ended | .failed => 0

/-- A system call of a connection, with what it returned. -/
inductive SystemCall where
  | recv (conn : ℕ) (fd : ℤ) (received : Option Str)
  | send (conn : ℕ) (fd : ℤ) (msg : Str) (sent : Option ℕ)
  | close (conn : ℕ) (fd : ℤ)
  | dangling (conn : ℕ)
  deriving DecidableEq, Repr

def Event.call (received : Option Str) (sent : Option ℕ) : Event → SystemCall
  | .recv conn fd _ => .recv conn fd received
  | .send conn fd _ msg => .send conn fd msg sent
  | .close conn fd _ => .close conn fd
  | .dangling conn => .dangling conn

/-- What a system call does to the stream of the client behind its descriptor. -/
def Sockets.transfer (files : ℤ → Option ℕ) (s : Sockets) : SystemCall → Sockets
  | .recv _ fd received =>
      match files fd with
      | some client =>
          { s with
            pending := Function.update s.pending client
              ((s.pending client).drop (received.getD []).length) }
      | none => s
  | .send _ fd msg sent =>
      match files fd with
      | some client =>
          { s with
            delivered := Function.update s.delivered client
              (s.delivered client ++ msg.take (sent.getD 0)) }
      | none => s
  | .close .. | .dangling _ => s

def socketStep (s : Sockets) : SocketTurn → Option (Sockets × List SystemCall)
  | .main turn =>
      (epollStep s.epoll (.main turn)).map fun r =>
        ({ s with epoll := r.1 }, r.2.map (Event.call none none))
  | .epollWait batch =>
      (epollStep s.epoll (.epollWait batch)).map fun r =>
        ({ s with epoll := r.1 }, r.2.map (Event.call none none))
  | .write client text =>
      some ({ s with
        written := Function.update s.written client (s.written client ++ text)
        pending := Function.update s.pending client (s.pending client ++ text) }, [])
  | .event recv sent =>
      (recv.result (s.epoll.client.map s.pending)).bind fun received =>
        (epollStep s.epoll (.event received sent)).map fun r =>
          let calls := r.2.map (Event.call received sent)
          (calls.foldl (Sockets.transfer s.epoll.server.host.fds) { s with epoll := r.1 }, calls)

def sockets : Machine Sockets SocketTurn SystemCall where
  start := {
    epoll := epollServer.start
    written := fun _ => []
    pending := fun _ => []
    delivered := fun _ => [] }
  step := socketStep

/-- The piece that a connection's `recv` returned. -/
def SystemCall.received? (p : ℕ) : SystemCall → Option Str
  | .recv q _ (some (b :: bs)) => if q = p then some (b :: bs) else none
  | _ => none

/-- What a connection handed to `send`, and the result. -/
def SystemCall.sent? (p : ℕ) : SystemCall → Option (Str × Option ℕ)
  | .send q _ msg sent => if q = p then some (msg, sent) else none
  | _ => none

/-! ## What a system call moves -/

variable {s t : Sockets} {files : ℤ → Option ℕ} {p : ℕ} {o : List SystemCall}

@[simp] theorem transfer_epoll (s : Sockets) (call : SystemCall) :
    (s.transfer files call).epoll = s.epoll := by
  cases call <;> simp only [Sockets.transfer] <;> split <;> rfl

@[simp] theorem transfer_written (s : Sockets) (call : SystemCall) :
    (s.transfer files call).written = s.written := by
  cases call <;> simp only [Sockets.transfer] <;> split <;> rfl

theorem transfer_recv {fd : ℤ} (mine : files fd = some p) (conn : ℕ) (received : Option Str) :
    s.transfer files (.recv conn fd received) =
      { s with
        pending := Function.update s.pending p
          ((s.pending p).drop (received.getD []).length) } := by
  simp [Sockets.transfer, mine]

theorem transfer_send {fd : ℤ} (mine : files fd = some p) (conn : ℕ) (msg : Str)
    (sent : Option ℕ) :
    s.transfer files (.send conn fd msg sent) =
      { s with
        delivered := Function.update s.delivered p
          (s.delivered p ++ msg.take (sent.getD 0)) } := by
  simp [Sockets.transfer, mine]

theorem transfer_close (s : Sockets) (conn : ℕ) (fd : ℤ) :
    s.transfer files (.close conn fd) = s := rfl

/-- The handling of one event, in the streams and in the calls: nothing moved, or a
connection had a piece of its client's stream answered. -/
inductive Moved (s t : Sockets) (o : List SystemCall) : Prop
  | same : t.pending = s.pending → t.delivered = s.delivered →
      (∀ q, o.filterMap (SystemCall.received? q) = [] ∧
        o.filterMap (SystemCall.sent? q) = []) → Moved s t o
  | answered (client count : ℕ) (sent : Option ℕ) : 1 ≤ count → count ≤ bufferSize - 1 →
      count ≤ (s.pending client).length →
      t.pending = Function.update s.pending client ((s.pending client).drop count) →
      t.delivered = Function.update s.delivered client
        (s.delivered client ++ (answer ((s.pending client).take count)).take (sent.getD 0)) →
      (∀ q, o.filterMap (SystemCall.received? q) =
          (if client = q then [(s.pending client).take count] else []) ∧
        o.filterMap (SystemCall.sent? q) =
          if client = q then [(answer ((s.pending client).take count), sent)] else []) →
      Moved s t o

/-- The calls of a `readData` that found no data. -/
theorem moved_of_ended {h : Host} {c : Connection} {received : Option Str}
    (hp : h.heap p = some c) (status : c.status = .connected) (positive : 0 < c.clientfd)
    (mine : h.fds c.clientfd = some p) (ended : received = none ∨ received = some [])
    (result : Option ℕ) (epoll : EpollState) :
    Moved s (((readData p received result h).2.map (Event.call received result)).foldl
      (Sockets.transfer h.fds) { s with epoll := epoll })
      ((readData p received result h).2.map (Event.call received result)) := by
  have nothing : received.getD [] = [] := by rcases ended with rfl | rfl <;> rfl
  rw [readData_ended hp status ended, closeConnection_connected hp status positive]
  refine .same ?_ ?_ fun q => ?_
  · simp [Event.call, transfer_recv mine, transfer_close, nothing]
  · simp [Event.call, transfer_recv mine, transfer_close]
  · rcases ended with rfl | rfl <;> simp [Event.call, SystemCall.received?, SystemCall.sent?]

/-- The calls of a `readData` that found some. -/
theorem moved_of_data {count : ℕ} {h : Host} {c : Connection} (hp : h.heap p = some c)
    (status : c.status = .connected) (positive : 0 < c.clientfd)
    (mine : h.fds c.clientfd = some p) (filled : 1 ≤ count) (fits : count ≤ bufferSize - 1)
    (there : count ≤ (s.pending p).length) (result : Option ℕ) (epoll : EpollState)
    {received : Option Str} (piece : received = some ((s.pending p).take count)) :
    Moved s (((readData p received result h).2.map (Event.call received result)).foldl
      (Sockets.transfer h.fds) { s with epoll := epoll })
      ((readData p received result h).2.map (Event.call received result)) := by
  have length : ((s.pending p).take count).length = count := List.length_take_of_le there
  obtain ⟨b, bs, eq⟩ : ∃ b bs, (s.pending p).take count = b :: bs :=
    List.exists_cons_of_length_pos (by omega)
  rw [eq] at piece length
  subst piece
  have calls : ∃ rest, (rest = [] ∨ rest = [SystemCall.close p c.clientfd]) ∧
      (readData p (some (b :: bs)) result h).2.map (Event.call (some (b :: bs)) result) =
        .recv p c.clientfd (some (b :: bs)) :: .send p c.clientfd (answer (b :: bs)) result ::
          rest := by
    rw [readData_data hp status]
    cases result with
    | none =>
        rw [sendData_failed hp status, closeConnection_connected hp status positive]
        exact ⟨_, .inr rfl, rfl⟩
    | some n =>
        rw [sendData_sent hp status]
        exact ⟨_, .inl rfl, rfl⟩
  obtain ⟨rest, closes, shape⟩ := calls
  rw [shape]
  refine .answered p count result filled fits there ?_ ?_ fun q => ?_
  · rcases closes with rfl | rfl <;>
      simp [transfer_recv mine, transfer_send mine, transfer_close, ← length]
  · rcases closes with rfl | rfl <;>
      simp [transfer_recv mine, transfer_send mine, transfer_close, eq]
  · rw [eq]
    by_cases own : p = q
    · subst own
      rcases closes with rfl | rfl <;>
        simp [SystemCall.received?, SystemCall.sent?, List.filterMap_cons]
    · rcases closes with rfl | rfl <;>
        simp [SystemCall.received?, SystemCall.sent?, List.filterMap_cons, own]

/-- One event: `recv` and `send` are about the descriptor that the connection owns. -/
theorem moved_of_event (h : Owning s.epoll) {recv : Recv} {result : Option ℕ}
    (hs : socketStep s (.event recv result) = some (t, o)) :
    Owning t.epoll ∧ t.written = s.written ∧ Moved s t o := by
  obtain ⟨received, found, hs⟩ := Option.bind_eq_some_iff.mp hs
  obtain ⟨⟨epoll, events⟩, handled, eq⟩ := Option.map_eq_some_iff.mp hs
  cases eq
  have kept : ∀ (calls : List SystemCall) (u : Sockets),
      (calls.foldl (Sockets.transfer s.epoll.server.host.fds) u).epoll = u.epoll ∧
      (calls.foldl (Sockets.transfer s.epoll.server.host.fds) u).written = u.written := by
    intro calls
    induction calls with
    | nil => exact fun _ => ⟨rfl, rfl⟩
    | cons call calls ih =>
        intro u
        obtain ⟨same, same'⟩ := ih (u.transfer _ call)
        exact ⟨same.trans (transfer_epoll u call), same'.trans (transfer_written u call)⟩
  have owning := (h.step handled).1
  refine ⟨(kept _ { s with epoll := epoll }).1.symm ▸ owning, (kept _ _).2, ?_⟩
  simp only [epollStep] at handled
  split at handled
  · cases handled
  · rename_i p readable rest waits
    cases handled
    have waiting := h.waiting
    rw [waits] at waiting
    obtain ⟨c, hp, status⟩ := waiting.connected (p, readable) List.mem_cons_self
    have mine := h.sound.owns hp (.inl status)
    have positive := h.sound.positive hp
    have client : s.epoll.client = some p := by
      simp [EpollState.client, waits, hp, mine]
    rw [client, Option.map_some] at found
    cases readable with
    | false =>
        have quiet : handleEvent p false received result s.epoll.server.host =
            (s.epoll.server.host, []) := by
          simp [handleEvent, withThis, hp, status, skip]
        rw [quiet]
        exact .same rfl rfl fun _ => ⟨rfl, rfl⟩
    | true =>
        have reads : handleEvent p true received result s.epoll.server.host =
            readData p received result s.epoll.server.host := by
          simp [handleEvent, withThis, hp, status]
        rw [reads]
        cases recv with
        | data count =>
            obtain ⟨⟨filled, fits, there⟩, eq⟩ := Option.ite_none_right_eq_some.mp found
            exact moved_of_data hp status positive mine filled fits there result _
              (Option.some.inj eq).symm
        | ended =>
            cases found
            exact moved_of_ended hp status positive mine (.inr rfl) result _
        | failed =>
            cases found
            exact moved_of_ended hp status positive mine (.inl rfl) result _

/-! ## Runs -/

/-- The calls of `recv` and `send` that a connection has made, against the streams of its
client. -/
structure Divided (s : Sockets) (os : List SystemCall) (p : ℕ) : Prop where
  written : s.written p = (os.filterMap (SystemCall.received? p)).flatten ++ s.pending p
  sized : ∀ piece ∈ os.filterMap (SystemCall.received? p),
    1 ≤ piece.length ∧ piece.length ≤ bufferSize - 1
  answered : (os.filterMap (SystemCall.sent? p)).map Prod.fst =
    (os.filterMap (SystemCall.received? p)).map answer
  delivered : s.delivered p =
    (os.filterMap (SystemCall.sent? p)).flatMap fun call => call.1.take (call.2.getD 0)

theorem Divided.moved {os : List SystemCall} (h : Divided s os p) (written : t.written = s.written)
    (moved : Moved s t o) : Divided t (os ++ o) p := by
  cases moved with
  | same pending delivered quiet =>
      obtain ⟨nothing, nothing'⟩ := quiet p
      refine ⟨?_, ?_, ?_, ?_⟩ <;>
        simp only [List.filterMap_append, nothing, nothing', List.append_nil]
      · rw [written, pending, h.written]
      · exact h.sized
      · exact h.answered
      · rw [delivered, h.delivered]
  | answered client count sent filled fits there pending delivered calls =>
      obtain ⟨received, answers⟩ := calls p
      by_cases own : client = p
      · subst own
        rw [if_pos rfl] at received answers
        refine ⟨?_, ?_, ?_, ?_⟩ <;> simp only [List.filterMap_append, received, answers]
        · rw [written, pending, Function.update_self, h.written]
          simp
        · intro piece member
          rcases List.mem_append.mp member with old | new
          · exact h.sized piece old
          · rw [List.mem_singleton.mp new, List.length_take]
            omega
        · rw [List.map_append, List.map_append, h.answered]
          rfl
        · rw [delivered, Function.update_self, h.delivered]
          simp
      · rw [if_neg own] at received answers
        refine ⟨?_, ?_, ?_, ?_⟩ <;>
          simp only [List.filterMap_append, received, answers, List.append_nil]
        · rw [written, pending, Function.update_of_ne (Ne.symm own), h.written]
        · exact h.sized
        · exact h.answered
        · rw [delivered, Function.update_of_ne (Ne.symm own), h.delivered]

theorem divided_step {turn : SocketTurn} {os : List SystemCall} (owning : Owning s.epoll)
    (h : ∀ p, Divided s os p) (hs : socketStep s turn = some (t, o)) :
    Owning t.epoll ∧ ∀ p, Divided t (os ++ o) p := by
  cases turn with
  | main turn =>
      obtain ⟨⟨epoll, events⟩, step, eq⟩ := Option.map_eq_some_iff.mp hs
      cases eq
      obtain ⟨r, stepped, eq⟩ := Option.map_eq_some_iff.mp step
      cases eq
      obtain ⟨-, silent, -⟩ := owning.sound.mainStep stepped fun _ => rfl
      refine ⟨(owning.step step).1, fun p => (h p).moved rfl ?_⟩
      rw [silent]
      exact .same rfl rfl fun _ => ⟨rfl, rfl⟩
  | epollWait batch =>
      obtain ⟨⟨epoll, events⟩, step, eq⟩ := Option.map_eq_some_iff.mp hs
      cases eq
      refine ⟨(owning.step step).1, fun p => (h p).moved rfl ?_⟩
      simp only [epollStep] at step
      split at step
      · obtain ⟨-, eq⟩ := Option.ite_none_right_eq_some.mp step
        cases eq
        exact .same rfl rfl fun _ => ⟨rfl, rfl⟩
      · cases step
  | write client text =>
      cases hs
      refine ⟨owning, fun p => ?_⟩
      rw [List.append_nil]
      by_cases own : p = client
      · subst own
        exact ⟨by simp [(h p).written], (h p).sized, (h p).answered, (h p).delivered⟩
      · exact ⟨by simp [own, (h p).written], (h p).sized, (h p).answered, (h p).delivered⟩
  | event recv result =>
      obtain ⟨owning, written, moved⟩ := moved_of_event owning hs
      exact ⟨owning, fun p => (h p).moved written moved⟩

theorem sockets_divided {turns : List SocketTurn} {os : List SystemCall}
    (run : sockets.Reaches turns s os) (p : ℕ) : Divided s os p := by
  have both := run.induct
    (P := fun _ s os => Owning s.epoll ∧ ∀ p, Divided s os p)
    ⟨owning_start, fun _ => ⟨rfl, fun _ member => (List.not_mem_nil member).elim, rfl, rfl⟩⟩
    fun _ h hs => divided_step h.1 h.2 hs
  exact both.2 p

/-- `send` took the whole text, or failed. -/
def AllOrNothing (call : Str × Option ℕ) : Prop :=
  call.2 = none ∨ ∃ n, call.2 = some n ∧ call.1.length ≤ n

/-- Each piece whose answer was sent, with the failed ones left out, becomes a line. -/
theorem getlines_sent {pieces : List Str} {calls : List (Str × Option ℕ)}
    (answers : calls.map Prod.fst = pieces.map answer) (whole : ∀ call ∈ calls, AllOrNothing call) :
    getlines 10 (calls.flatMap fun call => call.1.take (call.2.getD 0)) =
      ((pieces.zip calls).filter fun pair => pair.2.2.isSome).map fun pair =>
        translate pair.1 := by
  have lines : (calls.flatMap fun call => call.1.take (call.2.getD 0)) =
      (((pieces.zip calls).filter fun pair => pair.2.2.isSome).map fun pair =>
        translate pair.1).flatMap (· ++ [10]) := by
    induction calls generalizing pieces with
    | nil =>
        rw [List.zip_nil_right]
        rfl
    | cons call calls ih =>
        obtain ⟨piece, later, rfl, first, rest⟩ := List.map_eq_cons_iff.mp answers.symm
        have tail := ih rest.symm fun call member => whole call (List.mem_cons_of_mem _ member)
        rw [List.flatMap_cons, tail, List.zip_cons_cons]
        rcases whole call List.mem_cons_self with failed | ⟨n, took, all⟩
        · simp [failed]
        · rw [List.filter_cons_of_pos (by simp [took]), List.map_cons, List.flatMap_cons, took,
            Option.getD_some, List.take_of_length_le all, ← first]
          rfl
  rw [lines, getlines_flatMap]
  intro l hl
  obtain ⟨pair, -, rfl⟩ := List.mem_map.mp hl
  exact translate_line pair.1

/-- For every interleaving of the main thread, the loop thread (a `readData` is one turn)
and any clients that come and go, whatever numbers `accept` returns: the stream that a
client wrote is what the `recv`s of its connection returned and a rest, the connection has
handed to `send` an answer to each of these pieces, in this order, and what the client is
sent is, of each answer, the part that `send` took. Where each `send` took its answer
whole or failed, the client reads one line for each piece whose answer was sent, the
translation of the piece. -/
theorem clients_read_own_answers {turns : List SocketTurn} {os : List SystemCall}
    (run : sockets.Reaches turns s os) (p : ℕ) :
    s.written p = (os.filterMap (SystemCall.received? p)).flatten ++ s.pending p ∧
      (∀ piece ∈ os.filterMap (SystemCall.received? p),
        1 ≤ piece.length ∧ piece.length ≤ bufferSize - 1) ∧
      (os.filterMap (SystemCall.sent? p)).map Prod.fst =
        (os.filterMap (SystemCall.received? p)).map answer ∧
      s.delivered p =
        ((os.filterMap (SystemCall.sent? p)).flatMap fun call => call.1.take (call.2.getD 0)) ∧
      ((∀ call ∈ os.filterMap (SystemCall.sent? p), AllOrNothing call) →
        getlines 10 (s.delivered p) =
          (((os.filterMap (SystemCall.received? p)).zip (os.filterMap (SystemCall.sent? p))).filter
            fun pair => pair.2.2.isSome).map fun pair => translate pair.1) := by
  have divided := sockets_divided run p
  refine ⟨divided.written, divided.sized, divided.answered, divided.delivered, fun whole => ?_⟩
  rw [divided.delivered]
  exact getlines_sent divided.answered whole

/-- Descriptor 7 is closed by its first client and handed to a second one, who reads the
answer to its own word. -/
theorem clients_read_own_answers_reused :
    ∃ turns s os, sockets.Reaches turns s os ∧ s.epoll.server.host.fds 7 = some 1 ∧
      s.written 0 = bytes "hello\n" ∧ s.written 1 = bytes "bye\n" ∧
      os.filterMap (SystemCall.received? 1) = [bytes "bye\n"] ∧
      getlines 10 (s.delivered 1) = [bytes "再见"] := by
  have run : sockets.Reaches
      [.write 0 (bytes "hello\n"), .write 1 (bytes "bye\n"), .main (.accept 7), .main .construct,
        .main .push, .main (.addConnection true), .main .sweep, .epollWait [(⟨7, 0, 0⟩, true)],
        .event (.data 6) (some 7), .epollWait [(⟨7, 0, 0⟩, true)], .event .ended none,
        .main (.accept 7), .main .construct, .main .push, .main (.addConnection true),
        .main .sweep, .epollWait [(⟨7, 1, 1⟩, true)], .event (.data 4) (some 7)] _ _ := rfl
  have lines := (clients_read_own_answers run 1).2.2.2.2 (by unfold AllOrNothing; decide +kernel)
  exact ⟨_, _, _, run, rfl, by decide +kernel, by decide +kernel, by decide +kernel,
    lines.trans (by decide +kernel)⟩

end StudyCode.Tcp

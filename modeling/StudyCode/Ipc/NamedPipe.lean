import StudyCode.Lib.ByteString
import StudyCode.Lib.Machine

/-!
# The named pipe

Any number of clients write the lines that they read to one pipe, and the server
prints what each `read` returns. A pipe has no messages: the server sees one stream,
in pieces of up to 127 bytes. It leaves its loop at the end of the file, when nobody has
the pipe open for writing, or when `read` fails, and has the pipe open for reading until
it exits: a client that comes in between can still write, to nobody.
-/
namespace StudyCode.NamedPipe
open StudyCode.ByteString StudyCode.Scheduled

/-- The server's `main`: in its loop, before `Delete`, before the end, gone. -/
inductive Server where
  | reading
  | left
  | deleted
  | exited
  deriving DecidableEq, Repr

structure State where
  pipe : Str
  /-- the write ends that were opened, each with what its `write` has still to do -/
  writers : List (Option Str)
  server : Server
  deriving DecidableEq, Repr

inductive Turn where
  | openWrite
  | send (i : ℕ) (msg : Str)
  /-- the pipe takes a part of a long `write` -/
  | put (i count : ℕ)
  /-- the client ends, of itself or by the signal of a pipe without a reader -/
  | close (i : ℕ)
  | recv (count : ℕ)
  /-- `Recv` returns 0 -/
  | endOfFile
  /-- `Recv` returns -1 -/
  | fail
  | delete
  | exit
  deriving DecidableEq, Repr

inductive Action where
  | sent (i : ℕ) (msg : Str)
  | took (i : ℕ) (chunk : Str)
  | said (msg : Str)
  deriving DecidableEq, Repr

/-- `PIPE_BUF`, up to which a `write` is not divided. -/
def pipeBuf : ℕ := 4096

def pipeCapacity : ℕ := 65536

/-- `open` for writing: the name is there, and a reader. -/
def openWrite (s : State) : Option (State × List Action) :=
  if s.server = .reading ∨ s.server = .left then
    some ({ s with writers := s.writers ++ [some []] }, [])
  else none

/-- `write` of an idle client. -/
def send (s : State) (i : ℕ) (msg : Str) : Option (State × List Action) :=
  if s.server ≠ .exited ∧ s.writers[i]? = some (some []) then
    if msg.length ≤ pipeBuf then
      if s.pipe.length + msg.length ≤ pipeCapacity then
        some ({ s with pipe := s.pipe ++ msg }, [.sent i msg, .took i msg])
      else none
    else some ({ s with writers := s.writers.set i (some msg) }, [.sent i msg])
  else none

def put (s : State) (i count : ℕ) : Option (State × List Action) :=
  match s.writers[i]? with
  | some (some rest) =>
      if s.server ≠ .exited ∧ count ≤ rest.length ∧ s.pipe.length + count ≤ pipeCapacity then
        some ({ s with
          pipe := s.pipe ++ rest.take count
          writers := s.writers.set i (some (rest.drop count)) }, [.took i (rest.take count)])
      else none
  | _ => none

/-- `buf[n] = 0; *msgout = buf;` -/
def msgout (chunk : Str) : Str := chunk.takeWhile (· != 0)

/-- `Recv` with data, and the line that is printed. -/
def recv (s : State) (count : ℕ) : Option (State × List Action) :=
  if s.server = .reading ∧ 1 ≤ count ∧ count ≤ 127 ∧ count ≤ s.pipe.length then
    some ({ s with pipe := s.pipe.drop count }, [.said (msgout (s.pipe.take count))])
  else none

/-- `read` finds an empty pipe that nobody can write to; `Open` has waited for a first
client. -/
def endOfFile (s : State) : Option (State × List Action) :=
  if s.server = .reading ∧ s.pipe = [] ∧ s.writers ≠ [] ∧ ∀ w ∈ s.writers, w = none then
    some ({ s with server := .left }, [])
  else none

def step (s : State) : Turn → Option (State × List Action)
  | .openWrite => openWrite s
  | .send i msg => send s i msg
  | .put i count => put s i count
  | .close i => some ({ s with writers := s.writers.set i none }, [])
  | .recv count => recv s count
  | .endOfFile => endOfFile s
  | .fail =>
      if s.server = .reading ∧ s.writers ≠ [] then some ({ s with server := .left }, []) else none
  | .delete => if s.server = .left then some ({ s with server := .deleted }, []) else none
  | .exit => if s.server = .deleted then some ({ s with server := .exited }, []) else none

def fifo : Machine State Turn Action where
  start := { pipe := [], writers := [], server := .reading }
  step := step

/-! ## What becomes of the bytes -/

def Action.sent? (i : ℕ) : Action → Str
  | .sent j msg => if j = i then msg else []
  | _ => []

def Action.took? (i : ℕ) : Action → Str
  | .took j chunk => if j = i then chunk else []
  | _ => []

def Action.taken? : Action → Str
  | .took _ chunk => chunk
  | _ => []

def Action.said? : Action → Option Str
  | .said msg => some msg
  | _ => none

/-- The bytes that a client gave to `write`. -/
def sentBy (i : ℕ) (os : List Action) : Str := os.flatMap (Action.sent? i)

/-- The bytes of a client that the pipe took. -/
def tookBy (i : ℕ) (os : List Action) : Str := os.flatMap (Action.took? i)

def taken (os : List Action) : Str := os.flatMap Action.taken?

def said (os : List Action) : List Str := os.filterMap Action.said?

structure Conveyed (s : State) (os : List Action) (chunks : List Str) : Prop where
  stream : taken os = chunks.flatten ++ s.pipe
  sized : ∀ chunk ∈ chunks, 1 ≤ chunk.length ∧ chunk.length ≤ 127
  printed : said os = chunks.map msgout
  own : ∀ i rest, s.writers[i]? = some (some rest) → sentBy i os = tookBy i os ++ rest
  fresh : ∀ i, s.writers.length ≤ i → sentBy i os = [] ∧ tookBy i os = []
  within : ∀ i, tookBy i os <+: sentBy i os

variable {s t : State} {os o : List Action} {chunks : List Str}

theorem sentBy_append (i : ℕ) (os o : List Action) :
    sentBy i (os ++ o) = sentBy i os ++ sentBy i o := List.flatMap_append

theorem tookBy_append (i : ℕ) (os o : List Action) :
    tookBy i (os ++ o) = tookBy i os ++ tookBy i o := List.flatMap_append

theorem taken_append (os o : List Action) : taken (os ++ o) = taken os ++ taken o :=
  List.flatMap_append

theorem said_append (os o : List Action) : said (os ++ o) = said os ++ said o :=
  List.filterMap_append

/-- A step of the client at `i`: the books of the others stay as they are. -/
theorem Conveyed.client {i : ℕ} (h : Conveyed s os chunks) (inside : i < s.writers.length)
    (length : t.writers.length = s.writers.length)
    (others : ∀ j, j ≠ i → t.writers[j]? = s.writers[j]? ∧ sentBy j o = [] ∧ tookBy j o = [])
    (stream : s.pipe ++ taken o = t.pipe) (silent : said o = [])
    (own : ∀ rest, t.writers[i]? = some (some rest) →
      sentBy i os ++ sentBy i o = tookBy i os ++ tookBy i o ++ rest)
    (within : tookBy i os ++ tookBy i o <+: sentBy i os ++ sentBy i o) :
    Conveyed t (os ++ o) chunks where
  stream := by rw [taken_append, h.stream, List.append_assoc, stream]
  sized := h.sized
  printed := by rw [said_append, silent, List.append_nil, h.printed]
  own j rest writer := by
    rw [sentBy_append, tookBy_append]
    by_cases same : j = i
    · subst same
      exact own rest writer
    · obtain ⟨writers, sent, took⟩ := others j same
      rw [sent, took, List.append_nil, List.append_nil]
      exact h.own j rest (writers ▸ writer)
  fresh j far := by
    rw [length] at far
    have other : j ≠ i := by
      rintro rfl
      exact absurd inside (Nat.not_lt.mpr far)
    obtain ⟨-, sent, took⟩ := others j other
    obtain ⟨noneSent, noneTook⟩ := h.fresh j far
    rw [sentBy_append, tookBy_append, sent, took, noneSent, noneTook]
    exact ⟨rfl, rfl⟩
  within j := by
    rw [sentBy_append, tookBy_append]
    by_cases same : j = i
    · subst same
      exact within
    · obtain ⟨-, sent, took⟩ := others j same
      rw [sent, took, List.append_nil, List.append_nil]
      exact h.within j

theorem Conveyed.send {i : ℕ} {msg : Str} (h : Conveyed s os chunks)
    (hs : NamedPipe.send s i msg = some (t, o)) : Conveyed t (os ++ o) chunks := by
  obtain ⟨⟨-, idle⟩, hs⟩ := Option.ite_none_right_eq_some.mp hs
  have inside := (List.getElem?_eq_some_iff.mp idle).1
  have even := h.own i [] idle
  rw [List.append_nil] at even
  split at hs
  · obtain ⟨-, eq⟩ := Option.ite_none_right_eq_some.mp hs
    cases eq
    refine h.client inside rfl (fun j other => ⟨rfl, ?_, ?_⟩) ?_ rfl (fun rest writer => ?_) ?_
    · simp [sentBy, Action.sent?, other.symm]
    · simp [tookBy, Action.took?, other.symm]
    · simp [taken, Action.taken?]
    · cases idle.symm.trans writer
      rw [even]
      simp [sentBy, tookBy, Action.sent?, Action.took?]
    · rw [even]
      simp [sentBy, tookBy, Action.sent?, Action.took?]
  · cases hs
    refine h.client inside (List.length_set ..) (fun j other => ⟨?_, ?_, rfl⟩) (List.append_nil _)
      rfl (fun rest writer => ?_) ?_
    · exact List.getElem?_set_ne other.symm
    · simp [sentBy, Action.sent?, other.symm]
    · rw [List.getElem?_set_self inside] at writer
      cases writer
      rw [even]
      simp [sentBy, tookBy, Action.sent?, Action.took?]
    · rw [even]
      simp [sentBy, tookBy, Action.sent?, Action.took?]

theorem Conveyed.put {i count : ℕ} (h : Conveyed s os chunks)
    (hs : NamedPipe.put s i count = some (t, o)) : Conveyed t (os ++ o) chunks := by
  unfold NamedPipe.put at hs
  split at hs
  · rename_i rest writer
    obtain ⟨-, eq⟩ := Option.ite_none_right_eq_some.mp hs
    cases eq
    have inside := (List.getElem?_eq_some_iff.mp writer).1
    refine h.client inside (List.length_set ..) (fun j other => ⟨?_, rfl, ?_⟩) ?_ rfl
      (fun rest' writer' => ?_) ?_
    · exact List.getElem?_set_ne other.symm
    · simp [tookBy, Action.took?, other.symm]
    · simp [taken, Action.taken?]
    · rw [List.getElem?_set_self inside] at writer'
      cases writer'
      rw [h.own i rest writer]
      simp [sentBy, tookBy, Action.sent?, Action.took?]
    · rw [h.own i rest writer]
      simp [sentBy, tookBy, Action.sent?, Action.took?, List.take_prefix]
  · cases hs

theorem Conveyed.close (h : Conveyed s os chunks) (i : ℕ) :
    Conveyed { s with writers := s.writers.set i none } os chunks := by
  by_cases inside : i < s.writers.length
  · have closed := h.client (o := []) (t := { s with writers := s.writers.set i none }) inside
      (List.length_set ..) (fun j other => ⟨List.getElem?_set_ne other.symm, rfl, rfl⟩)
      (List.append_nil _) rfl (fun rest writer => ?_) ?_
    · rwa [List.append_nil] at closed
    · rw [List.getElem?_set_self inside] at writer
      cases writer
    · simpa [sentBy, tookBy] using h.within i
  · rwa [List.set_eq_of_length_le (Nat.le_of_not_lt inside)]

theorem Conveyed.openWrite (h : Conveyed s os chunks) :
    Conveyed { s with writers := s.writers ++ [some []] } os chunks where
  stream := h.stream
  sized := h.sized
  printed := h.printed
  own j rest writer := by
    by_cases old : j < s.writers.length
    · exact h.own j rest (by rwa [List.getElem?_append_left old] at writer)
    · obtain ⟨sent, took⟩ := h.fresh j (Nat.le_of_not_lt old)
      rw [List.getElem?_append_right (Nat.le_of_not_lt old)] at writer
      have new := List.mem_of_getElem? writer
      cases List.mem_singleton.mp new
      rw [sent, took]
      rfl
  fresh j far := h.fresh j (by simp only [List.length_append] at far; omega)
  within := h.within

theorem Conveyed.recv {count : ℕ} (h : Conveyed s os chunks)
    (hs : NamedPipe.recv s count = some (t, o)) :
    Conveyed t (os ++ o) (chunks ++ [s.pipe.take count]) := by
  obtain ⟨⟨-, filled, short, there⟩, eq⟩ := Option.ite_none_right_eq_some.mp hs
  cases eq
  have sent : ∀ i, sentBy i (os ++ [.said (msgout (s.pipe.take count))]) = sentBy i os := by
    intro i
    rw [sentBy_append]
    exact List.append_nil _
  have took : ∀ i, tookBy i (os ++ [.said (msgout (s.pipe.take count))]) = tookBy i os := by
    intro i
    rw [tookBy_append]
    exact List.append_nil _
  refine ⟨?_, ?_, ?_, fun i rest writer => ?_, fun i far => ?_, fun i => ?_⟩
  · rw [taken_append, h.stream]
    simp [taken, Action.taken?]
  · intro chunk hc
    rcases List.mem_append.mp hc with old | new
    · exact h.sized chunk old
    · rw [List.mem_singleton.mp new, List.length_take]
      omega
  · rw [said_append, h.printed, List.map_append]
    rfl
  · rw [sent, took]
    exact h.own i rest writer
  · rw [sent, took]
    exact h.fresh i far
  · rw [sent, took]
    exact h.within i

/-- Where the server goes does not concern the bytes. -/
theorem Conveyed.goesOn (h : Conveyed s os chunks) (server : Server) :
    Conveyed { s with server := server } os chunks :=
  ⟨h.stream, h.sized, h.printed, h.own, h.fresh, h.within⟩

theorem Conveyed.step {turn : Turn} (h : Conveyed s os chunks)
    (hs : NamedPipe.step s turn = some (t, o)) : ∃ chunks', Conveyed t (os ++ o) chunks' := by
  cases turn with
  | openWrite =>
      obtain ⟨-, eq⟩ := Option.ite_none_right_eq_some.mp hs
      cases eq
      rw [List.append_nil]
      exact ⟨chunks, h.openWrite⟩
  | send i msg => exact ⟨chunks, h.send hs⟩
  | put i count => exact ⟨chunks, h.put hs⟩
  | close i =>
      cases hs
      rw [List.append_nil]
      exact ⟨chunks, h.close i⟩
  | recv count => exact ⟨_, h.recv hs⟩
  | endOfFile | fail | delete | exit =>
      obtain ⟨-, eq⟩ := Option.ite_none_right_eq_some.mp hs
      cases eq
      rw [List.append_nil]
      exact ⟨chunks, h.goesOn _⟩

theorem fifo_conveyed {turns : List Turn} (run : fifo.Reaches turns s os) :
    ∃ chunks, Conveyed s os chunks := by
  refine run.induct (P := fun _ s os => ∃ chunks, Conveyed s os chunks) ⟨[], ?_⟩ ?_
  · exact {
      stream := rfl
      sized := fun _ hc => (List.not_mem_nil hc).elim
      printed := rfl
      own := fun _ _ writer => nomatch writer
      fresh := fun _ _ => ⟨rfl, rfl⟩
      within := fun _ => List.prefix_rfl }
  · rintro turns s os turn t o - ⟨chunks, h⟩ hs
    exact h.step hs

theorem flatten_msgout (plain : ∀ chunk ∈ chunks, 0 ∉ chunk) :
    (chunks.map msgout).flatten = chunks.flatten := by
  have same : ∀ chunk ∈ chunks, msgout chunk = chunk := by
    intro chunk hc
    rw [msgout, List.takeWhile_eq_self_iff]
    intro b hb
    rw [bne_iff_ne]
    rintro rfl
    exact plain chunk hc hb
  rw [List.map_congr_left same, List.map_id']

theorem Conveyed.flatten_said (h : Conveyed s os chunks) (plain : 0 ∉ taken os) :
    (said os).flatten ++ s.pipe = taken os := by
  rw [h.stream] at plain
  rw [h.printed, h.stream, flatten_msgout]
  intro chunk hc inside
  exact plain (List.mem_append_left _ (List.mem_flatten.mpr ⟨chunk, hc, inside⟩))

/-! ## After the loop -/

/-- Out of its loop the server reads no more, and does not come back to it. -/
theorem step_silent {turn : Turn} (stopped : s.server ≠ .reading)
    (hs : step s turn = some (t, o)) : t.server ≠ .reading ∧ said o = [] := by
  cases turn with
  | openWrite =>
      obtain ⟨-, eq⟩ := Option.ite_none_right_eq_some.mp hs
      cases eq
      exact ⟨stopped, rfl⟩
  | send i msg =>
      obtain ⟨-, hs⟩ := Option.ite_none_right_eq_some.mp hs
      split at hs
      · obtain ⟨-, eq⟩ := Option.ite_none_right_eq_some.mp hs
        cases eq
        exact ⟨stopped, rfl⟩
      · cases hs
        exact ⟨stopped, rfl⟩
  | put i count =>
      simp only [step, put] at hs
      split at hs
      · obtain ⟨-, eq⟩ := Option.ite_none_right_eq_some.mp hs
        cases eq
        exact ⟨stopped, rfl⟩
      · cases hs
  | close i =>
      cases hs
      exact ⟨stopped, rfl⟩
  | recv count => exact absurd (Option.ite_none_right_eq_some.mp hs).1.1 stopped
  | endOfFile => exact absurd (Option.ite_none_right_eq_some.mp hs).1.1 stopped
  | fail => exact absurd (Option.ite_none_right_eq_some.mp hs).1.1 stopped
  | delete | exit =>
      obtain ⟨-, eq⟩ := Option.ite_none_right_eq_some.mp hs
      cases eq
      exact ⟨nofun, rfl⟩

theorem run_silent {more : List Turn} (stopped : s.server ≠ .reading)
    (run : fifo.runFrom s more = some (t, o)) : said o = [] := by
  induction more generalizing s o with
  | nil =>
      cases run
      rfl
  | cons turn more ih =>
      obtain ⟨⟨u, now⟩, step, mapped⟩ := Option.bind_eq_some_iff.mp run
      obtain ⟨⟨v, later⟩, ran, eq⟩ := Option.map_eq_some_iff.mp mapped
      cases eq
      obtain ⟨still, silent⟩ := step_silent stopped step
      rw [said_append, silent, ih still ran]
      rfl

/-- What was printed when the server left its loop is all that is ever printed. -/
theorem said_later {turns more : List Turn} {os' : List Action} (run : fifo.Reaches turns s os)
    (stopped : s.server ≠ .reading) (run' : fifo.Reaches (turns ++ more) t os') :
    said os' = said os := by
  obtain ⟨u, before, after, hu, later, rfl⟩ := Machine.reaches_append.mp run'
  obtain ⟨rfl, rfl⟩ := run.unique hu
  rw [said_append, run_silent stopped later, List.append_nil]

/-- When `Recv` returns 0, all that the pipe has taken so far is printed. -/
theorem said_endOfFile {turns more : List Turn} {os' : List Action}
    (run : fifo.Reaches turns s os) (run' : fifo.Reaches (turns ++ .endOfFile :: more) t os') :
    s.pipe = [] ∧ said os' = said os ∧ (0 ∉ taken os → (said os').flatten = taken os) := by
  rw [List.append_cons] at run'
  obtain ⟨u, ou, hu⟩ := run'.of_append
  obtain ⟨v, ov, o, hv, step, rfl⟩ := Machine.reaches_snoc.mp hu
  obtain ⟨rfl, rfl⟩ := run.unique hv
  obtain ⟨⟨-, empty, -⟩, eq⟩ := Option.ite_none_right_eq_some.mp step
  cases eq
  have later := said_later hu nofun run'
  rw [List.append_nil] at later
  refine ⟨empty, later, fun plain => ?_⟩
  obtain ⟨chunks, h⟩ := fifo_conveyed run
  rw [later, ← h.flatten_said plain, empty, List.append_nil]

/-- For any clients and every order of opening, writing, closing and reading, up to the
exit of the server and beyond: the pipe takes of each client what it writes, in order, and
all of it but the rest of the `write` that it is in; the server reads the stream of all of
them in pieces of up to 127 bytes and prints each up to its first NUL, so if there is no
NUL it prints the stream up to what is still in the pipe. What it has printed when it
leaves its loop is all that it prints, and if it left at the end of the file that is all
that the pipe had taken by then: what is written later is lost. -/
theorem fifo_says_what_was_sent {turns : List Turn} (run : fifo.Reaches turns s os) :
    (∀ i, tookBy i os <+: sentBy i os) ∧
      (∀ i rest, s.writers[i]? = some (some rest) → sentBy i os = tookBy i os ++ rest) ∧
      (∃ chunks : List Str, taken os = chunks.flatten ++ s.pipe ∧
        (∀ chunk ∈ chunks, 1 ≤ chunk.length ∧ chunk.length ≤ 127) ∧
        said os = chunks.map msgout) ∧
      (0 ∉ taken os → (said os).flatten ++ s.pipe = taken os) ∧
      (s.server ≠ .reading → ∀ more t os', fifo.Reaches (turns ++ more) t os' →
        said os' = said os) ∧
      ∀ before after u ou, turns = before ++ .endOfFile :: after → fifo.Reaches before u ou →
        u.pipe = [] ∧ said os = said ou ∧ (0 ∉ taken ou → (said os).flatten = taken ou) := by
  obtain ⟨chunks, h⟩ := fifo_conveyed run
  refine ⟨h.within, h.own, ⟨chunks, h.stream, h.sized, h.printed⟩, h.flatten_said,
    fun stopped more t os' => said_later run stopped, ?_⟩
  rintro before after u ou rfl earlier
  exact said_endOfFile earlier run

/-- Two clients, whose lines run into each other, and one that comes after the end of the
file. -/
theorem fifo_says_what_was_sent_two :
    ∃ turns s os, fifo.Reaches turns s os ∧ said os = [bytes "hil", bytes "o"] ∧
      s.server = .exited ∧ s.pipe = bytes "late" ∧ (said os).flatten = bytes "hilo" := by
  have past : fifo.Reaches [.openWrite, .openWrite, .send 0 (bytes "hi"), .send 1 (bytes "lo"),
      .recv 3, .close 1, .recv 1, .close 0] _ _ := rfl
  have run : fifo.Reaches ([.openWrite, .openWrite, .send 0 (bytes "hi"), .send 1 (bytes "lo"),
      .recv 3, .close 1, .recv 1, .close 0] ++ .endOfFile :: [.openWrite, .send 2 (bytes "late"),
      .delete, .exit]) _ _ := rfl
  have printed := ((fifo_says_what_was_sent run).2.2.2.2.2 _ _ _ _ rfl past).2.2 (by decide)
  exact ⟨_, _, _, run, by decide, rfl, by decide, printed.trans (by decide)⟩

end StudyCode.NamedPipe

import Mathlib.Logic.Function.Basic
import StudyCode.Lib.ByteString

/-!
# `Connection`

A method is an action on the host: the heap of `Connection` objects and the
descriptor table of the kernel. What `recv` and `send` return is an input of the
method. An action lists the system calls it makes; a method of a destroyed object
does nothing but report the use. The address of an object is the number of the
`accept` it was made for, and the kernel remembers for every open descriptor which
`accept` opened it.
-/
namespace StudyCode.Tcp
open StudyCode.ByteString

inductive ConnStatus where
  | connected
  | closed
  deriving DecidableEq, Repr

structure Connection where
  clientfd : ℤ
  status : ConnStatus
  deriving DecidableEq, Repr

structure Host where
  heap : ℕ → Option Connection
  fds : ℤ → Option ℕ

inductive Event where
  | recv (conn : ℕ) (fd : ℤ) (status : ConnStatus)
  | send (conn : ℕ) (fd : ℤ) (status : ConnStatus) (msg : Str)
  /-- `close(fd)` by `conn` while the descriptor belongs to `file` -/
  | close (conn : ℕ) (fd : ℤ) (file : Option ℕ)
  /-- a field of the destroyed object `conn` is used -/
  | dangling (conn : ℕ)
  deriving DecidableEq, Repr

/-! ## Answering a word -/

def gDict : List (Str × Str) :=
  [(bytes "hello", bytes "你好"), (bytes "world", bytes "世界"), (bytes "server", bytes "服务器"),
    (bytes "exit", bytes "已断开连接"), (bytes "bye", bytes "再见")]

/-- `tolower` of the C locale. -/
def lowerByte (b : UInt8) : UInt8 := if 65 ≤ b ∧ b ≤ 90 then b + 32 else b

def toLower (s : Str) : Str := s.map lowerByte

/-- The bytes in `" \n\r\t"`. -/
def isBlank (b : UInt8) : Bool := b == 32 || b == 10 || b == 13 || b == 9

/-- The text in `m_buffer`, zero-filled before `recv` wrote `received` to it. -/
def bufferText (received : Str) : Str := received.takeWhile (· != 0)

def translate (received : Str) : Str :=
  let input := (bufferText received).rdropWhile isBlank
  match gDict.lookup (toLower input) with
  | some response => response
  | none => bytes "未找到该词条，请重试"

/-- The reply to what one `recv` wrote. -/
def answer (received : Str) : Str := translate received ++ bytes "\n"

/-! ## The methods -/

abbrev Action := Host → Host × List Event

def skip : Action := fun h => (h, [])

def emit (e : Event) : Action := fun h => (h, [e])

def Action.andThen (a b : Action) : Action := fun h =>
  ((b (a h).1).1, (a h).2 ++ (b (a h).1).2)

/-- What a method of the object at `p` does with the fields it reads. -/
def withThis (p : ℕ) (body : Connection → Action) : Action := fun h =>
  match h.heap p with
  | none => (h, [.dangling p])
  | some c => body c h

def setStatus (p : ℕ) (status : ConnStatus) : Action :=
  withThis p fun c h =>
    ({ h with heap := Function.update h.heap p (some { c with status := status }) }, [])

/-- `Utils::closefd(fd)`, called by the object at `p`. -/
def closefd (p : ℕ) (fd : ℤ) : Action := fun h =>
  if 0 < fd then ({ h with fds := Function.update h.fds fd none }, [.close p fd (h.fds fd)])
  else (h, [])

def closeConnection (p : ℕ) : Action :=
  withThis p fun c =>
    match c.status with
    | .closed => skip
    | .connected => Action.andThen (setStatus p .closed) (closefd p c.clientfd)

/-- `sent` is what `send` returns, `none` for -1. -/
def sendData (p : ℕ) (msg : Str) (sent : Option ℕ) : Action :=
  withThis p fun c =>
    match c.status with
    | .closed => skip
    | .connected =>
        Action.andThen (emit (.send p c.clientfd c.status msg)) <|
          match sent with
          | none => closeConnection p
          | some _ => skip

/-- `received` is what `recv` wrote to the buffer, `none` for -1. -/
def readData (p : ℕ) (received : Option Str) (sent : Option ℕ) : Action :=
  withThis p fun c =>
    match c.status with
    | .closed => skip
    | .connected =>
        Action.andThen (emit (.recv p c.clientfd c.status)) <|
          match received with
          | none | some [] => closeConnection p
          | some (b :: bs) => sendData p (translate (b :: bs) ++ bytes "\n") sent

/-- `~Connection`, after which the object is gone. -/
def destroy (p : ℕ) : Action :=
  Action.andThen (closeConnection p) fun h =>
    ({ h with heap := Function.update h.heap p none }, [])

/-! ## What the methods do to a live object -/

/-- The host after `p` closed its connection. -/
def Host.hangUp (h : Host) (p : ℕ) (c : Connection) : Host where
  heap := Function.update h.heap p (some { c with status := .closed })
  fds := Function.update h.fds c.clientfd none

def Host.free (h : Host) (p : ℕ) : Host := { h with heap := Function.update h.heap p none }

def Host.closed (h : Host) (p : ℕ) : Bool :=
  match h.heap p with
  | some c => c.status = .closed
  | none => false

theorem closed_eq_true {h : Host} {p : ℕ} :
    h.closed p = true ↔ ∃ c, h.heap p = some c ∧ c.status = .closed := by
  unfold Host.closed
  cases h.heap p <;> simp

theorem closed_free_of_ne {h : Host} {p q : ℕ} (ne : q ≠ p) : (h.free p).closed q = h.closed q := by
  simp [Host.closed, Host.free, Function.update_of_ne ne]

theorem update_eq_some {β γ : Type*} [DecidableEq β] {f : β → Option γ} {a b : β} {v : Option γ}
    {w : γ} :
    Function.update f a v b = some w ↔ b = a ∧ v = some w ∨ b ≠ a ∧ f b = some w := by
  by_cases own : b = a
  · subst own
    simp
  · simp [own]

variable {h : Host} {p : ℕ} {c : Connection}

theorem closed_eq_false (hp : h.heap p = some c) :
    h.closed p = false ↔ c.status = .connected := by
  cases status : c.status <;> simp [Host.closed, hp, status]

theorem closeConnection_closed (hp : h.heap p = some c) (status : c.status = .closed) :
    closeConnection p h = (h, []) := by
  simp [closeConnection, withThis, hp, status, skip]

theorem closeConnection_connected (hp : h.heap p = some c) (status : c.status = .connected)
    (positive : 0 < c.clientfd) :
    closeConnection p h = (h.hangUp p c, [.close p c.clientfd (h.fds c.clientfd)]) := by
  simp [closeConnection, withThis, hp, status, Action.andThen, setStatus, closefd, positive,
    Host.hangUp]

theorem destroy_closed (hp : h.heap p = some c) (status : c.status = .closed) :
    destroy p h = (h.free p, []) := by
  simp [destroy, Action.andThen, closeConnection_closed hp status, Host.free]

theorem readData_of_closed (hp : h.heap p = some c) (status : c.status = .closed)
    (received : Option Str) (sent : Option ℕ) : readData p received sent h = (h, []) := by
  simp [readData, withThis, hp, status, skip]

theorem sendData_of_closed (hp : h.heap p = some c) (status : c.status = .closed)
    (msg : Str) (sent : Option ℕ) : sendData p msg sent h = (h, []) := by
  simp [sendData, withThis, hp, status, skip]

theorem readData_ended (hp : h.heap p = some c) (status : c.status = .connected)
    {received : Option Str} (ended : received = none ∨ received = some []) (sent : Option ℕ) :
    readData p received sent h = ((closeConnection p h).1,
      .recv p c.clientfd .connected :: (closeConnection p h).2) := by
  rcases ended with rfl | rfl <;> simp [readData, withThis, hp, status, Action.andThen, emit]

theorem readData_data (hp : h.heap p = some c) (status : c.status = .connected) (b : UInt8)
    (bs : Str) (sent : Option ℕ) :
    readData p (some (b :: bs)) sent h = ((sendData p (answer (b :: bs)) sent h).1,
      .recv p c.clientfd .connected :: (sendData p (answer (b :: bs)) sent h).2) := by
  simp [readData, withThis, hp, status, Action.andThen, emit, answer]

theorem sendData_failed (hp : h.heap p = some c) (status : c.status = .connected) (msg : Str) :
    sendData p msg none h = ((closeConnection p h).1,
      .send p c.clientfd .connected msg :: (closeConnection p h).2) := by
  simp [sendData, withThis, hp, status, Action.andThen, emit]

theorem sendData_sent (hp : h.heap p = some c) (status : c.status = .connected) (msg : Str)
    (n : ℕ) : sendData p msg (some n) h = (h, [.send p c.clientfd .connected msg]) := by
  simp [sendData, withThis, hp, status, Action.andThen, emit, skip]

/-- The system calls of a method before it closes the connection, if it does. -/
def Talk (p : ℕ) (c : Connection) (es : List Event) : Prop :=
  ∀ e ∈ es, e = .recv p c.clientfd .connected ∨ ∃ msg, e = .send p c.clientfd .connected msg

/-- `readData` of a connected object talks and then may close the connection. -/
theorem readData_connected (hp : h.heap p = some c) (status : c.status = .connected)
    (positive : 0 < c.clientfd) (received : Option Str) (sent : Option ℕ) :
    ∃ es, Talk p c es ∧
      (readData p received sent h = (h, es) ∨
        readData p received sent h =
          (h.hangUp p c, es ++ [.close p c.clientfd (h.fds c.clientfd)])) := by
  have hangs := closeConnection_connected hp status positive
  have heard : Talk p c [.recv p c.clientfd .connected] := by simp [Talk]
  match received with
  | none =>
      rw [readData_ended hp status (.inl rfl), hangs]
      exact ⟨_, heard, .inr rfl⟩
  | some [] =>
      rw [readData_ended hp status (.inr rfl), hangs]
      exact ⟨_, heard, .inr rfl⟩
  | some (b :: bs) =>
      have answered : Talk p c [.recv p c.clientfd .connected,
          .send p c.clientfd .connected (answer (b :: bs))] := by simp [Talk]
      rw [readData_data hp status]
      cases sent with
      | none =>
          rw [sendData_failed hp status, hangs]
          exact ⟨_, answered, .inr rfl⟩
      | some n =>
          rw [sendData_sent hp status]
          exact ⟨_, answered, .inl rfl⟩

end StudyCode.Tcp

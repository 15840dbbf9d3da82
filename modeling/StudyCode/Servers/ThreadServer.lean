import Mathlib.Data.Int.Notation
import Mathlib.Logic.Function.Basic
import StudyCode.Lib.Machine

/-!
# The server with one thread for each client

`TCPServer::run` accepts and hands each descriptor through a heap cell to a
thread of its own, which runs `handle_client`. A turn is one system call or
one access to a cell. Connections are numbered as they are accepted; the number
goes along with what was made for the connection, and no step looks at it.
-/
namespace StudyCode.ThreadServer
open StudyCode.Scheduled

structure Cell where
  fd : ℤ
  conn : ℕ
  deriving DecidableEq, Repr

/-- Where a thread is in `handle_client`. -/
inductive Stage where
  | created (cell : ℕ)
  | loaded (cell : ℕ) (fd : ℤ)
  | receiving (fd : ℤ)
  | sending (fd : ℤ)
  | closing (fd : ℤ)
  | exited
  deriving DecidableEq, Repr

structure Handler where
  conn : ℕ
  stage : Stage
  deriving DecidableEq, Repr

/-- Where `run` is. After `failed` it closes the descriptor; the cell is lost. -/
inductive Main where
  | accepting
  | accepted (conn : ℕ) (fd : ℤ)
  | stored (conn : ℕ) (fd : ℤ) (cell : ℕ)
  | failed (conn : ℕ) (fd : ℤ)
  deriving DecidableEq, Repr

structure Server where
  fds : ℤ → Option ℕ
  heap : ℕ → Option Cell
  accepts : ℕ
  main : Main
  handlers : List Handler

inductive Turn where
  | accept (fd : ℤ)
  | makeUnique (cell : ℕ)
  | createThread (created : Bool)
  | closeFailed
  | load (i : ℕ)
  | delete (i : ℕ)
  | recv (i : ℕ) (valread : ℤ)
  | send (i : ℕ)
  | close (i : ℕ)
  deriving DecidableEq, Repr

/-- A system call for the connection `conn`; `file` is the connection that the
number refers to at that moment. A `close` is made by `run` or by a thread. -/
inductive Event where
  | accept (conn : ℕ) (fd : ℤ)
  | recv (conn : ℕ) (fd : ℤ) (file : Option ℕ)
  | send (conn : ℕ) (fd : ℤ) (file : Option ℕ)
  | close (thread : Option ℕ) (conn : ℕ) (fd : ℤ) (file : Option ℕ)
  | dangling (conn : ℕ)
  deriving DecidableEq, Repr

def Server.goOn (s : Server) (i : ℕ) (h : Handler) (stage : Stage) : Server :=
  { s with handlers := s.handlers.set i { h with stage := stage } }

/-- `int conn_fd = *p_conn_fd` -/
def load (s : Server) (i : ℕ) (h : Handler) : Option (Server × List Event) :=
  match h.stage with
  | .created p =>
      match s.heap p with
      | some cell => some (s.goOn i h (.loaded p cell.fd), [])
      | none => some (s.goOn i h .exited, [.dangling h.conn])
  | _ => none

/-- `delete p_conn_fd` -/
def delete (s : Server) (i : ℕ) (h : Handler) : Option (Server × List Event) :=
  match h.stage with
  | .loaded p fd =>
      match s.heap p with
      | some _ =>
          some ({ s.goOn i h (.receiving fd) with heap := Function.update s.heap p none }, [])
      | none => some (s.goOn i h .exited, [.dangling h.conn])
  | _ => none

/-- The second test of `valread < 0` repeats the first, so 0 goes on to `send`. -/
def recv (s : Server) (i : ℕ) (h : Handler) (valread : ℤ) : Option (Server × List Event) :=
  match h.stage with
  | .receiving fd =>
      some (s.goOn i h (if valread < 0 then .closing fd else .sending fd),
        [.recv h.conn fd (s.fds fd)])
  | _ => none

def send (s : Server) (i : ℕ) (h : Handler) : Option (Server × List Event) :=
  match h.stage with
  | .sending fd => some (s.goOn i h (.closing fd), [.send h.conn fd (s.fds fd)])
  | _ => none

def close (s : Server) (i : ℕ) (h : Handler) : Option (Server × List Event) :=
  match h.stage with
  | .closing fd =>
      some ({ s.goOn i h .exited with fds := Function.update s.fds fd none },
        [.close (some i) h.conn fd (s.fds fd)])
  | _ => none

def step (s : Server) : Turn → Option (Server × List Event)
  | .accept fd =>
      match s.main with
      | .accepting =>
          if fd < 0 then some (s, [])
          else if s.fds fd = none then
            some ({ s with
              fds := Function.update s.fds fd (some s.accepts)
              accepts := s.accepts + 1
              main := .accepted s.accepts fd }, [.accept s.accepts fd])
          else none
      | _ => none
  | .makeUnique p =>
      match s.main with
      | .accepted conn fd =>
          if s.heap p = none then
            some ({ s with
              heap := Function.update s.heap p (some ⟨fd, conn⟩)
              main := .stored conn fd p }, [])
          else none
      | _ => none
  | .createThread created =>
      match s.main with
      | .stored conn fd p =>
          if created then
            some ({ s with main := .accepting, handlers := s.handlers ++ [⟨conn, .created p⟩] }, [])
          else some ({ s with main := .failed conn fd }, [])
      | _ => none
  | .closeFailed =>
      match s.main with
      | .failed conn fd =>
          some ({ s with main := .accepting, fds := Function.update s.fds fd none },
            [.close none conn fd (s.fds fd)])
      | _ => none
  | .load i => s.handlers[i]?.bind (load s i)
  | .delete i => s.handlers[i]?.bind (delete s i)
  | .recv i valread => s.handlers[i]?.bind fun h => recv s i h valread
  | .send i => s.handlers[i]?.bind (send s i)
  | .close i => s.handlers[i]?.bind (close s i)

def threadServer : Machine Server Turn Event where
  start :=
    { fds := fun _ => none
      heap := fun _ => none
      accepts := 0
      main := .accepting
      handlers := [] }
  step := step

end StudyCode.ThreadServer

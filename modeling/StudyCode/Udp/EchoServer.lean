import Mathlib.Logic.Function.Basic
import StudyCode.Lib.Machine
import StudyCode.Lib.TextSearch
import StudyCode.Lib.Trace

/-!
# The UDP echo server and its clients

`UdpServer::Start` answers each datagram it receives, and a client waits for one
datagram after each message. Between them the network may lose, copy and reorder
what is on its way. A datagram longer than a buffer is cut off, and text is read
from a buffer up to the first NUL.
-/
namespace StudyCode.EchoServer
open StudyCode.ByteString StudyCode.Scheduled

/-- `recvfrom` into `inbuffer[1024]`, `inbuffer[n] = 0`, and the text that is there. -/
def inbuffer (datagram : Str) : Str := (datagram.take 1023).takeWhile (· != 0)

def echoString (datagram : Str) : Str := bytes "server echo#" ++ inbuffer datagram

/-- What a client shows when its message was answered. -/
def shownFor (message : Str) : Str := inbuffer (echoString message)

structure State (ι : Type*) where
  /-- datagrams on their way to the server, with who sent them -/
  requests : List (ι × Str)
  /-- datagrams on their way to a client -/
  echoes : List (ι × Str)
  waiting : ι → Bool

inductive Turn (ι : Type*) where
  /-- a client reads a line and sends it; `sendto` may fail -/
  | enter (i : ι) (message : Str) (sent : Bool)
  | serve (k : ℕ) (sent : Bool)
  | receive (k : ℕ)
  /-- the client's `recvfrom` fails -/
  | giveUp (i : ι)
  | loseRequest (k : ℕ)
  | loseEcho (k : ℕ)
  | copyRequest (k : ℕ)
  | copyEcho (k : ℕ)
  deriving DecidableEq, Repr

inductive Action (ι : Type*) where
  | sent (i : ι) (message : Str)
  | shown (i : ι) (line : Str)
  deriving DecidableEq, Repr

variable {ι : Type*} [DecidableEq ι]

/-- One round of the client's loop up to `recvfrom`. An empty datagram is sent, but
then `sendto` returns 0, and the client does not wait. -/
def enter (s : State ι) (i : ι) (message : Str) (sent : Bool) :
    Option (State ι × List (Action ι)) :=
  if s.waiting i then none
  else if sent then
    some ({ s with
      requests := s.requests ++ [(i, message)]
      waiting := Function.update s.waiting i (decide (message ≠ [])) }, [.sent i message])
  else some (s, [])

/-- One round of the loop of `Start`. -/
def serve (s : State ι) (k : ℕ) (sent : Bool) : Option (State ι) :=
  match s.requests[k]? with
  | none => none
  | some (i, datagram) =>
      let requests := s.requests.eraseIdx k
      if datagram ≠ [] ∧ sent then
        some { s with requests := requests, echoes := s.echoes ++ [(i, echoString datagram)] }
      else some { s with requests := requests }

/-- The rest of the round of the client's loop. -/
def receive (s : State ι) (k : ℕ) : Option (State ι × List (Action ι)) :=
  match s.echoes[k]? with
  | none => none
  | some (i, datagram) =>
      if s.waiting i then
        some ({ s with
          echoes := s.echoes.eraseIdx k
          waiting := Function.update s.waiting i false },
          if datagram = [] then [] else [.shown i (inbuffer datagram)])
      else none

def step (s : State ι) : Turn ι → Option (State ι × List (Action ι))
  | .enter i message sent => enter s i message sent
  | .serve k sent => (serve s k sent).map fun t => (t, [])
  | .receive k => receive s k
  | .giveUp i =>
      if s.waiting i then some ({ s with waiting := Function.update s.waiting i false }, [])
      else none
  | .loseRequest k => some ({ s with requests := s.requests.eraseIdx k }, [])
  | .loseEcho k => some ({ s with echoes := s.echoes.eraseIdx k }, [])
  | .copyRequest k => some ({ s with requests := s.requests ++ s.requests[k]?.toList }, [])
  | .copyEcho k => some ({ s with echoes := s.echoes ++ s.echoes[k]?.toList }, [])

def echo : Machine (State ι) (Turn ι) (Action ι) where
  start := { requests := [], echoes := [], waiting := fun _ => false }
  step := step

/-! ## What a client can be shown -/

/-- What is shown answers a message that was sent before. -/
def Answers (before : List (Action ι)) (a : Action ι) : Prop :=
  ∀ i line, a = .shown i line → ∃ message, message ≠ [] ∧ .sent i message ∈ before ∧
    line = shownFor message

/-- What is on its way was sent by the one it belongs to, or answers what that one sent. -/
structure Backed (s : State ι) (os : List (Action ι)) : Prop where
  requests : ∀ r ∈ s.requests, .sent r.1 r.2 ∈ os
  echoes : ∀ e ∈ s.echoes, ∃ message, message ≠ [] ∧ .sent e.1 message ∈ os ∧
    e.2 = echoString message
  shown : EachAfter Answers os

variable {s t : State ι} {os o : List (Action ι)}

omit [DecidableEq ι] in
/-- A step that shows nothing and puts nothing on the way that was not there. -/
theorem Backed.of_subset (h : Backed s os) (requests : t.requests ⊆ s.requests)
    (echoes : t.echoes ⊆ s.echoes) : Backed t os where
  requests r hr := h.requests r (requests hr)
  echoes e he := h.echoes e (echoes he)
  shown := h.shown

omit [DecidableEq ι] in
/-- One more action that the trace answers for. -/
theorem Backed.snoc {a : Action ι} (h : Backed s os) (answers : Answers os a) :
    Backed s (os ++ [a]) where
  requests r hr := List.mem_append_left [a] (h.requests r hr)
  echoes e he := by
    obtain ⟨message, filled, sent, eq⟩ := h.echoes e he
    exact ⟨message, filled, List.mem_append_left [a] sent, eq⟩
  shown := eachAfter_snoc.mpr ⟨h.shown, answers⟩

theorem Backed.enter {i : ι} {message : Str} {sent : Bool} (h : Backed s os)
    (hs : EchoServer.enter s i message sent = some (t, o)) : Backed t (os ++ o) := by
  obtain ⟨-, hs⟩ := Option.ite_none_left_eq_some.mp hs
  split at hs <;> cases hs
  · have past := h.snoc (a := .sent i message) nofun
    refine ⟨fun r hr => ?_, past.echoes, past.shown⟩
    rcases List.mem_append.mp hr with old | new
    · exact past.requests r old
    · rw [List.mem_singleton.mp new]
      exact List.mem_append_right os (List.mem_singleton_self _)
  · rwa [List.append_nil]

omit [DecidableEq ι] in
theorem Backed.serve {k : ℕ} {sent : Bool} (h : Backed s os)
    (hs : EchoServer.serve s k sent = some t) : Backed t os := by
  unfold EchoServer.serve at hs
  split at hs
  · cases hs
  · rename_i i datagram here
    have fewer := h.of_subset (t := { s with requests := s.requests.eraseIdx k })
      List.eraseIdx_subset (List.Subset.refl _)
    split at hs <;> cases hs
    · rename_i filled
      refine ⟨fewer.requests, fun e he => ?_, fewer.shown⟩
      rcases List.mem_append.mp he with old | new
      · exact fewer.echoes e old
      · rw [List.mem_singleton.mp new]
        exact ⟨datagram, filled.1, h.requests _ (List.mem_of_getElem? here), rfl⟩
    · exact fewer

theorem echoString_ne_nil (datagram : Str) : echoString datagram ≠ [] := by
  simp [echoString, show bytes "server echo#" ≠ [] by decide]

theorem Backed.receive {k : ℕ} (h : Backed s os)
    (hs : EchoServer.receive s k = some (t, o)) : Backed t (os ++ o) := by
  unfold EchoServer.receive at hs
  split at hs
  · cases hs
  · rename_i i datagram here
    obtain ⟨-, eq⟩ := Option.ite_none_right_eq_some.mp hs
    obtain ⟨message, filled, sent, same⟩ := h.echoes _ (List.mem_of_getElem? here)
    subst same
    rw [if_neg (echoString_ne_nil message)] at eq
    cases eq
    have fewer := h.of_subset (t := { s with
      echoes := s.echoes.eraseIdx k, waiting := Function.update s.waiting i false })
      (List.Subset.refl _) List.eraseIdx_subset
    refine fewer.snoc fun j line shown => ?_
    cases shown
    exact ⟨message, filled, sent, rfl⟩

theorem Backed.step {turn : Turn ι} (h : Backed s os)
    (hs : EchoServer.step s turn = some (t, o)) : Backed t (os ++ o) := by
  cases turn with
  | enter i message sent => exact h.enter hs
  | serve k sent =>
      obtain ⟨u, served, eq⟩ := Option.map_eq_some_iff.mp hs
      cases eq
      rw [List.append_nil]
      exact h.serve served
  | receive k => exact h.receive hs
  | giveUp i =>
      obtain ⟨-, eq⟩ := Option.ite_none_right_eq_some.mp hs
      cases eq
      rw [List.append_nil]
      exact h.of_subset (List.Subset.refl _) (List.Subset.refl _)
  | loseRequest k =>
      cases hs
      rw [List.append_nil]
      exact h.of_subset List.eraseIdx_subset (List.Subset.refl _)
  | loseEcho k =>
      cases hs
      rw [List.append_nil]
      exact h.of_subset (List.Subset.refl _) List.eraseIdx_subset
  | copyRequest k =>
      cases hs
      rw [List.append_nil]
      refine h.of_subset (fun r hr => ?_) (List.Subset.refl _)
      rcases List.mem_append.mp hr with old | copy
      · exact old
      · exact List.mem_of_getElem? (Option.mem_toList.mp copy)
  | copyEcho k =>
      cases hs
      rw [List.append_nil]
      refine h.of_subset (List.Subset.refl _) fun e he => ?_
      rcases List.mem_append.mp he with old | copy
      · exact old
      · exact List.mem_of_getElem? (Option.mem_toList.mp copy)

theorem echo_backed {turns : List (Turn ι)} (run : echo.Reaches turns s os) : Backed s os :=
  run.induct (P := fun _ s os => Backed s os)
    ⟨fun _ hr => (List.not_mem_nil hr).elim, fun _ he => (List.not_mem_nil he).elim,
      eachAfter_nil _⟩ fun _ h hs => h.step hs

/-! ## What of a message comes back -/

theorem inbuffer_length (datagram : Str) : (inbuffer datagram).length ≤ 1023 :=
  ((List.takeWhile_prefix _).length_le).trans (List.length_take_le 1023 datagram)

theorem inbuffer_plain (datagram : Str) : 0 ∉ inbuffer datagram := by
  intro inside
  have kept := List.mem_takeWhile_imp inside
  simp at kept

theorem inbuffer_eq_iff {datagram : Str} :
    inbuffer datagram = datagram ↔ 0 ∉ datagram ∧ datagram.length ≤ 1023 := by
  constructor
  · intro same
    rw [← same]
    exact ⟨inbuffer_plain datagram, inbuffer_length datagram⟩
  · rintro ⟨plain, short⟩
    rw [inbuffer, List.take_of_length_le short, List.takeWhile_eq_self_iff]
    intro c hc
    rw [bne_iff_ne]
    rintro rfl
    exact plain hc

/-- The client's buffer has no room for the answer to a message that only just fits
the server's. -/
theorem shownFor_eq_iff {message : Str} :
    shownFor message = bytes "server echo#" ++ message ↔
      0 ∉ message ∧ message.length ≤ 1011 := by
  have name : (bytes "server echo#").length = 12 := rfl
  have plainName : (0 : UInt8) ∉ bytes "server echo#" := by decide
  constructor
  · intro whole
    have plain := inbuffer_plain (echoString message)
    have short := inbuffer_length (echoString message)
    rw [← shownFor, whole] at plain short
    rw [List.length_append, name] at short
    exact ⟨fun inside => plain (List.mem_append_right _ inside), by omega⟩
  · rintro ⟨plain, short⟩
    have first : inbuffer message = message := inbuffer_eq_iff.mpr ⟨plain, by omega⟩
    rw [shownFor, echoString, first, inbuffer_eq_iff, List.length_append, name]
    refine ⟨fun inside => ?_, by omega⟩
    rcases List.mem_append.mp inside with inName | inMessage
    · exact plainName inName
    · exact plain inMessage

/-- For any clients and every order of sending, serving, receiving, losing and copying: what
a client is shown is the answer to a message that it sent itself before, and that is the
message in full behind the server's text exactly if it has no NUL in it and at most 1011
bytes. -/
theorem shown_echoes_own_message {turns : List (Turn ι)} (run : echo.Reaches turns s os)
    {before after : List (Action ι)} {i : ι} {line : Str}
    (shown : os = before ++ .shown i line :: after) :
    ∃ message, message ≠ [] ∧ .sent i message ∈ before ∧ line = shownFor message ∧
      (line = bytes "server echo#" ++ message ↔ 0 ∉ message ∧ message.length ≤ 1011) := by
  obtain ⟨message, filled, sent, rfl⟩ := (echo_backed run).shown _ _ _ shown i line rfl
  exact ⟨message, filled, sent, rfl, shownFor_eq_iff⟩

/-- Two clients, whose messages are answered in the other order. -/
theorem shown_echoes_own_message_two :
    ∃ turns s os, (echo (ι := Bool)).Reaches turns s os ∧
      ∃ message, .sent true message ∈ os ∧ bytes "server echo#hi" = shownFor message := by
  have run : (echo (ι := Bool)).Reaches [.enter true (bytes "hi") true,
      .enter false (bytes "ho") true, .serve 1 true, .serve 0 true, .receive 1] _
      ([.sent true (bytes "hi"), .sent false (bytes "ho")] ++
        .shown true (bytes "server echo#hi") :: []) := rfl
  obtain ⟨message, -, sent, eq, -⟩ := shown_echoes_own_message run rfl
  exact ⟨_, _, _, run, message, List.mem_append_left _ sent, eq⟩

end StudyCode.EchoServer

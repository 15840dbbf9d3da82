import StudyCode.Lib.Machine
import StudyCode.Tcp.Connection

/-!
# What reaches the client of a connection

`sendData` calls `send` once and looks at its result only for an error. The
sockets do not block, so `send` may take a part of a reply. The bytes handed to
the kernel are all replies, while the connection lives, exactly where every
`send` takes its whole reply or fails.
-/
namespace StudyCode.Tcp
open StudyCode.ByteString StudyCode.Scheduled

/-- The message of a `send`. -/
def Event.reply : Event → Str
  | .send _ _ _ msg => msg
  | _ => []

def replies (es : List Event) : Str := es.flatMap Event.reply

variable {h : Host} {p : ℕ} {c : Connection}

theorem closeConnection_closes (hp : h.heap p = some c) :
    (closeConnection p h).1.closed p = true ∧ replies (closeConnection p h).2 = [] := by
  cases status : c.status with
  | closed =>
      rw [closeConnection_closed hp status]
      exact ⟨closed_eq_true.mpr ⟨c, hp, status⟩, rfl⟩
  | connected =>
      by_cases positive : 0 < c.clientfd
      · rw [closeConnection_connected hp status positive]
        exact ⟨closed_eq_true.mpr ⟨_, Function.update_self _ _ _, rfl⟩, rfl⟩
      · simp [closeConnection, withThis, hp, status, Action.andThen, setStatus, closefd, positive,
          Host.closed, replies]

/-- One `sendData` of a connected object: an error closes it. -/
theorem sendData_cases (hp : h.heap p = some c) (status : c.status = .connected) (msg : Str)
    (sent : Option ℕ) :
    replies (sendData p msg sent h).2 = msg ∧
      (sent = none ∧ (sendData p msg sent h).1.closed p = true ∨
        ∃ n, sent = some n ∧ (sendData p msg sent h).1 = h) := by
  obtain ⟨closes, quiet⟩ := closeConnection_closes hp
  cases sent with
  | none =>
      rw [sendData_failed hp status]
      exact ⟨(congrArg (msg ++ ·) quiet).trans (List.append_nil msg), .inl ⟨rfl, closes⟩⟩
  | some n =>
      rw [sendData_sent hp status]
      exact ⟨List.append_nil msg, .inr ⟨n, rfl, rfl⟩⟩

/-- One `readData` of a connected object: the end of the stream or an error
closes it, and data is answered. -/
theorem readData_cases (hp : h.heap p = some c) (status : c.status = .connected)
    (received : Option Str) (sent : Option ℕ) :
    ((received = none ∨ received = some []) ∧ (readData p received sent h).1.closed p = true ∧
        replies (readData p received sent h).2 = []) ∨
      ∃ b bs, received = some (b :: bs) ∧
        replies (readData p received sent h).2 = answer (b :: bs) ∧
        (sent = none ∧ (readData p received sent h).1.closed p = true ∨
          ∃ n, sent = some n ∧ (readData p received sent h).1 = h) := by
  obtain ⟨closes, quiet⟩ := closeConnection_closes hp
  rcases received with - | - | ⟨b, bs⟩
  · rw [readData_ended hp status (.inl rfl)]
    exact .inl ⟨.inl rfl, closes, quiet⟩
  · rw [readData_ended hp status (.inr rfl)]
    exact .inl ⟨.inr rfl, closes, quiet⟩
  · rw [readData_data hp status]
    exact .inr ⟨b, bs, rfl, sendData_cases hp status (answer (b :: bs)) sent⟩

/-! ## The bytes that the kernel takes -/

/-- A connection, the bytes that the kernel took for its client, and all replies. -/
structure Talking where
  host : Host
  taken : Str
  said : Str

/-- What `recv` and `send` return to one `readData`. -/
structure ReadCall where
  received : Option Str
  sent : Option ℕ
  deriving DecidableEq, Repr

/-- `send` takes any number of the bytes of its message, from the first one on. -/
def talkStep (p : ℕ) (s : Talking) (call : ReadCall) : Option (Talking × List Event) :=
  let r := readData p call.received call.sent s.host
  if replies r.2 = [] ∨ call.sent.getD 0 ≤ (replies r.2).length then
    some ({
      host := r.1
      taken := s.taken ++ (replies r.2).take (call.sent.getD 0)
      said := s.said ++ replies r.2 }, r.2)
  else none

/-- The calls of `readData` on the object at `p`. -/
def talk (h : Host) (p : ℕ) : Machine Talking ReadCall Event where
  start := { host := h, taken := [], said := [] }
  step := talkStep p

/-- The client can only miss the end of what was said, and nothing while the
connection lives. -/
def NothingLost (p : ℕ) (s : Talking) : Prop :=
  s.taken <+: s.said ∧ (s.host.closed p = false → s.taken = s.said)

/-- If a reply is sent now, `send` takes all of it or fails. -/
def SendsWhole (p : ℕ) (s : Talking) (call : ReadCall) : Prop :=
  s.host.closed p = false → ∀ b bs, call.received = some (b :: bs) →
    ∀ n, call.sent = some n → n = (answer (b :: bs)).length

theorem answer_ne_nil (received : Str) : answer received ≠ [] := by
  intro empty
  have length := congrArg List.length empty
  rw [answer, List.length_append] at length
  exact absurd (Nat.eq_zero_of_add_eq_zero_left length) (by decide)

theorem Host.heap_of_closed {g : Host} (gone : g.closed p = true) : g.heap p ≠ none := by
  obtain ⟨d, hd, -⟩ := closed_eq_true.mp gone
  rw [hd]
  exact Option.some_ne_none d

/-- One call loses nothing exactly when its reply, if it has one, is sent whole. -/
theorem talkStep_iff {s t : Talking} {call : ReadCall} {o : List Event}
    (hp : s.host.heap p ≠ none) (kept : NothingLost p s) (hs : talkStep p s call = some (t, o)) :
    t.host.heap p ≠ none ∧ (NothingLost p t ↔ SendsWhole p s call) := by
  obtain ⟨c, hp⟩ := Option.ne_none_iff_exists'.mp hp
  rcases call with ⟨received, sent⟩
  obtain ⟨legal, eq⟩ := Option.ite_none_right_eq_some.mp hs
  cases eq
  cases status : c.status with
  | closed =>
      have gone : s.host.closed p = true := closed_eq_true.mpr ⟨c, hp, status⟩
      rw [readData_of_closed hp status]
      refine ⟨Host.heap_of_closed gone, iff_of_true ?_ fun live => ?_⟩
      · simpa [NothingLost, replies] using kept
      · exact absurd live (by simp [gone])
  | connected =>
      have whole := kept.2 ((closed_eq_false hp).mpr status)
      rcases readData_cases hp status received sent with
        ⟨ended, gone, quiet⟩ | ⟨b, bs, rfl, said, ⟨rfl, gone⟩ | ⟨n, rfl, same⟩⟩
      · refine ⟨Host.heap_of_closed gone, iff_of_true ⟨?_, fun live => ?_⟩ fun _ b bs read => ?_⟩
        · simp [quiet, whole]
        · exact absurd live (by simp [gone])
        · rcases ended with rfl | rfl <;> cases read
      · refine ⟨Host.heap_of_closed gone, iff_of_true ⟨?_, fun live => ?_⟩ fun _ _ _ _ n sent => ?_⟩
        · simp [whole]
        · exact absurd live (by simp [gone])
        · cases sent
      · rw [said] at legal
        have fits : n ≤ (answer (b :: bs)).length := legal.resolve_left (answer_ne_nil _)
        have live := (closed_eq_false hp).mpr status
        simp only [same, said, Option.getD_some]
        refine ⟨by simp [hp], ?_⟩
        constructor
        · intro lossless _ b' bs' read m sent
          cases read
          cases sent
          have all := lossless.2 live
          rw [whole, List.append_cancel_left_eq, List.take_eq_self_iff] at all
          exact Nat.le_antisymm fits all
        · intro sends
          have all := sends live b bs rfl n rfl
          rw [all, List.take_length, whole]
          exact ⟨List.prefix_refl _, fun _ => rfl⟩

/-- For every connection and every sequence of `readData` calls on it, whatever
`recv` and `send` return: in all states of the run the kernel has taken a
beginning of the replies, and all of them while the connection lives, if and
only if every `send` takes its whole reply or fails. -/
theorem replies_taken_iff (hp : h.heap p = some c) {calls : List ReadCall} {s : Talking}
    {es : List Event} (run : (talk h p).Reaches calls s es) :
    (talk h p).Always (NothingLost p) calls ↔ (talk h p).Meets (SendsWhole p) calls :=
  run.always_iff_meets (J := fun s => s.host.heap p ≠ none ∧ NothingLost p s)
    ⟨by simp [talk, hp], List.prefix_refl [], fun _ => rfl⟩ And.right
    (fun kept hs sends => ⟨(talkStep_iff kept.1 kept.2 hs).1,
      (talkStep_iff kept.1 kept.2 hs).2.mpr sends⟩)
    fun kept hs not lossless => not ((talkStep_iff kept.1 kept.2 hs).2.mp lossless)

/-- A host with one client, on descriptor 5. -/
def oneClient : Host where
  heap q := if q = 0 then some { clientfd := 5, status := .connected } else none
  fds fd := if fd = 5 then some 0 else none

/-- A word that is answered whole, and one whose `send` fails. -/
theorem replies_taken_iff_whole :
    ∃ calls s es, (talk oneClient 0).Reaches calls s es ∧ s.taken = bytes "你好\n" ∧
      ((talk oneClient 0).Always (NothingLost 0) calls ↔
        (talk oneClient 0).Meets (SendsWhole 0) calls) := by
  have run : (talk oneClient 0).Reaches
      [⟨some (bytes "hello\n"), some 7⟩, ⟨some (bytes "bye\n"), none⟩] _ _ := rfl
  exact ⟨_, _, _, run, rfl, replies_taken_iff rfl run⟩

/-- A reply of which `send` takes one byte: the rest is lost and the connection lives. -/
theorem reply_cut_short :
    ¬ ∀ h p c, h.heap p = some c → ∀ calls s es, (talk h p).Reaches calls s es →
      NothingLost p s := by
  intro claim
  have run : (talk oneClient 0).Reaches [⟨some (bytes "hello\n"), some 1⟩] _ _ := rfl
  have whole := (claim oneClient 0 _ rfl _ _ _ run).2 (by decide)
  exact absurd (congrArg List.length whole) (by decide)

end StudyCode.Tcp

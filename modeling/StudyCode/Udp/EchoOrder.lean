import Mathlib.Data.List.Perm.Basic
import StudyCode.Udp.EchoServer

/-!
# Questions and answers of one client

A client asks again only when it was answered, so at most one of its questions
is under way. Where the network makes no copies, its answers are therefore those
to its messages, one by one. Nothing asks again for what is lost.
-/
namespace StudyCode.EchoServer
open StudyCode.ByteString StudyCode.Scheduled

variable {ι : Type*} [DecidableEq ι]

def Action.sentBy? (i : ι) : Action ι → Option Str
  | .sent j message => if j = i ∧ message ≠ [] then some message else none
  | .shown _ _ => none

def Action.shownTo? (i : ι) : Action ι → Option Str
  | .sent _ _ => none
  | .shown j line => if j = i then some line else none

/-- The messages of a client that are not empty. -/
def sentBy (i : ι) (os : List (Action ι)) : List Str := os.filterMap (Action.sentBy? i)

def shownTo (i : ι) (os : List (Action ι)) : List Str := os.filterMap (Action.shownTo? i)

/-- A datagram that leads to an answer for the client. -/
def asks (i : ι) (r : ι × Str) : Bool := decide (r.1 = i ∧ r.2 ≠ [])

def answers (i : ι) (e : ι × Str) : Bool := decide (e.1 = i)

/-- What is on its way for a client, in either direction. -/
def State.onItsWay (s : State ι) (i : ι) : ℕ :=
  s.requests.countP (asks i) + s.echoes.countP (answers i)

theorem countP_eraseIdx_add {α : Type*} (p : α → Bool) {l : List α} {k : ℕ} {a : α}
    (here : l[k]? = some a) : (l.eraseIdx k).countP p + (p a).toNat = l.countP p := by
  obtain ⟨inside, rfl⟩ := List.getElem?_eq_some_iff.mp here
  have perm := (List.getElem_cons_eraseIdx_perm inside).countP_eq p
  rw [← perm, List.countP_cons]
  cases p l[k] <;> simp

theorem countP_eraseIdx_le {α : Type*} (p : α → Bool) (l : List α) (k : ℕ) :
    (l.eraseIdx k).countP p ≤ l.countP p := (List.eraseIdx_sublist l k).countP_le

/-- A client between two messages has all answers; one that waits has all but one, and what
is on its way is for that one. -/
inductive Paired (i : ι) (s : State ι) (os : List (Action ι)) : Prop
  | ready : s.waiting i = false → shownTo i os = (sentBy i os).map shownFor →
      s.onItsWay i = 0 → Paired i s os
  | waits (answered : List Str) (message : Str) : s.waiting i = true →
      sentBy i os = answered ++ [message] → shownTo i os = answered.map shownFor →
      s.onItsWay i ≤ 1 → (∀ r ∈ s.requests, asks i r = true → r.2 = message) →
      (∀ e ∈ s.echoes, answers i e = true → e.2 = echoString message) → Paired i s os

variable {s t : State ι} {os o : List (Action ι)} {i : ι}

theorem sentBy_append (i : ι) (os o : List (Action ι)) :
    sentBy i (os ++ o) = sentBy i os ++ sentBy i o := List.filterMap_append

theorem shownTo_append (i : ι) (os o : List (Action ι)) :
    shownTo i (os ++ o) = shownTo i os ++ shownTo i o := List.filterMap_append

/-- A step that says nothing about the client and brings nothing on the way for it. -/
theorem Paired.fewer (h : Paired i s os) (waiting : t.waiting i = s.waiting i)
    (sent : sentBy i o = []) (shown : shownTo i o = [])
    (requests : ∀ r ∈ t.requests, asks i r = true → r ∈ s.requests)
    (echoes : ∀ e ∈ t.echoes, answers i e = true → e ∈ s.echoes)
    (count : t.onItsWay i ≤ s.onItsWay i) : Paired i t (os ++ o) := by
  have same : sentBy i (os ++ o) = sentBy i os := by rw [sentBy_append, sent, List.append_nil]
  have same' : shownTo i (os ++ o) = shownTo i os := by
    rw [shownTo_append, shown, List.append_nil]
  cases h with
  | ready idle all none =>
      exact .ready (waiting.trans idle) (by rw [same, same', all]) (by omega)
  | waits answered message waits open_ all one asked answering =>
      exact .waits answered message (waiting.trans waits) (same.trans open_) (same'.trans all)
        (by omega) (fun r hr own => asked r (requests r hr own) own)
        fun e he own => answering e (echoes e he own) own

theorem Paired.enter {j : ι} {message : Str} {sent : Bool} (h : Paired i s os)
    (hs : EchoServer.enter s j message sent = some (t, o)) : Paired i t (os ++ o) := by
  obtain ⟨idle, hs⟩ := Option.ite_none_left_eq_some.mp hs
  split at hs <;> cases hs
  · by_cases own : j = i ∧ message ≠ []
    · obtain ⟨rfl, filled⟩ := own
      cases h with
      | waits answered m waits => exact absurd waits idle
      | ready _ all none =>
          have nothing : s.requests.countP (asks j) = 0 ∧ s.echoes.countP (answers j) = 0 :=
            Nat.add_eq_zero_iff.mp none
          refine .waits (sentBy j os) message (by simp [filled]) ?_ ?_ ?_ ?_ ?_
          · rw [sentBy_append]
            simp [sentBy, Action.sentBy?, filled]
          · rw [shownTo_append, all]
            exact List.append_nil _
          · simp [State.onItsWay, List.countP_append, nothing, asks, filled]
          · intro r hr own
            rcases List.mem_append.mp hr with old | new
            · exact absurd own (List.countP_eq_zero.mp nothing.1 r old)
            · rw [List.mem_singleton.mp new]
          · intro e he own
            exact absurd own (List.countP_eq_zero.mp nothing.2 e he)
    · have quiet : asks i (j, message) = false := decide_eq_false own
      refine h.fewer ?_ ?_ rfl (fun r hr own => ?_) (fun e he _ => he) ?_
      · by_cases here : i = j
        · subst here
          have empty : message = [] := not_not.mp fun filled => own ⟨rfl, filled⟩
          simp [empty, Bool.eq_false_iff.mpr idle]
        · exact Function.update_of_ne here ..
      · simp [sentBy, Action.sentBy?, own]
      · rcases List.mem_append.mp hr with old | new
        · exact old
        · rw [List.mem_singleton.mp new, quiet] at own
          cases own
      · simp [State.onItsWay, List.countP_append, quiet]
  · rwa [List.append_nil]

theorem Paired.serve {k : ℕ} {sent : Bool} (h : Paired i s os)
    (hs : EchoServer.serve s k sent = some t) : Paired i t os := by
  unfold EchoServer.serve at hs
  split at hs
  · cases hs
  · rename_i j datagram here
    have less := countP_eraseIdx_add (asks i) here
    split at hs <;> cases hs
    · rename_i served
      have kind : asks i (j, datagram) = answers i (j, echoString datagram) := by
        simp [asks, answers, served.1]
      have count : State.onItsWay { s with
          requests := s.requests.eraseIdx k
          echoes := s.echoes ++ [(j, echoString datagram)] } i = s.onItsWay i := by
        simp only [State.onItsWay, List.countP_append, List.countP_singleton, ← kind]
        cases asked : asks i (j, datagram) <;> simp [asked] at less ⊢ <;> omega
      cases h with
      | ready idle all none => exact .ready idle all (by omega)
      | waits answered message waits open_ all one asked answering =>
          refine .waits answered message waits open_ all (by omega)
            (fun r hr own => asked r (List.mem_of_mem_eraseIdx hr) own) fun e he own => ?_
          rcases List.mem_append.mp he with old | new
          · exact answering e old own
          · rw [List.mem_singleton.mp new] at own ⊢
            have whose := asked _ (List.mem_of_getElem? here) (kind.trans own)
            exact congrArg echoString whose
    · have fewer := h.fewer (t := { s with requests := s.requests.eraseIdx k }) (o := [])
        rfl rfl rfl (fun r hr _ => List.mem_of_mem_eraseIdx hr) (fun e he _ => he)
        (Nat.add_le_add_right (countP_eraseIdx_le _ _ _) _)
      rwa [List.append_nil] at fewer

theorem Paired.receive {k : ℕ} (h : Paired i s os)
    (hs : EchoServer.receive s k = some (t, o)) : Paired i t (os ++ o) := by
  unfold EchoServer.receive at hs
  split at hs
  · cases hs
  · rename_i j datagram here
    obtain ⟨waiting, eq⟩ := Option.ite_none_right_eq_some.mp hs
    have less := countP_eraseIdx_add (answers i) here
    cases eq
    by_cases own : j = i
    · subst own
      cases h with
      | ready idle => rw [idle] at waiting; cases waiting
      | waits answered message waits open_ all one asked answering =>
          have whose : datagram = echoString message :=
            answering _ (List.mem_of_getElem? here) (by simp [answers])
          subst whose
          rw [if_neg (echoString_ne_nil message)]
          refine .ready (Function.update_self ..) ?_ ?_
          · rw [shownTo_append, sentBy_append, open_, all]
            simp [sentBy, shownTo, Action.sentBy?, Action.shownTo?, shownFor]
          · have mine : answers j (j, echoString message) = true := by simp [answers]
            rw [mine, Bool.toNat_true] at less
            have both : s.requests.countP (asks j) + s.echoes.countP (answers j) ≤ 1 := one
            have none : s.requests.countP (asks j) + (s.echoes.eraseIdx k).countP (answers j) = 0 :=
              by omega
            exact none
    · refine h.fewer (Function.update_of_ne (Ne.symm own) ..) ?_ ?_ (fun r hr _ => hr)
        (fun e he _ => List.mem_of_mem_eraseIdx he)
        (Nat.add_le_add_left (countP_eraseIdx_le _ _ _) _)
      · split <;> simp [sentBy, Action.sentBy?]
      · split <;> simp [shownTo, Action.shownTo?, own]

/-- A network that makes no copies, and no client whose `recvfrom` fails. -/
def Turn.Faithful : Turn ι → Prop
  | .giveUp _ | .copyRequest _ | .copyEcho _ => False
  | _ => True

theorem Paired.step {turn : Turn ι} (faithful : turn.Faithful) (h : Paired i s os)
    (hs : EchoServer.step s turn = some (t, o)) : Paired i t (os ++ o) := by
  cases turn with
  | enter j message sent => exact h.enter hs
  | serve k sent =>
      obtain ⟨u, served, eq⟩ := Option.map_eq_some_iff.mp hs
      cases eq
      rw [List.append_nil]
      exact h.serve served
  | receive k => exact h.receive hs
  | loseRequest k =>
      cases hs
      exact h.fewer rfl rfl rfl (fun r hr _ => List.mem_of_mem_eraseIdx hr) (fun e he _ => he)
        (Nat.add_le_add_right (countP_eraseIdx_le _ _ _) _)
  | loseEcho k =>
      cases hs
      exact h.fewer rfl rfl rfl (fun r hr _ => hr) (fun e he _ => List.mem_of_mem_eraseIdx he)
        (Nat.add_le_add_left (countP_eraseIdx_le _ _ _) _)
  | giveUp _ | copyRequest _ | copyEcho _ => exact faithful.elim

theorem echo_paired {turns : List (Turn ι)} (faithful : ∀ turn ∈ turns, turn.Faithful)
    (run : echo.Reaches turns s os) (i : ι) : Paired i s os := by
  revert faithful
  refine run.induct (P := fun turns s os => (∀ turn ∈ turns, turn.Faithful) → Paired i s os)
    (fun _ => .ready rfl rfl rfl) ?_
  intro turns s os turn t o _ ih hs faithful
  have before := ih fun turn hturn => faithful turn (List.mem_append_left _ hturn)
  exact before.step (faithful turn (List.mem_append_right _ (List.mem_singleton_self _))) hs

/-- Where the network makes no copies and no `recvfrom` fails, the lines that a client is
shown are the answers to its non-empty messages in their order, and all of them unless it
waits: then the last one is open. -/
theorem answers_in_order {turns : List (Turn ι)} (faithful : ∀ turn ∈ turns, turn.Faithful)
    (run : echo.Reaches turns s os) (i : ι) :
    ∃ answered asked, sentBy i os = answered ++ asked ∧
      shownTo i os = answered.map shownFor ∧ asked.length = (s.waiting i).toNat := by
  cases echo_paired faithful run i with
  | ready idle all _ =>
      exact ⟨sentBy i os, [], (List.append_nil _).symm, all, by rw [idle]; rfl⟩
  | waits answered message waits last all =>
      exact ⟨answered, [message], last, all, by rw [waits]; rfl⟩

/-- Two questions of one client, the second of which is lost. -/
theorem answers_in_order_lost :
    ∃ turns s os, (echo (ι := Bool)).Reaches turns s os ∧
      ∃ answered asked, sentBy true os = answered ++ asked ∧
        shownTo true os = answered.map shownFor ∧ asked.length = 1 := by
  have run : (echo (ι := Bool)).Reaches [.enter true (bytes "hi") true,
      .enter false (bytes "ho") true, .serve 0 true, .receive 0, .enter true (bytes "ha") true,
      .loseRequest 1] _ [.sent true (bytes "hi"), .sent false (bytes "ho"),
      .shown true (bytes "server echo#hi"), .sent true (bytes "ha")] := rfl
  have faithful : ∀ turn ∈ [Turn.enter true (bytes "hi") true, .enter false (bytes "ho") true,
      .serve 0 true, .receive 0, .enter true (bytes "ha") true, .loseRequest 1],
      turn.Faithful := by
    simp [Turn.Faithful]
  exact ⟨_, _, _, run, answers_in_order faithful run true⟩

/-! ## Waiting without end -/

/-- A client that waits for an answer that nothing will bring. -/
structure Stuck (i : ι) (s : State ι) : Prop where
  waiting : s.waiting i = true
  nothing : s.onItsWay i = 0

theorem countP_copy {α : Type*} {p : α → Bool} {l : List α} (none : l.countP p = 0) (k : ℕ) :
    (l ++ l[k]?.toList).countP p = 0 := by
  rw [List.countP_eq_zero] at none ⊢
  intro a ha
  rcases List.mem_append.mp ha with old | copy
  · exact none a old
  · exact none a (List.mem_of_getElem? (Option.mem_toList.mp copy))

theorem countP_drop {α : Type*} {p : α → Bool} {l : List α} (none : l.countP p = 0) (k : ℕ) :
    (l.eraseIdx k).countP p = 0 :=
  Nat.le_zero.mp ((countP_eraseIdx_le p l k).trans_eq none)

theorem Stuck.step {turn : Turn ι} (h : Stuck i s) (stays : turn ≠ .giveUp i)
    (hs : EchoServer.step s turn = some (t, o)) :
    Stuck i t ∧ ∀ line, .shown i line ∉ o := by
  obtain ⟨waits, nothing⟩ := h
  obtain ⟨noRequest, noEcho⟩ := Nat.add_eq_zero_iff.mp nothing
  cases turn with
  | enter j message sent =>
      obtain ⟨idle, hs⟩ := Option.ite_none_left_eq_some.mp hs
      have other : i ≠ j := by rintro rfl; exact idle waits
      split at hs <;> cases hs
      · have quiet : asks i (j, message) = false := by simp [asks, other.symm]
        refine ⟨⟨(Function.update_of_ne other ..).trans waits, ?_⟩, by simp⟩
        simp [State.onItsWay, List.countP_append, quiet, noRequest, noEcho]
      · exact ⟨⟨waits, nothing⟩, by simp⟩
  | serve k sent =>
      obtain ⟨u, served, eq⟩ := Option.map_eq_some_iff.mp hs
      cases eq
      refine ⟨?_, by simp⟩
      unfold EchoServer.serve at served
      split at served
      · cases served
      · rename_i j datagram here
        split at served <;> cases served
        · rename_i filled
          have other : j ≠ i := by
            rintro rfl
            exact List.countP_eq_zero.mp noRequest _ (List.mem_of_getElem? here)
              (decide_eq_true ⟨rfl, filled.1⟩)
          have quiet : answers i (j, echoString datagram) = false := decide_eq_false other
          refine ⟨waits, Nat.add_eq_zero_iff.mpr ⟨countP_drop noRequest k, ?_⟩⟩
          simp [List.countP_append, quiet, noEcho]
        · exact ⟨waits, Nat.add_eq_zero_iff.mpr ⟨countP_drop noRequest k, noEcho⟩⟩
  | receive k =>
      unfold EchoServer.step EchoServer.receive at hs
      dsimp only at hs
      split at hs
      · cases hs
      · rename_i j datagram here
        obtain ⟨-, eq⟩ := Option.ite_none_right_eq_some.mp hs
        cases eq
        have other : j ≠ i := by
          rintro rfl
          exact List.countP_eq_zero.mp noEcho _ (List.mem_of_getElem? here) (decide_eq_true rfl)
        refine ⟨⟨(Function.update_of_ne other.symm ..).trans waits,
          Nat.add_eq_zero_iff.mpr ⟨noRequest, countP_drop noEcho k⟩⟩, ?_⟩
        split <;> simp [other.symm]
  | giveUp j =>
      obtain ⟨-, eq⟩ := Option.ite_none_right_eq_some.mp hs
      cases eq
      have other : i ≠ j := by rintro rfl; exact stays rfl
      exact ⟨⟨(Function.update_of_ne other ..).trans waits, nothing⟩, by simp⟩
  | loseRequest k =>
      cases hs
      exact ⟨⟨waits, Nat.add_eq_zero_iff.mpr ⟨countP_drop noRequest k, noEcho⟩⟩, by simp⟩
  | loseEcho k =>
      cases hs
      exact ⟨⟨waits, Nat.add_eq_zero_iff.mpr ⟨noRequest, countP_drop noEcho k⟩⟩, by simp⟩
  | copyRequest k =>
      cases hs
      exact ⟨⟨waits, Nat.add_eq_zero_iff.mpr ⟨countP_copy noRequest k, noEcho⟩⟩, by simp⟩
  | copyEcho k =>
      cases hs
      exact ⟨⟨waits, Nat.add_eq_zero_iff.mpr ⟨noRequest, countP_copy noEcho k⟩⟩, by simp⟩

theorem Stuck.later {more : List (Turn ι)} (h : Stuck i s) (stays : .giveUp i ∉ more)
    (run : echo.runFrom s more = some (t, o)) : Stuck i t ∧ ∀ line, .shown i line ∉ o := by
  induction more generalizing s o with
  | nil =>
      cases run
      exact ⟨h, fun _ => List.not_mem_nil⟩
  | cons turn more ih =>
      obtain ⟨⟨u, now⟩, hs, rest⟩ := Option.bind_eq_some_iff.mp run
      obtain ⟨⟨v, later⟩, hrest, eq⟩ := Option.map_eq_some_iff.mp rest
      cases eq
      obtain ⟨stuck, silent⟩ := h.step (fun eq => stays (eq ▸ List.mem_cons_self)) hs
      obtain ⟨still, silent'⟩ := ih stuck (fun hm => stays (List.mem_cons_of_mem _ hm)) hrest
      refine ⟨still, fun line shown => ?_⟩
      rcases List.mem_append.mp shown with early | late
      · exact silent line early
      · exact silent' line late

/-- An answer on its way can be received. -/
theorem receive_of_echo {turns : List (Turn ι)} (run : echo.Reaches turns s os)
    (waits : s.waiting i = true) {e : ι × Str} (he : e ∈ s.echoes) (own : answers i e = true) :
    ∃ k t line, echo.runFrom s [.receive k] = some (t, [.shown i line]) := by
  obtain ⟨message, -, -, eq⟩ := (echo_backed run).echoes e he
  obtain ⟨k, here⟩ := List.getElem?_of_mem he
  obtain ⟨j, datagram⟩ := e
  have same : j = i := of_decide_eq_true own
  have filled : datagram = echoString message := eq
  subst same filled
  refine ⟨k, { s with
    echoes := s.echoes.eraseIdx k, waiting := Function.update s.waiting j false },
    inbuffer (echoString message), ?_⟩
  rw [Machine.runFrom_singleton]
  simp [echo, step, receive, here, waits, echoString_ne_nil]

theorem serve_of_request {r : ι × Str} (hr : r ∈ s.requests) (own : asks i r = true) :
    ∃ k t, step s (.serve k true) = some (t, []) ∧ t.waiting = s.waiting ∧
      (i, echoString r.2) ∈ t.echoes := by
  obtain ⟨k, here⟩ := List.getElem?_of_mem hr
  obtain ⟨j, datagram⟩ := r
  obtain ⟨same, filled⟩ : j = i ∧ datagram ≠ [] := of_decide_eq_true own
  subst same
  refine ⟨k, { s with
    requests := s.requests.eraseIdx k, echoes := s.echoes ++ [(j, echoString datagram)] },
    ?_, rfl, List.mem_append_right _ (List.mem_singleton_self _)⟩
  simp [step, serve, here, filled]

/-- Nothing asks again: a client that waits can still be shown a line, without its `recvfrom`
failing first, exactly if a datagram that leads to an answer for it is on its way: a
non-empty one of its own to the server, or one back. -/
theorem waiting_client_answered_iff {turns : List (Turn ι)} (run : echo.Reaches turns s os)
    (waits : s.waiting i = true) :
    (∃ more t o line, .giveUp i ∉ more ∧ echo.runFrom s more = some (t, o) ∧
      .shown i line ∈ o) ↔ 0 < s.onItsWay i := by
  constructor
  · rintro ⟨more, t, o, line, stays, later, shown⟩
    refine Nat.pos_of_ne_zero fun nothing => ?_
    exact (Stuck.later ⟨waits, nothing⟩ stays later).2 line shown
  · intro some_
    by_cases noEcho : s.echoes.countP (answers i) = 0
    · have asked : 0 < s.requests.countP (asks i) := by
        unfold State.onItsWay at some_
        omega
      obtain ⟨r, hr, own⟩ := List.countP_pos_iff.mp asked
      obtain ⟨k, t, served, same, back⟩ := serve_of_request hr own
      have run' : echo.Reaches (turns ++ [.serve k true]) t (os ++ []) := run.snoc served
      obtain ⟨l, u, line, received⟩ := receive_of_echo run' (same ▸ waits) back
        (by simp [answers])
      refine ⟨[.serve k true, .receive l], u, [.shown i line], line, by simp, ?_,
        List.mem_singleton_self _⟩
      have first : echo.runFrom s ([.serve k true] ++ [.receive l]) = _ :=
        Machine.runFrom_append s _ _
      rw [Machine.runFrom_singleton] at first
      have served' : echo.step s (.serve k true) = some (t, []) := served
      rw [served', Option.bind_some, received] at first
      exact first
    · obtain ⟨e, he, own⟩ := List.countP_pos_iff.mp (Nat.pos_of_ne_zero noEcho)
      obtain ⟨k, t, line, received⟩ := receive_of_echo run waits he own
      exact ⟨[.receive k], t, _, line, by simp, received, List.mem_singleton_self _⟩

/-- A question that is on its way, and is then lost. -/
theorem waiting_client_answered_iff_lost :
    ∃ s t os, (echo (ι := Bool)).Reaches [.enter true (bytes "hi") true] s os ∧
      echo.Reaches [.enter true (bytes "hi") true, .loseRequest 0] t os ∧
      (∃ more u o line, .giveUp true ∉ more ∧ echo.runFrom s more = some (u, o) ∧
        .shown true line ∈ o) ∧
      ¬ ∃ more u o line, .giveUp true ∉ more ∧ echo.runFrom t more = some (u, o) ∧
        .shown true line ∈ o := by
  have asked : (echo (ι := Bool)).Reaches [.enter true (bytes "hi") true] _ _ := rfl
  have lost : (echo (ι := Bool)).Reaches [.enter true (bytes "hi") true, .loseRequest 0] _ _ := rfl
  refine ⟨_, _, _, asked, lost, (waiting_client_answered_iff asked rfl).mpr (by decide), ?_⟩
  rw [waiting_client_answered_iff lost rfl]
  decide

end StudyCode.EchoServer

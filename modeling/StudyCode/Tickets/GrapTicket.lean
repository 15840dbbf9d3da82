import Mathlib.Algebra.BigOperators.Group.Finset.Basic
import Mathlib.Algebra.BigOperators.Group.Finset.Piecewise
import Mathlib.Data.Fintype.BigOperators
import StudyCode.Lib.Machine
import StudyCode.Lib.Mutex
import StudyCode.Lib.Trace

/-!
# `grap_ticket` under an arbitrary schedule

Threads of any finite type sell tickets under one mutex. A turn is one statement
of the loop: the lock, the test of `ticket`, the print, `ticket--`, `arr[id]++`,
the unlock. When all threads have exited, `main` reports the counts.
-/
namespace StudyCode.GrapTicket
open StudyCode.Scheduled StudyCode.Monitor

/-- How far a thread is in its loop. -/
inductive Stage where
  | outside
  | locked
  | selling
  | printed
  | decremented
  | counted
  | refused
  | left
  | exited
  deriving DecidableEq, Repr

/-- The stages between the lock and the unlock. -/
def Stage.inside : Stage → Bool
  | .locked | .selling | .printed | .decremented | .counted | .refused => true
  | .outside | .left | .exited => false

structure State (ι : Type*) where
  ticket : ℤ
  arr : ι → ℕ
  mutex : Option ι
  thread : ι → Stage
  reported : Bool

inductive Turn (ι : Type*) where
  | thread (i : ι)
  | main
  deriving DecidableEq, Repr

/-- The lines that are printed. -/
inductive Line (ι : Type*) where
  | sold (i : ι) (ticket : ℤ)
  | finished (i : ι)
  | result (arr : ι → ℕ)

variable {ι : Type*} [DecidableEq ι]

def State.move (s : State ι) (i : ι) (p : Stage) : State ι :=
  { s with thread := Function.update s.thread i p }

def grapTicket (s : State ι) (i : ι) : Option (State ι × List (Line ι)) :=
  match s.thread i with
  | .outside =>
      if s.mutex.isNone then some ({ s with mutex := some i }.move i .locked, []) else none
  | .locked => some (s.move i (if 0 < s.ticket then .selling else .refused), [])
  | .selling => some (s.move i .printed, [.sold i s.ticket])
  | .printed => some ({ s with ticket := s.ticket - 1 }.move i .decremented, [])
  | .decremented =>
      some ({ s with arr := Function.update s.arr i (s.arr i + 1) }.move i .counted, [])
  | .counted => some ({ s with mutex := none }.move i .outside, [])
  | .refused => some ({ s with mutex := none }.move i .left, [])
  | .left => some (s.move i .exited, [.finished i])
  | .exited => none

def Line.ticket? : Line ι → Option ℤ
  | .sold _ ticket => some ticket
  | .finished _ | .result _ => none

def Line.buyer? : Line ι → Option ι
  | .sold i _ => some i
  | .finished _ | .result _ => none

/-- The numbers on the lines of sold tickets, in order. -/
def soldTickets (os : List (Line ι)) : List ℤ := os.filterMap Line.ticket?

def soldBy (os : List (Line ι)) (i : ι) : ℕ := (os.filterMap Line.buyer?).count i

/-- The ticket on which a line is out and which `ticket` still counts. -/
def Stage.unsettled : Stage → ℕ
  | .printed => 1
  | _ => 0

/-- A line is out that `arr` does not count yet. -/
def Stage.uncounted : Stage → ℕ
  | .printed | .decremented => 1
  | _ => 0

/-- The steps that a thread at this stage still takes, but for those that sell a ticket. -/
def Stage.steps : Stage → ℕ
  | .outside => 4
  | .locked => 3
  | .selling => 2
  | .printed => 1
  | .decremented => 6
  | .counted => 5
  | .refused => 2
  | .left => 1
  | .exited => 0

/-! ## One turn of a thread -/

section
variable {s t : State ι} {i : ι} {o : List (Line ι)}

/-- Only the stage of the thread itself changes, to this one. -/
theorem grapTicket_thread (h : grapTicket s i = some (t, o)) :
    t.thread = Function.update s.thread i (t.thread i) := by
  have moved : ∀ (u : State ι) p, (u.move i p).thread =
      Function.update u.thread i ((u.move i p).thread i) := fun u p => by simp [State.move]
  unfold grapTicket at h
  split at h
  case h_1 =>
    obtain ⟨-, eq⟩ := Option.ite_none_right_eq_some.mp h
    cases eq
    exact moved { s with mutex := some i } _
  case h_9 => cases h
  all_goals
    cases h
    exact moved _ _

theorem grapTicket_guards (h : grapTicket s i = some (t, o))
    (guards : Guards false (fun k => (s.thread k).inside) s.mutex) :
    Guards false (fun k => (t.thread k).inside) t.mutex := by
  have moved : ∀ p, (fun k => (Function.update s.thread i p k).inside) =
      Function.update (fun k => (s.thread k).inside) i p.inside := fun p => by
    funext k
    by_cases own : k = i <;> simp [Function.update, own]
  have holds : (s.thread i).inside = true → s.mutex = some i := fun inside =>
    (guards i).mp (by simp [inside])
  unfold grapTicket at h
  split at h <;> rename_i here <;> rw [here] at holds
  case h_1 =>
    obtain ⟨free, eq⟩ := Option.ite_none_right_eq_some.mp h
    cases eq
    simp only [State.move, moved]
    exact guards.lock (Option.isNone_iff_eq_none.mp free) (by simp [Stage.inside])
  case h_2 =>
    cases h
    simp only [State.move, moved]
    exact guards.stay (holds rfl) (by split <;> simp [Stage.inside])
  case h_6 | h_7 =>
    cases h
    simp only [State.move, moved]
    exact guards.unlock (holds rfl)
  case h_8 =>
    cases h
    simp only [State.move, moved]
    have out : Function.update (fun k => (s.thread k).inside) i Stage.exited.inside =
        fun k => (s.thread k).inside := by
      rw [Function.update_eq_self_iff, here]
      rfl
    rwa [out]
  case h_9 => cases h
  all_goals
    cases h
    simp only [State.move, moved]
    exact guards.stay (holds rfl) (by simp [Stage.inside])

theorem grapTicket_stage (h : grapTicket s i = some (t, o)) {k : ι} (other : k ≠ i) :
    t.thread k = s.thread k := by
  rw [grapTicket_thread h, Function.update_of_ne other]

/-- What a turn prints and what it counts. -/
theorem grapTicket_effect (h : grapTicket s i = some (t, o)) :
    t.reported = s.reported ∧
      (soldTickets o).length + t.ticket + (s.thread i).unsettled =
        s.ticket + (t.thread i).unsettled ∧
      soldBy o i + s.arr i + (s.thread i).uncounted = t.arr i + (t.thread i).uncounted ∧
      (∀ k, k ≠ i → soldBy o k = 0 ∧ t.arr k = s.arr k) ∧ ∀ arr, .result arr ∉ o := by
  unfold grapTicket at h
  split at h <;> rename_i here <;> rw [here]
  case h_1 =>
    obtain ⟨-, eq⟩ := Option.ite_none_right_eq_some.mp h
    cases eq
    simp [State.move, soldTickets, soldBy, Stage.unsettled, Stage.uncounted]
  case h_2 =>
    cases h
    by_cases more : 0 < s.ticket <;>
      simp [State.move, soldTickets, soldBy, Stage.unsettled, Stage.uncounted, more]
  case h_3 =>
    cases h
    refine ⟨rfl, ?_, ?_, fun k other => ⟨?_, rfl⟩, by simp⟩
    · simp [State.move, soldTickets, Stage.unsettled, Line.ticket?]
      omega
    · simp [State.move, soldBy, Stage.uncounted, Line.buyer?]
      omega
    · simp [soldBy, Line.buyer?, other.symm]
  case h_5 =>
    cases h
    simp +contextual [State.move, soldTickets, soldBy, Stage.unsettled, Stage.uncounted]
  case h_9 => cases h
  all_goals
    cases h
    simp [State.move, soldTickets, soldBy, Stage.unsettled, Stage.uncounted, Line.ticket?,
      Line.buyer?, List.filterMap_cons]

/-- `ticket` changes by one, behind its line; the lines are those of `ticket`. -/
theorem grapTicket_ticket (h : grapTicket s i = some (t, o)) :
    (t.ticket = s.ticket ∨ s.thread i = .printed ∧ t.ticket = s.ticket - 1) ∧
      (soldTickets o = [] ∨ s.thread i = .selling ∧ soldTickets o = [s.ticket]) := by
  unfold grapTicket at h
  split at h <;> rename_i here <;> rw [here]
  case h_1 =>
    obtain ⟨-, eq⟩ := Option.ite_none_right_eq_some.mp h
    cases eq
    simp [State.move, soldTickets]
  case h_9 => cases h
  all_goals
    cases h
    simp [State.move, soldTickets, Line.ticket?]

/-- Who sells has seen a ticket, and who leaves has seen none. -/
theorem grapTicket_seen (h : grapTicket s i = some (t, o)) :
    (t.thread i = .selling → 0 < s.ticket ∧ t.ticket = s.ticket) ∧
      (t.thread i = .printed → s.thread i = .selling ∧ t.ticket = s.ticket) ∧
      (t.thread i = .refused → s.ticket ≤ 0) ∧ (t.thread i = .left → s.thread i = .refused) ∧
      (t.thread i = .exited → s.thread i = .left) := by
  unfold grapTicket at h
  split at h <;> rename_i here <;> rw [here]
  case h_1 =>
    obtain ⟨-, eq⟩ := Option.ite_none_right_eq_some.mp h
    cases eq
    simp [State.move]
  case h_2 =>
    cases h
    by_cases more : 0 < s.ticket <;> simp [State.move, more]
    omega
  case h_9 => cases h
  all_goals
    cases h
    simp [State.move]

/-- A turn is one of the steps that the thread still takes. -/
theorem grapTicket_steps (h : grapTicket s i = some (t, o)) (seen : s.thread i = .printed →
    0 < s.ticket) : 6 * t.ticket.toNat + (t.thread i).steps + 1 =
      6 * s.ticket.toNat + (s.thread i).steps := by
  unfold grapTicket at h
  split at h <;> rename_i here <;> rw [here] at seen ⊢
  case h_1 =>
    obtain ⟨-, eq⟩ := Option.ite_none_right_eq_some.mp h
    cases eq
    simp [State.move, Stage.steps]
  case h_2 =>
    cases h
    by_cases more : 0 < s.ticket <;> simp [State.move, Stage.steps, more]
  case h_4 =>
    cases h
    have some := seen rfl
    simp only [State.move, Function.update_self, Stage.steps]
    omega
  case h_9 => cases h
  all_goals
    cases h
    simp [State.move, Stage.steps]

/-! ## The whole sale -/

variable [Fintype ι]

def step (s : State ι) : Turn ι → Option (State ι × List (Line ι))
  | .thread i => grapTicket s i
  | .main =>
      if (∀ i, s.thread i = .exited) ∧ s.reported = false then
        some ({ s with reported := true }, [.result s.arr])
      else none

/-- The sale of the tickets `N`, …, 1. -/
def sale (N : ℤ) : Machine (State ι) (Turn ι) (Line ι) where
  start :=
    { ticket := N
      arr := fun _ => 0
      mutex := none
      thread := fun _ => .outside
      reported := false }
  step := step

theorem grapTicket_sum (h : grapTicket s i = some (t, o)) (f : Stage → ℕ) :
    ∑ k, f (t.thread k) + f (s.thread i) = ∑ k, f (s.thread k) + f (t.thread i) := by
  have others : ∑ k ∈ Finset.univ.erase i, f (t.thread k) =
      ∑ k ∈ Finset.univ.erase i, f (s.thread k) :=
    Finset.sum_congr rfl fun k hk => by rw [grapTicket_stage h (Finset.ne_of_mem_erase hk)]
  have before := Finset.add_sum_erase Finset.univ (fun k => f (s.thread k)) (Finset.mem_univ i)
  have after := Finset.add_sum_erase Finset.univ (fun k => f (t.thread k)) (Finset.mem_univ i)
  omega

structure Invariant (N : ℤ) (s : State ι) (os : List (Line ι)) : Prop where
  guards : Guards false (fun i => (s.thread i).inside) s.mutex
  tickets : soldTickets os = (List.range (soldTickets os).length).map fun k : ℕ => N - k
  settled : (soldTickets os).length + s.ticket = N + ((∑ i, (s.thread i).unsettled : ℕ) : ℤ)
  counts : ∀ i, soldBy os i = s.arr i + (s.thread i).uncounted
  left_over : ∀ i, s.thread i = .selling ∨ s.thread i = .printed → 0 < s.ticket
  sold_out : ∀ i, s.thread i = .refused ∨ s.thread i = .left ∨ s.thread i = .exited →
    s.ticket ≤ 0
  never_negative : 0 ≤ s.ticket ∨ s.ticket = N
  reported : (∃ arr, .result arr ∈ os) → ∀ i, s.thread i = .exited
  results : ∀ arr, .result arr ∈ os → arr = s.arr
  announced : s.reported = true → .result s.arr ∈ os

theorem Invariant.alone {N : ℤ} {os : List (Line ι)} (h : Invariant N s os)
    (here : (s.thread i).inside = true) {k : ι} (there : (s.thread k).inside = true) : k = i := by
  have own := (h.guards i).mp (by simp [here])
  have other := (h.guards k).mp (by simp [there])
  exact Option.some.inj (other.symm.trans own)

/-- While a thread is inside, only it can have a line out that `ticket` still counts. -/
theorem Invariant.unsettled {N : ℤ} {os : List (Line ι)} (h : Invariant N s os)
    (here : (s.thread i).inside = true) :
    ∑ k, (s.thread k).unsettled = (s.thread i).unsettled := by
  refine Finset.sum_eq_single i (fun k _ other => ?_) fun absent =>
    absurd (Finset.mem_univ i) absent
  cases there : s.thread k <;> simp only [Stage.unsettled]
  exact absurd (h.alone here (by rw [there]; rfl)) other

omit [DecidableEq ι] [Fintype ι] in
theorem soldTickets_append (os o : List (Line ι)) :
    soldTickets (os ++ o) = soldTickets os ++ soldTickets o := List.filterMap_append

omit [Fintype ι] in
theorem soldBy_append (os o : List (Line ι)) (k : ι) :
    soldBy (os ++ o) k = soldBy os k + soldBy o k := by
  rw [soldBy, List.filterMap_append, List.count_append, soldBy, soldBy]

/-- After the report no thread is left that could take a turn. -/
theorem Invariant.unreported {N : ℤ} {os : List (Line ι)} (h : Invariant N s os)
    (hs : grapTicket s i = some (t, o)) (arr : ι → ℕ) : .result arr ∉ os ++ o := by
  intro inside
  rcases List.mem_append.mp inside with old | new
  · have done := h.reported ⟨arr, old⟩ i
    rw [grapTicket, done] at hs
    cases hs
  · exact (grapTicket_effect hs).2.2.2.2 arr new

theorem Invariant.thread {N : ℤ} {os : List (Line ι)} (h : Invariant N s os)
    (hs : grapTicket s i = some (t, o)) : Invariant N t (os ++ o) := by
  obtain ⟨same, settled, counted, others, -⟩ := grapTicket_effect hs
  obtain ⟨ticket, lines⟩ := grapTicket_ticket hs
  obtain ⟨selling, printed, refused, left, exited⟩ := grapTicket_seen hs
  have sum := grapTicket_sum hs Stage.unsettled
  have lower : t.ticket ≤ s.ticket := by
    rcases ticket with eq | ⟨-, eq⟩ <;> omega
  constructor
  case guards => exact grapTicket_guards hs h.guards
  case tickets =>
    rw [soldTickets_append]
    rcases lines with none | ⟨here, one⟩
    · rw [none, List.append_nil]
      exact h.tickets
    · have alone := h.unsettled (i := i) (by rw [here]; rfl)
      have before := h.settled
      rw [alone, here] at before
      have number : s.ticket = N - (soldTickets os).length := by
        simp only [Stage.unsettled] at before
        omega
      rw [one, List.length_append, List.length_singleton, List.range_succ, List.map_append,
        ← h.tickets, number]
      rfl
  case settled =>
    have before := h.settled
    rw [soldTickets_append, List.length_append, Int.natCast_add]
    omega
  case counts =>
    intro k
    rw [soldBy_append, h.counts k]
    by_cases own : k = i
    · subst own
      omega
    · obtain ⟨none, same⟩ := others k own
      rw [none, same, grapTicket_stage hs own]
      rfl
  case left_over =>
    intro k stage
    by_cases own : k = i
    · subst own
      rcases stage with stage | stage
      · obtain ⟨more, same⟩ := selling stage
        omega
      · obtain ⟨was, same⟩ := printed stage
        rw [same]
        exact h.left_over k (.inl was)
    · rw [grapTicket_stage hs own] at stage
      rcases ticket with same | ⟨here, -⟩
      · rw [same]
        exact h.left_over k stage
      · have there : (s.thread k).inside = true := by rcases stage with eq | eq <;> rw [eq] <;> rfl
        exact absurd (h.alone (by rw [here]; rfl) there) own
  case sold_out =>
    intro k stage
    by_cases own : k = i
    · subst own
      rcases stage with stage | stage | stage
      · exact lower.trans (refused stage)
      · exact lower.trans (h.sold_out k (.inl (left stage)))
      · exact lower.trans (h.sold_out k (.inr (.inl (exited stage))))
    · rw [grapTicket_stage hs own] at stage
      exact lower.trans (h.sold_out k stage)
  case never_negative =>
    rcases ticket with same | ⟨here, less⟩
    · rw [same]
      exact h.never_negative
    · have more := h.left_over i (.inr here)
      exact .inl (by omega)
  case reported =>
    rintro ⟨arr, inside⟩
    exact absurd inside (h.unreported hs arr)
  case results =>
    intro arr inside
    exact absurd inside (h.unreported hs arr)
  case announced =>
    intro reported
    rw [same] at reported
    exact absurd (List.mem_append_left o (h.announced reported)) (h.unreported hs s.arr)

theorem Invariant.main {N : ℤ} {os : List (Line ι)} (h : Invariant N s os)
    (done : ∀ i, s.thread i = .exited) :
    Invariant N { s with reported := true } (os ++ [.result s.arr]) := by
  have tickets : soldTickets (os ++ [.result s.arr]) = soldTickets os := by
    rw [soldTickets_append]
    exact List.append_nil _
  constructor
  case guards => exact h.guards
  case tickets => rw [tickets]; exact h.tickets
  case settled => rw [tickets]; exact h.settled
  case counts =>
    intro k
    rw [soldBy_append]
    exact h.counts k
  case left_over => exact h.left_over
  case sold_out => exact h.sold_out
  case never_negative => exact h.never_negative
  case reported => exact fun _ => done
  case results =>
    intro arr inside
    rcases List.mem_append.mp inside with old | new
    · exact h.results arr old
    · exact Line.result.inj (List.mem_singleton.mp new)
  case announced => exact fun _ => List.mem_append_right os (List.mem_singleton_self _)

theorem Invariant.step {N : ℤ} {os : List (Line ι)} (h : Invariant N s os) {turn : Turn ι}
    (hs : step s turn = some (t, o)) : Invariant N t (os ++ o) := by
  cases turn with
  | thread i => exact h.thread hs
  | main =>
      obtain ⟨⟨done, -⟩, eq⟩ := Option.ite_none_right_eq_some.mp hs
      cases eq
      exact h.main done

theorem sale_invariant {N : ℤ} {turns : List (Turn ι)} {os : List (Line ι)}
    (run : (sale N).Reaches turns s os) : Invariant N s os := by
  refine run.induct (P := fun _ s os => Invariant N s os) ?_ fun _ inv hs => inv.step hs
  constructor
  case guards => exact guards_start false
  case never_negative => exact .inr rfl
  all_goals simp [sale, soldTickets, soldBy, Stage.unsettled, Stage.uncounted]

omit [DecidableEq ι] [Fintype ι] in
theorem soldTickets_length (os : List (Line ι)) :
    (os.filterMap Line.buyer?).length = (soldTickets os).length := by
  induction os with
  | nil => rfl
  | cons line os ih =>
      cases line <;> simpa [soldTickets, Line.buyer?, Line.ticket?, List.filterMap_cons] using ih

/-- What is sold and what is left, when nobody is between a print and `ticket--`. -/
theorem Invariant.length_le {N : ℤ} {os : List (Line ι)} (h : Invariant N s os) :
    (soldTickets os).length ≤ N.toNat := by
  have balance := h.settled
  cases holder : s.mutex with
  | none =>
      have nobody : ∑ i, (s.thread i).unsettled = 0 := by
        refine Finset.sum_eq_zero fun i _ => ?_
        cases stage : s.thread i <;> simp only [Stage.unsettled]
        have inside := (h.guards i).mp (by simp [stage, Stage.inside])
        rw [holder] at inside
        cases inside
      rcases h.never_negative with some | none <;> omega
  | some i =>
      have here : (s.thread i).inside = true := by
        simpa using (h.guards i).mpr holder
      rw [h.unsettled here] at balance
      cases stage : s.thread i <;> rw [stage] at balance <;> simp only [Stage.unsettled] at balance
      case printed =>
        have more := h.left_over i (.inr stage)
        omega
      all_goals rcases h.never_negative with some | none <;> omega

/-- For any threads, any number of tickets and every schedule: the tickets are sold in the
order of their numbers from `N` down, each at most once and none below 1; a thread
outside its section has sold as many as `arr` says; and what is reported at the end is
what each has sold, which is all of them together. -/
theorem tickets_sold_once [Nonempty ι] {N : ℤ} {turns : List (Turn ι)} {os : List (Line ι)}
    (run : (sale N).Reaches turns s os) :
    ∃ k ≤ N.toNat, soldTickets os = (List.range k).map (fun j : ℕ => N - j) ∧
      (∀ i, (s.thread i).inside = false → soldBy os i = s.arr i) ∧
      ∀ arr, .result arr ∈ os → k = N.toNat ∧ (∀ i, arr i = soldBy os i) ∧
        ∑ i, arr i = N.toNat := by
  have inv := sale_invariant run
  have settled : ∀ i, (s.thread i).inside = false → soldBy os i = s.arr i := by
    intro i out
    rw [inv.counts i]
    cases stage : s.thread i <;> simp_all [Stage.inside, Stage.uncounted]
  refine ⟨_, inv.length_le, inv.tickets, settled, fun arr reported => ?_⟩
  have done := inv.reported ⟨arr, reported⟩
  obtain ⟨i⟩ := ‹Nonempty ι›
  have empty := inv.sold_out i (.inr (.inr (done i)))
  have nobody : ∑ i, (s.thread i).unsettled = 0 :=
    Finset.sum_eq_zero fun i _ => by rw [done i]; rfl
  have balance := inv.settled
  rw [nobody] at balance
  have all : (soldTickets os).length = N.toNat := by
    have most := inv.length_le
    omega
  have counts : ∀ i, arr i = soldBy os i := fun i => by
    rw [inv.results arr reported, settled i (by rw [done i]; rfl)]
  refine ⟨all, counts, ?_⟩
  calc ∑ i, arr i = ∑ i, (os.filterMap Line.buyer?).count i :=
        Finset.sum_congr rfl fun i _ => counts i
    _ = (os.filterMap Line.buyer?).length := by
        simpa using Multiset.sum_count_eq_card (m := (os.filterMap Line.buyer? : Multiset ι))
          fun i _ => Finset.mem_univ i
    _ = N.toNat := by rw [soldTickets_length, all]

/-! ## The end of the sale -/

/-- The turns that are still to come. -/
def State.remaining (s : State ι) : ℕ :=
  6 * s.ticket.toNat + ∑ i, (s.thread i).steps + (!s.reported).toNat

theorem Invariant.remaining {N : ℤ} {os : List (Line ι)} (h : Invariant N s os) {turn : Turn ι}
    (hs : GrapTicket.step s turn = some (t, o)) : t.remaining + 1 = s.remaining := by
  cases turn with
  | thread i =>
      have steps := grapTicket_steps hs fun printed => h.left_over i (.inr printed)
      have sum := grapTicket_sum hs Stage.steps
      rw [State.remaining, State.remaining, (grapTicket_effect hs).1]
      omega
  | main =>
      obtain ⟨⟨-, fresh⟩, eq⟩ := Option.ite_none_right_eq_some.mp hs
      cases eq
      simp [State.remaining, fresh]

/-- While turns are to come, one of them can be taken. -/
theorem Invariant.enabled [Nonempty ι] {N : ℤ} {os : List (Line ι)} (h : Invariant N s os)
    (more : 0 < s.remaining) : ∃ turn, (GrapTicket.step s turn).isSome = true := by
  by_cases busy : ∃ i, s.thread i ≠ .exited ∧ (s.thread i = .outside → s.mutex = none)
  · obtain ⟨i, going, free⟩ := busy
    refine ⟨.thread i, ?_⟩
    cases stage : s.thread i <;> simp_all [GrapTicket.step, grapTicket]
  · have done : ∀ i, s.thread i = .exited := by
      cases holder : s.mutex with
      | none => exact fun i => by_contra fun going => busy ⟨i, going, fun _ => holder⟩
      | some i =>
          have here : (s.thread i).inside = true := by simpa using (h.guards i).mpr holder
          refine absurd ⟨i, ?_, ?_⟩ busy <;> intro stage <;> rw [stage] at here <;> cases here
    refine ⟨.main, ?_⟩
    have fresh : s.reported = false := by
      obtain ⟨i⟩ := ‹Nonempty ι›
      have empty := h.sold_out i (.inr (.inr (done i)))
      have nobody : ∑ i, (s.thread i).steps = 0 :=
        Finset.sum_eq_zero fun i _ => by rw [done i]; rfl
      rw [State.remaining, nobody, Int.toNat_of_nonpos empty] at more
      cases reported : s.reported <;> simp_all
    rw [GrapTicket.step, if_pos ⟨done, fresh⟩]
    rfl

/-- For any threads, any number of tickets and every schedule: the sale is never stuck, and
it takes the same number of turns under every schedule that goes on until the report,
six for each ticket, four for each thread and one for the report. -/
theorem sale_takes_fixed_turns [Nonempty ι] {N : ℤ} {turns : List (Turn ι)} {os : List (Line ι)}
    (run : (sale N).Reaches turns s os) :
    turns.length ≤ 6 * N.toNat + 4 * Fintype.card ι + 1 ∧
      ((∃ turn, (step s turn).isSome = true) ∨
        turns.length = 6 * N.toNat + 4 * Fintype.card ι + 1 ∧ .result s.arr ∈ os) := by
  have total : turns.length + s.remaining = 6 * N.toNat + 4 * Fintype.card ι + 1 := by
    refine run.induct (P := fun turns s _ => turns.length + s.remaining =
      6 * N.toNat + 4 * Fintype.card ι + 1) ?_ ?_
    · simp [State.remaining, sale, Stage.steps, Nat.mul_comm]
    · intro turns s os turn t o past sum hs
      have less := (sale_invariant past).remaining hs
      rw [List.length_append, List.length_singleton]
      omega
  refine ⟨by omega, ?_⟩
  rcases Nat.eq_zero_or_pos s.remaining with none | more
  · refine .inr ⟨by omega, (sale_invariant run).announced ?_⟩
    rw [State.remaining] at none
    cases reported : s.reported with
    | false => simp [reported] at none
    | true => rfl
  · exact .inl ((sale_invariant run).enabled more)

end

/-- Two threads and one ticket, up to the report. -/
theorem tickets_sold_once_two :
    ∃ turns s os, (sale (ι := Bool) 1).Reaches turns s os ∧ soldTickets os = [1] ∧
      ∃ arr, .result arr ∈ os ∧ ∑ i, arr i = 1 := by
  have sold : (sale (ι := Bool) 1).Reaches (List.replicate 6 (.thread false) ++
      List.replicate 4 (.thread true) ++ List.replicate 4 (.thread false)) _ _ := rfl
  have run := sold.snoc (i := .main) (o := [.result _]) rfl
  obtain ⟨k, -, -, -, results⟩ := tickets_sold_once run
  exact ⟨_, _, _, run, rfl, _, List.mem_append_right _ (List.mem_singleton_self _),
    (results _ (List.mem_append_right _ (List.mem_singleton_self _))).2.2⟩

theorem sale_takes_fixed_turns_two :
    ∃ turns s os, (sale (ι := Bool) 1).Reaches turns s os ∧ turns.length = 3 ∧
      ∃ turn, (step s turn).isSome = true := by
  have run : (sale (ι := Bool) 1).Reaches (List.replicate 3 (.thread true)) _ _ := rfl
  rcases (sale_takes_fixed_turns run).2 with more | ⟨all, -⟩
  · exact ⟨_, _, _, run, rfl, more⟩
  · simp at all

end StudyCode.GrapTicket

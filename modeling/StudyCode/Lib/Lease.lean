import Mathlib.Order.Basic
import StudyCode.Lib.Trace

/-!
# Leases

A key may be granted a lease, which carries its own end, and a lease may be
revoked. The ledger of a key is decided by the whole history of grants and
revocations. A table that also drops leases that are over, at any time and for
any reason, still answers every question about live leases as the ledger does.
-/
namespace StudyCode.Lease
open StudyCode.Scheduled

variable {K V T : Type*}

section
variable [Preorder T] {ends : V → T} {now : T} {table table' : K → Option V}

/-- The second table is the first without some of the leases that are over. -/
def Evicted (ends : V → T) (now : T) (table table' : K → Option V) : Prop :=
  ∀ k, table' k = table k ∨ table' k = none ∧ ∃ v, table k = some v ∧ ends v < now

theorem Evicted.refl (table : K → Option V) : Evicted ends now table table := fun _ => .inl rfl

theorem Evicted.mono {later : T} (h : Evicted ends now table table') (le : now ≤ later) :
    Evicted ends later table table' := by
  intro k
  rcases h k with same | ⟨gone, v, lease, ended⟩
  · exact .inl same
  · exact .inr ⟨gone, v, lease, lt_of_lt_of_le ended le⟩

theorem Evicted.trans {table'' : K → Option V} (h : Evicted ends now table table')
    (h' : Evicted ends now table' table'') : Evicted ends now table table'' := by
  intro k
  rcases h' k with same | ⟨gone, v, lease, ended⟩
  · rw [same]
    exact h k
  · rcases h k with agree | ⟨empty, _⟩
    · exact .inr ⟨gone, v, agree ▸ lease, ended⟩
    · rw [empty] at lease
      cases lease

/-- The same change to one key of both tables. -/
theorem Evicted.record {after after' : K → Option V} (h : Evicted ends now table table') (key : K)
    (own : after' key = after key) (others : ∀ k, k ≠ key → after k = table k)
    (others' : ∀ k, k ≠ key → after' k = table' k) : Evicted ends now after after' := by
  intro k
  by_cases here : k = key
  · subst here
    exact .inl own
  · rw [others k here, others' k here]
    exact h k

theorem Evicted.live_iff (h : Evicted ends now table table') {k : K} {v : V}
    (live : now ≤ ends v) : table' k = some v ↔ table k = some v := by
  rcases h k with same | ⟨gone, w, lease, ended⟩
  · rw [same]
  · rw [gone, lease]
    constructor
    · intro held
      cases held
    · intro held
      cases held
      exact absurd ended (not_lt_of_ge live)

/-- A test that no lease passes once it is over does not tell the tables apart. -/
theorem Evicted.filter_eq (h : Evicted ends now table table') {p : V → Bool}
    (dead : ∀ v, ends v < now → p v = false) (k : K) :
    (table' k).filter p = (table k).filter p := by
  rcases h k with same | ⟨gone, v, lease, ended⟩
  · rw [same]
  · rw [gone, lease, Option.filter_none, Option.filter_some, dead v ended, if_neg (by simp)]

end

variable [DecidableEq K]

inductive Event (K V : Type*) where
  | grant (k : K) (v : V)
  | revoke (k : K)
  deriving DecidableEq, Repr

def Event.key : Event K V → K
  | .grant k _ => k
  | .revoke k => k

def Event.lease? : Event K V → Option V
  | .grant _ v => some v
  | .revoke _ => none

/-- The lease on `k` that the last event about `k` leaves. -/
def ledger (events : List (Event K V)) (k : K) : Option V :=
  events.foldl (fun lease e => if e.key = k then e.lease? else lease) none

@[simp] theorem ledger_nil (k : K) : ledger ([] : List (Event K V)) k = none := rfl

theorem ledger_snoc (events : List (Event K V)) (e : Event K V) (k : K) :
    ledger (events ++ [e]) k = if e.key = k then e.lease? else ledger events k := by
  simp [ledger]

/-- A lease in the ledger is that of the last grant, and no event about the
key came after it. -/
theorem ledger_eq_some {events : List (Event K V)} {k : K} {v : V} :
    ledger events k = some v ↔
      ∃ older newer, events = older ++ .grant k v :: newer ∧ ∀ e ∈ newer, e.key ≠ k := by
  induction events using List.reverseRecOn with
  | nil => simp
  | append_singleton events e ih =>
      rw [ledger_snoc]
      by_cases here : e.key = k
      · rw [if_pos here]
        constructor
        · intro granted
          cases e with
          | grant k' v' =>
              cases here
              cases granted
              exact ⟨events, [], rfl, by simp⟩
          | revoke k' => cases granted
        · rintro ⟨older, newer, eq, silent⟩
          rcases snoc_eq_split.mp eq with ⟨-, rfl, -⟩ | ⟨rest, rfl, -⟩
          · rfl
          · exact absurd here (silent e (by simp))
      · rw [if_neg here, ih]
        constructor
        · rintro ⟨older, newer, rfl, silent⟩
          refine ⟨older, newer ++ [e], by simp, fun e' he' => ?_⟩
          rcases List.mem_append.mp he' with old | new
          · exact silent e' old
          · rw [List.mem_singleton.mp new]
            exact here
        · rintro ⟨older, newer, eq, silent⟩
          rcases snoc_eq_split.mp eq with ⟨-, rfl, -⟩ | ⟨rest, rfl, rfl⟩
          · exact absurd rfl here
          · exact ⟨older, rest, rfl, fun e' he' => silent e' (List.mem_append_left _ he')⟩

/-- The ledger of a history of acts, some of which are events. -/
theorem ledger_filterMap_eq_some {ι : Type*} {f : ι → Option (Event K V)} {acts : List ι} {k : K}
    {v : V} :
    ledger (acts.filterMap f) k = some v ↔
      ∃ older act newer, acts = older ++ act :: newer ∧ f act = some (.grant k v) ∧
        ∀ a ∈ newer, ∀ e, f a = some e → e.key ≠ k := by
  rw [ledger_eq_some]
  constructor
  · rintro ⟨older, newer, eq, silent⟩
    obtain ⟨before, rest, rfl, -, eq⟩ := List.filterMap_eq_append_iff.mp eq
    obtain ⟨quiet, act, after, rfl, none, granted, rfl⟩ := List.filterMap_eq_cons_iff.mp eq
    refine ⟨before ++ quiet, act, after, by simp, granted, fun a ha e he => ?_⟩
    exact silent e (List.mem_filterMap.mpr ⟨a, ha, he⟩)
  · rintro ⟨older, act, newer, rfl, granted, silent⟩
    refine ⟨older.filterMap f, newer.filterMap f, ?_, fun e he => ?_⟩
    · rw [List.filterMap_append, List.filterMap_cons_some granted]
    · obtain ⟨a, ha, eq⟩ := List.mem_filterMap.mp he
      exact silent a ha e eq

variable [Preorder T] {ends : V → T} {now : T} {table table' : K → Option V}
  {events : List (Event K V)}

/-- The table holds the ledger's lease on each key, or nothing where that
lease is over. -/
def Agrees (ends : V → T) (now : T) (table : K → Option V) (events : List (Event K V)) : Prop :=
  ∀ k, table k = ledger events k ∨
    table k = none ∧ ∃ v, ledger events k = some v ∧ ends v < now

theorem agrees_start : Agrees ends now (fun _ : K => none) [] := fun _ => .inl rfl

/-- A lease that is over stays over. -/
theorem Agrees.mono {later : T} (h : Agrees ends now table events) (le : now ≤ later) :
    Agrees ends later table events := Evicted.mono h le

/-- The table does what an event says to its key and leaves the others alone. -/
theorem Agrees.record (h : Agrees ends now table events) {e : Event K V}
    (own : table' e.key = e.lease?) (others : ∀ k, k ≠ e.key → table' k = table k) :
    Agrees ends now table' (events ++ [e]) := by
  intro k
  by_cases here : e.key = k
  · subst here
    exact .inl (by rw [own, ledger_snoc, if_pos rfl])
  · rw [others k (Ne.symm here), ledger_snoc, if_neg here]
    exact h k

/-- The table may drop what is over. -/
theorem Agrees.evict (h : Agrees ends now table events)
    (dropped : Evicted ends now table table') : Agrees ends now table' events :=
  Evicted.trans h dropped

/-- On leases that are not over the table and the ledger say the same. -/
theorem Agrees.live_iff (h : Agrees ends now table events) {k : K} {v : V} (live : now ≤ ends v) :
    table k = some v ↔ ledger events k = some v := Evicted.live_iff h live

end StudyCode.Lease

import Mathlib.Data.List.Nodup
import Mathlib.Logic.Function.Basic

/-!
# Tables of owned resources

Each entry of a table belongs to an owner. A change at an address that is
free, or that belongs to someone else, leaves an owner everything.
-/
namespace StudyCode.Custody

variable {A R K : Type*} {owner : R → K} {k : K} {table table' : A → Option R}

/-- What `k` owns in the first table is still there in the second. -/
def Spares (owner : R → K) (k : K) (table table' : A → Option R) : Prop :=
  ∀ a r, table a = some r → owner r = k → table' a = some r

theorem Spares.refl (table : A → Option R) : Spares owner k table table := fun _ _ held _ => held

variable [DecidableEq A] {a : A}

theorem spares_update (other : ∀ r, table a = some r → owner r ≠ k) (v : Option R) :
    Spares owner k table (Function.update table a v) := by
  intro b r held own
  have elsewhere : b ≠ a := by
    rintro rfl
    exact other r held own
  rw [Function.update_of_ne elsewhere, held]

theorem spares_alloc (free : table a = none) (v : Option R) :
    Spares owner k table (Function.update table a v) :=
  spares_update (fun r held => by rw [free] at held; cases held) v

/-- The entries of the table are at the listed addresses, each listed once. -/
structure Inventory (table : A → Option R) (listed : List A) : Prop where
  nodup : listed.Nodup
  mem : ∀ a, a ∈ listed ↔ table a ≠ none

omit [DecidableEq A] in
theorem inventory_nil : Inventory (fun _ : A => (none : Option R)) [] :=
  ⟨List.nodup_nil, by simp⟩

omit [DecidableEq A] in
theorem Inventory.perm {listed listed' : List A} (h : Inventory table listed)
    (perm : listed.Perm listed') : Inventory table listed' :=
  ⟨perm.nodup_iff.mp h.nodup, fun a => perm.mem_iff.symm.trans (h.mem a)⟩

theorem Inventory.alloc {listed : List A} (h : Inventory table listed) (free : table a = none)
    (r : R) : Inventory (Function.update table a (some r)) (a :: listed) where
  nodup := List.nodup_cons.mpr ⟨fun old => (h.mem a).mp old free, h.nodup⟩
  mem b := by
    rw [List.mem_cons, h.mem, Function.update_apply]
    by_cases here : b = a <;> simp [here]

theorem Inventory.free {listed : List A} (h : Inventory table (a :: listed)) :
    Inventory (Function.update table a none) listed where
  nodup := (List.nodup_cons.mp h.nodup).2
  mem b := by
    have other := (List.nodup_cons.mp h.nodup).1
    rw [Function.update_apply]
    by_cases here : b = a
    · subst here
      simp [other]
    · rw [if_neg here, ← h.mem, List.mem_cons, or_iff_right here]

end StudyCode.Custody

import StudyCode.Lib.Mutex
import StudyCode.Lib.Trace
import StudyCode.Queue.RingQueue

/-!
# The ring queue is a FIFO queue

The invariant has two halves. `Ring` is about the slots: the unread ones hold
the values stored and not yet loaded, in ring order. `Control` ties the two
semaphores and the two wrapped indices to the number of those values and to the
one producer and the one consumer inside their critical sections.
-/
namespace StudyCode.RingQueue
open StudyCode.Scheduled StudyCode.Fifo StudyCode.Monitor

variable {α ι κ : Type*}

def Access.slot : Access α ι κ → ℕ
  | .store _ slot _ => slot
  | .load _ slot _ => slot

def Access.isStore : Access α ι κ → Bool
  | .store .. => true
  | .load .. => false

def Access.action : Access α ι κ → Action α
  | .store _ _ data => .put data
  | .load _ _ data => .get data

/-- The values in the order in which `Enqueue` stored them. -/
def enqueued (os : List (Access α ι κ)) : List α := puts (os.map Access.action)

/-- The values in the order in which `Pop` delivered them. -/
def delivered (os : List (Access α ι κ)) : List α := gets (os.map Access.action)

/-- The slot holds a value that was stored and not loaded since. -/
def unread (os : List (Access α ι κ)) : ℕ → Bool :=
  os.foldl (fun u a => Function.update u a.slot a.isStore) fun _ => false

/-- The access stays in the vector, a store overwrites no unread value and a
load finds one. -/
def SlotSafe (cap : ℕ) (before : List (Access α ι κ)) (a : Access α ι κ) : Prop :=
  a.slot < cap ∧ unread before a.slot = !a.isStore

@[simp] theorem delivered_snoc (os : List (Access α ι κ)) (a : Access α ι κ) :
    delivered (os ++ [a]) = delivered os ++ a.action.get?.toList := by
  cases a <;> simp [delivered, gets, Access.action, Action.get?]

@[simp] theorem unread_snoc (os : List (Access α ι κ)) (a : Access α ι κ) :
    unread (os ++ [a]) = Function.update (unread os) a.slot a.isStore := by
  simp [unread]

/-- A unit of `_blank_sem` was taken for a slot that is not stored yet. -/
def Productor.reserving : Productor α → ℕ
  | .acquired _ => 1
  | _ => 0

/-- A slot was stored and `_data_sem` is not posted yet. -/
def Productor.unposted : Productor α → ℕ
  | .stored => 1
  | .reduced => 1
  | _ => 0

def Consumer.reserving : Consumer → ℕ
  | .acquired => 1
  | _ => 0

def Consumer.unposted : Consumer → ℕ
  | .loaded => 1
  | .reduced => 1
  | _ => 0

/-- The producer inside `Enqueue`, idle if there is none. -/
def State.producing (s : State α ι κ) : Productor α := inside .idle s.productor s.pmutex

def State.consuming (s : State α ι κ) : Consumer := inside .idle s.consumer s.cmutex

/-- An index after `n` accesses: reduced, or incremented and not reduced yet. -/
def wrapped (cap n step : ℕ) (transient : Bool) : Prop :=
  if transient then 0 < n ∧ step = (n - 1) % cap + 1 else step = n % cap

def Productor.transient : Productor α → Bool
  | .stored => true
  | _ => false

def Consumer.transient : Consumer → Bool
  | .loaded => true
  | _ => false

/-- After `r` loads the ring holds the values `q`, from slot `r % cap` on. -/
structure Ring (cap : ℕ) (rq : List α) (os : List (Access α ι κ)) (q : List α)
    (r : ℕ) : Prop where
  size : rq.length = cap
  history : History (os.map Access.action) q
  loads : (delivered os).length = r
  contents : ∀ k, k < q.length → rq[(r + k) % cap]? = q[k]?
  unreadSlots : ∀ slot, unread os slot = true ↔ ∃ k, k < q.length ∧ slot = (r + k) % cap
  accesses : EachAfter (SlotSafe cap) os

/-- What the counters say when `n` values are unread after `r` loads. -/
structure Control (cap : ℕ) (s : State α ι κ) (n r : ℕ) : Prop where
  productorOwner : Guards .idle s.productor s.pmutex
  consumerOwner : Guards .idle s.consumer s.cmutex
  blank : s.blankSem + s.producing.reserving + n + s.consuming.unposted = cap
  data : s.dataSem + s.producing.unposted + s.consuming.reserving = n
  productorIndex : wrapped cap (r + n) s.productorStep s.producing.transient
  consumerIndex : wrapped cap r s.consumerStep s.consuming.transient

def Invariant (cap : ℕ) (s : State α ι κ) (os : List (Access α ι κ)) : Prop :=
  ∃ q r, Ring cap s.rq os q r ∧ Control cap s q.length r

/-- Two places less than `cap` apart in the ring are different slots. -/
theorem slot_ne {cap r k n : ℕ} (hk : k < n) (hn : n < cap) :
    (r + k) % cap ≠ (r + n) % cap := by
  intro same
  have divides : cap ∣ (r + n) - (r + k) :=
    Nat.dvd_of_mod_eq_zero (Nat.sub_mod_eq_zero_of_mod_eq same.symm)
  have zero := Nat.eq_zero_of_dvd_of_lt divides (by omega)
  omega

theorem wrapped_reduce {cap n step : ℕ} (h : wrapped cap n step true) :
    wrapped cap n (step % cap) false := by
  obtain ⟨pos, rfl⟩ : 0 < n ∧ step = (n - 1) % cap + 1 := by simpa [wrapped] using h
  simp only [wrapped, Bool.false_eq_true, if_false, Nat.mod_add_mod]
  congr 1
  omega

theorem wrapped_increment {cap n step : ℕ} (h : wrapped cap n step false) :
    wrapped cap (n + 1) (step + 1) true := by
  simpa [wrapped] using h

/-! ## The slots -/

section
variable {cap : ℕ} {rq : List α} {os : List (Access α ι κ)} {q : List α} {r : ℕ}

theorem ring_start (cap : ℕ) (a : α) :
    Ring cap (List.replicate cap a) ([] : List (Access α ι κ)) [] 0 where
  size := by simp
  history := .nil
  loads := rfl
  contents := by simp
  unreadSlots := by simp [unread]
  accesses := eachAfter_nil _

theorem Ring.store (h : Ring cap rq os q r) (room : q.length < cap) (i : ι) (data : α) :
    Ring cap (rq.set ((r + q.length) % cap) data)
      (os ++ [.store i ((r + q.length) % cap) data]) (q ++ [data]) r := by
  have inRange : (r + q.length) % cap < cap := Nat.mod_lt _ (by omega)
  have fresh : unread os ((r + q.length) % cap) = false := by
    rw [Bool.eq_false_iff]
    intro held
    obtain ⟨k, hk, same⟩ := (h.unreadSlots _).mp held
    exact slot_ne hk room same.symm
  refine ⟨by simpa using h.size, by simpa [Access.action] using h.history.put data,
    by simpa [Access.action, Action.get?] using h.loads, ?_, ?_,
    eachAfter_snoc.mpr ⟨h.accesses, inRange, fresh⟩⟩
  · intro k hk
    rcases Nat.lt_or_ge k q.length with old | new
    · rw [List.getElem?_set_ne (slot_ne old room).symm, h.contents k old,
        List.getElem?_append_left old]
    · obtain rfl : k = q.length := by simp at hk; omega
      simp [h.size, inRange]
  · intro slot
    simp only [unread_snoc, Access.slot, Access.isStore, Function.update_apply]
    by_cases here : slot = (r + q.length) % cap
    · simp only [here, if_true, true_iff]
      exact ⟨q.length, by simp, rfl⟩
    · rw [if_neg here, h.unreadSlots]
      constructor
      · rintro ⟨k, hk, same⟩
        exact ⟨k, by simp; omega, same⟩
      · rintro ⟨k, hk, same⟩
        have : k ≠ q.length := fun last => here (last ▸ same)
        simp at hk
        exact ⟨k, by omega, same⟩

theorem Ring.load {v : α} (h : Ring cap rq os (v :: q) r) (room : q.length < cap) (j : κ) :
    rq[r % cap]? = some v ∧ Ring cap rq (os ++ [.load j (r % cap) v]) q (r + 1) := by
  have inRange : r % cap < cap := Nat.mod_lt _ (by omega)
  have held : unread os (r % cap) = true := (h.unreadSlots _).mpr ⟨0, by simp, by simp⟩
  refine ⟨by simpa using h.contents 0 (by simp), h.size, ?_, ?_, ?_, ?_,
    eachAfter_snoc.mpr ⟨h.accesses, inRange, held⟩⟩
  · simpa [Access.action] using h.history.get
  · simpa [Access.action, Action.get?] using h.loads
  · intro k hk
    have shifted := h.contents (k + 1) (by simpa using hk)
    rw [Nat.add_right_comm, Nat.add_assoc] at *
    simpa using shifted
  · intro slot
    simp only [unread_snoc, Access.slot, Access.isStore, Function.update_apply]
    by_cases here : slot = r % cap
    · simp only [here, if_true, Bool.false_eq_true, false_iff, not_exists, not_and]
      -- a later value is less than `cap` places away, so in another slot
      intro k hk same
      have apart : (r + 0) % cap ≠ (r + (k + 1)) % cap := slot_ne (by omega) (by omega)
      exact apart (by rw [Nat.add_zero, same]; congr 1; omega)
    · rw [if_neg here, h.unreadSlots]
      constructor
      · rintro ⟨k, hk, same⟩
        obtain ⟨k, rfl⟩ : ∃ m, k = m + 1 :=
          ⟨k - 1, by
            have : k ≠ 0 := fun zero => here (by simpa [zero] using same)
            omega⟩
        exact ⟨k, by simpa using hk, by rw [same]; congr 1; omega⟩
      · rintro ⟨k, hk, same⟩
        exact ⟨k + 1, by simpa using hk, by rw [same]; congr 1; omega⟩

end

/-! ## The counters -/

section
variable {cap : ℕ} {s : State α ι κ} {n r : ℕ}

theorem control_start [Inhabited α] (cap : ℕ) :
    Control cap (create cap : State α ι κ) 0 0 where
  productorOwner := guards_start _
  consumerOwner := guards_start _
  blank := by
    simp [create, State.producing, State.consuming, Productor.reserving, Consumer.unposted]
  data := by
    simp [create, State.producing, State.consuming, Productor.unposted, Consumer.reserving]
  productorIndex := by simp [create, wrapped, State.producing, Productor.transient]
  consumerIndex := by simp [create, wrapped, State.consuming, Consumer.transient]

/-- The counters seen by a producer that is away from its idle point. -/
theorem Control.at_productor (h : Control cap s n r) {i : ι} {p : Productor α}
    (hi : s.productor i = p) (away : p ≠ .idle) :
    s.pmutex = some i ∧ s.blankSem + p.reserving + n + s.consuming.unposted = cap ∧
      s.dataSem + p.unposted + s.consuming.reserving = n ∧
      wrapped cap (r + n) s.productorStep p.transient := by
  have owner : s.pmutex = some i := (h.productorOwner i).mp (hi ▸ away)
  have phase : s.producing = p := by simp [State.producing, owner, hi]
  exact ⟨owner, phase ▸ h.blank, phase ▸ h.data, phase ▸ h.productorIndex⟩

theorem Control.at_consumer (h : Control cap s n r) {j : κ} {c : Consumer}
    (hj : s.consumer j = c) (away : c ≠ .idle) :
    s.cmutex = some j ∧ s.blankSem + s.producing.reserving + n + c.unposted = cap ∧
      s.dataSem + s.producing.unposted + c.reserving = n ∧
      wrapped cap r s.consumerStep c.transient := by
  have owner : s.cmutex = some j := (h.consumerOwner j).mp (hj ▸ away)
  have phase : s.consuming = c := by simp [State.consuming, owner, hj]
  exact ⟨owner, phase ▸ h.blank, phase ▸ h.data, phase ▸ h.consumerIndex⟩

/-- A step of the producer inside `Enqueue`: it may change the slots, both
semaphores, its index and the number of unread values. -/
theorem Control.moveProductor [DecidableEq ι] (h : Control cap s n r) {i : ι}
    {p : Productor α} {rq : List α} {blank data m k : ℕ} (owner : s.pmutex = some i)
    (away : p ≠ .idle) (hb : blank + p.reserving + m + s.consuming.unposted = cap)
    (hd : data + p.unposted + s.consuming.reserving = m)
    (hk : wrapped cap (r + m) k p.transient) :
    Control cap ({ s with
      rq := rq
      blankSem := blank
      dataSem := data
      productorStep := k }.setProductor i p) m r := by
  have phase : inside .idle (Function.update s.productor i p) s.pmutex = p := by simp [owner]
  refine ⟨h.productorOwner.stay owner away, h.consumerOwner, ?_, ?_, ?_, h.consumerIndex⟩
  · exact (congrArg (blank + Productor.reserving · + m + s.consuming.unposted) phase).trans hb
  · exact (congrArg (data + Productor.unposted · + s.consuming.reserving) phase).trans hd
  · change wrapped cap (r + m) k
      (Productor.transient (inside .idle (Function.update s.productor i p) s.pmutex))
    rw [phase]
    exact hk

theorem Control.moveConsumer [DecidableEq κ] (h : Control cap s n r) {j : κ} {c : Consumer}
    {blank data m l k : ℕ} (owner : s.cmutex = some j) (away : c ≠ .idle)
    (stored : r + n = l + m)
    (hb : blank + s.producing.reserving + m + c.unposted = cap)
    (hd : data + s.producing.unposted + c.reserving = m)
    (hk : wrapped cap l k c.transient) :
    Control cap ({ s with
      blankSem := blank
      dataSem := data
      consumerStep := k }.setConsumer j c) m l := by
  have phase : inside .idle (Function.update s.consumer j c) s.cmutex = c := by simp [owner]
  refine ⟨h.productorOwner, h.consumerOwner.stay owner away, ?_, ?_, ?_, ?_⟩
  · exact (congrArg (blank + s.producing.reserving + m + Consumer.unposted ·) phase).trans hb
  · exact (congrArg (data + s.producing.unposted + Consumer.reserving ·) phase).trans hd
  · have index := h.productorIndex
    rwa [stored] at index
  · change wrapped cap l k
      (Consumer.transient (inside .idle (Function.update s.consumer j c) s.cmutex))
    rw [phase]
    exact hk

/-- Locking and unlocking count for nothing. -/
theorem Control.passProductor [DecidableEq ι] (h : Control cap s n r) {i : ι}
    {p : Productor α} {holder : Option ι}
    (guards : Guards .idle (Function.update s.productor i p) holder)
    (same : (inside .idle (Function.update s.productor i p) holder).reserving =
        s.producing.reserving ∧
      (inside .idle (Function.update s.productor i p) holder).unposted =
        s.producing.unposted ∧
      (inside .idle (Function.update s.productor i p) holder).transient =
        s.producing.transient) :
    Control cap ({ s with pmutex := holder }.setProductor i p) n r := by
  obtain ⟨hr, hu, ht⟩ := same
  refine ⟨guards, h.consumerOwner, ?_, ?_, ?_, h.consumerIndex⟩
  · exact (congrArg (s.blankSem + · + n + s.consuming.unposted) hr).trans h.blank
  · exact (congrArg (s.dataSem + · + s.consuming.reserving) hu).trans h.data
  · change wrapped cap (r + n) s.productorStep
      (Productor.transient (inside .idle (Function.update s.productor i p) holder))
    rw [ht]
    exact h.productorIndex

theorem Control.passConsumer [DecidableEq κ] (h : Control cap s n r) {j : κ} {c : Consumer}
    {holder : Option κ} (guards : Guards .idle (Function.update s.consumer j c) holder)
    (same : (inside .idle (Function.update s.consumer j c) holder).reserving =
        s.consuming.reserving ∧
      (inside .idle (Function.update s.consumer j c) holder).unposted =
        s.consuming.unposted ∧
      (inside .idle (Function.update s.consumer j c) holder).transient =
        s.consuming.transient) :
    Control cap ({ s with cmutex := holder }.setConsumer j c) n r := by
  obtain ⟨hr, hu, ht⟩ := same
  refine ⟨h.productorOwner, guards, ?_, ?_, h.productorIndex, ?_⟩
  · exact (congrArg (s.blankSem + s.producing.reserving + n + ·) hu).trans h.blank
  · exact (congrArg (s.dataSem + s.producing.unposted + ·) hr).trans h.data
  · change wrapped cap r s.consumerStep
      (Consumer.transient (inside .idle (Function.update s.consumer j c) holder))
    rw [ht]
    exact h.consumerIndex

end

/-! ## Steps and runs -/

section
variable {cap : ℕ} {s t : State α ι κ} {os o : List (Access α ι κ)}

theorem Invariant.enqueueStep [DecidableEq ι] (h : Invariant cap s os) {i : ι}
    (hs : enqueueStep cap s i = some (t, o)) : Invariant cap t (os ++ o) := by
  obtain ⟨q, r, ring, control⟩ := h
  unfold RingQueue.enqueueStep at hs
  cases hi : s.productor i with
  | idle => simp [hi] at hs
  | locked data =>
      obtain ⟨owner, hb, hd, hk⟩ := control.at_productor hi (by simp)
      simp only [hi, Option.ite_none_right_eq_some, Option.some.injEq, Prod.mk.injEq] at hs
      obtain ⟨free, rfl, rfl⟩ := hs
      refine ⟨q, r, by simpa using ring, control.moveProductor owner (by simp) ?_ hd hk⟩
      simp only [Productor.reserving] at hb ⊢
      omega
  | acquired data =>
      obtain ⟨owner, hb, hd, hk⟩ := control.at_productor hi (by simp)
      simp only [hi, Option.some.injEq, Prod.mk.injEq] at hs
      obtain ⟨rfl, rfl⟩ := hs
      simp only [Productor.reserving, Productor.unposted] at hb hd
      have slot : s.productorStep = (r + q.length) % cap := by
        simpa [wrapped, Productor.transient] using hk
      refine ⟨q ++ [data], r, ?_, control.moveProductor owner (by simp) ?_ ?_ ?_⟩
      · simpa only [State.setProductor, slot] using ring.store (by omega) i data
      · simp only [Productor.reserving, List.length_append, List.length_singleton]
        omega
      · simp only [Productor.unposted, List.length_append, List.length_singleton]
        omega
      · rw [List.length_append, List.length_singleton, ← Nat.add_assoc]
        exact wrapped_increment hk
  | stored =>
      obtain ⟨owner, hb, hd, hk⟩ := control.at_productor hi (by simp)
      simp only [hi, Option.some.injEq, Prod.mk.injEq] at hs
      obtain ⟨rfl, rfl⟩ := hs
      exact ⟨q, r, by simpa using ring,
        control.moveProductor owner (by simp) hb hd (wrapped_reduce hk)⟩
  | reduced =>
      obtain ⟨owner, hb, hd, hk⟩ := control.at_productor hi (by simp)
      simp only [hi, Option.some.injEq, Prod.mk.injEq] at hs
      obtain ⟨rfl, rfl⟩ := hs
      refine ⟨q, r, by simpa using ring, control.moveProductor owner (by simp) hb ?_ hk⟩
      simp only [Productor.unposted] at hd ⊢
      omega
  | posted =>
      obtain ⟨owner, hb, hd, hk⟩ := control.at_productor hi (by simp)
      simp only [hi, Option.some.injEq, Prod.mk.injEq] at hs
      obtain ⟨rfl, rfl⟩ := hs
      refine ⟨q, r, by simpa using ring,
        control.passProductor (control.productorOwner.unlock owner) ?_⟩
      simp [State.producing, owner, hi, Productor.reserving, Productor.unposted,
        Productor.transient]

theorem Invariant.popStep [Inhabited α] [DecidableEq κ] (h : Invariant cap s os) {j : κ}
    (hs : popStep cap s j = some (t, o)) : Invariant cap t (os ++ o) := by
  obtain ⟨q, r, ring, control⟩ := h
  unfold RingQueue.popStep at hs
  cases hj : s.consumer j with
  | idle => simp [hj] at hs
  | locked =>
      obtain ⟨owner, hb, hd, hk⟩ := control.at_consumer hj (by simp)
      simp only [hj, Option.ite_none_right_eq_some, Option.some.injEq, Prod.mk.injEq] at hs
      obtain ⟨free, rfl, rfl⟩ := hs
      refine ⟨q, r, by simpa using ring, control.moveConsumer owner (by simp) rfl hb ?_ hk⟩
      simp only [Consumer.reserving] at hd ⊢
      omega
  | acquired =>
      obtain ⟨owner, hb, hd, hk⟩ := control.at_consumer hj (by simp)
      simp only [hj, Option.some.injEq, Prod.mk.injEq] at hs
      obtain ⟨rfl, rfl⟩ := hs
      simp only [Consumer.reserving, Consumer.unposted] at hb hd
      have slot : s.consumerStep = r % cap := by
        simpa [wrapped, Consumer.transient] using hk
      cases q with
      | nil => simp at hd
      | cons v q =>
          simp only [List.length_cons] at hb hd
          obtain ⟨value, ring'⟩ := ring.load (by omega) j
          refine ⟨q, r + 1, ?_, control.moveConsumer owner (by simp) ?_ ?_ ?_ ?_⟩
          · simpa [State.setConsumer, slot, List.getD_eq_getElem?_getD, value] using ring'
          · simp only [List.length_cons]
            omega
          · simp only [Consumer.unposted]
            omega
          · simp only [Consumer.reserving]
            omega
          · exact wrapped_increment hk
  | loaded =>
      obtain ⟨owner, hb, hd, hk⟩ := control.at_consumer hj (by simp)
      simp only [hj, Option.some.injEq, Prod.mk.injEq] at hs
      obtain ⟨rfl, rfl⟩ := hs
      exact ⟨q, r, by simpa using ring,
        control.moveConsumer owner (by simp) rfl hb hd (wrapped_reduce hk)⟩
  | reduced =>
      obtain ⟨owner, hb, hd, hk⟩ := control.at_consumer hj (by simp)
      simp only [hj, Option.some.injEq, Prod.mk.injEq] at hs
      obtain ⟨rfl, rfl⟩ := hs
      refine ⟨q, r, by simpa using ring, control.moveConsumer owner (by simp) rfl ?_ hd hk⟩
      simp only [Consumer.unposted] at hb ⊢
      omega
  | posted =>
      obtain ⟨owner, hb, hd, hk⟩ := control.at_consumer hj (by simp)
      simp only [hj, Option.some.injEq, Prod.mk.injEq] at hs
      obtain ⟨rfl, rfl⟩ := hs
      refine ⟨q, r, by simpa using ring,
        control.passConsumer (control.consumerOwner.unlock owner) ?_⟩
      simp [State.consuming, owner, hj, Consumer.reserving, Consumer.unposted,
        Consumer.transient]

variable [Inhabited α] [DecidableEq ι] [DecidableEq κ]

theorem Invariant.step (h : Invariant cap s os) {turn : Turn α ι κ}
    (hs : step cap s turn = some (t, o)) : Invariant cap t (os ++ o) := by
  cases turn with
  | productor i => exact h.enqueueStep hs
  | consumer j => exact h.popStep hs
  | enqueue i data =>
      obtain ⟨q, r, ring, control⟩ := h
      simp only [RingQueue.step] at hs
      split at hs
      · rename_i free
        simp only [Option.some.injEq, Prod.mk.injEq] at hs
        obtain ⟨rfl, rfl⟩ := hs
        refine ⟨q, r, by simpa using ring,
          control.passProductor (control.productorOwner.lock free (by simp)) ?_⟩
        simp [State.producing, free, Productor.reserving, Productor.unposted,
          Productor.transient]
      · cases hs
  | pop j =>
      obtain ⟨q, r, ring, control⟩ := h
      simp only [RingQueue.step] at hs
      split at hs
      · rename_i free
        simp only [Option.some.injEq, Prod.mk.injEq] at hs
        obtain ⟨rfl, rfl⟩ := hs
        refine ⟨q, r, by simpa using ring,
          control.passConsumer (control.consumerOwner.lock free (by simp)) ?_⟩
        simp [State.consuming, free, Consumer.reserving, Consumer.unposted,
          Consumer.transient]
      · cases hs

theorem reaches_invariant {turns : List (Turn α ι κ)}
    (h : (ringQueue cap).Reaches turns s os) : Invariant cap s os :=
  h.induct (P := fun _ s os => Invariant cap s os)
    ⟨[], 0, ring_start cap default, control_start cap⟩ fun _ inv hs => inv.step hs

/-- Under every schedule of any producers and consumers, the `k`-th value that
`Pop` delivers is the `k`-th value that `Enqueue` stored, the values stored and
not delivered are still in the ring, and every slot access is in range, stores
into a slot without unread value or loads from a slot with one. -/
theorem ring_queue_fifo (cap : ℕ) {turns : List (Turn α ι κ)} {s : State α ι κ}
    {os : List (Access α ι κ)} (run : (ringQueue cap).Reaches turns s os) :
    (∀ (k : ℕ) (v : α), (delivered os)[k]? = some v → (enqueued os)[k]? = some v) ∧
      (∃ waiting, enqueued os = delivered os ++ waiting ∧ waiting.length ≤ cap ∧
        ∀ k, k < waiting.length →
          s.rq[((delivered os).length + k) % cap]? = waiting[k]?) ∧
      ∀ before a after, os = before ++ a :: after →
        a.slot < cap ∧ (unread before a.slot = true ↔ a.isStore = false) := by
  obtain ⟨q, r, ring, control⟩ := reaches_invariant run
  have inOrder : ∀ k v, (delivered os)[k]? = some v → (enqueued os)[k]? = some v :=
    fun k v => ring.history.getElem_gets
  have stored : enqueued os = delivered os ++ q := ring.history.puts_eq
  refine ⟨inOrder, ⟨q, stored, ?_, ?_⟩, ?_⟩
  · have blank := control.blank
    omega
  · rw [ring.loads]
    exact ring.contents
  · intro before a after split
    obtain ⟨inRange, held⟩ := ring.accesses before a after split
    exact ⟨inRange, by simp [held]⟩

/-- One producer and one consumer on a ring of one slot: the second `Enqueue`
has to wait for the first `Pop`. -/
theorem ring_queue_fifo_handoff :
    ∃ turns s os, (ringQueue (α := ℕ) (ι := Unit) (κ := Unit) 1).Reaches turns s os ∧
      delivered os = [7] ∧ enqueued os = [7, 8] ∧
      ∀ (k v : ℕ), (delivered os)[k]? = some v → (enqueued os)[k]? = some v := by
  have run : (ringQueue (α := ℕ) (ι := Unit) (κ := Unit) 1).Reaches
      (.enqueue () 7 :: List.replicate 5 (.productor ()) ++ .enqueue () 8 :: .pop () ::
        List.replicate 5 (.consumer ()) ++ List.replicate 2 (.productor ())) _ _ := rfl
  exact ⟨_, _, _, run, rfl, rfl, (ring_queue_fifo 1 run).1⟩

end
end StudyCode.RingQueue

import StudyCode.Queue.RingQueueFifo

/-!
# The ring queue is free of races

Producers and consumers take different mutexes, so nothing keeps a producer and
a consumer from being at the vector at the same time. What keeps them apart
there is the two semaphores: the slot to store into and the slot to load from
are the same only in a ring that is full or empty.
-/
namespace StudyCode.RingQueue
open StudyCode.Scheduled StudyCode.Monitor

variable {α ι κ : Type*}

/-- The memory that the threads share, but for the mutexes and the semaphores. -/
inductive Location where
  | slot (k : ℕ)
  | productorStep
  | consumerStep
  deriving DecidableEq, Repr

/-- What the next step of a producer reads or writes. -/
def productorUses (s : State α ι κ) (i : ι) : List Location :=
  match s.productor i with
  | .acquired _ => [.slot s.productorStep, .productorStep]
  | .stored => [.productorStep]
  | .idle | .locked _ | .reduced | .posted => []

def consumerUses (s : State α ι κ) (j : κ) : List Location :=
  match s.consumer j with
  | .acquired => [.slot s.consumerStep, .consumerStep]
  | .loaded => [.consumerStep]
  | .idle | .locked | .reduced | .posted => []

def State.uses (s : State α ι κ) : ι ⊕ κ → List Location
  | .inl i => productorUses s i
  | .inr j => consumerUses s j

variable {s : State α ι κ} {loc : Location}

theorem productor_away {i : ι} (h : loc ∈ productorUses s i) : s.productor i ≠ .idle := by
  intro idle
  rw [productorUses, idle] at h
  cases h

theorem consumer_away {j : κ} (h : loc ∈ consumerUses s j) : s.consumer j ≠ .idle := by
  intro idle
  rw [consumerUses, idle] at h
  cases h

/-- A producer and a consumer meet at most in a slot. -/
theorem meet_in_slot {i : ι} {j : κ} (hi : loc ∈ productorUses s i) (hj : loc ∈ consumerUses s j) :
    (∃ data, s.productor i = .acquired data) ∧ s.consumer j = .acquired ∧
      s.productorStep = s.consumerStep := by
  unfold productorUses at hi
  unfold consumerUses at hj
  cases here : s.productor i <;> cases there : s.consumer j <;> rw [here] at hi <;>
    rw [there] at hj <;> simp at hi hj
  case acquired.acquired data =>
    rcases hi with rfl | rfl
    · exact ⟨⟨data, rfl⟩, rfl, by simpa using hj⟩
    · simp at hj
  case stored.acquired => simp [hi] at hj
  all_goals
    subst hj
    simp at hi

theorem Control.slots_apart {cap n r : ℕ} (h : Control cap s n r) {i : ι} {j : κ} {data : α}
    (hi : s.productor i = .acquired data) (hj : s.consumer j = .acquired) :
    s.productorStep ≠ s.consumerStep := by
  obtain ⟨owner, blank, -, index⟩ := h.at_productor hi (by simp)
  obtain ⟨-, -, values, index'⟩ := h.at_consumer hj (by simp)
  have into : s.productorStep = (r + n) % cap := by
    simpa [wrapped, Productor.transient] using index
  have from_ : s.consumerStep = (r + 0) % cap := by
    simpa [wrapped, Consumer.transient] using index'
  simp only [Productor.reserving, Consumer.reserving] at blank values
  rw [into, from_]
  exact (slot_ne (by omega) (by omega)).symm

/-- For every capacity, any producers and consumers and every schedule: two threads whose
next steps read or write the same slot or the same index are one thread. -/
theorem ring_queue_race_free [Inhabited α] [DecidableEq ι] [DecidableEq κ] (cap : ℕ)
    {turns : List (Turn α ι κ)} {os : List (Access α ι κ)}
    (run : (ringQueue cap).Reaches turns s os) {a b : ι ⊕ κ} (ha : loc ∈ s.uses a)
    (hb : loc ∈ s.uses b) : a = b := by
  obtain ⟨q, r, -, control⟩ := reaches_invariant run
  have apart : ∀ {i j}, loc ∈ productorUses s i → loc ∉ consumerUses s j := by
    intro i j hi hj
    obtain ⟨⟨data, here⟩, there, same⟩ := meet_in_slot hi hj
    exact control.slots_apart here there same
  cases a with
  | inl i =>
      cases b with
      | inl i' =>
          have own := (control.productorOwner i).mp (productor_away ha)
          have other := (control.productorOwner i').mp (productor_away hb)
          exact congrArg Sum.inl (Option.some.inj (own.symm.trans other))
      | inr j => exact absurd hb (apart ha)
  | inr j =>
      cases b with
      | inl i => exact absurd ha (apart hb)
      | inr j' =>
          have own := (control.consumerOwner j).mp (consumer_away ha)
          have other := (control.consumerOwner j').mp (consumer_away hb)
          exact congrArg Sum.inr (Option.some.inj (own.symm.trans other))

/-- A producer and a consumer are at the vector at once, in a ring of two slots. -/
theorem ring_queue_race_free_both :
    ∃ (turns : List (Turn ℕ Unit Unit)) (s : State ℕ Unit Unit) (os : List (Access ℕ Unit Unit)),
      (ringQueue 2).Reaches turns s os ∧ Location.slot 1 ∈ s.uses (.inl ()) ∧
      Location.slot 0 ∈ s.uses (.inr ()) ∧ ∀ a, Location.slot 1 ∈ s.uses a → a = .inl () := by
  have run : (ringQueue (α := ℕ) (ι := Unit) (κ := Unit) 2).Reaches
      (.enqueue () 7 :: List.replicate 5 (.productor ()) ++ [.enqueue () 8, .productor (),
        .pop (), .consumer ()]) _ _ := rfl
  exact ⟨_, _, _, run, by decide, by decide,
    fun a ha => ring_queue_race_free 2 run ha (b := .inl ()) (by decide)⟩

end StudyCode.RingQueue

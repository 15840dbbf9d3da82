import Mathlib.Data.List.Basic
import StudyCode.Lib.Machine
import StudyCode.Lib.WaitSet

/-!
# `PrintA` and `PrintB` under an arbitrary schedule

A turn is one section under `lk`, from the lock or the end of a
`pthread_cond_wait` to the next wait or unlock. Both threads wait on `cv`, and
`N` is `TOTAL_ROUNDS`. The round counter never passes `N`, so it does not
overflow an `int` that holds `N`.
-/
namespace StudyCode.PrintRounds
open StudyCode.Scheduled StudyCode.Monitor

inductive Who where
  | A
  | B
  deriving DecidableEq, Repr

def Who.other : Who → Who
  | .A => .B
  | .B => .A

/-- The place of a thread in the list of threads. -/
def Who.index : Who → ℕ
  | .A => 0
  | .B => 1

inductive Stage where
  | ready
  | blocked
  | woken
  | returned
  deriving DecidableEq, Repr

structure State where
  isATurn : Bool
  printRound : ℕ
  threads : List Stage
  deriving DecidableEq, Repr

/-- A thread's turn; `wakes` are the waiters that its signal rouses. -/
inductive Turn where
  | lock (who : Who) (wakes : List ℕ)
  | resume (who : Who) (wakes : List ℕ)
  | spurious (who : Who)
  deriving DecidableEq, Repr

def cond : WaitSet Stage where
  asleep p := p matches .blocked
  woken p := p matches .woken
  rouse
    | .blocked => .woken
    | p => p
  woken_of_asleep p h := by cases p <;> simp_all
  asleep_rouse p h := by cases p <;> simp_all
  woken_rouse p h := by cases p <;> simp_all

/-- `pthread_cond_signal(&cv);` -/
def signal (s : State) (wakes : List ℕ) : Option State :=
  if cond.signals wakes s.threads then
    some { s with threads := cond.wake wakes s.threads }
  else none

/-- The loop body of the two threads, from the test of the wait loop on. The
thread `who` waits unless it is `mine` to print, and leaves the turn as `next`. -/
def printSection (who : Who) (mine next : Bool) (N : ℕ) (s : State) (wakes : List ℕ) :
    Option (State × List Who) :=
  if !mine && decide (s.printRound < N) then
    some ({ s with threads := s.threads.set who.index .blocked }, [])
  else if N ≤ s.printRound then
    (signal { s with threads := s.threads.set who.index .returned } wakes).map
      fun t => (t, [])
  else
    (signal { s with
        printRound := s.printRound + 1
        isATurn := next
        threads := s.threads.set who.index .ready } wakes).map
      fun t => (t, [who])

def printA (N : ℕ) (s : State) (wakes : List ℕ) : Option (State × List Who) :=
  printSection .A s.isATurn false N s wakes

def printB (N : ℕ) (s : State) (wakes : List ℕ) : Option (State × List Who) :=
  printSection .B (!s.isATurn) true N s wakes

def print : Who → ℕ → State → List ℕ → Option (State × List Who)
  | .A => printA
  | .B => printB

def State.stage (s : State) (who : Who) : Option Stage := s.threads[who.index]?

def step (N : ℕ) (s : State) : Turn → Option (State × List Who)
  | .lock who wakes =>
      match s.stage who with
      | some .ready => print who N s wakes
      | _ => none
  | .resume who wakes =>
      match s.stage who with
      | some .woken => print who N s wakes
      | _ => none
  | .spurious who => some ({ s with threads := cond.rouseAt who.index s.threads }, [])

def printRounds (N : ℕ) : Machine State Turn Who where
  start := { isATurn := true, printRound := 0, threads := [.ready, .ready] }
  step := step N

/-- The thread that prints after `n` lines. -/
def onTurn (n : ℕ) : Who := if n % 2 = 0 then .A else .B

/-- The first `n` lines of A B A B and so on. -/
def alternation (n : ℕ) : List Who := (List.range n).map onTurn

def State.turn (s : State) : Who := if s.isATurn then .A else .B

@[simp] theorem onTurn_succ (n : ℕ) : onTurn (n + 1) = (onTurn n).other := by
  unfold onTurn
  rcases Nat.mod_two_eq_zero_or_one n with even | odd
  · simp [Who.other, even, Nat.add_mod]
  · simp [Who.other, odd, Nat.add_mod]

@[simp] theorem alternation_succ (n : ℕ) :
    alternation (n + 1) = alternation n ++ [onTurn n] := by
  simp [alternation, List.range_succ]

theorem alternation_prefix {n m : ℕ} (h : n ≤ m) : alternation n <+: alternation m := by
  induction h with
  | refl => exact List.prefix_refl _
  | step _ ih =>
      rw [alternation_succ]
      exact ih.trans (List.prefix_append _ _)

@[simp] theorem alternation_length (n : ℕ) : (alternation n).length = n := by
  simp [alternation]

/-- The two functions are one, up to whose turn it is and who is next. -/
theorem print_eq (who : Who) (N : ℕ) (s : State) (wakes : List ℕ) :
    print who N s wakes =
      printSection who (decide (s.turn = who)) (decide (who = .B)) N s wakes := by
  cases who with
  | A => cases h : s.isATurn <;> simp [print, printA, State.turn, h]
  | B => cases h : s.isATurn <;> simp [print, printB, State.turn, h]

/-- The three ways through the section of a thread that holds `lk`. -/
theorem print_cases {who : Who} {N : ℕ} {s t : State} {wakes : List ℕ} {os : List Who}
    (h : print who N s wakes = some (t, os)) :
    (s.turn ≠ who ∧ s.printRound < N ∧
      t = { s with threads := s.threads.set who.index .blocked } ∧ os = []) ∨
    (N ≤ s.printRound ∧
      signal { s with threads := s.threads.set who.index .returned } wakes = some t ∧
      os = []) ∨
    (s.turn = who ∧ s.printRound < N ∧
      signal
        { s with
          printRound := s.printRound + 1
          isATurn := decide (who = .B)
          threads := s.threads.set who.index .ready } wakes = some t ∧
      os = [who]) := by
  rw [print_eq, printSection] at h
  split at h
  · rename_i waits
    simp only [Bool.and_eq_true, Bool.not_eq_true', decide_eq_false_iff_not,
      decide_eq_true_eq] at waits
    cases h
    exact .inl ⟨waits.1, waits.2, rfl, rfl⟩
  · rename_i goes
    split at h
    · rename_i last
      obtain ⟨u, hu, same⟩ := Option.map_eq_some_iff.mp h
      cases same
      exact .inr (.inl ⟨last, hu, rfl⟩)
    · rename_i rounds
      obtain ⟨u, hu, same⟩ := Option.map_eq_some_iff.mp h
      cases same
      have left : s.printRound < N := Nat.lt_of_not_le rounds
      have turn : s.turn = who := by simpa [left] using goes
      exact .inr (.inr ⟨turn, left, hu, rfl⟩)

theorem signal_cases {s t : State} {wakes : List ℕ} (h : signal s wakes = some t) :
    cond.signals wakes s.threads = true ∧
      t = { s with threads := cond.wake wakes s.threads } := by
  unfold signal at h
  split at h
  · exact ⟨‹_›, (Option.some.inj h).symm⟩
  · cases h

/-- A wake-up leaves no thread blocked or returned that was not so before. -/
theorem of_wake (is : List ℕ) {ts : List Stage} {i : ℕ} {p : Stage}
    (h : (cond.wake is ts)[i]? = some p) (still : p ≠ .woken) : ts[i]? = some p := by
  obtain ⟨q, hq, rfl | ⟨asleep, rfl⟩⟩ := cond.getElem?_wake h
  · exact hq
  · cases q with
    | blocked => exact (still rfl).elim
    | ready | woken | returned => simp [cond] at asleep

theorem step_cases {N : ℕ} {s t : State} {turn : Turn} {os : List Who}
    (h : step N s turn = some (t, os)) :
    (∃ who wakes, (s.stage who = some .ready ∨ s.stage who = some .woken) ∧
      print who N s wakes = some (t, os)) ∨
    ∃ who, turn = .spurious who ∧ os = [] ∧
      t = { s with threads := cond.rouseAt who.index s.threads } := by
  cases turn with
  | lock who wakes =>
      simp only [step] at h
      split at h
      · exact .inl ⟨who, wakes, .inl ‹_›, h⟩
      · cases h
  | resume who wakes =>
      simp only [step] at h
      split at h
      · exact .inl ⟨who, wakes, .inr ‹_›, h⟩
      · cases h
  | spurious who =>
      cases h
      exact .inr ⟨who, rfl, rfl, rfl⟩

/-- The turn goes by the number of printed lines, and whoever is blocked waits
for the turn of the other thread, with rounds left. -/
structure Sound (N : ℕ) (s : State) (os : List Who) : Prop where
  two : s.threads.length = 2
  bound : s.printRound ≤ N
  turn : s.turn = onTurn s.printRound
  printed : os = alternation s.printRound
  waits : ∀ who, s.stage who = some .blocked → s.turn ≠ who ∧ s.printRound < N
  finished : ∀ who, s.stage who = some .returned → s.printRound = N

theorem sound_start (N : ℕ) : Sound N (printRounds N).start [] where
  two := rfl
  bound := Nat.zero_le _
  turn := rfl
  printed := rfl
  waits who h := by cases who <;> cases h
  finished who h := by cases who <;> cases h

variable {N : ℕ} {s t : State} {os : List Who} {who : Who} {wakes : List ℕ}

@[simp] theorem Who.index_inj {who other : Who} : who.index = other.index ↔ who = other := by
  cases who <;> cases other <;> simp [Who.index]

theorem of_set_index {ts : List Stage} {other : Who} {p q : Stage}
    (h : (ts.set who.index q)[other.index]? = some p) :
    other = who ∧ p = q ∨ other ≠ who ∧ ts[other.index]? = some p := by
  rcases getElem?_set_cases h with ⟨same, rfl⟩ | ⟨apart, before⟩
  · exact .inl ⟨(Who.index_inj.mp same).symm, rfl⟩
  · exact .inr ⟨fun same => apart (congrArg Who.index same.symm), before⟩

theorem Sound.block (sound : Sound N s os) (wrong : s.turn ≠ who) (left : s.printRound < N) :
    Sound N { s with threads := s.threads.set who.index .blocked } os where
  two := by simpa using sound.two
  bound := sound.bound
  turn := sound.turn
  printed := sound.printed
  waits other h := by
    rcases of_set_index h with ⟨rfl, -⟩ | ⟨-, before⟩
    · exact ⟨wrong, left⟩
    · exact sound.waits other before
  finished other h := by
    rcases of_set_index h with ⟨-, same⟩ | ⟨-, before⟩
    · cases same
    · exact sound.finished other before

theorem Sound.finish (sound : Sound N s os) (last : N ≤ s.printRound)
    (h : signal { s with threads := s.threads.set who.index .returned } wakes = some t) :
    Sound N t os := by
  have done : s.printRound = N := Nat.le_antisymm sound.bound last
  obtain ⟨-, rfl⟩ := signal_cases h
  refine ⟨by simpa using sound.two, sound.bound, sound.turn, sound.printed, ?_, fun _ _ => done⟩
  intro other hb
  rcases of_set_index (of_wake wakes hb (by simp)) with ⟨-, same⟩ | ⟨-, before⟩
  · cases same
  · exact absurd (sound.waits other before).2 (Nat.not_lt.mpr last)

/-- Of two threads, one of them awake, at most one is asleep. -/
theorem countP_asleep_le_one {ts : List Stage} (two : ts.length = 2) {q : Stage}
    (awake : cond.asleep q = false) : (ts.set who.index q).countP cond.asleep ≤ 1 := by
  obtain ⟨a, b, rfl⟩ := List.length_eq_two.mp two
  cases who with
  | A => cases hb : cond.asleep b <;> simp [Who.index, awake, hb]
  | B => cases ha : cond.asleep a <;> simp [Who.index, awake, ha]

theorem Sound.line (sound : Sound N s os) (mine : s.turn = who) (left : s.printRound < N)
    (h : signal
      { s with
        printRound := s.printRound + 1
        isATurn := decide (who = .B)
        threads := s.threads.set who.index .ready } wakes = some t) :
    Sound N t (os ++ [who]) := by
  obtain ⟨roused, rfl⟩ := signal_cases h
  have turn : (if decide (who = .B) = true then Who.A else .B) = who.other := by
    cases who <;> rfl
  refine ⟨by simpa using sound.two, left, ?_, ?_, ?_, ?_⟩
  · rw [onTurn_succ, ← sound.turn, mine]
    exact turn
  · rw [alternation_succ, ← sound.printed, ← sound.turn, mine]
  · -- the one thread that may have been blocked is roused
    intro other hb
    have nobody := cond.none_asleep_of_signal roused (countP_asleep_le_one sound.two rfl)
    exact absurd rfl (List.countP_eq_zero.mp nobody .blocked (List.mem_of_getElem? hb))
  · intro other hr
    rcases of_set_index (of_wake wakes hr (by simp)) with ⟨-, same⟩ | ⟨-, before⟩
    · cases same
    · exact absurd (sound.finished other before) (Nat.ne_of_lt left)

theorem Sound.rouse (sound : Sound N s os) :
    Sound N { s with threads := cond.rouseAt who.index s.threads } os where
  two := (cond.wake_length [who.index] s.threads).trans sound.two
  bound := sound.bound
  turn := sound.turn
  printed := sound.printed
  waits other h := sound.waits other (of_wake [who.index] h (by simp))
  finished other h := sound.finished other (of_wake [who.index] h (by simp))

theorem Sound.next {os o : List Who} {turn : Turn} (sound : Sound N s os)
    (h : step N s turn = some (t, o)) : Sound N t (os ++ o) := by
  rcases step_cases h with ⟨who, wakes, -, ran⟩ | ⟨who, -, rfl, rfl⟩
  · rcases print_cases ran with
      ⟨wrong, left, rfl, rfl⟩ | ⟨last, hs, rfl⟩ | ⟨mine, left, hs, rfl⟩
    · rw [List.append_nil]
      exact sound.block wrong left
    · rw [List.append_nil]
      exact sound.finish last hs
    · exact sound.line mine left hs
  · rw [List.append_nil]
    exact sound.rouse

theorem reaches_sound {turns : List Turn} (run : (printRounds N).Reaches turns s os) :
    Sound N s os :=
  run.induct (P := fun _ s os => Sound N s os) (sound_start N) fun _ sound h => sound.next h

/-- Whoever holds the lock gets through the section, whatever the round. -/
theorem print_isSome (who : Who) (N : ℕ) (s : State) :
    (print who N s (List.range s.threads.length)).isSome = true := by
  have signals : ∀ turn round p, (signal
      (State.mk turn round (s.threads.set who.index p)) (List.range s.threads.length)).isSome
        = true := by
    intro turn round p
    have all := cond.signals_range (s.threads.set who.index p)
    rw [List.length_set] at all
    simp [signal, all]
  rw [print_eq, printSection]
  split
  · rfl
  · split <;> simp [signals]

/-- Some thread can take the lock, or take it again after a wait. -/
def Movable (N : ℕ) (s : State) : Prop :=
  ∃ who wakes, (step N s (.lock who wakes)).isSome = true ∨
    (step N s (.resume who wakes)).isSome = true

theorem movable_of_stage {p : Stage} (h : s.stage who = some p)
    (awake : p = .ready ∨ p = .woken) : Movable N s := by
  refine ⟨who, List.range s.threads.length, ?_⟩
  rcases awake with rfl | rfl
  · exact .inl (by simpa [step, h] using print_isSome who N s)
  · exact .inr (by simpa [step, h] using print_isSome who N s)

theorem Sound.stage_isSome (sound : Sound N s os) (who : Who) : ∃ p, s.stage who = some p := by
  have inside : who.index < s.threads.length := by
    rw [sound.two]
    cases who <;> decide
  exact ⟨_, List.getElem?_eq_getElem inside⟩

theorem Who.eq_other_of_ne {who other : Who} (h : who ≠ other) : who = other.other := by
  cases who <;> cases other <;> first | rfl | exact absurd rfl h

/-- While a thread waits, the other one is neither blocked nor returned. -/
theorem Sound.movable (sound : Sound N s os) (goes : s.stage who ≠ some .returned) :
    Movable N s := by
  obtain ⟨p, hp⟩ := sound.stage_isSome who
  cases p with
  | ready => exact movable_of_stage hp (.inl rfl)
  | woken => exact movable_of_stage hp (.inr rfl)
  | returned => exact absurd hp goes
  | blocked =>
      obtain ⟨wrong, left⟩ := sound.waits who hp
      have mine := Who.eq_other_of_ne wrong
      obtain ⟨q, hq⟩ := sound.stage_isSome who.other
      cases q with
      | ready => exact movable_of_stage hq (.inl rfl)
      | woken => exact movable_of_stage hq (.inr rfl)
      | blocked => exact absurd mine (sound.waits who.other hq).1
      | returned => exact absurd (sound.finished who.other hq) (Nat.ne_of_lt left)

/-- What is printed is at all times the beginning of A B A B and so on, with at
most `N` lines and all of them once both threads returned, and until then some
thread can go on. -/
theorem print_rounds_alternate {turns : List Turn}
    (run : (printRounds N).Reaches turns s os) :
    (os <+: alternation N ∧ os.length ≤ N) ∧
      ((∀ who, s.stage who = some .returned) → os.length = N) ∧
      ((∃ who, s.stage who ≠ some .returned) → Movable N s) := by
  have sound := reaches_sound run
  have lines : os.length = s.printRound := by rw [sound.printed, alternation_length]
  refine ⟨⟨?_, lines ▸ sound.bound⟩, ?_, ?_⟩
  · rw [sound.printed]
    exact alternation_prefix sound.bound
  · intro all
    rw [lines]
    exact sound.finished .A (all .A)
  · rintro ⟨who, goes⟩
    exact sound.movable goes

/-- B waits first, and is woken twice before it returns; A waits once. -/
theorem print_rounds_alternate_three :
    ∃ s, (printRounds 3).Reaches
        [.lock .B [], .lock .A [1], .spurious .B, .lock .A [], .resume .B [0], .lock .B [],
          .resume .A [1], .resume .B [], .lock .A []] s [.A, .B, .A] ∧
      s.threads = [.returned, .returned] ∧
      ([.A, .B, .A] : List Who) <+: alternation 3 := by
  have run : (printRounds 3).Reaches
      [.lock .B [], .lock .A [1], .spurious .B, .lock .A [], .resume .B [0], .lock .B [],
        .resume .A [1], .resume .B [], .lock .A []] _ [.A, .B, .A] := rfl
  exact ⟨_, run, rfl, (print_rounds_alternate run).1.1⟩

end StudyCode.PrintRounds

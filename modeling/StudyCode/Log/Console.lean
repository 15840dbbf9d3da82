import StudyCode.Lib.Machine
import StudyCode.Lib.Mutex
import StudyCode.Lib.TextSearch
import StudyCode.Log.LogMessage

/-!
# Threads that log to the console

The destructor of `LogMessage` hands its text to `ConsoleStrategy::SyncLog`, which
holds the mutex of the strategy while the stream writes it, in as many pieces as it
likes. Other threads run between two pieces.
-/
namespace StudyCode.Logger
open StudyCode.ByteString StudyCode.Scheduled StudyCode.Monitor

structure Console (ι : Type*) where
  /-- what a thread inside `SyncLog` still has to write -/
  pc : ι → Option Str
  holder : Option ι
  strategy : Bool
  text : Str

inductive Turn (ι : Type*) where
  | useConsoleStrategy
  /-- the end of a statement `LOG(level) << infos`, up to the mutex of `SyncLog` -/
  | log (i : ι) (h : Header) (infos : List Str)
  | write (i : ι) (count : ℕ)
  | unlock (i : ι)
  deriving DecidableEq, Repr

/-- A message that is printed, at the moment its thread gets the mutex. -/
structure Logged (ι : Type*) where
  thread : ι
  header : Header
  infos : List Str
  deriving DecidableEq, Repr

def Logged.line {ι : Type*} (l : Logged ι) : Str := logMessage l.header l.infos

variable {ι : Type*} [DecidableEq ι]

/-- The strategy is set once, before it is used. -/
def useConsoleStrategy (s : Console ι) : Option (Console ι × List (Logged ι)) :=
  if s.strategy then none else some ({ s with strategy := true }, [])

def log (s : Console ι) (i : ι) (h : Header) (infos : List Str) :
    Option (Console ι × List (Logged ι)) :=
  if s.pc i = none then
    if s.strategy then
      if s.holder = none then
        some ({ s with
          pc := Function.update s.pc i (some (logMessage h infos ++ bytes "\n"))
          holder := some i }, [⟨i, h, infos⟩])
      else none
    else some (s, [])
  else none

def write (s : Console ι) (i : ι) (count : ℕ) : Option (Console ι × List (Logged ι)) :=
  match s.pc i with
  | none => none
  | some rest =>
      some ({ s with
        pc := Function.update s.pc i (some (rest.drop count))
        text := s.text ++ rest.take count }, [])

def unlock (s : Console ι) (i : ι) : Option (Console ι × List (Logged ι)) :=
  if s.pc i = some [] then
    some ({ s with pc := Function.update s.pc i none, holder := none }, [])
  else none

def consoleStep (s : Console ι) : Turn ι → Option (Console ι × List (Logged ι))
  | .useConsoleStrategy => useConsoleStrategy s
  | .log i h infos => log s i h infos
  | .write i count => write s i count
  | .unlock i => unlock s i

def console : Machine (Console ι) (Turn ι) (Logged ι) where
  start := { pc := fun _ => none, holder := none, strategy := false, text := [] }
  step := consoleStep

/-! ## Whole lines -/

/-- The lines of the messages in the order in which their threads got the mutex. -/
def printed (os : List (Logged ι)) : Str := os.flatMap fun l => l.line ++ bytes "\n"

/-- The rest of the line that is being written. -/
def Console.unwritten (s : Console ι) : Str := (inside none s.pc s.holder).getD []

structure Lined (s : Console ι) (os : List (Logged ι)) : Prop where
  guards : Guards none s.pc s.holder
  text : s.text ++ s.unwritten = printed os

variable {s t : Console ι} {os o : List (Logged ι)} {i : ι}

omit [DecidableEq ι] in
/-- A thread inside `SyncLog` holds the mutex. -/
theorem Lined.holder (h : Lined s os) {rest : Str} (pc : s.pc i = some rest) :
    s.holder = some i ∧ s.unwritten = rest := by
  have mine : s.holder = some i := (h.guards i).mp (by simp [pc])
  exact ⟨mine, by simp [Console.unwritten, mine, pc]⟩

theorem Lined.log {h : Header} {infos : List Str} (before : Lined s os)
    (hs : Logger.log s i h infos = some (t, o)) : Lined t (os ++ o) := by
  obtain ⟨outside, hs⟩ := Option.ite_none_right_eq_some.mp hs
  split at hs
  · obtain ⟨free, eq⟩ := Option.ite_none_right_eq_some.mp hs
    cases eq
    refine ⟨before.guards.lock free (by simp), ?_⟩
    have whole : s.text = printed os := by
      have text := before.text
      rwa [Console.unwritten, free, inside_none, Option.getD_none, List.append_nil] at text
    simp [Console.unwritten, whole, printed, Logged.line]
  · cases hs
    rwa [List.append_nil]

theorem Lined.write {count : ℕ} (before : Lined s os)
    (hs : Logger.write s i count = some (t, o)) : Lined t (os ++ o) := by
  unfold Logger.write at hs
  split at hs
  · cases hs
  · rename_i rest pc
    obtain ⟨mine, unwritten⟩ := before.holder pc
    cases hs
    refine ⟨before.guards.stay mine (by simp), ?_⟩
    have text := before.text
    rw [unwritten] at text
    simp [Console.unwritten, mine, ← text]

theorem Lined.unlock (before : Lined s os) (hs : Logger.unlock s i = some (t, o)) :
    Lined t (os ++ o) := by
  obtain ⟨pc, eq⟩ := Option.ite_none_right_eq_some.mp hs
  obtain ⟨mine, unwritten⟩ := before.holder pc
  cases eq
  refine ⟨before.guards.unlock mine, ?_⟩
  have text := before.text
  rw [unwritten, List.append_nil] at text
  simp [Console.unwritten, text]

theorem Lined.step {turn : Turn ι} (before : Lined s os)
    (hs : consoleStep s turn = some (t, o)) : Lined t (os ++ o) := by
  cases turn with
  | useConsoleStrategy =>
      obtain ⟨-, eq⟩ := Option.ite_none_left_eq_some.mp hs
      cases eq
      rw [List.append_nil]
      exact ⟨before.guards, before.text⟩
  | log i h infos => exact before.log hs
  | write i count => exact before.write hs
  | unlock i => exact before.unlock hs

theorem console_lined {turns : List (Turn ι)} (run : console.Reaches turns s os) : Lined s os :=
  run.induct (P := fun _ s os => Lined s os) ⟨guards_start none, rfl⟩ fun _ h hs => h.step hs

/-! ## Reading the console -/

/-- A message that takes one line, with fields that can be told apart. -/
structure Logged.Readable (l : Logged ι) : Prop where
  header : l.header.Readable
  filename : 10 ∉ l.header.filename
  infos : ∀ info ∈ l.infos, 10 ∉ info

omit [DecidableEq ι] in
theorem Logged.Readable.line {l : Logged ι} (h : l.Readable) : 10 ∉ l.line := by
  have number : ∀ n : ℤ, 10 ∉ decimal n := fun n => not_mem_decimal nofun (.inl (by decide))
  have time : 10 ∉ getCurrentTime l.header.time := by
    rw [getCurrentTime_eq h.header.time]
    exact not_mem_text (.inl rfl)
  have level : 10 ∉ logLevel2Message l.header.level := by cases l.header.level <;> decide
  have infos : 10 ∉ l.infos.flatten := by
    rw [List.mem_flatten]
    rintro ⟨info, hi, inside⟩
    exact h.infos info hi inside
  simp [Logged.line, logMessage_eq, Header.loginfo, bracket, number, time, level, h.filename,
    -List.mem_flatten, infos]

omit [DecidableEq ι] in
/-- The lines, read one by one. -/
theorem read_printed (readable : ∀ l ∈ os, l.Readable) :
    (getlines 10 (printed os)).map readHeader =
      os.map fun l => some (l.header, l.infos.flatten) := by
  have divided : printed os = (os.map Logged.line).flatMap (· ++ [10]) := by
    rw [List.flatMap_map]
    rfl
  rw [divided, getlines_flatMap, List.map_map]
  · refine List.map_congr_left fun l hl => ?_
    rw [Function.comp_apply, Logged.line, logMessage_eq]
    exact readHeader_loginfo (readable l hl).header _
  · intro line hl
    obtain ⟨l, logged, rfl⟩ := List.mem_map.mp hl
    exact (readable l logged).line

/-- For any threads and every order in which they log and the stream writes: the console shows
the lines of all messages in the order in which their threads got the mutex, up to the
rest of the line that is being written. When no thread is inside `SyncLog`, and every
message was readable, the lines read back are those very messages. -/
theorem console_reads_back {turns : List (Turn ι)} (run : console.Reaches turns s os) :
    s.text ++ s.unwritten = printed os ∧
      (s.holder = none → (∀ l ∈ os, l.Readable) →
        (getlines 10 s.text).map readHeader =
          os.map fun l => some (l.header, l.infos.flatten)) := by
  have lined := console_lined run
  refine ⟨lined.text, fun free readable => ?_⟩
  have text := lined.text
  rw [Console.unwritten, free, inside_none, Option.getD_none, List.append_nil] at text
  rw [text]
  exact read_printed readable

def newYear : Header where
  time := { year := 126, mon := 0, mday := 1, hour := 0, min := 0, sec := 0, usec := 7 }
  level := .debug
  pid := 4021
  filename := bytes "Main.cc"
  line := 47

/-- Two threads, the second of which comes while the first one writes. -/
theorem console_reads_back_two :
    ∃ turns s os, (console (ι := Bool)).Reaches turns s os ∧
      s.text = bytes "[2026-1-1 0:0:0.7][Debug][4021][Main.cc][47]3+4=7\n" ++
        bytes "[2026-1-1 0:0:0.7][Debug][4021][Main.cc][47]bye\n" ∧
      (getlines 10 s.text).map readHeader =
        [some (newYear, bytes "3+4=7"), some (newYear, bytes "bye")] := by
  have run : (console (ι := Bool)).Reaches
      [.useConsoleStrategy, .log true newYear [bytes "3+4", bytes "=7"], .write true 20,
        .write true 100, .unlock true, .log false newYear [bytes "bye"], .write false 48,
        .unlock false] _
      [⟨true, newYear, [bytes "3+4", bytes "=7"]⟩, ⟨false, newYear, [bytes "bye"]⟩] := rfl
  have readable : newYear.Readable := by
    refine ⟨?_, by decide⟩
    constructor <;> decide
  refine ⟨_, _, _, run, by decide +kernel, (console_reads_back run).2 rfl ?_⟩
  intro l hl
  simp only [List.mem_cons, List.not_mem_nil, or_false] at hl
  rcases hl with rfl | rfl <;> exact ⟨readable, by decide, by decide⟩

end StudyCode.Logger

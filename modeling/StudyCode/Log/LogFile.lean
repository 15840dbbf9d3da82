import StudyCode.Log.Console

/-!
# Threads that log to a file

`FileLogstrategy::SyncLog` takes no mutex. Each thread opens a stream of its own, which
appends its line to the file in one piece or in several, and other threads may append
between two pieces.
-/
namespace StudyCode.Logger
open StudyCode.ByteString StudyCode.Scheduled

structure LogFile (ι : Type*) where
  /-- what the stream of a thread inside `SyncLog` still has to append -/
  streams : ι → Option Str
  strategy : Bool
  text : Str

inductive FileTurn (ι : Type*) where
  | useFileStrategy
  /-- the end of a statement `LOG(level) << infos`, and the constructor of `out` -/
  | openLog (i : ι) (h : Header) (infos : List Str) (isOpen : Bool)
  | append (i : ι) (count : ℕ)
  | close (i : ι)
  deriving DecidableEq, Repr

inductive FileEvent (ι : Type*) where
  | opened (l : Logged ι)
  | appended (i : ι) (piece : Str)
  deriving DecidableEq, Repr

variable {ι : Type*} [DecidableEq ι]

/-- The strategy is set once, before it is used. -/
def useFileStrategy (s : LogFile ι) : Option (LogFile ι × List (FileEvent ι)) :=
  if s.strategy then none else some ({ s with strategy := true }, [])

/-- Where the file cannot be opened, the message is dropped. -/
def openLog (s : LogFile ι) (i : ι) (h : Header) (infos : List Str) (isOpen : Bool) :
    Option (LogFile ι × List (FileEvent ι)) :=
  if s.streams i = none then
    if s.strategy ∧ isOpen then
      some ({ s with
        streams := Function.update s.streams i (some (logMessage h infos ++ bytes "\n")) },
        [.opened ⟨i, h, infos⟩])
    else some (s, [])
  else none

/-- The stream writes as many bytes as it likes; `filebufPieces` says what a `filebuf` does. -/
def append (s : LogFile ι) (i : ι) (count : ℕ) : Option (LogFile ι × List (FileEvent ι)) :=
  match s.streams i with
  | none => none
  | some rest =>
      some ({ s with
        streams := Function.update s.streams i (some (rest.drop count))
        text := s.text ++ rest.take count }, [.appended i (rest.take count)])

def closeLog (s : LogFile ι) (i : ι) : Option (LogFile ι × List (FileEvent ι)) :=
  if s.streams i = some [] then
    some ({ s with streams := Function.update s.streams i none }, [])
  else none

def fileStep (s : LogFile ι) : FileTurn ι → Option (LogFile ι × List (FileEvent ι))
  | .useFileStrategy => useFileStrategy s
  | .openLog i h infos isOpen => openLog s i h infos isOpen
  | .append i count => append s i count
  | .close i => closeLog s i

def logFile : Machine (LogFile ι) (FileTurn ι) (FileEvent ι) where
  start := { streams := fun _ => none, strategy := false, text := [] }
  step := fileStep

/-! ## What the file holds -/

def FileEvent.opened? : FileEvent ι → Option (Logged ι)
  | .opened l => some l
  | .appended _ _ => none

def FileEvent.piece : FileEvent ι → Str
  | .opened _ => []
  | .appended _ piece => piece

def FileEvent.pieceOf (i : ι) : FileEvent ι → Str
  | .opened _ => []
  | .appended j piece => if j = i then piece else []

/-- The messages of a thread that were opened for. -/
def openedBy (i : ι) (os : List (FileEvent ι)) : List (Logged ι) :=
  (os.filterMap FileEvent.opened?).filter (·.thread = i)

/-- The file is made of the pieces, and those of a thread are its lines. -/
structure Pieced (s : LogFile ι) (os : List (FileEvent ι)) : Prop where
  text : s.text = os.flatMap FileEvent.piece
  own : ∀ i, printed (openedBy i os) =
    os.flatMap (FileEvent.pieceOf i) ++ (s.streams i).getD []

variable {s t : LogFile ι} {os o : List (FileEvent ι)}

theorem openedBy_append (i : ι) (os o : List (FileEvent ι)) :
    openedBy i (os ++ o) = openedBy i os ++ openedBy i o := by
  simp [openedBy]

omit [DecidableEq ι] in
theorem printed_append (ls ls' : List (Logged ι)) :
    printed (ls ++ ls') = printed ls ++ printed ls' := List.flatMap_append

/-- A turn that thread `i` takes with its stream. -/
theorem Pieced.turn {i : ι} {stream : Option Str} (h : Pieced s os)
    (streams : t.streams = Function.update s.streams i stream)
    (text : t.text = s.text ++ o.flatMap FileEvent.piece)
    (own : (s.streams i).getD [] ++ printed (openedBy i o) =
      o.flatMap (FileEvent.pieceOf i) ++ stream.getD [])
    (others : ∀ j, j ≠ i → openedBy j o = [] ∧ o.flatMap (FileEvent.pieceOf j) = []) :
    Pieced t (os ++ o) where
  text := by rw [text, h.text, List.flatMap_append]
  own j := by
    rw [openedBy_append, printed_append, List.flatMap_append, h.own, streams]
    by_cases same : j = i
    · subst same
      rw [Function.update_self, List.append_assoc, own, List.append_assoc]
    · obtain ⟨noLine, noPiece⟩ := others j same
      rw [Function.update_of_ne same, noLine, noPiece, List.append_nil, printed,
        List.flatMap_nil, List.append_nil]

theorem Pieced.step {turn : FileTurn ι} (h : Pieced s os)
    (hs : fileStep s turn = some (t, o)) : Pieced t (os ++ o) := by
  cases turn with
  | useFileStrategy =>
      obtain ⟨-, eq⟩ := Option.ite_none_left_eq_some.mp hs
      cases eq
      rw [List.append_nil]
      exact ⟨h.text, h.own⟩
  | openLog i header infos isOpen =>
      obtain ⟨outside, hs⟩ := Option.ite_none_right_eq_some.mp hs
      split at hs <;> cases hs
      · refine h.turn (i := i) rfl (by simp [FileEvent.piece]) ?_ fun j other => ?_
        · simp [outside, openedBy, FileEvent.opened?, FileEvent.pieceOf, printed, Logged.line]
        · simp [openedBy, FileEvent.opened?, FileEvent.pieceOf, Ne.symm other]
      · rwa [List.append_nil]
  | append i count =>
      simp only [fileStep, Logger.append] at hs
      split at hs <;> cases hs
      rename_i rest inside
      refine h.turn (i := i) rfl (by simp [FileEvent.piece]) ?_ fun j other => ?_
      · simp [inside, openedBy, FileEvent.opened?, FileEvent.pieceOf, printed]
      · simp [openedBy, FileEvent.opened?, FileEvent.pieceOf, Ne.symm other]
  | close i =>
      obtain ⟨done, eq⟩ := Option.ite_none_right_eq_some.mp hs
      cases eq
      refine h.turn (i := i) rfl (by simp) ?_ fun j other => ?_
      · simp [done, openedBy, printed]
      · simp [openedBy]

theorem logFile_pieced {turns : List (FileTurn ι)} (run : logFile.Reaches turns s os) :
    Pieced s os :=
  run.induct (P := fun _ s os => Pieced s os) ⟨rfl, fun _ => rfl⟩ fun _ h hs => h.step hs

/-! ## Lines that are appended in one piece -/

/-- The turn appends all that the stream has. -/
def Whole (s : LogFile ι) : FileTurn ι → Prop
  | .append i count => ∀ rest ∈ s.streams i, rest.length ≤ count
  | .useFileStrategy | .openLog _ _ _ _ | .close _ => True

instance (s : LogFile ι) : DecidablePred (Whole s)
  | .append i count => inferInstanceAs (Decidable (∀ rest ∈ s.streams i, rest.length ≤ count))
  | .useFileStrategy | .openLog _ _ _ _ | .close _ => inferInstanceAs (Decidable True)

/-- A thread's lines are all in the file, or all but the one that its stream has. -/
def InOrder (stream : Option Str) (opened own : List (Logged ι)) : Prop :=
  own = opened ∧ stream.getD [] = [] ∨
    ∃ l, stream = some (l.line ++ bytes "\n") ∧ opened = own ++ [l]

structure Ordered (s : LogFile ι) (os : List (FileEvent ι)) (order : List (Logged ι)) : Prop where
  text : s.text = printed order
  own : ∀ i, InOrder (s.streams i) (openedBy i os) (order.filter (·.thread = i))

theorem Ordered.turn {i : ι} {stream : Option Str} {order order' : List (Logged ι)}
    (h : Ordered s os order) (streams : t.streams = Function.update s.streams i stream)
    (text : t.text = printed order')
    (own : InOrder stream (openedBy i (os ++ o)) (order'.filter (·.thread = i)))
    (others : ∀ j, j ≠ i → openedBy j o = [] ∧
      order'.filter (·.thread = j) = order.filter (·.thread = j)) :
    Ordered t (os ++ o) order' where
  text := text
  own j := by
    rw [streams]
    by_cases same : j = i
    · subst same
      rwa [Function.update_self]
    · obtain ⟨noLine, kept⟩ := others j same
      rw [Function.update_of_ne same, openedBy_append, noLine, List.append_nil, kept]
      exact h.own j

theorem Ordered.append {i : ι} {count : ℕ} {order : List (Logged ι)} (h : Ordered s os order)
    (hs : Logger.append s i count = some (t, o)) (whole : Whole s (.append i count)) :
    ∃ order', Ordered t (os ++ o) order' := by
  unfold Logger.append at hs
  split at hs <;> cases hs
  rename_i rest inside
  have fits : rest.length ≤ count := whole rest inside
  have silent : ∀ j, openedBy j [.appended i (rest.take count)] = [] := fun j => rfl
  have own := h.own i
  rw [inside] at own
  rcases own with ⟨all, empty⟩ | ⟨l, line, last⟩
  · obtain rfl : rest = [] := empty
    refine ⟨order, h.turn (i := i) rfl (by simp [h.text]) (.inl ⟨?_, by simp⟩)
      fun j _ => ⟨silent j, rfl⟩⟩
    rw [openedBy_append, silent, List.append_nil, all]
  · obtain rfl := Option.some.inj line
    have thread : l.thread = i := by
      have mem : l ∈ openedBy i os := by simp [last]
      simpa using (List.mem_filter.mp mem).2
    refine ⟨order ++ [l], h.turn (i := i) rfl ?_ (.inl ⟨?_, ?_⟩) fun j other => ⟨silent j, ?_⟩⟩
    · rw [printed_append, List.take_of_length_le fits, h.text]
      simp [printed]
    · rw [openedBy_append, silent, List.append_nil, last, List.filter_append]
      simp [thread]
    · rw [List.drop_of_length_le fits, Option.getD_some]
    · rw [List.filter_append]
      simp [thread, Ne.symm other]

theorem Ordered.step {turn : FileTurn ι} {order : List (Logged ι)} (h : Ordered s os order)
    (hs : fileStep s turn = some (t, o)) (whole : Whole s turn) :
    ∃ order', Ordered t (os ++ o) order' := by
  cases turn with
  | useFileStrategy =>
      obtain ⟨-, eq⟩ := Option.ite_none_left_eq_some.mp hs
      cases eq
      rw [List.append_nil]
      exact ⟨order, h.text, h.own⟩
  | openLog i header infos isOpen =>
      obtain ⟨outside, hs⟩ := Option.ite_none_right_eq_some.mp hs
      split at hs <;> cases hs
      · refine ⟨order, h.turn (i := i) rfl h.text ?_ fun j other => ⟨?_, rfl⟩⟩
        · have own := h.own i
          rw [outside] at own
          rcases own with ⟨all, -⟩ | ⟨l, inside, -⟩
          · refine .inr ⟨⟨i, header, infos⟩, rfl, ?_⟩
            simp [all, openedBy, FileEvent.opened?]
          · cases inside
        · simp [openedBy, FileEvent.opened?, Ne.symm other]
      · rw [List.append_nil]
        exact ⟨order, h⟩
  | append i count => exact h.append hs whole
  | close i =>
      obtain ⟨done, eq⟩ := Option.ite_none_right_eq_some.mp hs
      cases eq
      refine ⟨order, h.turn (i := i) rfl h.text ?_ fun j _ => ⟨rfl, rfl⟩⟩
      have own := h.own i
      rw [done] at own
      rcases own with ⟨all, -⟩ | ⟨l, line, -⟩
      · exact .inl ⟨by rw [List.append_nil, all], rfl⟩
      · have full : l.line ++ bytes "\n" ≠ [] :=
          List.append_ne_nil_of_right_ne_nil _ (by decide)
        exact absurd (Option.some.inj line).symm full

theorem ordered_start : Ordered (logFile (ι := ι)).start [] [] where
  text := rfl
  own _ := .inl ⟨rfl, rfl⟩

theorem logFile_ordered {turns : List (FileTurn ι)} (run : logFile.Reaches turns s os)
    (whole : logFile.Meets Whole turns) : ∃ order, Ordered s os order := by
  refine Machine.Meets.induct (P := fun _ s os => ∃ order, Ordered s os order)
    ⟨[], ordered_start⟩ ?_ whole run
  rintro turns s os turn t o - ⟨order, ordered⟩ hs fine
  exact ordered.step hs fine

/-- A message in the file was opened for. -/
theorem Ordered.opened {order : List (Logged ι)} (h : Ordered s os order) {l : Logged ι}
    (mem : l ∈ order) : .opened l ∈ os := by
  have own : l ∈ order.filter (·.thread = l.thread) := List.mem_filter.mpr ⟨mem, by simp⟩
  have here : l ∈ openedBy l.thread os := by
    rcases h.own l.thread with ⟨all, -⟩ | ⟨last, -, all⟩
    · rwa [← all]
    · rw [all]
      exact List.mem_append_left _ own
  obtain ⟨e, he, eq⟩ := List.mem_filterMap.mp (List.mem_filter.mp here).1
  cases e with
  | opened l' =>
      cases eq
      exact he
  | appended i piece => cases eq

/-- Lists that hold the same messages of each thread. -/
theorem perm_of_threads {ls ls' : List (Logged ι)}
    (same : ∀ i, ls.filter (·.thread = i) = ls'.filter (·.thread = i)) : ls.Perm ls' := by
  refine List.perm_iff_count.mpr fun l => ?_
  have own : ∀ ls : List (Logged ι), (ls.filter (·.thread = l.thread)).count l = ls.count l :=
    fun ls => List.count_filter (by simp)
  rw [← own ls, ← own ls', same]

/-- For any threads and every order in which they log, open the file, fail to open it, append
and close: the file is made of the pieces that were appended, and the pieces of each
thread are the lines that it opened the file for, in order, up to the rest in its stream.
Where every line is appended in one piece, the file is a sequence of whole lines; when
no thread is inside `SyncLog`, they are those of all messages that the file was opened
for, each once and those of a thread in order, and readable ones read back. -/
theorem log_file_reads_back {turns : List (FileTurn ι)} (run : logFile.Reaches turns s os) :
    s.text = os.flatMap FileEvent.piece ∧
      (∀ i, printed (openedBy i os) =
        os.flatMap (FileEvent.pieceOf i) ++ (s.streams i).getD []) ∧
      (logFile.Meets Whole turns → ∃ order, s.text = printed order ∧
        (∀ i, order.filter (·.thread = i) <+: openedBy i os) ∧
        ((∀ i, s.streams i = none) → order.Perm (os.filterMap FileEvent.opened?) ∧
          ∀ i, order.filter (·.thread = i) = openedBy i os) ∧
        ((∀ l, .opened l ∈ os → l.Readable) → (getlines 10 s.text).map readHeader =
          order.map fun l => some (l.header, l.infos.flatten))) := by
  have pieced := logFile_pieced run
  refine ⟨pieced.text, pieced.own, fun whole => ?_⟩
  obtain ⟨order, ordered⟩ := logFile_ordered run whole
  refine ⟨order, ordered.text, fun i => ?_, fun closed => ?_, fun readable => ?_⟩
  · rcases ordered.own i with ⟨all, -⟩ | ⟨l, -, all⟩
    · rw [all]
    · exact ⟨[l], all.symm⟩
  · have all : ∀ i, order.filter (·.thread = i) = openedBy i os := by
      intro i
      have own := ordered.own i
      rw [closed i] at own
      rcases own with ⟨all, -⟩ | ⟨l, line, -⟩
      · exact all
      · cases line
    exact ⟨perm_of_threads all, all⟩
  · rw [ordered.text]
    exact read_printed fun l hl => readable l (ordered.opened hl)

/-- Two threads that have the file open at once. -/
theorem log_file_reads_back_two :
    ∃ turns s os order, (logFile (ι := Bool)).Reaches turns s os ∧ s.text = printed order ∧
      order.Perm [⟨true, newYear, [bytes "3+4", bytes "=7"]⟩, ⟨false, newYear, [bytes "bye"]⟩] ∧
      (getlines 10 s.text).map readHeader =
        order.map fun l => some (l.header, l.infos.flatten) := by
  have run : (logFile (ι := Bool)).Reaches
      [.useFileStrategy, .openLog true newYear [bytes "3+4", bytes "=7"] true,
        .openLog false newYear [bytes "bye"] true, .append false 200, .append true 200,
        .close true, .close false, .openLog true newYear [] false] _ _ := rfl
  obtain ⟨order, text, -, closed, reads⟩ :=
    (log_file_reads_back run).2.2 (Machine.meets_of_meetsFrom (by decide +kernel))
  refine ⟨_, _, _, order, run, text, (closed ?_).1, reads ?_⟩
  · decide
  · have readable : newYear.Readable := by
      refine ⟨?_, by decide⟩
      constructor <;> decide
    intro l hl
    have listed : l ∈ [(⟨true, newYear, [bytes "3+4", bytes "=7"]⟩ : Logged Bool),
        ⟨false, newYear, [bytes "bye"]⟩] :=
      (List.mem_filterMap (f := FileEvent.opened?)).mpr ⟨_, hl, rfl⟩
    simp only [List.mem_cons, List.not_mem_nil, or_false] at listed
    rcases listed with rfl | rfl <;> exact ⟨readable, by decide, by decide⟩

/-! ## Lines that are not -/

/-- What a `filebuf` writes for `out << message << "\n"` and `out.close()`: a message of
`limit` bytes at once (1024 or 8191 in libstdc++, by its version), and what its buffer
takes when it is closed. -/
def filebufPieces (limit : ℕ) (message : Str) : List Str :=
  if limit ≤ message.length then [message, bytes "\n"] else [message ++ bytes "\n"]

def FileEvent.pieceOf? (i : ι) : FileEvent ι → Option Str
  | .opened _ => none
  | .appended j piece => if j = i then some piece else none

/-- The pieces that the stream of a thread appended. -/
def piecesOf (i : ι) (os : List (FileEvent ι)) : List Str := os.filterMap (FileEvent.pieceOf? i)

theorem filebufPieces_flatten (limit : ℕ) (message : Str) :
    (filebufPieces limit message).flatten = message ++ bytes "\n" := by
  unfold filebufPieces
  split <;> simp

@[simp]
theorem piecesOf_append (i : ι) (os o : List (FileEvent ι)) :
    piecesOf i (os ++ o) = piecesOf i os ++ piecesOf i o := List.filterMap_append

theorem piecesOf_own (i : ι) (pieces : List Str) :
    piecesOf i (pieces.map (.appended i)) = pieces := by
  simp [piecesOf, List.filterMap_map, Function.comp_def, FileEvent.pieceOf?]

theorem piecesOf_other {i j : ι} (other : j ≠ i) (pieces : List Str) :
    piecesOf i (pieces.map (.appended j)) = [] := by
  simp [piecesOf, FileEvent.pieceOf?, other]

omit [DecidableEq ι] in
theorem opened_pieces (i : ι) (pieces : List Str) :
    (pieces.map (FileEvent.appended i)).filterMap FileEvent.opened? = [] := by
  simp [FileEvent.opened?]

/-- A thread that appends some pieces while the others wait. -/
theorem run_pieces (i : ι) (pieces : List Str) (rest : Str)
    (inside : s.streams i = some (pieces.flatten ++ rest)) :
    logFile.runFrom s (pieces.map fun piece => .append i piece.length) =
      some ({ s with
        streams := Function.update s.streams i (some rest)
        text := s.text ++ pieces.flatten }, pieces.map (.appended i)) := by
  induction pieces generalizing s with
  | nil =>
      have same : Function.update s.streams i (some rest) = s.streams :=
        Function.update_eq_self_iff.mpr inside.symm
      simp [Machine.runFrom, same]
  | cons piece pieces ih =>
      rw [List.flatten_cons, List.append_assoc] at inside
      have first : logFile.step s (.append i piece.length) =
          some ({ s with
            streams := Function.update s.streams i (some (pieces.flatten ++ rest))
            text := s.text ++ piece }, [.appended i piece]) := by
        simp [logFile, fileStep, append, inside]
      refine (Machine.runFrom_cons first (ih (Function.update_self ..))).trans ?_
      simp

theorem close_done {i : ι} (done : s.streams i = some []) :
    logFile.step s (.close i) = some ({ s with streams := Function.update s.streams i none }, []) :=
  if_pos done

omit [DecidableEq ι] in
theorem Logged.line_ne_nil (l : Logged ι) : l.line ≠ [] := by
  rw [Logged.line, logMessage_eq, Header.loginfo, bracket]
  exact List.cons_ne_nil _ _

omit [DecidableEq ι] in
/-- There is no empty line among those of readable messages. -/
theorem printed_ne {order : List (Logged ι)} (readable : ∀ l ∈ order, l.Readable) (text : Str) :
    printed order ≠ text ++ bytes "\n" ++ bytes "\n" := by
  have newline : bytes "\n" = [10] := rfl
  intro same
  cases order using List.reverseRecOn with
  | nil => simp [printed, newline] at same
  | append_singleton order l =>
      rw [printed_append, printed, printed, List.flatMap_singleton, ← List.append_assoc] at same
      have ends := congrArg List.getLast? (List.append_cancel_right same)
      rw [List.getLast?_append_of_ne_nil _ l.line_ne_nil, newline, List.getLast?_concat] at ends
      exact (readable l (by simp)).line (List.mem_of_getLast? ends)

/-- Whoever the two threads are and whatever they log, if the first message is one that a
`filebuf` does not hold: there is an order in which each stream writes what a `filebuf`
writes, both messages get into the file, and it is no sequence of lines of readable
messages, whatever messages one would take. -/
theorem log_file_cuts_lines {i j : ι} (other : i ≠ j) {limit : ℕ} {h h' : Header}
    {infos infos' : List Str} (long : limit ≤ (logMessage h infos).length) :
    ∃ turns s os, logFile.Reaches turns s os ∧ (∀ k, s.streams k = none) ∧
      os.filterMap FileEvent.opened? = [⟨i, h, infos⟩, ⟨j, h', infos'⟩] ∧
      piecesOf i os = filebufPieces limit (logMessage h infos) ∧
      piecesOf j os = filebufPieces limit (logMessage h' infos') ∧
      ∀ order : List (Logged ι), (∀ l ∈ order, l.Readable) → s.text ≠ printed order := by
  have opened : (logFile (ι := ι)).Reaches
      [.useFileStrategy, .openLog i h infos true, .openLog j h' infos' true]
      { streams := Function.update (Function.update (fun _ => none) i
          (some (logMessage h infos ++ bytes "\n"))) j (some (logMessage h' infos' ++ bytes "\n"))
        strategy := true
        text := [] } [.opened ⟨i, h, infos⟩, .opened ⟨j, h', infos'⟩] := by
    simp [Machine.Reaches, Machine.runFrom, logFile, fileStep, useFileStrategy, openLog,
      Function.update_of_ne other.symm]
  -- the whole line of the second thread comes between the first message and its line end
  have message := Machine.reaches_append.mpr ⟨_, _, _, opened,
    run_pieces i [logMessage h infos] (bytes "\n") (by simp [Function.update_of_ne other]), rfl⟩
  have between := Machine.reaches_append.mpr ⟨_, _, _, message,
    run_pieces j (filebufPieces limit (logMessage h' infos')) []
      (by simp [Function.update_of_ne other.symm, filebufPieces_flatten]), rfl⟩
  have written := Machine.reaches_append.mpr ⟨_, _, _, between,
    run_pieces i [bytes "\n"] [] (by simp [Function.update_of_ne other]), rfl⟩
  have closed := written.snoc (close_done (i := i) (Function.update_self ..))
  have run := closed.snoc (close_done (i := j) (by simp [Function.update_of_ne other.symm]))
  refine ⟨_, _, _, run, ?_, ?_, ?_, ?_, ?_⟩
  · intro k
    simp only [Function.update_apply]
    split <;> simp_all
  · simp only [List.filterMap_append, opened_pieces]
    rfl
  · simp only [piecesOf_append, piecesOf_own, piecesOf_other other.symm, filebufPieces, if_pos long]
    rfl
  · simp only [piecesOf_append, piecesOf_own, piecesOf_other other]
    simp [piecesOf, FileEvent.pieceOf?]
  · intro order readable
    have parts := printed_ne readable (logMessage h infos ++ logMessage h' infos')
    simpa [filebufPieces_flatten] using parts.symm

/-- A message of more than 9000 bytes, and a short one. -/
theorem log_file_cuts_lines_two :
    ∃ turns s os, (logFile (ι := Bool)).Reaches turns s os ∧
      os.filterMap FileEvent.opened? = [⟨true, newYear, [List.replicate 9000 97]⟩,
        ⟨false, newYear, [bytes "bye"]⟩] ∧
      piecesOf false os = [logMessage newYear [bytes "bye"] ++ bytes "\n"] ∧
      ∀ order : List (Logged Bool), (∀ l ∈ order, l.Readable) → s.text ≠ printed order := by
  have long : 8191 ≤ (logMessage newYear [List.replicate 9000 97]).length := by
    rw [logMessage_eq, List.length_append, List.flatten_singleton, List.length_replicate]
    omega
  have short : ¬ 8191 ≤ (logMessage newYear [bytes "bye"]).length := by decide +kernel
  obtain ⟨turns, s, os, run, -, messages, -, pieces, cut⟩ :=
    @log_file_cuts_lines Bool _ true false (by decide) 8191 newYear newYear
      [List.replicate 9000 97] [bytes "bye"] long
  rw [filebufPieces, if_neg short] at pieces
  exact ⟨turns, s, os, run, messages, pieces, cut⟩

end StudyCode.Logger

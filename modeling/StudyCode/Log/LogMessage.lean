import StudyCode.Lib.Numerals
import StudyCode.Lib.TextSearch

/-!
# The text of a log message

The constructor of `LogMessage` puts five fields in brackets before the text, the
first of them the time. Where the file name has no closing bracket in it, the
fields and the text can be read back.
-/
namespace StudyCode.Logger
open StudyCode.ByteString

inductive LogLevel where
  | info
  | waring
  | error
  | fatal
  | debug
  deriving DecidableEq, Repr

def logLevel2Message : LogLevel → Str
  | .info => bytes "Info"
  | .waring => bytes "Waring"
  | .error => bytes "Error"
  | .fatal => bytes "Fatal"
  | .debug => bytes "Debug"

/-- What `gettimeofday` and `localtime_r` fill in. -/
structure Tm where
  year : ℤ
  mon : ℤ
  mday : ℤ
  hour : ℤ
  min : ℤ
  sec : ℤ
  usec : ℤ
  deriving DecidableEq, Repr

/-- The ranges of the fields; the year counts from 1900 and the month from 0. -/
structure Tm.InRange (tm : Tm) : Prop where
  year : 0 ≤ tm.year + 1900 ∧ tm.year + 1900 < 2147483648
  mon : 0 ≤ tm.mon ∧ tm.mon ≤ 11
  mday : 1 ≤ tm.mday ∧ tm.mday ≤ 31
  hour : 0 ≤ tm.hour ∧ tm.hour ≤ 23
  min : 0 ≤ tm.min ∧ tm.min ≤ 59
  sec : 0 ≤ tm.sec ∧ tm.sec ≤ 60
  usec : 0 ≤ tm.usec ∧ tm.usec ≤ 999999

/-- The text that `snprintf` is asked for. -/
def Tm.text (tm : Tm) : Str :=
  decimal (tm.year + 1900) ++ 45 :: (decimal (tm.mon + 1) ++ 45 :: (decimal tm.mday ++
    32 :: (decimal tm.hour ++ 58 :: (decimal tm.min ++ 58 :: (decimal tm.sec ++
      46 :: decimal tm.usec)))))

/-- `timestr[128]` takes 127 bytes of it. -/
def getCurrentTime (tm : Tm) : Str := tm.text.take 127

structure Header where
  time : Tm
  level : LogLevel
  pid : ℤ
  filename : Str
  line : ℤ
  deriving DecidableEq, Repr

def bracket (field rest : Str) : Str := 91 :: (field ++ 93 :: rest)

/-- `_loginfo` after the constructor. -/
def Header.loginfo (h : Header) : Str :=
  bracket (getCurrentTime h.time) <| bracket (logLevel2Message h.level) <|
    bracket (decimal h.pid) <| bracket h.filename <| bracket (decimal h.line) []

/-- `_loginfo` after the operators `<<`. -/
def logMessage (h : Header) (infos : List Str) : Str := infos.foldl (· ++ ·) h.loginfo

/-! ## Reading it back -/

def readBracket : Str → Option (Str × Str)
  | [] => none
  | a :: s => if a = 91 then cut 93 s else none

def levels : List LogLevel := [.info, .waring, .error, .fatal, .debug]

def readTm (text : Str) : Option Tm := do
  let (year, text) ← cut 45 text
  let (mon, text) ← cut 45 text
  let (mday, text) ← cut 32 text
  let (hour, text) ← cut 58 text
  let (min, text) ← cut 58 text
  let (sec, usec) ← cut 46 text
  return {
    year := readDecimal year - 1900
    mon := readDecimal mon - 1
    mday := readDecimal mday
    hour := readDecimal hour
    min := readDecimal min
    sec := readDecimal sec
    usec := readDecimal usec }

/-- The fields in the brackets, and the text behind them. -/
def readHeader (text : Str) : Option (Header × Str) := do
  let (time, text) ← readBracket text
  let (level, text) ← readBracket text
  let (pid, text) ← readBracket text
  let (filename, text) ← readBracket text
  let (line, text) ← readBracket text
  let time ← readTm time
  let level ← levels.find? fun l => logLevel2Message l = level
  return ({
    time := time
    level := level
    pid := readDecimal pid
    filename := filename
    line := readDecimal line }, text)

theorem readBracket_bracket {field : Str} (h : 93 ∉ field) (rest : Str) :
    readBracket (bracket field rest) = some (field, rest) := by
  rw [bracket, readBracket, if_pos rfl]
  exact cut_append_cons h rest

/-- A separator of the time is not part of its numbers. -/
theorem cut_decimal {n : ℤ} {d : UInt8} (positive : 0 ≤ n) (other : d.toNat < 48 ∨ 57 < d.toNat)
    (rest : Str) : cut d (decimal n ++ d :: rest) = some (decimal n, rest) :=
  cut_append_cons (not_mem_decimal (fun _ => positive) other) rest

theorem readTm_text {tm : Tm} (h : tm.InRange) : readTm tm.text = some tm := by
  obtain ⟨year, mon, mday, hour, min, sec, usec⟩ := h
  simp only [readTm, Tm.text, cut_decimal year.1 (d := 45) (.inl (by decide)),
    cut_decimal (n := tm.mon + 1) (d := 45) (by omega) (.inl (by decide)),
    cut_decimal (n := tm.mday) (d := 32) (by omega) (.inl (by decide)),
    cut_decimal hour.1 (d := 58) (.inr (by decide)), cut_decimal min.1 (d := 58) (.inr (by decide)),
    cut_decimal sec.1 (d := 46) (.inl (by decide)), Option.bind_eq_bind, Option.bind_some,
    readDecimal_decimal]
  simp

/-- The time fits into `timestr`. -/
theorem getCurrentTime_eq {tm : Tm} (h : tm.InRange) : getCurrentTime tm = tm.text := by
  obtain ⟨year, mon, mday, hour, min, sec, usec⟩ := h
  have year := length_decimal (k := 10) year.1 (by omega) (by decide)
  have mon := length_decimal (n := tm.mon + 1) (k := 2) (by omega) (by omega) (by decide)
  have mday := length_decimal (n := tm.mday) (k := 2) (by omega) (by omega) (by decide)
  have hour := length_decimal (k := 2) hour.1 (by omega) (by decide)
  have min := length_decimal (k := 2) min.1 (by omega) (by decide)
  have sec := length_decimal (k := 2) sec.1 (by omega) (by decide)
  have usec := length_decimal (k := 6) usec.1 (by omega) (by decide)
  refine List.take_of_length_le ?_
  simp only [Tm.text, List.length_append, List.length_cons]
  omega

theorem find_level (level : LogLevel) :
    levels.find? (fun l => logLevel2Message l = logLevel2Message level) = some level := by
  cases level <;> decide

theorem not_mem_level (level : LogLevel) : 93 ∉ logLevel2Message level := by
  cases level <;> decide

theorem not_mem_text {tm : Tm} {b : UInt8} (other : b.toNat = 10 ∨ 58 < b.toNat) :
    b ∉ tm.text := by
  have digits : ∀ n : ℤ, b ∉ decimal n := fun n =>
    not_mem_decimal (by rintro rfl; exact absurd other (by decide)) (by omega)
  have seps : ∀ d ∈ [(45 : UInt8), 32, 58, 46], b ≠ d := by
    rintro d hd rfl
    simp only [List.mem_cons, List.not_mem_nil, or_false] at hd
    rcases hd with rfl | rfl | rfl | rfl <;> exact absurd other (by decide)
  simp [Tm.text, digits, seps]

/-- What a reader needs: a time that a clock can show, and a file name that does not
close its bracket. -/
structure Header.Readable (h : Header) : Prop where
  time : h.time.InRange
  filename : 93 ∉ h.filename

theorem readHeader_loginfo {h : Header} (readable : h.Readable) (rest : Str) :
    readHeader (h.loginfo ++ rest) = some (h, rest) := by
  have number : ∀ n : ℤ, 93 ∉ decimal n := fun n => not_mem_decimal nofun (.inr (by decide))
  have time : 93 ∉ h.time.text := not_mem_text (.inr (by decide))
  have shape : h.loginfo ++ rest =
      bracket h.time.text (bracket (logLevel2Message h.level)
        (bracket (decimal h.pid) (bracket h.filename (bracket (decimal h.line) rest)))) := by
    simp [Header.loginfo, bracket, getCurrentTime_eq readable.time]
  simp only [shape, readHeader, readBracket_bracket time,
    readBracket_bracket (not_mem_level h.level), readBracket_bracket (number h.pid),
    readBracket_bracket readable.filename, readBracket_bracket (number h.line),
    readTm_text readable.time, find_level, Option.bind_eq_bind, Option.bind_some,
    readDecimal_decimal]
  rfl

theorem logMessage_eq (h : Header) (infos : List Str) :
    logMessage h infos = h.loginfo ++ infos.flatten := by
  have grows : ∀ text : Str, infos.foldl (· ++ ·) text = text ++ infos.flatten := by
    intro text
    induction infos generalizing text with
    | nil => simp
    | cons info infos ih => simp [ih]
  exact grows h.loginfo

end StudyCode.Logger

import StudyCode.Http.CookiePairs

/-!
# HTTP requests

The text that a client sends: a request line, header lines, an empty line and a
body. Nothing in the server builds or checks this form; it is the form of the
texts that the server searches.
-/
namespace StudyCode.Http
open StudyCode.ByteString StudyCode.CookieUtil

def newline : Str := bytes "\r\n"

structure RequestLine where
  method : Str
  target : Str
  version : Str
  single : ∀ c ∈ [space, carriageReturn, lineFeed], c ∉ method ∧ c ∉ target ∧ c ∉ version
  protocol : bytes "HTTP" <+: version

structure HeaderLine where
  name : Str
  value : Str
  divided : ':'.toUInt8 ∉ name
  single : ∀ c ∈ [carriageReturn, lineFeed], c ∉ name ∧ c ∉ value

structure HttpRequest where
  line : RequestLine
  headers : List HeaderLine
  body : Str

def RequestLine.text (line : RequestLine) : Str :=
  line.method ++ space :: (line.target ++ space :: line.version)

def HeaderLine.text (header : HeaderLine) : Str := header.name ++ bytes ":" ++ header.value

/-- The request line and the header lines, each with its line end. -/
def opening (line : RequestLine) (headers : List HeaderLine) : Str :=
  line.text ++ newline ++ headers.flatMap fun header => header.text ++ newline

def HttpRequest.text (r : HttpRequest) : Str := opening r.line r.headers ++ newline ++ r.body

theorem opening_append (line : RequestLine) (before after : List HeaderLine) :
    opening line (before ++ after) =
      opening line before ++ after.flatMap fun header => header.text ++ newline := by
  simp [opening, List.append_assoc]

/-- Whatever lines there are, the last one is ended. -/
theorem opening_ended (line : RequestLine) (headers : List HeaderLine) :
    ∃ lines, opening line headers = lines ++ newline := by
  rcases List.eq_nil_or_concat headers with rfl | ⟨before, last, rfl⟩
  · exact ⟨line.text, by simp [opening]⟩
  · exact ⟨opening line before ++ last.text, by
      rw [List.concat_eq_append, opening_append]; simp [List.append_assoc]⟩

end StudyCode.Http

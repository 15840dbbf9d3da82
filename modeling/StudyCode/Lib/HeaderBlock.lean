import StudyCode.Lib.TextSearch

/-!
# Lines, an empty line, and a body

Each line ends with two bytes `c d`. The first empty line ends the lines, and
what comes after it is the body, whatever is in it.
-/
namespace StudyCode.ByteString

variable {α : Type*}

def block (c d : α) (lines : List (List α)) (body : List α) : List α :=
  lines.flatMap (· ++ [c, d]) ++ [c, d] ++ body

/-- The lines without the end of the last one. -/
def blockLines (c d : α) (first : List α) (lines : List (List α)) : List α :=
  first ++ lines.flatMap ([c, d] ++ ·)

theorem block_cons (c d : α) (first : List α) (lines : List (List α)) (body : List α) :
    block c d (first :: lines) body = blockLines c d first lines ++ ([c, d, c, d] ++ body) := by
  induction lines generalizing first with
  | nil => simp [block, blockLines]
  | cons line lines ih =>
      have tail := ih line
      simp only [block, blockLines, List.flatMap_cons, List.append_assoc] at tail ⊢
      rw [tail]

variable [DecidableEq α]

/-- The lines of a text in which `c d` stands between lines. -/
def splitLines (c d : α) : List α → List (List α)
  | [] => [[]]
  | [a] => [[a]]
  | a :: b :: rest =>
      if a = c ∧ b = d then [] :: splitLines c d rest
      else
        match splitLines c d (b :: rest) with
        | [] => [[a]]
        | line :: lines => (a :: line) :: lines

/-- The lines before the first empty line, and the text after it. -/
def readBlock (c d : α) (text : List α) : Option (List (List α) × List α) :=
  (find [c, d, c, d] text).map fun p => (splitLines c d (text.take p), text.drop (p + 4))

variable {c d : α} {first l : List α} {lines : List (List α)} {body rest : List α}

theorem splitLines_line (h : c ∉ l) (rest : List α) :
    splitLines c d (l ++ c :: d :: rest) = l :: splitLines c d rest := by
  induction l with
  | nil => simp [splitLines]
  | cons a l ih =>
      obtain ⟨head, tail⟩ := List.ne_and_not_mem_of_not_mem_cons h
      have later := ih tail
      cases l with
      | nil => simp [splitLines, Ne.symm head]
      | cons b l => simp only [List.cons_append, splitLines, Ne.symm head, false_and, if_false,
          show splitLines c d (b :: (l ++ c :: d :: rest)) = (b :: l) :: splitLines c d rest
            from later]

theorem splitLines_of_not_mem (h : c ∉ l) : splitLines c d l = [l] := by
  induction l with
  | nil => rfl
  | cons a l ih =>
      obtain ⟨head, tail⟩ := List.ne_and_not_mem_of_not_mem_cons h
      cases l with
      | nil => rfl
      | cons b l => simp only [splitLines, Ne.symm head, false_and, if_false, ih tail]

theorem splitLines_blockLines (plain : ∀ line ∈ first :: lines, c ∉ line) :
    splitLines c d (blockLines c d first lines) = first :: lines := by
  induction lines generalizing first with
  | nil =>
      rw [blockLines, List.flatMap_nil, List.append_nil]
      exact splitLines_of_not_mem (plain first List.mem_cons_self)
  | cons line lines ih =>
      have later := @ih line fun m hm => plain m (List.mem_cons_of_mem first hm)
      rw [blockLines, List.flatMap_cons, List.append_assoc, List.cons_append, List.singleton_append,
        splitLines_line (plain first List.mem_cons_self)]
      exact congrArg (first :: ·) later

/-- The end of a line with a line behind it is no empty line. -/
theorem find_skip_line (hcd : c ≠ d) (hfirst : c ∉ first) (hl : c ∉ l) (filled : l ≠ []) :
    find [c, d, c, d] (first ++ (c :: d :: (l ++ rest))) =
      (find [c, d, c, d] (l ++ rest)).map (· + (first.length + 2)) := by
  obtain ⟨a, l, rfl⟩ := List.exists_cons_of_ne_nil filled
  obtain ⟨head, -⟩ := List.ne_and_not_mem_of_not_mem_cons hl
  rw [find_append_of_head_not_mem hfirst, List.cons_append, find, if_neg (by simp [head]), find,
    if_neg (by simp [hcd]), Option.map_map, Option.map_map]
  congr 1
  funext p
  simp only [Function.comp_apply]
  omega

theorem find_empty_line (hcd : c ≠ d) (plain : ∀ line ∈ first :: lines, c ∉ line)
    (filled : ∀ line ∈ lines, line ≠ []) (body : List α) :
    find [c, d, c, d] (blockLines c d first lines ++ ([c, d, c, d] ++ body)) =
      some (blockLines c d first lines).length := by
  induction lines generalizing first with
  | nil =>
      rw [blockLines, List.flatMap_nil, List.append_nil]
      exact find_append_self (plain first List.mem_cons_self)
  | cons line lines ih =>
      have later := @ih line (fun m hm => plain m (List.mem_cons_of_mem first hm))
        fun m hm => filled m (List.mem_cons_of_mem line hm)
      have shape : blockLines c d first (line :: lines) ++ ([c, d, c, d] ++ body) =
          first ++
            (c :: d :: (line ++ (lines.flatMap ([c, d] ++ ·) ++ ([c, d, c, d] ++ body)))) := by
        simp [blockLines, List.append_assoc]
      rw [blockLines, List.append_assoc] at later
      rw [shape, find_skip_line hcd (plain first List.mem_cons_self) (plain line (by simp))
        (filled line List.mem_cons_self), later, Option.map_some]
      simp only [blockLines, List.flatMap_cons, List.length_append, List.length_cons,
        List.length_nil]
      congr 1
      omega

/-- What is written as lines and a body is read as these lines and this body. -/
theorem readBlock_block (hcd : c ≠ d) (plain : ∀ line ∈ first :: lines, c ∉ line)
    (filled : ∀ line ∈ lines, line ≠ []) (body : List α) :
    readBlock c d (block c d (first :: lines) body) = some (first :: lines, body) := by
  have four : [c, d, c, d].length = 4 := rfl
  rw [block_cons, readBlock, find_empty_line hcd plain filled, Option.map_some, List.take_left,
    splitLines_blockLines plain, ← List.append_assoc, List.drop_left' (by simp)]

end StudyCode.ByteString

import StudyCode.Lib.ByteString

/-!
# Searching a text that is put together from parts

Where a search in a concatenation ends, and what the pieces of a joined text
are. A character that the pattern does not contain is a barrier: no occurrence
reaches across it.
-/
namespace StudyCode.ByteString

theorem sizeSub_of_le {a b : ℕ} (h : b ≤ a) : sizeSub a b = (a - b) % wordSize := by
  unfold sizeSub wordSize
  omega

theorem sizeSub_eq {a b : ℕ} (h : b ≤ a) (fits : a ≤ npos) : sizeSub a b = a - b := by
  rw [sizeSub_of_le h]
  unfold npos wordSize at *
  omega

/-- One byte short of nothing is everything. -/
theorem sizeSub_succ (a : ℕ) : sizeSub a (a + 1) = npos := by
  unfold sizeSub npos wordSize
  omega

section Trimming
variable {α : Type*} {p : α → Bool} {c : α}

theorem dropWhile_append_cons (l r : List α) (hc : p c = false) :
    (l ++ c :: r).dropWhile p = l.dropWhile p ++ c :: r := by
  rw [List.dropWhile_append]
  split
  · rename_i all
    simp [List.isEmpty_iff.mp all, hc]
  · rfl

theorem rdropWhile_append_cons (l r : List α) (hc : p c = false) :
    (l ++ c :: r).rdropWhile p = l ++ c :: r.rdropWhile p := by
  unfold List.rdropWhile
  rw [List.reverse_append, List.reverse_cons, List.append_assoc, List.singleton_append,
    dropWhile_append_cons _ _ hc]
  simp

theorem mem_dropWhile_of_neg {l : List α} (hc : p c = false) (h : c ∈ l) :
    c ∈ l.dropWhile p := by
  obtain ⟨a, b, rfl⟩ := List.append_of_mem h
  simp [dropWhile_append_cons a b hc]

theorem takeWhile_append_cons {l r : List α} (hl : ∀ a ∈ l, p a = true) (hc : p c = false) :
    (l ++ c :: r).takeWhile p = l := by
  rw [List.takeWhile_append_of_pos hl]
  simp [hc]

end Trimming

section Barriers
variable {α : Type*} {c : α} {pat a b : List α}

theorem prefix_append_cons_iff (h : c ∉ pat) : pat <+: a ++ c :: b ↔ pat <+: a := by
  constructor
  · intro here
    have whole : a ++ [c] <+: a ++ c :: b := ⟨b, by simp⟩
    rcases List.prefix_or_prefix_of_prefix here whole with inside | past
    · rcases List.prefix_concat_iff.mp inside with rfl | inside
      · exact absurd (by simp) h
      · exact inside
    · exact absurd (past.subset (by simp)) h
  · intro here
    exact here.trans (List.prefix_append a _)

/-- A text that does not contain the last character of the pattern ends no occurrence. -/
theorem infix_of_append (h : c ∉ b) (occurs : pat ++ [c] <:+: a ++ b) : pat ++ [c] <:+: a := by
  induction b using List.reverseRecOn with
  | nil => rwa [List.append_nil] at occurs
  | append_singleton b x ih =>
      rw [← List.append_assoc] at occurs
      rcases List.infix_concat_iff.mp occurs with last | earlier
      · obtain ⟨front, eq⟩ := last
        rw [← List.append_assoc] at eq
        have same := List.append_inj_right' eq rfl
        cases same
        simp at h
      · exact ih (fun inside => h (by simp [inside])) earlier

/-- Where the last character of the pattern comes only there, an occurrence that
reaches the barrier ends with it. -/
theorem infix_append_cons (once : c ∉ pat) (occurs : pat ++ [c] <:+: a ++ c :: b) :
    pat ++ [c] <:+: a ++ [c] ∨ pat ++ [c] <:+: b := by
  induction a with
  | nil =>
      rcases List.infix_cons_iff.mp occurs with here | later
      · cases pat with
        | nil => exact .inl (List.infix_refl [c])
        | cons x pat =>
            obtain ⟨rfl, -⟩ := List.cons_prefix_cons.mp here
            simp at once
      · exact .inr later
  | cons x a ih =>
      rcases List.infix_cons_iff.mp occurs with here | later
      · have whole : x :: a ++ [c] <+: x :: a ++ c :: b := ⟨b, by simp⟩
        rcases List.prefix_or_prefix_of_prefix here whole with inside | past
        · exact .inl inside.isInfix
        · rcases List.prefix_concat_iff.mp past with eq | past
          · rw [eq]
            exact .inl (List.infix_refl _)
          · exact absurd (past.subset (by simp)) once
      · rcases ih later with inside | behind
        · exact .inl (inside.trans (List.suffix_cons x _).isInfix)
        · exact .inr behind

/-- An occurrence lies on one side of a barrier. -/
theorem infix_barrier_iff (h : c ∉ pat) : pat <:+: a ++ c :: b ↔ pat <:+: a ∨ pat <:+: b := by
  constructor
  · intro occurs
    induction a with
    | nil =>
        rcases List.infix_cons_iff.mp occurs with here | later
        · have := (prefix_append_cons_iff (a := []) h).mp here
          exact .inl this.isInfix
        · exact .inr later
    | cons x a ih =>
        rcases List.infix_cons_iff.mp occurs with here | later
        · exact .inl ((prefix_append_cons_iff (a := x :: a) h).mp here).isInfix
        · rcases ih later with inside | behind
          · exact .inl (inside.trans (List.suffix_cons x a).isInfix)
          · exact .inr behind
  · rintro (inside | behind)
    · exact inside.trans (List.prefix_append a (c :: b)).isInfix
    · exact behind.trans ((List.suffix_cons c b).trans (List.suffix_append a _)).isInfix

variable [DecidableEq α]

/-- The search ends where it would end without what follows. -/
theorem find_append_of_some {p : ℕ} (h : find pat a = some p) : find pat (a ++ b) = some p := by
  induction a generalizing p with
  | nil =>
      obtain ⟨rfl, eq⟩ := Option.ite_none_right_eq_some.mp h
      cases eq
      cases b <;> simp [find]
  | cons x a ih =>
      have fits := find_some_le h
      simp only [find] at h
      split at h
      · rename_i first
        cases h
        have longer : pat.isPrefixOf (x :: (a ++ b)) = true :=
          List.isPrefixOf_iff_prefix.mpr
            ((List.isPrefixOf_iff_prefix.mp first).trans (List.prefix_append (x :: a) b))
        rw [List.cons_append, find, if_pos longer]
      · rename_i other
        obtain ⟨q, hq, rfl⟩ := Option.map_eq_some_iff.mp h
        have same : ¬ pat.isPrefixOf (x :: (a ++ b)) = true := by
          intro first
          have here := List.isPrefixOf_iff_prefix.mp first
          rw [← List.cons_append] at here
          exact other (List.isPrefixOf_iff_prefix.mpr
            (List.prefix_of_prefix_length_le here (List.prefix_append _ b) (by omega)))
        rw [List.cons_append, find, if_neg same, ih hq]
        rfl

/-- A text without the first character of the pattern is skipped. -/
theorem find_append_of_head_not_mem (h : c ∉ a) :
    find (c :: pat) (a ++ b) = (find (c :: pat) b).map (· + a.length) := by
  induction a with
  | nil => simp
  | cons x a ih =>
      obtain ⟨head, tail⟩ := List.ne_and_not_mem_of_not_mem_cons h
      have other : ¬ (c :: pat).isPrefixOf (x :: (a ++ b)) = true := by simp [head]
      rw [List.cons_append, find, if_neg other, ih tail, Option.map_map]
      rfl

theorem find_self (hp : pat ≠ []) : find pat (pat ++ b) = some 0 := by
  obtain ⟨x, pat, rfl⟩ := List.exists_cons_of_ne_nil hp
  have here : (x :: pat).isPrefixOf (x :: (pat ++ b)) = true :=
    List.isPrefixOf_iff_prefix.mpr (List.prefix_append (x :: pat) b)
  rw [List.cons_append, find, if_pos here]

theorem find_append_self (h : c ∉ a) :
    find (c :: pat) (a ++ (c :: pat ++ b)) = some a.length := by
  rw [find_append_of_head_not_mem h, find_self (List.cons_ne_nil c pat)]
  simp

/-- A pattern whose first character does not come again in it cannot begin before
one of its occurrences and end in that. -/
theorem find_append_self_of_absent (once : c ∉ pat) (absent : ¬ c :: pat <:+: a) :
    find (c :: pat) (a ++ (c :: pat ++ b)) = some a.length := by
  induction a with
  | nil => exact find_self (List.cons_ne_nil c pat)
  | cons x a ih =>
      have later : ¬ c :: pat <:+: a := fun occurs =>
        absent (occurs.trans (List.suffix_cons x a).isInfix)
      have other : ¬ (c :: pat).isPrefixOf (x :: (a ++ (c :: pat ++ b))) = true := by
        rw [List.isPrefixOf_iff_prefix]
        intro here
        obtain ⟨rfl, tail⟩ := List.cons_prefix_cons.mp here
        have reaches := (prefix_append_cons_iff (b := pat ++ b) once).mp tail
        exact absent (List.cons_prefix_cons.mpr ⟨rfl, reaches⟩).isInfix
      rw [List.cons_append, find, if_neg other, ih later]
      rfl

/-- Behind a barrier the search starts afresh. -/
theorem find_append_cons (h : c ∉ pat) (hp : pat ≠ []) (none : find pat a = none) :
    find pat (a ++ c :: b) = (find pat b).map (· + (a.length + 1)) := by
  induction a with
  | nil =>
      have other : ¬ pat.isPrefixOf (c :: b) = true := by
        rw [List.isPrefixOf_iff_prefix, ← List.nil_append (c :: b), prefix_append_cons_iff h]
        simpa using hp
      rw [List.nil_append, find, if_neg other]
      rfl
  | cons x a ih =>
      simp only [find] at none
      split at none
      · cases none
      · rename_i other
        have same : ¬ pat.isPrefixOf (x :: (a ++ c :: b)) = true := by
          rwa [List.isPrefixOf_iff_prefix, ← List.cons_append, prefix_append_cons_iff h,
            ← List.isPrefixOf_iff_prefix]
        rw [List.cons_append, find, if_neg same, ih (Option.map_eq_none_iff.mp none),
          Option.map_map]
        rfl

theorem find_eq_none : find pat a = none ↔ ¬ pat <:+: a := by
  rw [← find_isSome, Option.not_isSome_iff_eq_none]

theorem findFrom_append (a b : List α) : findFrom (a ++ b) pat a.length =
    (find pat b).map (· + a.length) := by
  simp [findFrom]

theorem findFrom_append_of_some {pos p : ℕ} (h : findFrom a pat pos = some p) :
    findFrom (a ++ b) pat pos = some p := by
  obtain ⟨inside, found⟩ := Option.ite_none_right_eq_some.mp h
  obtain ⟨q, hq, rfl⟩ := Option.map_eq_some_iff.mp found
  rw [findFrom, if_pos (by rw [List.length_append]; omega), List.drop_append_of_le_length inside,
    find_append_of_some hq]
  rfl

/-- A pattern at the end of a text is found from any position before it. -/
theorem findFrom_isSome_of_suffix {pos : ℕ} (h : pat <:+ a) (room : pos + pat.length ≤ a.length) :
    (findFrom a pat pos).isSome = true := by
  have later : pat <:+ a.drop pos :=
    List.suffix_of_suffix_length_le h (List.drop_suffix pos a) (by rw [List.length_drop]; omega)
  rw [findFrom, if_pos (by omega), Option.isSome_map, find_isSome]
  exact later.isInfix

/-- Up to a barrier the first occurrence is the one behind it, if there is none before. -/
theorem find_append_self_of_barrier (h : c ∉ pat) (hp : pat ≠ [])
    (absent : ¬ pat <:+: a ++ [c]) :
    find pat (a ++ [c] ++ (pat ++ b)) = some (a ++ [c]).length := by
  have none : find pat a = none :=
    find_eq_none.mpr fun occurs => absent (occurs.trans (List.prefix_append a [c]).isInfix)
  rw [List.append_assoc, List.singleton_append, find_append_cons h hp none, find_self hp]
  simp

end Barriers

section Lines
variable {α : Type*} [DecidableEq α] {d : α}

/-- The text up to the first `d`, and the text behind it. -/
def cut (d : α) : List α → Option (List α × List α)
  | [] => none
  | a :: s => if a = d then some ([], s) else (cut d s).map fun r => (a :: r.1, r.2)

theorem cut_append_cons {l : List α} (h : d ∉ l) (rest : List α) :
    cut d (l ++ d :: rest) = some (l, rest) := by
  induction l with
  | nil => simp [cut]
  | cons x l ih =>
      obtain ⟨head, tail⟩ := List.ne_and_not_mem_of_not_mem_cons h
      simp [cut, Ne.symm head, ih tail]

theorem getlines_append_cons {l : List α} (h : d ∉ l) (rest : List α) :
    getlines d (l ++ d :: rest) = l :: getlines d rest := by
  induction l with
  | nil => simp [getlines]
  | cons x l ih =>
      obtain ⟨head, tail⟩ := List.ne_and_not_mem_of_not_mem_cons h
      simp only [List.cons_append, getlines, ih tail, if_neg (Ne.symm head)]

theorem getlines_of_not_mem {l : List α} (h : d ∉ l) (hl : l ≠ []) : getlines d l = [l] := by
  induction l with
  | nil => exact absurd rfl hl
  | cons x l ih =>
      obtain ⟨head, tail⟩ := List.ne_and_not_mem_of_not_mem_cons h
      cases l with
      | nil => simp [getlines, Ne.symm head]
      | cons y l => simp only [getlines, if_neg (Ne.symm head)] at *; simp [ih tail]

/-- Every character but the delimiter is in one of the pieces. -/
theorem mem_getlines {c : α} (hc : c ≠ d) {s : List α} :
    (∃ piece ∈ getlines d s, c ∈ piece) ↔ c ∈ s := by
  induction s with
  | nil => simp [getlines]
  | cons x s ih =>
      simp only [getlines, List.mem_cons]
      split
      · rename_i last
        simp [← ih, last, hc]
      · cases pieces : getlines d s with
        | nil => simp [← ih, pieces]
        | cons piece pieces' => simp [← ih, pieces, or_assoc]

/-- The pieces are parts of the text, and the first one starts it. -/
theorem getlines_within (s : List α) :
    (∀ piece ∈ (getlines d s).head?, piece <+: s) ∧ ∀ piece ∈ getlines d s, piece <:+: s := by
  induction s with
  | nil => simp [getlines]
  | cons x s ih =>
      have longer : ∀ piece ∈ getlines d s, piece <:+: x :: s := fun piece h =>
        (ih.2 piece h).trans (List.suffix_cons x s).isInfix
      simp only [getlines]
      split
      · exact ⟨by simp, by simpa using longer⟩
      · cases pieces : getlines d s with
        | nil => exact ⟨by simp, by simp [List.singleton_infix_iff]⟩
        | cons piece pieces' =>
            have start : x :: piece <+: x :: s :=
              List.cons_prefix_cons.mpr ⟨rfl, ih.1 piece (by simp [pieces])⟩
            refine ⟨by simpa using start, ?_⟩
            intro p hp
            rcases List.mem_cons.mp hp with rfl | later
            · exact start.isInfix
            · exact longer p (by simp [pieces, later])

theorem getlines_flatMap {lines : List (List α)} (h : ∀ l ∈ lines, d ∉ l) :
    getlines d (lines.flatMap (· ++ [d])) = lines := by
  induction lines with
  | nil => rfl
  | cons l lines ih =>
      rw [List.flatMap_cons, List.append_assoc, List.singleton_append,
        getlines_append_cons (h l List.mem_cons_self),
        ih fun k hk => h k (List.mem_cons_of_mem l hk)]

/-- A text of ended lines can be divided into lines in one way only. -/
theorem flatMap_line_inj {lines lines' : List (List α)} (h : ∀ l ∈ lines, d ∉ l)
    (h' : ∀ l ∈ lines', d ∉ l) :
    lines.flatMap (· ++ [d]) = lines'.flatMap (· ++ [d]) ↔ lines = lines' := by
  constructor
  · intro same
    rw [← getlines_flatMap h, same, getlines_flatMap h']
  · rintro rfl
    rfl

omit [DecidableEq α] in
theorem not_mem_intercalate {sep : List α} {items : List (List α)} (hsep : d ∉ sep)
    (hitems : ∀ i ∈ items, d ∉ i) : d ∉ List.intercalate sep items := by
  induction items with
  | nil => simp
  | cons item items ih =>
      have here := hitems item List.mem_cons_self
      have later := ih fun i hi => hitems i (List.mem_cons_of_mem item hi)
      cases items with
      | nil => simpa using here
      | cons next items => simp [List.intercalate_cons_cons, here, hsep, later]

omit [DecidableEq α] in
theorem length_le_intercalate (sep : List α) {items : List (List α)} {i : List α}
    (h : i ∈ items) : i.length ≤ (List.intercalate sep items).length := by
  induction items with
  | nil => cases h
  | cons item items ih =>
      cases items with
      | nil => simp [List.mem_singleton.mp h]
      | cons next items =>
          simp only [List.intercalate_cons_cons, List.length_append]
          rcases List.mem_cons.mp h with rfl | later
          · omega
          · have := ih later
            omega

/-- The pieces of items joined by the delimiter and a separator after it. -/
theorem getlines_intercalate {sep lead item : List α} {items : List (List α)}
    (hsep : d ∉ sep) (hlead : d ∉ lead) (clean : ∀ i ∈ item :: items, d ∉ i ∧ i ≠ []) :
    getlines d (lead ++ List.intercalate (d :: sep) (item :: items)) =
      (lead ++ item) :: items.map (sep ++ ·) := by
  induction items generalizing lead item with
  | nil =>
      obtain ⟨plain, filled⟩ := clean item (by simp)
      simpa using getlines_of_not_mem (by simp [hlead, plain]) (by simp [filled])
  | cons next items ih =>
      obtain ⟨plain, -⟩ := clean item (by simp)
      have later := ih hsep fun i hi => clean i (List.mem_cons_of_mem item hi)
      have shape : lead ++ List.intercalate (d :: sep) (item :: next :: items) =
          (lead ++ item) ++ d :: (sep ++ List.intercalate (d :: sep) (next :: items)) := by
        simp [List.intercalate]
      rw [shape, getlines_append_cons (by simp [hlead, plain]), later]
      rfl

end Lines
end StudyCode.ByteString

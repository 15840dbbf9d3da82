import StudyCode.Lib.ByteString

/-!
# Numbers in an output stream

An integer is printed in the base that the stream was switched to last, and in
decimal before that. Decimal text can be read back, so different integers are
printed differently.
-/
namespace StudyCode.ByteString

/-- The digits of a number, the most significant first. -/
def digits (base n : ℕ) : Str := (Nat.toDigits base n).map Char.toUInt8

/-- What `std::dec` and `std::hex` switch between. -/
inductive Base where
  | dec
  | hex
  deriving DecidableEq, Repr

/-- A `std::stringstream` with its text. -/
structure OStream where
  base : Base
  text : Str
  deriving DecidableEq, Repr

def OStream.empty : OStream where
  base := .dec
  text := []

/-- `os << s` -/
def OStream.put (os : OStream) (s : Str) : OStream := { os with text := os.text ++ s }

/-- `os << std::hex` -/
def OStream.hex (os : OStream) : OStream := { os with base := .hex }

/-- `os << n` for an integer type of `w` bits; hexadecimal text has no sign. -/
def OStream.putInt (w : ℕ) (os : OStream) (n : ℤ) : OStream :=
  match os.base with
  | .dec => os.put (decimal n)
  | .hex => os.put (digits 16 (BitVec.ofInt w n).toNat)

theorem digit_bounds {c : Char} (h : c.isDigit = true) :
    c.toUInt8.toNat = c.toNat ∧ 48 ≤ c.toNat ∧ c.toNat ≤ 57 := by
  have bounds : 48 ≤ c.toNat ∧ c.toNat ≤ 57 := Char.isDigit_iff_toNat.mp h
  have byte : c.toUInt8.toNat = c.toNat % 256 := rfl
  exact ⟨by omega, bounds⟩

/-- The number that decimal digits stand for. -/
def ofDigits (s : Str) : ℕ := Nat.ofDigitChars 10 (s.map fun b => Char.ofNat b.toNat) 0

/-- Decimal text, read from the left. -/
def readDecimal : Str → ℤ
  | [] => 0
  | b :: s => if b = 45 then -ofDigits s else ofDigits (b :: s)

theorem ofDigits_digits (n : ℕ) : ofDigits (digits 10 n) = n := by
  have back : ∀ c ∈ Nat.toDigits 10 n, Char.ofNat c.toUInt8.toNat = c := by
    intro c hc
    rw [(digit_bounds (Nat.isDigit_of_mem_toDigits (by decide) (by decide) hc)).1]
    exact Char.ofNat_toNat c
  have text : (digits 10 n).map (fun b => Char.ofNat b.toNat) = Nat.toDigits 10 n :=
    calc (digits 10 n).map (fun b => Char.ofNat b.toNat)
        = (Nat.toDigits 10 n).map fun c => Char.ofNat c.toUInt8.toNat := List.map_map
      _ = (Nat.toDigits 10 n).map id := List.map_congr_left back
      _ = Nat.toDigits 10 n := List.map_id _
  rw [ofDigits, text]
  exact Nat.ofDigitChars_ten_toDigits

/-- A number begins with a digit, which no sign is. -/
theorem digits_eq_cons (n : ℕ) : ∃ b s, digits 10 n = b :: s ∧ b ≠ 45 := by
  obtain ⟨c, cs, eq⟩ := List.exists_cons_of_ne_nil (Nat.toDigits_ne_nil (n := n) (b := 10))
  have digit : c.isDigit = true :=
    Nat.isDigit_of_mem_toDigits (by decide) (by decide) (eq ▸ List.mem_cons_self)
  obtain ⟨byte, low, -⟩ := digit_bounds digit
  refine ⟨c.toUInt8, cs.map Char.toUInt8, by rw [digits, eq, List.map_cons], ?_⟩
  intro sign
  rw [sign] at byte
  exact absurd low (by rw [← byte]; decide)

theorem readDecimal_decimal (n : ℤ) : readDecimal (decimal n) = n := by
  have shape : decimal n = (if n < 0 then [45] else []) ++ digits 10 n.natAbs := rfl
  rw [shape]
  split
  · rename_i negative
    rw [List.singleton_append, readDecimal, if_pos rfl, ofDigits_digits]
    omega
  · rename_i positive
    obtain ⟨b, s, eq, unsigned⟩ := digits_eq_cons n.natAbs
    rw [List.nil_append, eq, readDecimal, if_neg unsigned, ← eq, ofDigits_digits]
    omega

theorem decimal_injective : Function.Injective decimal :=
  Function.LeftInverse.injective readDecimal_decimal

/-- The bytes of a number: digits, and a sign before a negative one. -/
theorem mem_decimal {n : ℤ} {b : UInt8} (h : b ∈ decimal n) :
    b = 45 ∧ n < 0 ∨ 48 ≤ b.toNat ∧ b.toNat ≤ 57 := by
  rcases List.mem_append.mp h with sign | digit
  · split at sign
    · rename_i negative
      exact .inl ⟨List.mem_singleton.mp sign, negative⟩
    · cases sign
  · obtain ⟨c, hc, rfl⟩ := List.mem_map.mp digit
    obtain ⟨byte, low, high⟩ :=
      digit_bounds (Nat.isDigit_of_mem_toDigits (by decide) (by decide) hc)
    rw [byte]
    exact .inr ⟨low, high⟩

theorem not_mem_decimal {n : ℤ} {b : UInt8} (sign : b = 45 → 0 ≤ n)
    (other : b.toNat < 48 ∨ 57 < b.toNat) : b ∉ decimal n := by
  intro h
  rcases mem_decimal h with ⟨eq, negative⟩ | ⟨low, high⟩
  · exact absurd negative (by have := sign eq; omega)
  · omega

theorem length_decimal {n : ℤ} {k : ℕ} (positive : 0 ≤ n) (below : n.natAbs < 10 ^ k)
    (hk : 0 < k) : (decimal n).length ≤ k := by
  have unsigned : ¬ n < 0 := by omega
  rw [decimal, if_neg unsigned, List.nil_append, List.length_map]
  exact (Nat.length_toDigits_le_iff (by decide) hk).mpr below

end StudyCode.ByteString

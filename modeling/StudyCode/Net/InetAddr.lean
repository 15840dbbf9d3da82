import StudyCode.Lib.Numerals
import StudyCode.Lib.TextSearch

/-!
# `InetAddr`

An address is kept in the form of the kernel and as text. `inet_addr` reads one to
four numbers, each of them decimal, octal or hexadecimal, so that many texts mean
one address, while `inet_ntoa` writes one of them.
-/
namespace StudyCode.Net
open StudyCode.ByteString

/-- The four bytes of `sin_addr` in the order in which they stand in memory. -/
structure InAddr where
  a : UInt8
  b : UInt8
  c : UInt8
  d : UInt8
  deriving DecidableEq, Repr

def afInet : ℕ := 2

/-- `sin_port` is given by its two bytes in memory. -/
structure SockaddrIn where
  family : ℕ
  port : UInt8 × UInt8
  addr : InAddr
  deriving DecidableEq, Repr

def htons (port : UInt16) : UInt8 × UInt8 := ((port / 256).toUInt8, port.toUInt8)

def ntohs (port : UInt8 × UInt8) : UInt16 := port.1.toUInt16 * 256 + port.2.toUInt16

/-! ## `inet_ntoa` and `inet_addr` -/

def inetNtoa (addr : InAddr) : Str :=
  decimal addr.a.toNat ++ 46 :: (decimal addr.b.toNat ++ 46 :: (decimal addr.c.toNat ++
    46 :: decimal addr.d.toNat))

/-- The value of a digit in any base up to 16, and 16 for other bytes. -/
def digitValue (b : UInt8) : ℕ :=
  if 48 ≤ b ∧ b ≤ 57 then (b - 48).toNat
  else if 97 ≤ b ∧ b ≤ 102 then (b - 87).toNat
  else if 65 ≤ b ∧ b ≤ 70 then (b - 55).toNat
  else 16

def readDigits (base : ℕ) : ℕ → Str → ℕ × Str
  | n, [] => (n, [])
  | n, b :: s =>
      if digitValue b < base then readDigits base (n * base + digitValue b) s else (n, b :: s)

/-- `strtoul(s, &end, 0)` of a text that starts with a digit. -/
def strtoul : Str → ℕ × Str
  | zero :: x :: s =>
      if zero = 48 then
        if (x = 120 ∨ x = 88) ∧ ∃ b ∈ s.head?, digitValue b < 16 then readDigits 16 0 s
        else readDigits 8 0 (x :: s)
      else readDigits 10 0 (zero :: x :: s)
  | s => readDigits 10 0 s

def isSpace (b : UInt8) : Bool := b == 32 || 9 ≤ b && b ≤ 13

/-- The numbers from here on, when `left` more points may come; the last one fills the
bytes that are left. -/
def inetParts (word left : ℕ) (s : Str) : Option ℕ :=
  if ∃ b ∈ s.head?, digitValue b < 10 then
    match (strtoul s).2 with
    | [] =>
        if (strtoul s).1 < 256 ^ (left + 1) then
          some (word * 256 ^ (left + 1) + (strtoul s).1)
        else none
    | c :: rest =>
        if c = 46 then
          match left with
          | 0 => none
          | left + 1 =>
              if (strtoul s).1 ≤ 255 then inetParts (word * 256 + (strtoul s).1) left rest
              else none
        else if isSpace c ∧ (strtoul s).1 < 256 ^ (left + 1) then
          some (word * 256 ^ (left + 1) + (strtoul s).1)
        else none
  else none

/-- `htonl` -/
def inAddrOf (word : ℕ) : InAddr where
  a := (word / 16777216).toUInt8
  b := (word / 65536).toUInt8
  c := (word / 256).toUInt8
  d := word.toUInt8

def inaddrNone : InAddr where
  a := 255
  b := 255
  c := 255
  d := 255

def inetAddr (cp : Str) : InAddr :=
  match inetParts 0 3 cp with
  | some word => inAddrOf word
  | none => inaddrNone

/-! ## The class -/

structure InetAddr where
  address : SockaddrIn
  ip : Str
  port : UInt16
  deriving DecidableEq, Repr

def InetAddr.ofAddress (address : SockaddrIn) : InetAddr where
  address := address
  ip := inetNtoa address.addr
  port := ntohs address.port

def InetAddr.ofPort (port : UInt16) (ip : Str) : InetAddr where
  address := {
    family := afInet
    port := htons port
    addr := inetAddr (ip.takeWhile (· != 0)) }
  ip := ip
  port := port

/-- `operator==` -/
def InetAddr.same (x y : InetAddr) : Bool := x.ip = y.ip ∧ x.port = y.port

def InetAddr.toString (x : InetAddr) : Str :=
  bytes "[" ++ x.ip ++ bytes ":" ++ decimal x.port.toNat ++ bytes "]"

/-- What the constructors with arguments make, the first one of an internet address; that
without leaves `_port` and `_address` as they are. -/
inductive InetAddr.Made : InetAddr → Prop
  | ofAddress (address : SockaddrIn) : address.family = afInet → Made (.ofAddress address)
  | ofPort (port : UInt16) (ip : Str) : Made (.ofPort port ip)

example : inetAddr (bytes "127.1") = inetAddr (bytes "0x7f.0.0.01") := by decide +kernel

/-! ## Ports -/

theorem htons_ntohs (port : UInt8 × UInt8) : htons (ntohs port) = port := by
  obtain ⟨hi, lo⟩ := port
  have high := hi.toNat_lt
  have low := lo.toNat_lt
  refine Prod.ext (UInt8.toNat_inj.mp ?_) (UInt8.toNat_inj.mp ?_)
  · simp [htons, ntohs]
    omega
  · simp [htons, ntohs]

/-! ## Addresses as text -/

theorem readDigits_stop {base n m : ℕ} {s : Str} (h : readDigits base n s = (m, [])) {c : UInt8}
    (stop : ¬ digitValue c < base) (rest : Str) :
    readDigits base n (s ++ c :: rest) = (m, c :: rest) := by
  induction s generalizing n with
  | nil =>
      cases h
      rw [List.nil_append, readDigits, if_neg stop]
  | cons b s ih =>
      rw [List.cons_append]
      unfold readDigits at h ⊢
      split at h
      · rename_i digit
        rw [if_pos digit]
        exact ih h
      · cases h

/-- The text of a byte is a decimal number for `strtoul`: it has no zero in front. -/
theorem decimal_byte (b : UInt8) :
    readDigits 10 0 (decimal b.toNat) = (b.toNat, []) ∧
      ∃ c s, decimal b.toNat = c :: s ∧ digitValue c < 10 ∧ (c = 48 → s = []) := by
  have bytes : ∀ n < 256, readDigits 10 0 (decimal (n : ℕ)) = (n, []) ∧
      ((decimal (n : ℕ)).head?.any fun c =>
        decide (digitValue c < 10) && (c != 48 || (decimal (n : ℕ)).tail.isEmpty)) = true := by
    decide +kernel
  obtain ⟨value, leading⟩ := bytes b.toNat b.toNat_lt
  obtain ⟨c, hc, good⟩ := (Option.any_eq_true _ _).mp leading
  obtain ⟨s, eq⟩ := List.head?_eq_some_iff.mp hc
  rw [Bool.and_eq_true, decide_eq_true_eq] at good
  refine ⟨value, c, s, eq, good.1, fun zero => ?_⟩
  have alone := good.2
  rw [eq, zero] at alone
  simpa using alone

theorem strtoul_byte (b : UInt8) : strtoul (decimal b.toNat) = (b.toNat, []) := by
  obtain ⟨value, c, s, eq, -, zero⟩ := decimal_byte b
  rw [eq] at value ⊢
  cases s with
  | nil => exact value
  | cons x s =>
      have nonzero : c ≠ 48 := fun h => List.cons_ne_nil x s (zero h)
      rw [strtoul, if_neg nonzero]
      exact value

theorem strtoul_point (b : UInt8) (rest : Str) :
    strtoul (decimal b.toNat ++ 46 :: rest) = (b.toNat, 46 :: rest) := by
  obtain ⟨value, c, s, eq, -, zero⟩ := decimal_byte b
  have stops := readDigits_stop value (c := 46) (by decide) rest
  rw [eq] at value stops ⊢
  cases s with
  | nil =>
      by_cases zero : c = 48
      · subst zero
        have nothing : b.toNat = 0 := (congrArg Prod.fst value).symm
        rw [nothing, List.singleton_append, strtoul, if_pos rfl, if_neg (by simp), readDigits,
          if_neg (by decide)]
      · rw [List.singleton_append, strtoul, if_neg zero]
        exact stops
  | cons x s =>
      have nonzero : c ≠ 48 := fun h => List.cons_ne_nil x s (zero h)
      rw [List.cons_append, List.cons_append, strtoul, if_neg nonzero]
      exact stops

theorem inetParts_point (word left : ℕ) (b : UInt8) (rest : Str) :
    inetParts word (left + 1) (decimal b.toNat ++ 46 :: rest) =
      inetParts (word * 256 + b.toNat) left rest := by
  obtain ⟨-, c, s, eq, digit, -⟩ := decimal_byte b
  have first : ∃ d ∈ (decimal b.toNat ++ 46 :: rest).head?, digitValue d < 10 := by
    rw [eq]
    exact ⟨c, rfl, digit⟩
  have bound : b.toNat ≤ 255 := Nat.le_of_lt_succ b.toNat_lt
  rw [inetParts, if_pos first, strtoul_point]
  simp [bound]

theorem inetParts_last (word : ℕ) (b : UInt8) :
    inetParts word 0 (decimal b.toNat) = some (word * 256 + b.toNat) := by
  obtain ⟨-, c, s, eq, digit, -⟩ := decimal_byte b
  have first : ∃ d ∈ (decimal b.toNat).head?, digitValue d < 10 := by
    rw [eq]
    exact ⟨c, rfl, digit⟩
  rw [inetParts, if_pos first, strtoul_byte]
  simp [b.toNat_lt]

theorem inetAddr_inetNtoa (addr : InAddr) : inetAddr (inetNtoa addr) = addr := by
  obtain ⟨a, b, c, d⟩ := addr
  have bounds := And.intro a.toNat_lt (And.intro b.toNat_lt (And.intro c.toNat_lt d.toNat_lt))
  rw [inetAddr, inetNtoa, inetParts_point, inetParts_point, inetParts_point, inetParts_last]
  simp only [inAddrOf, InAddr.mk.injEq, ← UInt8.toNat_inj, Nat.toUInt8_eq, UInt8.toNat_ofNat']
  omega

/-! ## Objects -/

theorem inetNtoa_plain (addr : InAddr) : 0 ∉ inetNtoa addr := by
  have numbers : ∀ n : ℤ, 0 ∉ decimal n := fun n => not_mem_decimal nofun (.inl (by decide))
  simp [inetNtoa, numbers]

/-- The two forms of an address say the same, whichever constructor it comes from. -/
theorem InetAddr.Made.round_trip {x : InetAddr} (h : x.Made) :
    (InetAddr.ofPort x.port x.ip).address = x.address := by
  cases h with
  | ofAddress address internet =>
      have text : (inetNtoa address.addr).takeWhile (· != 0) = inetNtoa address.addr := by
        rw [List.takeWhile_eq_self_iff]
        intro c hc
        rw [bne_iff_ne]
        rintro rfl
        exact inetNtoa_plain address.addr hc
      simp [InetAddr.ofPort, InetAddr.ofAddress, text, inetAddr_inetNtoa, htons_ntohs, ← internet]
  | ofPort port ip => rfl

theorem InetAddr.same_iff {x y : InetAddr} : x.same y = true ↔ x.ip = y.ip ∧ x.port = y.port :=
  decide_eq_true_iff

/-- The port stands behind the last colon. -/
theorem InetAddr.toString_inj {x y : InetAddr} : x.toString = y.toString ↔ x.same y = true := by
  have plain : ∀ n : ℤ, 58 ∉ (decimal n).reverse := by
    intro n inside
    exact not_mem_decimal (b := 58) nofun (.inr (by decide)) (List.mem_reverse.mp inside)
  have shape : ∀ x : InetAddr, x.toString.reverse =
      93 :: ((decimal x.port.toNat).reverse ++ 58 :: (x.ip.reverse ++ [91])) := by
    intro x
    have colon : bytes ":" = [58] := rfl
    have opening : bytes "[" = [91] := rfl
    have closing : bytes "]" = [93] := rfl
    simp [InetAddr.toString, colon, opening, closing]
  rw [← List.reverse_inj, shape, shape, List.cons_inj_right, same_iff]
  constructor
  · intro eq
    have parts := congrArg (cut 58) eq
    rw [cut_append_cons (plain _), cut_append_cons (plain _)] at parts
    obtain ⟨port, ip⟩ := Prod.mk.inj (Option.some.inj parts)
    have number := decimal_injective (List.reverse_inj.mp port)
    exact ⟨List.reverse_inj.mp (List.append_cancel_right ip),
      UInt16.toNat_inj.mp (Int.ofNat_inj.mp number)⟩
  · rintro ⟨ip, port⟩
    rw [ip, port]

/-- Objects made by the two constructors with arguments: the text and the port of one lead
back to its address; `operator==` says the same of two as their printed forms do, and never mistakes
one address for another; and it finds equal addresses equal if the kernel gave both. -/
theorem inet_addr_identifies {x y : InetAddr} (hx : x.Made) (hy : y.Made) :
    (InetAddr.ofPort x.port x.ip).address = x.address ∧
      (x.same y = true ↔ x.toString = y.toString) ∧
      (x.same y = true → x.address = y.address) ∧
      ∀ a b, x = .ofAddress a → y = .ofAddress b → (x.same y = true ↔ a = b) := by
  have address : x.same y = true → x.address = y.address := by
    intro same
    obtain ⟨ip, port⟩ := InetAddr.same_iff.mp same
    rw [← hx.round_trip, ← hy.round_trip, ip, port]
  refine ⟨hx.round_trip, InetAddr.toString_inj.symm, address, ?_⟩
  rintro a b rfl rfl
  refine ⟨address, ?_⟩
  rintro rfl
  exact InetAddr.same_iff.mpr ⟨rfl, rfl⟩

def loopback : SockaddrIn where
  family := afInet
  port := (31, 144)
  addr := { a := 127, b := 0, c := 0, d := 1 }

/-- A peer, and the same address written by hand in another way. -/
theorem inet_addr_identifies_loopback :
    (InetAddr.ofAddress loopback).toString = bytes "[127.0.0.1:8080]" ∧
      (InetAddr.ofPort 8080 (bytes "127.0.0.1")).address = loopback ∧
      (InetAddr.ofPort 8080 (bytes "0x7f.1")).address = loopback ∧
      (InetAddr.ofAddress loopback).toString ≠
        (InetAddr.ofPort 8080 (bytes "0x7f.1")).toString := by
  refine ⟨by decide +kernel, (inet_addr_identifies (.ofAddress loopback rfl)
    (.ofPort 8080 (bytes "0x7f.1"))).1, by decide +kernel, fun printed => ?_⟩
  have same := (inet_addr_identifies (.ofAddress loopback rfl)
    (.ofPort 8080 (bytes "0x7f.1"))).2.1.mpr printed
  exact absurd same (by decide +kernel)

end StudyCode.Net

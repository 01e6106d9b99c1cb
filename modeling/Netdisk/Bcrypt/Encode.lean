import Netdisk.Wire
import Netdisk.Lib.Sextets

/-!
# `BF_encode` and `BF_decode` (`crypt_blowfish.c`)

Bytes in the alphabet of bcrypt. `src` ends with the NUL that a read behind it finds.
-/

namespace Netdisk.BF
open Sextets

/-- `BF_itoa64` -/
def itoa64Table : CStr := [
  '.', '/', 'A', 'B', 'C', 'D', 'E', 'F', 'G', 'H', 'I', 'J', 'K', 'L', 'M', 'N',
  'O', 'P', 'Q', 'R', 'S', 'T', 'U', 'V', 'W', 'X', 'Y', 'Z', 'a', 'b', 'c', 'd',
  'e', 'f', 'g', 'h', 'i', 'j', 'k', 'l', 'm', 'n', 'o', 'p', 'q', 'r', 's', 't',
  'u', 'v', 'w', 'x', 'y', 'z', '0', '1', '2', '3', '4', '5', '6', '7', '8', '9']

/-- `BF_atoi64` -/
def atoi64Table : List Nat := [
  64, 64, 64, 64, 64, 64, 64, 64, 64, 64, 64, 64, 64, 64, 0, 1,
  54, 55, 56, 57, 58, 59, 60, 61, 62, 63, 64, 64, 64, 64, 64, 64,
  64, 2, 3, 4, 5, 6, 7, 8, 9, 10, 11, 12, 13, 14, 15, 16,
  17, 18, 19, 20, 21, 22, 23, 24, 25, 26, 27, 64, 64, 64, 64, 64,
  64, 28, 29, 30, 31, 32, 33, 34, 35, 36, 37, 38, 39, 40, 41, 42,
  43, 44, 45, 46, 47, 48, 49, 50, 51, 52, 53, 64, 64, 64, 64, 64]

def itoa64 (n : Nat) : Char := itoa64Table.getD n '\x00'

/-- `BF_safe_atoi64`: nothing where it makes the caller return -1. -/
def safeAtoi64 (src : Char) : Option Nat :=
  if src.toNat < 0x20 ∨ 0x60 ≤ src.toNat - 0x20 then none
  else
    let tmp := atoi64Table.getD (src.toNat - 0x20) 64
    if 63 < tmp then none else some tmp

/-- `BF_decode`: `size` bytes from the characters of `src`. -/
def decode : (size : Nat) → (src : CStr) → Option (List UInt8)
  | 0, _ => some []
  | 1, src => do
    let c1 ← safeAtoi64 (src.getD 0 '\x00')
    let c2 ← safeAtoi64 (src.getD 1 '\x00')
    return [.ofNat (c1 <<< 2 ||| (c2 &&& 0x30) >>> 4)]
  | 2, src => do
    let c1 ← safeAtoi64 (src.getD 0 '\x00')
    let c2 ← safeAtoi64 (src.getD 1 '\x00')
    let c3 ← safeAtoi64 (src.getD 2 '\x00')
    return [.ofNat (c1 <<< 2 ||| (c2 &&& 0x30) >>> 4), .ofNat ((c2 &&& 0x0F) <<< 4 ||| (c3 &&& 0x3C) >>> 2)]
  | size + 3, src => do
    let c1 ← safeAtoi64 (src.getD 0 '\x00')
    let c2 ← safeAtoi64 (src.getD 1 '\x00')
    let c3 ← safeAtoi64 (src.getD 2 '\x00')
    let c4 ← safeAtoi64 (src.getD 3 '\x00')
    let rest ← decode size (src.drop 4)
    return .ofNat (c1 <<< 2 ||| (c2 &&& 0x30) >>> 4) :: .ofNat ((c2 &&& 0x0F) <<< 4 ||| (c3 &&& 0x3C) >>> 2) ::
      .ofNat ((c3 &&& 0x03) <<< 6 ||| c4) :: rest

/-- `BF_encode`, of at least one byte. -/
def encode : (src : List UInt8) → CStr
  | [] => []
  | [c1] => [itoa64 (c1.toNat >>> 2), itoa64 ((c1.toNat &&& 0x03) <<< 4)]
  | [c1, c2] =>
    [itoa64 (c1.toNat >>> 2), itoa64 ((c1.toNat &&& 0x03) <<< 4 ||| c2.toNat >>> 4),
      itoa64 ((c2.toNat &&& 0x0f) <<< 2)]
  | c1 :: c2 :: c3 :: rest =>
    itoa64 (c1.toNat >>> 2) :: itoa64 ((c1.toNat &&& 0x03) <<< 4 ||| c2.toNat >>> 4) ::
      itoa64 ((c2.toNat &&& 0x0f) <<< 2 ||| c3.toNat >>> 6) :: itoa64 (c3.toNat &&& 0x3f) :: encode rest

/-! ### They are the bytes as sextets, in the alphabet -/

def letter (x : Sextet) : Char := itoa64 x

theorem safeAtoi64_letter (x : Sextet) : safeAtoi64 (letter x) = some (x : Nat) := by
  revert x
  decide

theorem itoa64_atoi64Table : ∀ n < 0x60, atoi64Table.getD n 64 ≤ 63 →
    itoa64 (atoi64Table.getD n 64) = Char.ofNat (n + 0x20) := by
  decide

theorem safeAtoi64_eq_some {c : Char} {n : Nat} : safeAtoi64 c = some n ↔ ∃ x : Sextet, n = x ∧ c = letter x := by
  constructor
  · intro h
    obtain ⟨hc, h⟩ := Option.ite_none_left_eq_some.1 h
    obtain ⟨hn, h⟩ := Option.ite_none_left_eq_some.1 h
    have hchar := itoa64_atoi64Table (c.toNat - 0x20) (by omega) (by omega)
    rw [Option.some.inj h, show c.toNat - 0x20 + 0x20 = c.toNat by omega, Char.ofNat_toNat] at hchar
    exact ⟨⟨n, by rw [← Option.some.inj h]; omega⟩, rfl, hchar.symm⟩
  · rintro ⟨x, rfl, rfl⟩
    exact safeAtoi64_letter x

theorem byte1_bits (x y : Sextet) : UInt8.ofNat ((x : Nat) <<< 2 ||| ((y : Nat) &&& 0x30) >>> 4) = byte1 x y := by
  have hy : ((y : Nat) &&& 0x30) >>> 4 = y / 16 := by
    rw [Nat.shiftRight_and_distrib, show 0x30 >>> 4 = 2 ^ 2 - 1 by decide, Nat.and_two_pow_sub_one_eq_mod,
      Nat.shiftRight_eq_div_pow]
    omega
  rw [hy, ← Nat.shiftLeft_add_eq_or_of_lt (by omega), Nat.shiftLeft_eq, byte1]

theorem byte2_bits (y z : Sextet) :
    UInt8.ofNat (((y : Nat) &&& 0x0F) <<< 4 ||| ((z : Nat) &&& 0x3C) >>> 2) = byte2 y z := by
  have hy : (y : Nat) &&& 0x0F = y % 16 := Nat.and_two_pow_sub_one_eq_mod y 4
  have hz : ((z : Nat) &&& 0x3C) >>> 2 = z / 4 := by
    rw [Nat.shiftRight_and_distrib, show 0x3C >>> 2 = 2 ^ 4 - 1 by decide, Nat.and_two_pow_sub_one_eq_mod,
      Nat.shiftRight_eq_div_pow]
    omega
  rw [hy, hz, ← Nat.shiftLeft_add_eq_or_of_lt (by omega), Nat.shiftLeft_eq, byte2]

theorem byte3_bits (z w : Sextet) : UInt8.ofNat (((z : Nat) &&& 0x03) <<< 6 ||| (w : Nat)) = byte3 z w := by
  have hz : (z : Nat) &&& 0x03 = z % 4 := Nat.and_two_pow_sub_one_eq_mod z 2
  rw [hz, ← Nat.shiftLeft_add_eq_or_of_lt (by omega), Nat.shiftLeft_eq, byte3]

/-- `BF_encode` writes the sextets of the bytes. -/
theorem encode_eq (bs : List UInt8) : encode bs = (ofBytes bs).map letter := by
  have hfirst : ∀ a : UInt8, a.toNat >>> 2 = first a := fun a => Nat.shiftRight_eq_div_pow _ 2
  have hlow : ∀ a : UInt8, a.toNat &&& 0x03 = a.toNat % 4 := fun a => Nat.and_two_pow_sub_one_eq_mod _ 2
  have hsecond : ∀ a b : UInt8, (a.toNat &&& 0x03) <<< 4 ||| b.toNat >>> 4 = second a b := by
    intro a b
    have hb := b.toNat_lt
    rw [hlow, Nat.shiftRight_eq_div_pow, ← Nat.shiftLeft_add_eq_or_of_lt (by omega), Nat.shiftLeft_eq]
    rfl
  have hthird : ∀ b c : UInt8, (b.toNat &&& 0x0f) <<< 2 ||| c.toNat >>> 6 = third b c := by
    intro b c
    have hc := c.toNat_lt
    rw [show b.toNat &&& 0x0f = b.toNat % 16 from Nat.and_two_pow_sub_one_eq_mod _ 4, Nat.shiftRight_eq_div_pow,
      ← Nat.shiftLeft_add_eq_or_of_lt (by omega), Nat.shiftLeft_eq]
    rfl
  have hfourth : ∀ c : UInt8, c.toNat &&& 0x3f = fourth c := fun c => Nat.and_two_pow_sub_one_eq_mod _ 6
  induction bs using encode.induct with
  | case1 => rfl
  | case2 a =>
    have h := hsecond a 0
    simp only [UInt8.toNat_zero, Nat.zero_shiftRight, Nat.or_zero] at h
    simp only [encode, ofBytes, List.map_cons, List.map_nil, letter, hfirst, h]
  | case3 a b =>
    have h := hthird b 0
    simp only [UInt8.toNat_zero, Nat.zero_shiftRight, Nat.or_zero] at h
    simp only [encode, ofBytes, List.map_cons, List.map_nil, letter, hfirst, hsecond, h]
  | case4 a b c rest ih =>
    simp only [encode, ofBytes, List.map_cons, letter, hfirst, hsecond, hthird, hfourth, ih]

theorem safeAtoi64_getD {src : CStr} {i n : Nat} :
    safeAtoi64 (src.getD i '\x00') = some n ↔ ∃ x : Sextet, n = x ∧ src[i]? = some (letter x) := by
  rw [List.getD_eq_getElem?_getD]
  cases hi : src[i]? with
  | none =>
    have hnul : safeAtoi64 '\x00' = none := by decide
    simp [hnul]
  | some c => simp [safeAtoi64_eq_some]

theorem cons_prefix_iff {a : Char} {l src : CStr} : a :: l <+: src ↔ src[0]? = some a ∧ l <+: src.drop 1 := by
  cases src with
  | nil => simp
  | cons b src => simp [List.cons_prefix_cons, eq_comm]

/-- What `BF_decode` accepts, and what it reads. -/
theorem decode_eq_some {size : Nat} {src : CStr} {bs : List UInt8} :
    decode size src = some bs ↔
      ∃ ss : List Sextet, ss.length = (4 * size + 2) / 3 ∧ ss.map letter <+: src ∧ toBytes ss = bs := by
  induction size, src using decode.induct generalizing bs with
  | case1 src =>
    constructor
    · intro h
      exact ⟨[], rfl, List.nil_prefix, Option.some.inj h⟩
    · rintro ⟨ss, hlen, -, rfl⟩
      rw [List.eq_nil_of_length_eq_zero hlen]
      rfl
  | case2 src =>
    simp only [decode, Option.bind_eq_bind, Option.bind_eq_some_iff, safeAtoi64_getD]
    constructor
    · rintro ⟨-, ⟨x, rfl, hx⟩, -, ⟨y, rfl, hy⟩, h⟩
      exact ⟨[x, y], rfl, by simp [cons_prefix_iff, hx, hy], by rw [← Option.some.inj h, byte1_bits]; rfl⟩
    · rintro ⟨ss, hlen, hpre, rfl⟩
      obtain ⟨x, y, rfl⟩ := List.length_eq_two.1 hlen
      simp [cons_prefix_iff] at hpre
      exact ⟨x, ⟨x, rfl, hpre.1⟩, y, ⟨y, rfl, hpre.2⟩, by rw [byte1_bits]; rfl⟩
  | case3 src =>
    simp only [decode, Option.bind_eq_bind, Option.bind_eq_some_iff, safeAtoi64_getD]
    constructor
    · rintro ⟨-, ⟨x, rfl, hx⟩, -, ⟨y, rfl, hy⟩, -, ⟨z, rfl, hz⟩, h⟩
      exact ⟨[x, y, z], rfl, by simp [cons_prefix_iff, hx, hy, hz],
        by rw [← Option.some.inj h, byte1_bits, byte2_bits]; rfl⟩
    · rintro ⟨ss, hlen, hpre, rfl⟩
      obtain ⟨x, y, z, rfl⟩ := List.length_eq_three.1 hlen
      simp [cons_prefix_iff] at hpre
      exact ⟨x, ⟨x, rfl, hpre.1⟩, y, ⟨y, rfl, hpre.2.1⟩, z, ⟨z, rfl, hpre.2.2⟩,
        by rw [byte1_bits, byte2_bits]; rfl⟩
  | case4 size src ih =>
    simp only [decode, Option.bind_eq_bind, Option.bind_eq_some_iff, safeAtoi64_getD, ih]
    constructor
    · rintro ⟨-, ⟨x, rfl, hx⟩, -, ⟨y, rfl, hy⟩, -, ⟨z, rfl, hz⟩, -, ⟨w, rfl, hw⟩, -, ⟨ss, hlen, hpre, rfl⟩, h⟩
      refine ⟨x :: y :: z :: w :: ss, ?_, by simp [cons_prefix_iff, hx, hy, hz, hw, hpre], ?_⟩
      · simp only [List.length_cons, hlen]
        omega
      · rw [← Option.some.inj h, byte1_bits, byte2_bits, byte3_bits]
        rfl
    · rintro ⟨ss, hlen, hpre, rfl⟩
      rcases ss with _ | ⟨x, _ | ⟨y, _ | ⟨z, _ | ⟨w, ss⟩⟩⟩⟩
      iterate 4
        simp only [List.length_cons, List.length_nil] at hlen
        omega
      simp [cons_prefix_iff] at hpre
      obtain ⟨hx, hy, hz, hw, hpre⟩ := hpre
      refine ⟨x, ⟨x, rfl, hx⟩, y, ⟨y, rfl, hy⟩, z, ⟨z, rfl, hz⟩, w, ⟨w, rfl, hw⟩, toBytes ss,
        ⟨ss, ?_, hpre, rfl⟩, by rw [byte1_bits, byte2_bits, byte3_bits]; rfl⟩
      simp only [List.length_cons] at hlen
      omega

/-- What was encoded is read back, whatever follows it, and what was read is encoded as it stood there but
for the spare bits of its last character. -/
theorem decode_encode (bs : List UInt8) (rest : CStr) :
    decode bs.length (encode bs ++ rest) = some bs ∧
      ∀ size src, decode size src = some bs → ∃ ss : List Sextet,
        src.take ((4 * size + 2) / 3) = ss.map letter ∧ bs.length = size ∧ encode bs = (fill ss).map letter := by
  constructor
  · refine decode_eq_some.2 ⟨ofBytes bs, length_ofBytes bs, ?_, toBytes_ofBytes bs⟩
    rw [encode_eq]
    exact List.prefix_append _ _
  · intro size src h
    obtain ⟨ss, hlen, hpre, rfl⟩ := decode_eq_some.1 h
    refine ⟨ss, ?_, ?_, ?_⟩
    · rw [List.prefix_iff_eq_take.1 hpre, List.length_map, hlen]
    · rw [length_toBytes (by omega), hlen]
      omega
    · rw [encode_eq, ofBytes_toBytes (by omega)]

end Netdisk.BF

import Mathlib.Data.List.Basic

/-!
# Bytes as groups of six bits

Three bytes are four sextets; one or two bytes that are left over are two or three, the last of them
filled up with zero bits. Reading takes any spare bits, so that writing again what was read is `fill`:
it clears them.
-/

namespace Sextets

abbrev Sextet := Fin 64

/-! ### One group -/

section Group

variable (a b c : UInt8) (x y z w : Sextet)

def first : Sextet := ⟨a.toNat / 4, by have := a.toNat_lt; omega⟩

def second : Sextet := ⟨a.toNat % 4 * 16 + b.toNat / 16, by have := b.toNat_lt; omega⟩

def third : Sextet := ⟨b.toNat % 16 * 4 + c.toNat / 64, by have := c.toNat_lt; omega⟩

def fourth : Sextet := ⟨c.toNat % 64, by omega⟩

def byte1 : UInt8 := .ofNat (x * 4 + y / 16)

def byte2 : UInt8 := .ofNat (y % 16 * 16 + z / 4)

def byte3 : UInt8 := .ofNat (z % 4 * 64 + w)

/-- `y` without its last four bits, `z` without its last two. -/
def clear4 : Sextet := ⟨y / 16 * 16, by omega⟩

def clear2 : Sextet := ⟨z / 4 * 4, by omega⟩

@[simp] theorem byte1_first : byte1 (first a) (second a b) = a := by
  have ha := a.toNat_lt
  have hb := b.toNat_lt
  refine UInt8.toNat_inj.1 ?_
  simp only [byte1, first, second, UInt8.toNat_ofNat']
  omega

@[simp] theorem byte2_second : byte2 (second a b) (third b c) = b := by
  have hb := b.toNat_lt
  have hc := c.toNat_lt
  refine UInt8.toNat_inj.1 ?_
  simp only [byte2, second, third, UInt8.toNat_ofNat']
  omega

@[simp] theorem byte3_third : byte3 (third b c) (fourth c) = c := by
  have hc := c.toNat_lt
  refine UInt8.toNat_inj.1 ?_
  simp only [byte3, third, fourth, UInt8.toNat_ofNat']
  omega

@[simp] theorem first_byte1 : first (byte1 x y) = x := by
  ext
  simp only [first, byte1, UInt8.toNat_ofNat']
  omega

@[simp] theorem second_byte2 : second (byte1 x y) (byte2 y z) = y := by
  ext
  simp only [second, byte1, byte2, UInt8.toNat_ofNat']
  omega

@[simp] theorem third_byte3 : third (byte2 y z) (byte3 z w) = z := by
  ext
  simp only [third, byte2, byte3, UInt8.toNat_ofNat']
  omega

@[simp] theorem fourth_byte3 : fourth (byte3 z w) = w := by
  ext
  simp only [fourth, byte3, UInt8.toNat_ofNat']
  omega

@[simp] theorem second_zero : second (byte1 x y) 0 = clear4 y := by
  ext
  simp only [second, byte1, clear4, UInt8.toNat_ofNat', UInt8.toNat_zero]
  omega

@[simp] theorem third_zero : third (byte2 y z) 0 = clear2 z := by
  ext
  simp only [third, byte2, clear2, UInt8.toNat_ofNat', UInt8.toNat_zero]
  omega

end Group

/-! ### Lists of them -/

def ofBytes : List UInt8 → List Sextet
  | [] => []
  | [a] => [first a, second a 0]
  | [a, b] => [first a, second a b, third b 0]
  | a :: b :: c :: rest => first a :: second a b :: third b c :: fourth c :: ofBytes rest

def toBytes : List Sextet → List UInt8
  | x :: y :: z :: w :: rest => byte1 x y :: byte2 y z :: byte3 z w :: toBytes rest
  | [x, y, z] => [byte1 x y, byte2 y z]
  | [x, y] => [byte1 x y]
  | _ => []

def fill : List Sextet → List Sextet
  | x :: y :: z :: w :: rest => x :: y :: z :: w :: fill rest
  | [x, y, z] => [x, y, clear2 z]
  | [x, y] => [x, clear4 y]
  | _ => []

theorem length_ofBytes (bs : List UInt8) : (ofBytes bs).length = (4 * bs.length + 2) / 3 := by
  induction bs using ofBytes.induct with
  | case1 => simp [ofBytes]
  | case2 a => simp [ofBytes]
  | case3 a b => simp [ofBytes]
  | case4 a b c rest ih =>
    simp only [ofBytes, List.length_cons, ih]
    omega

theorem length_toBytes {ss : List Sextet} (h : ss.length % 4 ≠ 1) : (toBytes ss).length = 3 * ss.length / 4 := by
  induction ss using toBytes.induct with
  | case1 x y z w rest ih =>
    have hrest : rest.length % 4 ≠ 1 := by
      simp only [List.length_cons] at h
      omega
    simp only [toBytes, List.length_cons, ih hrest]
    omega
  | case2 x y z => simp [toBytes]
  | case3 x y => simp [toBytes]
  | case4 ss h4 h3 h2 =>
    rcases ss with _ | ⟨x, _ | ⟨y, _ | ⟨z, _ | ⟨w, rest⟩⟩⟩⟩
    · rfl
    · exact absurd rfl h
    · exact absurd rfl (h2 x y)
    · exact absurd rfl (h3 x y z)
    · exact absurd rfl (h4 x y z w rest)

theorem toBytes_ofBytes (bs : List UInt8) : toBytes (ofBytes bs) = bs := by
  induction bs using ofBytes.induct with
  | case1 => rfl
  | case2 a => simp [ofBytes, toBytes]
  | case3 a b => simp [ofBytes, toBytes]
  | case4 a b c rest ih => simp [ofBytes, toBytes, ih]

theorem ofBytes_toBytes {ss : List Sextet} (h : ss.length % 4 ≠ 1) : ofBytes (toBytes ss) = fill ss := by
  induction ss using toBytes.induct with
  | case1 x y z w rest ih =>
    have hrest : rest.length % 4 ≠ 1 := by
      simp only [List.length_cons] at h
      omega
    simp [ofBytes, toBytes, fill, ih hrest]
  | case2 x y z => simp [ofBytes, toBytes, fill]
  | case3 x y => simp [ofBytes, toBytes, fill]
  | case4 ss h4 h3 h2 =>
    rcases ss with _ | ⟨x, _ | ⟨y, _ | ⟨z, _ | ⟨w, rest⟩⟩⟩⟩
    · rfl
    · exact absurd rfl h
    · exact absurd rfl (h2 x y)
    · exact absurd rfl (h3 x y z)
    · exact absurd rfl (h4 x y z w rest)

theorem length_fill {ss : List Sextet} (h : ss.length % 4 ≠ 1) : (fill ss).length = ss.length := by
  induction ss using fill.induct with
  | case1 x y z w rest ih =>
    have hrest : rest.length % 4 ≠ 1 := by
      simp only [List.length_cons] at h
      omega
    simp [fill, ih hrest]
  | case2 x y z => rfl
  | case3 x y => rfl
  | case4 ss h4 h3 h2 =>
    rcases ss with _ | ⟨x, _ | ⟨y, _ | ⟨z, _ | ⟨w, rest⟩⟩⟩⟩
    · rfl
    · exact absurd rfl h
    · exact absurd rfl (h2 x y)
    · exact absurd rfl (h3 x y z)
    · exact absurd rfl (h4 x y z w rest)

theorem toBytes_fill {ss : List Sextet} (h : ss.length % 4 ≠ 1) : toBytes (fill ss) = toBytes ss := by
  rw [← ofBytes_toBytes h, toBytes_ofBytes]

theorem fill_fill {ss : List Sextet} (h : ss.length % 4 ≠ 1) : fill (fill ss) = fill ss := by
  rw [← ofBytes_toBytes (length_fill h ▸ h), toBytes_fill h, ofBytes_toBytes h]

/-- After whole groups, one byte is left over in two sextets: only the last of them has spare bits. -/
theorem fill_append (ss : List Sextet) (x y : Sextet) (h : ss.length % 4 = 0) :
    fill (ss ++ [x, y]) = ss ++ [x, clear4 y] := by
  induction ss using fill.induct with
  | case1 a b c d rest ih =>
    have hrest : rest.length % 4 = 0 := by
      simp only [List.length_cons] at h
      omega
    simp [fill, ih hrest]
  | case2 a b c => simp at h
  | case3 a b => simp at h
  | case4 ss h4 h3 h2 =>
    rcases ss with _ | ⟨a, _ | ⟨b, _ | ⟨c, _ | ⟨d, rest⟩⟩⟩⟩
    · rfl
    · simp at h
    · exact absurd rfl (h2 a b)
    · exact absurd rfl (h3 a b c)
    · exact absurd rfl (h4 a b c d rest)

end Sextets

import Mathlib.Data.Nat.Bitwise

/-!
# Words put together from bytes

`push` shifts a byte in from the right; `pushSigned` does so with a byte that was extended as if it had a
sign, which for a byte of 128 or more sets everything to the left of it. `word_signed` says what four such
bytes come to.
-/

namespace Words

def push (x : UInt32) (b : UInt8) : UInt32 := x <<< 8 ||| b.toUInt32

def signExtend (b : UInt8) : UInt32 := b.toInt8.toInt32.toUInt32

def pushSigned (x : UInt32) (b : UInt8) : UInt32 := x <<< 8 ||| signExtend b

/-- A byte whose eighth bit is set. -/
abbrev High (b : UInt8) : Prop := 0x80 ≤ b

def word (a b c d : UInt8) : UInt32 := push (push (push (push 0 a) b) c) d

def wordSigned (a b c d : UInt8) : UInt32 := pushSigned (pushSigned (pushSigned (pushSigned 0 a) b) c) d

theorem push_toNat (x : UInt32) (b : UInt8) : (push x b).toNat = x.toNat % 2 ^ 24 * 256 + b.toNat := by
  have hb := b.toNat_lt
  have hshift : x.toNat <<< 8 % 2 ^ 32 = (x.toNat % 2 ^ 24) <<< 8 := by
    simp only [Nat.shiftLeft_eq]
    omega
  rw [push, UInt32.toNat_or, UInt32.toNat_shiftLeft, UInt8.toNat_toUInt32]
  change x.toNat <<< 8 % 2 ^ 32 ||| b.toNat = _
  rw [hshift, ← Nat.shiftLeft_add_eq_or_of_lt hb, Nat.shiftLeft_eq]

theorem word_toNat (a b c d : UInt8) :
    (word a b c d).toNat = ((a.toNat * 256 + b.toNat) * 256 + c.toNat) * 256 + d.toNat := by
  have ha := a.toNat_lt
  have hb := b.toNat_lt
  have hc := c.toNat_lt
  simp only [word, push_toNat, UInt32.toNat_zero]
  omega

theorem word_inj {a b c d a' b' c' d' : UInt8} :
    word a b c d = word a' b' c' d' ↔ a = a' ∧ b = b' ∧ c = c' ∧ d = d' := by
  constructor
  · intro h
    have hnat := congrArg UInt32.toNat h
    rw [word_toNat, word_toNat] at hnat
    have hb := b.toNat_lt
    have hc := c.toNat_lt
    have hd := d.toNat_lt
    have hb' := b'.toNat_lt
    have hc' := c'.toNat_lt
    have hd' := d'.toNat_lt
    simp only [← UInt8.toNat_inj]
    omega
  · rintro ⟨rfl, rfl, rfl, rfl⟩
    rfl

/-! ### Bytes with a sign -/

theorem signExtend_eq (b : UInt8) : signExtend b = if High b then 0xFFFFFF00 ||| b.toUInt32 else b.toUInt32 := by
  have hall : ∀ n : Fin 256, signExtend (.ofNat n) =
      if High (.ofNat n) then 0xFFFFFF00 ||| (UInt8.ofNat n).toUInt32 else (UInt8.ofNat n).toUInt32 := by
    decide +kernel
  have h := hall ⟨b.toNat, b.toNat_lt⟩
  rwa [UInt8.ofNat_toNat] at h

theorem pushSigned_eq (x : UInt32) (b : UInt8) : pushSigned x b = push (if High b then 0xFFFFFF else x) b := by
  rw [pushSigned, signExtend_eq]
  split
  · have hones : x <<< 8 ||| (0xFFFFFF00 : UInt32) = (0xFFFFFF : UInt32) <<< 8 := by
      rw [show (0xFFFFFF00 : UInt32) = (-1 : UInt32) <<< 8 by decide, ← UInt32.shiftLeft_or, UInt32.or_neg_one]
      decide
    rw [← UInt32.or_assoc, hones, push]
  · rfl

theorem pushSigned_toNat (x : UInt32) (b : UInt8) :
    (pushSigned x b).toNat = if High b then 0xFFFFFF00 + b.toNat else x.toNat % 2 ^ 24 * 256 + b.toNat := by
  have hones : UInt32.toNat 0xFFFFFF = 0xFFFFFF := rfl
  rw [pushSigned_eq, push_toNat]
  split
  · rw [hones]
    omega
  · rfl

/-- Every byte in front of a high one has become 255. -/
theorem wordSigned_eq (a b c d : UInt8) :
    wordSigned a b c d =
      word (if High b ∨ High c ∨ High d then 0xFF else a) (if High c ∨ High d then 0xFF else b)
        (if High d then 0xFF else c) d := by
  have hff : UInt8.toNat 0xFF = 255 := rfl
  have ha' := a.toNat_lt
  have hb' := b.toNat_lt
  have hc' := c.toNat_lt
  have hd' := d.toNat_lt
  refine UInt32.toNat_inj.1 ?_
  rw [word_toNat]
  simp only [wordSigned, pushSigned_toNat, UInt32.toNat_zero]
  by_cases hd : High d
  · simp only [hd, if_true, or_true, hff]
  · by_cases hc : High c
    · simp only [hd, hc, if_true, if_false, or_true, or_false, hff]
      omega
    · by_cases hb : High b
      · simp only [hd, hc, hb, if_true, if_false, or_false, hff]
        omega
      · simp only [hd, hc, hb, if_false, or_false]
        split <;> omega

/-- When the sign makes no difference. -/
theorem word_eq_wordSigned_iff {a b c d : UInt8} :
    word a b c d = wordSigned a b c d ↔
      (High b → a = 0xFF) ∧ (High c → a = 0xFF ∧ b = 0xFF) ∧ (High d → a = 0xFF ∧ b = 0xFF ∧ c = 0xFF) := by
  rw [wordSigned_eq, word_inj]
  by_cases hb : High b <;> by_cases hc : High c <;> by_cases hd : High d <;> simp [hb, hc, hd] <;> tauto

/-- What the sign has changed once it does not change again. -/
theorem word_eq_wordSigned_of {a b c d a' b' c' d' : UInt8} (h : word a b c d = wordSigned a' b' c' d') :
    word a b c d = wordSigned a b c d ∧ ((High b ∨ High c ∨ High d) ↔ High b' ∨ High c' ∨ High d') := by
  have hff : High 0xFF := by decide
  rw [wordSigned_eq, word_inj] at h
  obtain ⟨rfl, rfl, rfl, rfl⟩ := h
  rw [word_eq_wordSigned_iff]
  by_cases hb : High b' <;> by_cases hc : High c' <;> by_cases hd : High d <;> simp [hb, hc, hd, hff]

/-- The eighth bit survives, sign or not. -/
theorem pushSigned_and (x : UInt32) (b : UInt8) : pushSigned x b &&& 0x80 = if High b then 0x80 else 0 := by
  have hmask : UInt32.toNat 0x80 = 2 ^ 7 := rfl
  have hbit : ∀ y : UInt32, (push y b).toNat.testBit 7 = decide (128 ≤ b.toNat) := by
    intro y
    have hb := b.toNat_lt
    rw [push_toNat, Nat.testBit_eq_decide_div_mod_eq]
    refine decide_eq_decide.2 ?_
    omega
  refine UInt32.toNat_inj.1 ?_
  rw [pushSigned_eq, UInt32.toNat_and, hmask, Nat.and_two_pow, hbit]
  have hhigh : High b ↔ 128 ≤ b.toNat := UInt8.le_iff_toNat_le
  by_cases h : High b
  · rw [if_pos h, decide_eq_true (hhigh.1 h)]
    rfl
  · rw [if_neg h, decide_eq_false (hhigh.not.1 h)]
    rfl

end Words

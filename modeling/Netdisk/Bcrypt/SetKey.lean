import Netdisk.Bcrypt.Blowfish
import Netdisk.Lib.Words
import Netdisk.Wire

/-!
# `BF_set_key` (`crypt_blowfish.c`)

The key is read round and round, its NUL included, until it has filled eighteen words. The function keeps
an old bug, the sign extension of `$2x$`, and a measure against its consequences, which `$2a$` asks for:
in some cases one bit of the initial boxes is flipped. `setKey_eq` says what is left in the two arrays in
terms of the bytes that are read.
-/

namespace Netdisk.BF
open Words

/-- `BF_key` -/
abbrev Key := Vector Word 18

/-- `BF_init_state.P` -/
def initStateP : Key := Vector.ofFn fun i => (initP.getD i 0).toUInt32

/-- `(unsigned char)` -/
def byte (c : Char) : UInt8 := c.toNat.toUInt8

/-- `ptr`, `tmp[0]`, `tmp[1]` and `sign`. -/
structure Reading where
  ptr : Nat := 0
  correct : Word := 0
  buggy : Word := 0
  sign : Word := 0

/-- The loop over `j`. -/
def Reading.byte (key : CStr) (s : Reading) (j : Nat) : Reading :=
  let c := key.getD s.ptr '\x00'
  let correct := s.correct <<< 8 ||| (BF.byte c).toUInt32
  let buggy := s.buggy <<< 8 ||| (BF.byte c).toInt8.toInt32.toUInt32
  { ptr := if c = '\x00' then 0 else s.ptr + 1
    correct
    buggy
    sign := if j ≠ 0 then s.sign ||| (buggy &&& 0x80) else s.sign }

/-- What the loop over `i` carries. -/
structure KeyLoop where
  ptr : Nat := 0
  sign : Word := 0
  diff : Word := 0
  expanded : Key := Vector.replicate 18 0
  initial : Key := Vector.replicate 18 0

/-- The loop over `i`. -/
def KeyLoop.word (key : CStr) (bug : Bool) (s : KeyLoop) (i : Nat) : KeyLoop :=
  let t := (List.range 4).foldl (Reading.byte key) { ptr := s.ptr, sign := s.sign }
  let tmp := if bug then t.buggy else t.correct
  { ptr := t.ptr
    sign := t.sign
    diff := s.diff ||| (t.correct ^^^ t.buggy)
    expanded := s.expanded.setIfInBounds i tmp
    initial := s.initial.setIfInBounds i ((initP.getD i 0).toUInt32 ^^^ tmp) }

/-- What is flipped in `initial[0]`. -/
def deviation (sign diff safety : Word) : Word :=
  let diff := diff ||| diff >>> 16
  let diff := diff &&& 0xffff
  let diff := diff + 0xffff
  let sign := sign <<< 9
  sign &&& (~~~diff &&& safety)

/-- `BF_set_key`: `expanded` and `initial`. -/
def setKey (key : CStr) (flags : UInt8) : Key × Key :=
  let safety : Word := (flags.toUInt32 &&& 2) <<< 15
  let s := (List.range 18).foldl (KeyLoop.word key (flags &&& 1 = 1)) {}
  (s.expanded, s.initial.set 0 (s.initial[0] ^^^ deviation s.sign s.diff safety))

/-! ### The bytes that are read -/

/-- Where `ptr` is after `t` bytes. -/
def ptrAt (key : CStr) : Nat → Nat
  | 0 => 0
  | t + 1 => if key.getD (ptrAt key t) '\x00' = '\x00' then 0 else ptrAt key t + 1

def streamed (key : CStr) (t : Nat) : UInt8 := byte (key.getD (ptrAt key t) '\x00')

section Words

variable (key : CStr) (i : Nat)

def correctWord : Word :=
  word (streamed key (4 * i)) (streamed key (4 * i + 1)) (streamed key (4 * i + 2)) (streamed key (4 * i + 3))

def buggyWord : Word :=
  wordSigned (streamed key (4 * i)) (streamed key (4 * i + 1)) (streamed key (4 * i + 2)) (streamed key (4 * i + 3))

/-- A sign is extended over something. -/
def Extends : Prop :=
  High (streamed key (4 * i + 1)) ∨ High (streamed key (4 * i + 2)) ∨ High (streamed key (4 * i + 3))

instance : Decidable (Extends key i) := inferInstanceAs (Decidable (_ ∨ _))

theorem signs_or (p q : Prop) [Decidable p] [Decidable q] :
    (if p then (0x80 : Word) else 0) ||| (if q then 0x80 else 0) = if p ∨ q then 0x80 else 0 := by
  by_cases hp : p <;> by_cases hq : q <;> simp [hp, hq]

theorem foldl_byte (sign : Word) :
    (List.range 4).foldl (Reading.byte key) { ptr := ptrAt key (4 * i), sign } =
      { ptr := ptrAt key (4 * (i + 1))
        correct := correctWord key i
        buggy := buggyWord key i
        sign := sign ||| if Extends key i then 0x80 else 0 } := by
  have hbyte : ∀ (t : Nat) (s : Reading), s.ptr = ptrAt key t → ∀ j, s.byte key j =
      { ptr := ptrAt key (t + 1)
        correct := push s.correct (streamed key t)
        buggy := pushSigned s.buggy (streamed key t)
        sign := if j ≠ 0 then s.sign ||| (if High (streamed key t) then 0x80 else 0) else s.sign } := by
    intro t s hs j
    rw [← pushSigned_and s.buggy, Reading.byte, hs]
    rfl
  change List.foldl (Reading.byte key) _ [0, 1, 2, 3] = _
  rw [List.foldl_cons, hbyte (4 * i) _ rfl, List.foldl_cons, hbyte (4 * i + 1) _ rfl, List.foldl_cons,
    hbyte (4 * i + 2) _ rfl, List.foldl_cons, hbyte (4 * i + 3) _ rfl, List.foldl_nil]
  have hsign : ((sign ||| if High (streamed key (4 * i + 1)) then 0x80 else 0) |||
      if High (streamed key (4 * i + 2)) then 0x80 else 0) ||| (if High (streamed key (4 * i + 3)) then 0x80 else 0) =
      sign ||| if Extends key i then 0x80 else 0 := by
    rw [UInt32.or_assoc, UInt32.or_assoc, signs_or, signs_or]
    rfl
  rw [← hsign]
  rfl

end Words

/-! ### What is left in the arrays -/

/-- The word that goes into both arrays. -/
def keyWord (key : CStr) (bug : Bool) (i : Nat) : Word := if bug then buggyWord key i else correctWord key i

/-- After `n` words. -/
structure KeyLoop.Done (key : CStr) (bug : Bool) (n : Nat) (s : KeyLoop) : Prop where
  ptr : s.ptr = ptrAt key (4 * n)
  sign : s.sign = if ∃ i < n, Extends key i then 0x80 else 0
  diff : s.diff = 0 ↔ ∀ i < n, correctWord key i = buggyWord key i
  expanded : ∀ i, (h : i < 18) → i < n → s.expanded[i] = keyWord key bug i
  initial : ∀ i, (h : i < 18) → i < n → s.initial[i] = initStateP[i] ^^^ keyWord key bug i

section Loop

variable {key : CStr} {bug : Bool} {n : Nat} {s : KeyLoop}

theorem initStateP_getElem {i : Nat} (h : i < 18) : initStateP[i] = (initP.getD i 0).toUInt32 := by
  rw [initStateP, Vector.getElem_ofFn]

theorem KeyLoop.Done.word (h : s.Done key bug n) : (s.word key bug n).Done key bug (n + 1) := by
  rw [KeyLoop.word, h.ptr, foldl_byte]
  refine ⟨rfl, ?_, ?_, fun i hi hn => ?_, fun i hi hn => ?_⟩
  · have hlast : (∃ i < n + 1, Extends key i) ↔ (∃ i < n, Extends key i) ∨ Extends key n := Nat.exists_lt_succ_right
    change s.sign ||| _ = _
    rw [h.sign, signs_or]
    simp only [hlast]
  · change s.diff ||| (correctWord key n ^^^ buggyWord key n) = 0 ↔ _
    rw [UInt32.or_eq_zero_iff, UInt32.xor_eq_zero_iff, h.diff, Nat.forall_lt_succ_right]
  · change (s.expanded.setIfInBounds n (keyWord key bug n))[i] = _
    rw [Vector.getElem_setIfInBounds]
    split
    · subst_vars
      rfl
    · exact h.expanded i hi (by omega)
  · change (s.initial.setIfInBounds n ((initP.getD n 0).toUInt32 ^^^ keyWord key bug n))[i] = _
    rw [Vector.getElem_setIfInBounds]
    split
    · subst_vars
      rw [initStateP_getElem]
    · exact h.initial i hi (by omega)

theorem KeyLoop.done (key : CStr) (bug : Bool) (n : Nat) :
    ((List.range n).foldl (KeyLoop.word key bug) {}).Done key bug n := by
  induction n with
  | zero => exact ⟨rfl, by simp, by simp, fun i _ h => absurd h (by omega), fun i _ h => absurd h (by omega)⟩
  | succ n ih =>
    rw [List.range_succ, List.foldl_append]
    exact ih.word

end Loop

/-- The measure is asked for, a sign is extended, and that changes no word. -/
def Deviates (key : CStr) (flags : UInt8) : Prop :=
  flags &&& 2 ≠ 0 ∧ (∃ i < 18, Extends key i) ∧ ∀ i < 18, correctWord key i = buggyWord key i

instance (key : CStr) (flags : UInt8) : Decidable (Deviates key flags) := inferInstanceAs (Decidable (_ ∧ _))

theorem safety_eq (flags : UInt8) :
    (flags.toUInt32 &&& 2) <<< 15 = if flags &&& 2 ≠ 0 then (0x10000 : Word) else 0 := by
  have hall : ∀ n : Fin 256, ((UInt8.ofNat n).toUInt32 &&& 2) <<< 15 =
      if UInt8.ofNat n &&& 2 ≠ 0 then (0x10000 : Word) else 0 := by
    decide +kernel
  have h := hall ⟨flags.toNat, flags.toNat_lt⟩
  rwa [UInt8.ofNat_toNat] at h

/-- Bit 16 of the last `diff` is set exactly when `diff` was not zero. -/
theorem not_diff_and (diff : Word) :
    ~~~(((diff ||| diff >>> 16) &&& 0xffff) + 0xffff) &&& (0x10000 : Word) = if diff = 0 then 0x10000 else 0 := by
  by_cases hdiff : diff = 0
  · subst hdiff
    decide
  · rw [if_neg hdiff]
    have hd := diff.toNat_lt
    have hfold : ((diff ||| diff >>> 16) &&& 0xffff).toNat = diff.toNat % 2 ^ 16 ||| diff.toNat / 2 ^ 16 := by
      rw [UInt32.toNat_and, UInt32.toNat_or, UInt32.toNat_shiftRight]
      change (diff.toNat ||| diff.toNat >>> 16) &&& 2 ^ 16 - 1 = _
      rw [Nat.and_two_pow_sub_one_eq_mod, Nat.or_mod_two_pow, Nat.shiftRight_eq_div_pow]
      congr 1
      omega
    have hpos : diff.toNat % 2 ^ 16 ||| diff.toNat / 2 ^ 16 ≠ 0 := by
      intro h
      obtain ⟨hlow, hhigh⟩ := Nat.or_eq_zero_iff.1 h
      exact hdiff (UInt32.toNat_inj.1 (by rw [UInt32.toNat_zero]; omega))
    have hlt : diff.toNat % 2 ^ 16 ||| diff.toNat / 2 ^ 16 < 2 ^ 16 := Nat.or_lt_two_pow (by omega) (by omega)
    have hbit : (((diff ||| diff >>> 16) &&& 0xffff) + 0xffff) &&& (0x10000 : Word) = 0x10000 := by
      refine UInt32.toNat_inj.1 ?_
      rw [UInt32.toNat_and, UInt32.toNat_add, hfold]
      change ((_ + 0xffff) % 2 ^ 32) &&& 2 ^ 16 = 2 ^ 16
      rw [Nat.and_two_pow, Nat.testBit_eq_decide_div_mod_eq, decide_eq_true (by omega)]
      rfl
    calc ~~~(((diff ||| diff >>> 16) &&& 0xffff) + 0xffff) &&& (0x10000 : Word)
        = ~~~(((diff ||| diff >>> 16) &&& 0xffff) + 0xffff) &&&
            ((((diff ||| diff >>> 16) &&& 0xffff) + 0xffff) &&& 0x10000) := by rw [hbit]
      _ = 0 := by rw [← UInt32.and_assoc, UInt32.not_and_self, UInt32.zero_and]

theorem deviation_eq (p : Prop) [Decidable p] (diff : Word) (flags : UInt8) :
    deviation (if p then 0x80 else 0) diff ((flags.toUInt32 &&& 2) <<< 15) =
      if flags &&& 2 ≠ 0 ∧ p ∧ diff = 0 then 0x10000 else 0 := by
  have hsign : (if p then (0x80 : Word) else 0) <<< 9 = if p then 0x10000 else 0 := by
    split <;> rfl
  rw [deviation, safety_eq, hsign]
  by_cases hp : p
  · by_cases hf : flags &&& 2 ≠ 0
    · rw [if_pos hp, if_pos hf, not_diff_and]
      by_cases hd : diff = 0 <;> simp [hp, hf, hd]
    · simp [hf]
  · simp [hp]

/-- `BF_set_key`, word by word. -/
theorem setKey_eq (key : CStr) (flags : UInt8) :
    setKey key flags = (Vector.ofFn fun i => keyWord key (flags &&& 1 = 1) i,
      Vector.ofFn fun i => (initStateP.get i ^^^ keyWord key (flags &&& 1 = 1) i) ^^^
        if i = 0 ∧ Deviates key flags then 0x10000 else 0) := by
  have hdone := KeyLoop.done key (flags &&& 1 = 1) 18
  rw [setKey, hdone.sign, deviation_eq]
  refine Prod.ext (Vector.ext fun i hi => ?_) (Vector.ext fun i hi => ?_)
  · rw [Vector.getElem_ofFn, hdone.expanded i hi hi]
  · rw [Vector.getElem_ofFn, Vector.getElem_set]
    split
    · subst_vars
      have hdev : (flags &&& 2 ≠ 0 ∧ (∃ i < 18, Extends key i) ∧
          ((List.range 18).foldl (KeyLoop.word key (flags &&& 1 = 1)) {}).diff = 0) ↔ Deviates key flags := by
        rw [hdone.diff]
        rfl
      rw [hdone.initial 0 (by omega) (by omega)]
      simp only [hdev, true_and, Fin.mk_zero]
      rfl
    · rename_i hne
      have hzero : ¬ ((⟨i, hi⟩ : Fin 18) = 0 ∧ Deviates key flags) := fun h => hne (congrArg Fin.val h.1).symm
      rw [hdone.initial i hi hi, if_neg hzero, UInt32.xor_zero]
      rfl

end Netdisk.BF

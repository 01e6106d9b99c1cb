import Mathlib.Data.Nat.Bitwise

/-!
# Arrays of words in one number

Word `i` of a number is its bits from `32 * i` on. On such arrays a long computation is one on numbers
alone, which the kernel does quickly as long as it does it eagerly: `strict` hands on the value of its
argument. The functions are the kernel's own, so that nothing has to be unfolded on the way. `Packs` ties
a number to the array it stands for.
-/

namespace Packed

def get (m i : Nat) : Nat := Nat.mod (Nat.shiftRight m (Nat.mul 32 i)) 4294967296

def set (m i x : Nat) : Nat := Nat.xor m (Nat.shiftLeft (Nat.xor (get m i) x) (Nat.mul 32 i))

def pack (l : List Nat) : Nat := l.foldr (fun x m => x + m <<< 32) 0

/-- `k n`, for which `n` is computed first. -/
def strict {α : Type} (n : Nat) (k : Nat → α) : α := Nat.rec (k 0) (fun m _ => k (m + 1)) n

@[simp] theorem strict_eq {α : Type} (n : Nat) (k : Nat → α) : strict n k = k n := by
  cases n <;> rfl

variable {m i j x k : Nat}

theorem get_eq (m i : Nat) : get m i = m >>> (32 * i) % 2 ^ 32 := rfl

theorem set_eq (m i x : Nat) : set m i x = m ^^^ (get m i ^^^ x) <<< (32 * i) := rfl

theorem testBit_get : (get m i).testBit k = (decide (k < 32) && m.testBit (32 * i + k)) := by
  rw [get_eq, Nat.testBit_mod_two_pow, Nat.testBit_shiftRight]

theorem get_lt : get m i < 2 ^ 32 := Nat.mod_lt _ (by decide)

theorem get_set_self (hx : x < 2 ^ 32) : get (set m i x) i = x := by
  refine Nat.eq_of_testBit_eq fun k => ?_
  rw [testBit_get, set_eq, Nat.testBit_xor, Nat.testBit_shiftLeft, Nat.testBit_xor, Nat.add_sub_cancel_left, testBit_get]
  by_cases hk : k < 32
  · simp [hk]
  · have hbit : x.testBit k = false :=
      Nat.testBit_lt_two_pow (hx.trans_le (Nat.pow_le_pow_right (by decide) (by omega)))
    simp [hk, hbit]

theorem get_set_ne (hx : x < 2 ^ 32) (hne : i ≠ j) : get (set m i x) j = get m j := by
  have hlt : get m i ^^^ x < 2 ^ 32 := Nat.xor_lt_two_pow get_lt hx
  refine Nat.eq_of_testBit_eq fun k => ?_
  rw [testBit_get, testBit_get, set_eq, Nat.testBit_xor, Nat.testBit_shiftLeft]
  by_cases hk : k < 32
  · by_cases hle : 32 * i ≤ 32 * j + k
    · have hbit : (get m i ^^^ x).testBit (32 * j + k - 32 * i) = false :=
        Nat.testBit_lt_two_pow (hlt.trans_le (Nat.pow_le_pow_right (by decide) (by omega)))
      simp [hbit]
    · simp [hle]
  · simp [hk]

theorem get_pack : ∀ {l : List Nat} {i : Nat}, (∀ x ∈ l, x < 2 ^ 32) → get (pack l) i = l.getD i 0
  | [], i, _ => by simp [pack, get_eq]
  | x :: l, 0, h => by
    have hx := h x List.mem_cons_self
    rw [pack, List.foldr_cons, get_eq, Nat.mul_zero, Nat.shiftRight_zero, Nat.shiftLeft_eq, Nat.add_mul_mod_self_right,
      Nat.mod_eq_of_lt hx]
    rfl
  | x :: l, i + 1, h => by
    have hx := h x List.mem_cons_self
    have ih := get_pack (i := i) fun y hy => h y (List.mem_cons_of_mem x hy)
    have hhead : (x + pack l <<< 32) >>> (32 * (i + 1)) = pack l >>> (32 * i) := by
      rw [Nat.mul_add, Nat.add_comm (32 * i), Nat.shiftRight_add]
      congr 1
      rw [Nat.shiftRight_eq_div_pow, Nat.shiftLeft_eq]
      omega
    rw [List.getD_cons_succ, ← ih, get_eq, get_eq, ← hhead]
    rfl

/-- `m` stands for the array. -/
def Packs {n : Nat} (v : Vector UInt32 n) (m : Nat) : Prop := ∀ i, (h : i < n) → get m i = v[i].toNat

variable {n : Nat} {v : Vector UInt32 n}

theorem Packs.set (h : Packs v m) (i : Nat) (w : UInt32) : Packs (v.setIfInBounds i w) (set m i w.toNat) := by
  intro j hj
  rw [Vector.getElem_setIfInBounds]
  split
  · subst_vars
    exact get_set_self w.toNat_lt
  · rename_i hne
    rw [get_set_ne w.toNat_lt hne, h j hj]

theorem Packs.xor {v' : Vector UInt32 n} {m' : Nat} (h : Packs v m) (h' : Packs v' m') :
    Packs (Vector.zipWith (· ^^^ ·) v v') (m ^^^ m') := by
  intro i hi
  have hget : get (m ^^^ m') i = get m i ^^^ get m' i := by
    refine Nat.eq_of_testBit_eq fun k => ?_
    rw [Nat.testBit_xor, testBit_get, testBit_get, testBit_get, Nat.testBit_xor]
    by_cases hk : k < 32 <;> simp [hk]
  rw [hget, h i hi, h' i hi, Vector.getElem_zipWith, UInt32.toNat_xor]

end Packed

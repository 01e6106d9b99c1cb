import Mathlib.Data.List.Basic

/-!
# Computations on arrays with the accesses they make

`Logged ι α` is a result together with every access made on the way, in order; the arrays are named
by `ι` and an index is an integer, so that one in front of an array can be told. `Access.Within`
says that an access stays inside arrays of the given sizes; `mem_log_loop` reads the accesses of a
counting loop off its iterations.
-/

namespace Arrays

inductive Access (ι : Type) where
  | read (array : ι) (idx : Int)
  | write (array : ι) (idx : Int)
deriving DecidableEq

namespace Access
variable {ι : Type}

def array : Access ι → ι
  | read a _ => a
  | write a _ => a

def idx : Access ι → Int
  | read _ k => k
  | write _ k => k

/-- The index lies in an array of `size` elements. -/
def Within (size : ι → Nat) (x : Access ι) : Prop := 0 ≤ x.idx ∧ x.idx < size x.array

@[simp] theorem within_read {size : ι → Nat} {a : ι} {k : Int} : (read a k).Within size ↔ 0 ≤ k ∧ k < size a := Iff.rfl

@[simp] theorem within_write {size : ι → Nat} {a : ι} {k : Int} : (write a k).Within size ↔ 0 ≤ k ∧ k < size a := Iff.rfl

instance (size : ι → Nat) (x : Access ι) : Decidable (x.Within size) := inferInstanceAs (Decidable (_ ∧ _))

end Access

/-- A result and the accesses that were made for it. -/
structure Logged (ι α : Type) where
  val : α
  log : List (Access ι)

namespace Logged
variable {ι α β σ : Type}

instance : Monad (Logged ι) where
  pure a := ⟨a, []⟩
  bind m f := ⟨(f m.val).val, m.log ++ (f m.val).log⟩

@[simp] theorem val_pure (a : α) : (pure a : Logged ι α).val = a := rfl

@[simp] theorem log_pure (a : α) : (pure a : Logged ι α).log = [] := rfl

@[simp] theorem val_bind (m : Logged ι α) (f : α → Logged ι β) : (m >>= f).val = (f m.val).val := rfl

@[simp] theorem log_bind (m : Logged ι α) (f : α → Logged ι β) : (m >>= f).log = m.log ++ (f m.val).log := rfl

@[simp] theorem val_map (g : α → β) (m : Logged ι α) : (g <$> m).val = g m.val := rfl

@[simp] theorem log_map (g : α → β) (m : Logged ι α) : (g <$> m).log = m.log := List.append_nil _

@[simp] theorem val_ite (c : Prop) [Decidable c] (m n : Logged ι α) :
    (if c then m else n).val = if c then m.val else n.val := apply_ite val c m n

@[simp] theorem log_ite (c : Prop) [Decidable c] (m n : Logged ι α) :
    (if c then m else n).log = if c then m.log else n.log := apply_ite log c m n

/-- `l[idx]`, the array being `a`; `d` stands for what lies outside. -/
def readAt (a : ι) (l : List β) (d : β) (idx : Int) : Logged ι β where
  val := if idx < 0 then d else l.getD idx.toNat d
  log := [.read a idx]

/-- `l[idx] = v`; nothing of the array changes if that is outside. -/
def writeAt (a : ι) (l : List β) (idx : Int) (v : β) : Logged ι (List β) where
  val := if idx < 0 then l else l.set idx.toNat v
  log := [.write a idx]

section Single
variable {a : ι} {l : List β} {d v : β} {k : Nat} {idx : Int}

@[simp] theorem val_readAt : (readAt a l d (k : Int)).val = l.getD k d := by
  have hk : ¬ (k : Int) < 0 := Int.not_lt.2 (Int.natCast_nonneg k)
  simp only [readAt, if_neg hk, Int.toNat_natCast]

theorem val_readAt_eq (h : idx = k) : (readAt a l d idx).val = l.getD k d := by rw [h, val_readAt]

@[simp] theorem log_readAt : (readAt a l d idx).log = [.read a idx] := rfl

@[simp] theorem val_writeAt : (writeAt a l (k : Int) v).val = l.set k v := by
  have hk : ¬ (k : Int) < 0 := Int.not_lt.2 (Int.natCast_nonneg k)
  simp only [writeAt, if_neg hk, Int.toNat_natCast]

@[simp] theorem log_writeAt : (writeAt a l idx v).log = [.write a idx] := rfl

end Single

/-! ### Blocks -/

/-- `memset(l, v, n)`. -/
def fill (a : ι) (l : List β) (n : Nat) (v : β) : Logged ι (List β) where
  val := List.replicate n v ++ l.drop n
  log := (List.range n).map fun k : Nat => .write a k

/-- `strncpy(dst, src, n)`: up to the terminator of `src`, which then fills the rest. -/
def copyN [DecidableEq β] (nul : β) (a : ι) (dst : List β) (b : ι) (src : List β) (n : Nat) : Logged ι (List β) :=
  let text := (src.takeWhile (· ≠ nul)).take n
  { val := text ++ List.replicate (n - text.length) nul ++ dst.drop n
    log := ((List.range n).filter (· ≤ text.length)).map (fun k : Nat => .read b k) ++
      (List.range n).map fun k : Nat => .write a k }

section Blocks
variable {size : ι → Nat} {a b : ι} {n : Nat}

theorem within_fill (h : n ≤ size a) {l : List β} {v : β} : ∀ x ∈ (fill a l n v).log, x.Within size := by
  intro x hx
  obtain ⟨k, hk, rfl⟩ := List.mem_map.1 hx
  have hlt := List.mem_range.1 hk
  exact ⟨Int.natCast_nonneg k, Int.ofNat_lt.2 (Nat.lt_of_lt_of_le hlt h)⟩

theorem within_copyN [DecidableEq β] {nul : β} {dst src : List β} (ha : n ≤ size a) (hb : n ≤ size b) :
    ∀ x ∈ (copyN nul a dst b src n).log, x.Within size := by
  intro x hx
  rcases List.mem_append.1 hx with hx | hx
  · obtain ⟨k, hk, rfl⟩ := List.mem_map.1 hx
    have hlt := List.mem_range.1 (List.mem_filter.1 hk).1
    exact ⟨Int.natCast_nonneg k, Int.ofNat_lt.2 (Nat.lt_of_lt_of_le hlt hb)⟩
  · obtain ⟨k, hk, rfl⟩ := List.mem_map.1 hx
    have hlt := List.mem_range.1 hk
    exact ⟨Int.natCast_nonneg k, Int.ofNat_lt.2 (Nat.lt_of_lt_of_le hlt ha)⟩

end Blocks

/-! ### Counting loops -/

variable {f : σ → Nat → Logged ι σ} {s : σ} {start n : Nat}

theorem foldlM_append (l₁ l₂ : List Nat) :
    ((l₁ ++ l₂).foldlM f s).log = (l₁.foldlM f s).log ++ (l₂.foldlM f (l₁.foldlM f s).val).log := by
  induction l₁ generalizing s with
  | nil => rfl
  | cons i l₁ ih =>
    simp only [List.cons_append, List.foldlM_cons, log_bind, val_bind, ih, List.append_assoc]

theorem val_foldlM (l : List Nat) : (l.foldlM f s).val = l.foldl (fun s i => (f s i).val) s := by
  induction l generalizing s with
  | nil => rfl
  | cons i l ih => simp only [List.foldlM_cons, val_bind, List.foldl_cons, ih]

/-- What a loop accesses is accessed in one of its iterations. -/
theorem mem_log_loop {x : Access ι} : x ∈ ((List.range' start n).foldlM f s).log ↔
    ∃ k < n, x ∈ (f ((List.range' start k).foldl (fun s i => (f s i).val) s) (start + k)).log := by
  induction n with
  | zero => exact ⟨nofun, nofun⟩
  | succ n ih =>
    rw [List.range'_1_concat, foldlM_append, List.mem_append, ih, val_foldlM]
    simp only [List.foldlM_cons, List.foldlM_nil, log_bind, log_pure, List.append_nil]
    constructor
    · rintro (⟨k, hk, hx⟩ | hx)
      · exact ⟨k, Nat.lt_succ_of_lt hk, hx⟩
      · exact ⟨n, Nat.lt_succ_self n, hx⟩
    · rintro ⟨k, hk, hx⟩
      rcases Nat.lt_succ_iff_lt_or_eq.1 hk with hk | rfl
      · exact .inl ⟨k, hk, hx⟩
      · exact .inr hx

end Logged

end Arrays

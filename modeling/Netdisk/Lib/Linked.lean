import Mathlib.Data.List.Nodup

/-!
# Linked segments in a heap

`Seg read next p l q`: following `next` from the pointer `p` visits exactly the cells listed in `l`
(each with its content) and arrives at `q`. Nothing is assumed of the heap but a partial read.
-/

namespace Linked

variable {A N : Type} {read read' : A → Option N} {next : N → A}

/-- The cells of `l`, linked in this order, lead from `p` to `q`. -/
def Seg (read : A → Option N) (next : N → A) : A → List (A × N) → A → Prop
  | p, [], q => p = q
  | p, (a, n) :: l, q => p = a ∧ read a = some n ∧ Seg read next (next n) l q

/-- The address of the last cell of `l`, or `p` when there is none. -/
def lastPtr (p : A) (l : List (A × N)) : A := (l.getLast?.map Prod.fst).getD p

section
variable {p q m a : A} {n : N} {l l₁ l₂ : List (A × N)}

@[simp] theorem seg_nil : Seg read next p [] q ↔ p = q := Iff.rfl

@[simp] theorem seg_cons :
    Seg read next p ((a, n) :: l) q ↔ p = a ∧ read a = some n ∧ Seg read next (next n) l q := Iff.rfl

@[simp] theorem lastPtr_nil : lastPtr (N := N) p [] = p := rfl

@[simp] theorem lastPtr_concat : lastPtr p (l ++ [(a, n)]) = a := by simp [lastPtr]

theorem lastPtr_cons : lastPtr p ((a, n) :: l) = lastPtr a l := by
  cases h : l.getLast? <;> simp [lastPtr, List.getLast?_cons, h]

theorem lastPtr_append (h : l₂ ≠ []) : lastPtr p (l₁ ++ l₂) = lastPtr q l₂ := by
  obtain ⟨l, ⟨a, n⟩, rfl⟩ := (List.eq_nil_or_concat' l₂).resolve_left h
  rw [← List.append_assoc, lastPtr_concat, lastPtr_concat]

theorem seg_append :
    Seg read next p (l₁ ++ l₂) q ↔ ∃ m, Seg read next p l₁ m ∧ Seg read next m l₂ q := by
  induction l₁ generalizing p with
  | nil => simp
  | cons x l₁ ih =>
    obtain ⟨b, k⟩ := x
    simp only [List.cons_append, seg_cons, ih]
    exact ⟨fun ⟨h, hr, m, h₁, h₂⟩ => ⟨m, ⟨h, hr, h₁⟩, h₂⟩, fun ⟨m, ⟨h, hr, h₁⟩, h₂⟩ => ⟨h, hr, m, h₁, h₂⟩⟩

theorem Seg.append (h₁ : Seg read next p l₁ m) (h₂ : Seg read next m l₂ q) :
    Seg read next p (l₁ ++ l₂) q := seg_append.2 ⟨m, h₁, h₂⟩

theorem Seg.read_mem (h : Seg read next p l q) (hx : (a, n) ∈ l) : read a = some n := by
  induction l generalizing p with
  | nil => simp at hx
  | cons x l ih =>
    obtain ⟨b, k⟩ := x
    obtain ⟨-, hr, hl⟩ := seg_cons.1 h
    rcases List.mem_cons.1 hx with hx | hx
    · obtain ⟨rfl, rfl⟩ := Prod.mk.inj hx
      exact hr
    · exact ih hl hx

/-- A segment only depends on the cells it visits. -/
theorem Seg.congr (h : Seg read next p l q) (hr : ∀ x ∈ l, read' x.1 = read x.1) :
    Seg read' next p l q := by
  induction l generalizing p with
  | nil => exact h
  | cons x l ih =>
    obtain ⟨hp, hx, hl⟩ := h
    exact ⟨hp, by rw [hr x (by simp), hx], ih hl fun y hy => hr y (by simp [hy])⟩

/-- Rewriting the last cell of a segment redirects its end. -/
theorem Seg.relink {n' : N} (h : Seg read next p (l ++ [(a, n)]) q) (ha : read' a = some n')
    (hr : ∀ x ∈ l, read' x.1 = read x.1) : Seg read' next p (l ++ [(a, n')]) (next n') := by
  obtain ⟨m, h₁, rfl, -, -⟩ := seg_append.1 h
  exact (h₁.congr hr).append (seg_cons.2 ⟨rfl, ha, rfl⟩)

theorem Seg.head_read (h : Seg read next p ((a, n) :: l) q) : read p = some n := by
  obtain ⟨rfl, hr, -⟩ := seg_cons.1 h
  exact hr

/-- Two segments that lead from one pointer to the same end, where nothing can be read, are one. -/
theorem Seg.unique {l' : List (A × N)} (h : Seg read next p l q) (h' : Seg read next p l' q) (hq : read q = none) :
    l = l' := by
  induction l generalizing p l' with
  | nil =>
    obtain rfl : p = q := h
    cases l' with
    | nil => rfl
    | cons x l' =>
      obtain ⟨a, n⟩ := x
      cases h'.head_read.symm.trans hq
  | cons x l ih =>
    obtain ⟨a, n⟩ := x
    obtain ⟨rfl, hn, hl⟩ := seg_cons.1 h
    cases l' with
    | nil =>
      obtain rfl : p = q := h'
      cases hn.symm.trans hq
    | cons x' l' =>
      obtain ⟨a', n'⟩ := x'
      obtain ⟨rfl, hn', hl'⟩ := seg_cons.1 h'
      obtain rfl : n = n' := Option.some.inj (hn.symm.trans hn')
      rw [ih hl hl']

/-- A segment that comes to an end visits no cell twice. -/
theorem Seg.nodup (h : Seg read next p l q) (hq : read q = none) : (l.map Prod.fst).Nodup := by
  induction l generalizing p with
  | nil => exact List.nodup_nil
  | cons x l ih =>
    obtain ⟨a, n⟩ := x
    obtain ⟨rfl, hn, hl⟩ := seg_cons.1 h
    refine List.nodup_cons.2 ⟨?_, ih hl⟩
    intro hmem
    obtain ⟨⟨b, m⟩, hx, rfl⟩ := List.mem_map.1 hmem
    obtain ⟨l₁, l₂, rfl⟩ := List.append_of_mem hx
    obtain ⟨c, -, hrest⟩ := seg_append.1 hl
    obtain ⟨rfl, -, -⟩ := seg_cons.1 hrest
    have hlength := congrArg List.length (h.unique hrest hq)
    simp only [List.length_cons, List.length_append] at hlength
    omega

end

end Linked

import Mathlib.Algebra.BigOperators.Group.List.Basic
import Mathlib.Algebra.Order.Group.Multiset

/-!
# What the members of a list hold together

`tally f l` is the multiset of everything that the members of `l` hold, `f` saying what each one
does.
-/

namespace Tally

variable {α β : Type*} {f : α → Multiset β} {l : List α} {i : Nat} {a b : α}

def tally (f : α → Multiset β) (l : List α) : Multiset β := (l.map f).sum

@[simp] theorem tally_nil : tally f [] = 0 := rfl

@[simp] theorem tally_cons : tally f (a :: l) = f a + tally f l := by simp [tally]

theorem tally_snoc : tally f (l ++ [a]) = tally f l + f a := by simp [tally]

theorem tally_set (h : l[i]? = some a) (b : α) : tally f (l.set i b) + f a = tally f l + f b := by
  induction l generalizing i with
  | nil => cases h
  | cons c l ih =>
    cases i with
    | zero =>
      obtain rfl := Option.some.inj h
      rw [List.set_cons_zero, tally_cons, tally_cons, add_comm (f b), add_comm (f c), add_right_comm]
    | succ i => rw [List.set_cons_succ, tally_cons, tally_cons, add_assoc, ih h, add_assoc]

/-- What a member gives up may come to stand elsewhere. -/
theorem add_tally_set_le {s t : Multiset β} (h : l[i]? = some a) (hle : s + f b ≤ t + f a) :
    s + tally f (l.set i b) ≤ t + tally f l := by
  refine le_of_add_le_add_right (a := f a) ?_
  calc s + tally f (l.set i b) + f a
      = s + f b + tally f l := by rw [add_assoc, tally_set h, add_comm (tally f l), ← add_assoc]
    _ ≤ t + f a + tally f l := by gcongr
    _ = t + tally f l + f a := add_right_comm _ _ _

theorem mem_tally {x : β} : x ∈ tally f l ↔ ∃ a ∈ l, x ∈ f a := by
  induction l with
  | nil => simp
  | cons c l ih => simp [ih]

/-- Members that come to hold less. -/
theorem tally_map_le {g : α → α} (h : ∀ a, f (g a) ≤ f a) : tally f (l.map g) ≤ tally f l := by
  induction l with
  | nil => exact le_rfl
  | cons c l ih =>
    rw [List.map_cons, tally_cons, tally_cons]
    exact add_le_add (h c) ih

end Tally

import Mathlib.Data.List.Forall2
import Mathlib.Data.List.Sort

/-!
# Lists sorted by a key

Where an element goes in a sort, when a list lies inside a sorted one, and when two lists sorted by
their keys can be read side by side by position.
-/

namespace Sorted

variable {α β : Type*}

/-- An element that nothing is greater than stays behind the others. -/
theorem insertionSort_concat (r : α → α → Prop) [DecidableRel r] {l : List α} {x : α} (hx : ∀ a ∈ l, r a x) :
    (l ++ [x]).insertionSort r = l.insertionSort r ++ [x] := by
  have hinsert : ∀ (a : α) (m : List α), r a x → (m ++ [x]).orderedInsert r a = m.orderedInsert r a ++ [x] := by
    intro a m ha
    induction m with
    | nil => simp [ha]
    | cons b m ih =>
      rw [List.cons_append, List.orderedInsert_cons, List.orderedInsert_cons, ih]
      split <;> rfl
  induction l with
  | nil => rfl
  | cons a l ih =>
    obtain ⟨ha, hl⟩ := List.forall_mem_cons.1 hx
    rw [List.cons_append, List.insertionSort_cons, List.insertionSort_cons, ih hl, hinsert a _ ha]

/-- Elements with strictly increasing keys lie in order in a list sorted by the key. -/
theorem sublist_of_sorted {key : α → Nat} {l as : List α} (hl : l.Pairwise fun a b => key a ≤ key b)
    (has : as.Pairwise fun a b => key a < key b) (hsub : as ⊆ l) : as.Sublist l := by
  induction l generalizing as with
  | nil => exact List.subset_nil.1 hsub ▸ List.Sublist.refl _
  | cons a l ih =>
    obtain ⟨hle, hl'⟩ := List.pairwise_cons.1 hl
    have hmem : ∀ x ∈ as, x ≠ a → x ∈ l := fun x hx hne => (List.mem_cons.1 (hsub hx)).resolve_left hne
    cases as with
    | nil => exact List.nil_sublist _
    | cons c as =>
      obtain ⟨hlt, has'⟩ := List.pairwise_cons.1 has
      by_cases hc : c = a
      · subst hc
        refine (ih hl' has' fun x hx => hmem x (List.mem_cons_of_mem _ hx) ?_).cons_cons c
        rintro rfl
        exact absurd (hlt x hx) (Nat.lt_irrefl _)
      · have hcl : c ∈ l := hmem c List.mem_cons_self hc
        refine (ih hl' has fun x hx => hmem x hx ?_).cons a
        rintro rfl
        rcases List.mem_cons.1 hx with rfl | hx
        · exact hc rfl
        · exact absurd (hlt x hx) (Nat.not_lt.2 (hle c hcl))

/-! ### Two lists side by side -/

section SideBySide
variable {f : α → Nat} {g : β → Nat} {as : List α} {bs : List β}

/-- Lists with the same keys, each key once, have equal keys at equal positions. -/
theorem forall₂_of_keys (has : as.Pairwise fun a b => f a < f b) (hbs : bs.Pairwise fun a b => g a < g b)
    (hkeys : ∀ k, k ∈ as.map f ↔ k ∈ bs.map g) : List.Forall₂ (fun a b => f a = g b) as bs := by
  have heq : as.map f = bs.map g :=
    List.Pairwise.eq_of_mem_iff (List.pairwise_map.2 has) (List.pairwise_map.2 hbs) hkeys
  exact List.forall₂_map_left_iff.1 (List.forall₂_map_right_iff.1 (heq ▸ List.forall₂_same.2 fun _ _ => rfl))

/-- Keys that occur once in `as` and somewhere in `bs` are no more than `bs` has elements. -/
theorem length_le_of_keys (has : (as.map f).Nodup) (hsub : as.map f ⊆ bs.map g) : as.length ≤ bs.length := by
  have hle := (List.subperm_of_subset has hsub).length_le
  simpa only [List.length_map] using hle

/-- If there are as many of them, no key of `bs` occurs twice. -/
theorem nodup_of_length_le (has : (as.map f).Nodup) (hsub : as.map f ⊆ bs.map g) (hle : bs.length ≤ as.length) :
    (bs.map g).Nodup := by
  have hlen : (bs.map g).length ≤ (as.map f).length := by simpa only [List.length_map] using hle
  exact ((List.subperm_of_subset has hsub).perm_of_length_le hlen).nodup_iff.1 has

/-- Sorted by a key that no two elements share. -/
theorem strict_of_nodup (hsorted : as.Pairwise fun a b => f a ≤ f b) (hnodup : (as.map f).Nodup) :
    as.Pairwise fun a b => f a < f b := by
  have hne : as.Pairwise fun a b => f a ≠ f b := List.pairwise_map.1 hnodup
  exact hsorted.imp₂ (fun a b hle hne => lt_of_le_of_ne hle hne) hne

end SideBySide

end Sorted

import Mathlib.Data.List.Basic

/-!
# Greedy matching of a chain in one pass

`walk` goes once through a list and consumes a key at every element that `accept`s it in the current
state. What it finds is always a chain (`Chain`); it finds a given chain if the list contains it in
order and nothing else in the list is accepted where a link of the chain is.
-/

namespace Greedy

variable {α β κ : Type} (accept : κ → β → α → Bool) (next : α → κ)

/-- The keys left over and the state at the end of the pass. -/
def walk : List α → List β → κ → List β × κ
  | [], bs, k => (bs, k)
  | _ :: _, [], k => ([], k)
  | a :: l, b :: bs, k => if accept k b a then walk l bs (next a) else walk l (b :: bs) k

/-- The elements `as` take the keys `bs` one by one, the first of them in state `k`. -/
def Chain : κ → List β → List α → Prop
  | _, [], [] => True
  | k, b :: bs, a :: as => accept k b a = true ∧ Chain (next a) bs as
  | _, _, _ => False

/-- The state after the elements of a chain. -/
def last : κ → List α → κ
  | k, [] => k
  | _, a :: as => last (next a) as

section Lemmas
variable {accept : κ → β → α → Bool} {next : α → κ} {l as : List α} {bs : List β} {k k' : κ}

@[simp] theorem walk_nil_right : walk accept next l [] k = ([], k) := by cases l <;> rfl

/-- A pass that uses up its keys has found a chain, in the order of the list. -/
theorem exists_chain_of_walk (h : walk accept next l bs k = ([], k')) :
    ∃ as, as.Sublist l ∧ Chain accept next k bs as ∧ last next k as = k' := by
  induction l generalizing bs k with
  | nil =>
    obtain ⟨rfl, rfl⟩ := Prod.mk.inj h
    exact ⟨[], List.Sublist.refl _, trivial, rfl⟩
  | cons a l ih =>
    cases bs with
    | nil =>
      obtain ⟨-, rfl⟩ := Prod.mk.inj h
      exact ⟨[], List.nil_sublist _, trivial, rfl⟩
    | cons b bs =>
      rw [walk] at h
      split at h
      · next ha =>
        obtain ⟨as, hsub, hch, hlast⟩ := ih h
        exact ⟨a :: as, hsub.cons_cons a, ⟨ha, hch⟩, hlast⟩
      · obtain ⟨as, hsub, hch, hlast⟩ := ih h
        exact ⟨as, hsub.cons a, hch, hlast⟩

theorem walk_append {l' : List α} {bs' : List β} (h : walk accept next l bs k = (bs', k')) :
    walk accept next (l ++ l') bs k = walk accept next l' bs' k' := by
  induction l generalizing bs k with
  | nil =>
    obtain ⟨rfl, rfl⟩ := Prod.mk.inj h
    rfl
  | cons a l ih =>
    cases bs with
    | nil =>
      obtain ⟨rfl, rfl⟩ := Prod.mk.inj h
      rw [walk_nil_right, walk_nil_right]
    | cons b bs =>
      rw [walk] at h
      rw [List.cons_append, walk]
      split at h
      · next ha => rw [if_pos ha, ih h]
      · next ha => rw [if_neg ha, ih h]

/-- One more key stays over if nothing in the list takes it in the state that the others lead to. -/
theorem walk_concat {b : β} (h : walk accept next l bs k = ([], k')) (hb : ∀ a ∈ l, accept k' b a = false) :
    walk accept next l (bs ++ [b]) k = ([b], k') := by
  induction l generalizing bs k with
  | nil =>
    obtain ⟨rfl, rfl⟩ := Prod.mk.inj h
    rfl
  | cons a l ih =>
    obtain ⟨ha, hl⟩ := List.forall_mem_cons.1 hb
    cases bs with
    | nil =>
      obtain ⟨-, rfl⟩ := Prod.mk.inj h
      rw [List.nil_append, walk, ha, if_neg Bool.false_ne_true]
      have hnil : walk accept next l [] k = ([], k) := walk_nil_right
      exact ih hnil hl
    | cons c bs =>
      rw [walk] at h
      rw [List.cons_append, walk]
      split at h
      · next hc => rw [if_pos hc, ih h hl]
      · next hc => rw [if_neg hc, ← List.cons_append, ih h hl]

/-- A chain that lies in the list in order is found, if each of its links is the only element
accepted there. -/
theorem walk_of_chain (hch : Chain accept next k bs as) (hsub : as.Sublist l)
    (huniq : ∀ k b, ∀ a ∈ as, ∀ a' ∈ l, accept k b a = true → accept k b a' = true → a' = a) :
    walk accept next l bs k = ([], last next k as) := by
  induction l generalizing bs k as with
  | nil =>
    obtain rfl := List.sublist_nil.1 hsub
    cases bs with
    | nil => rfl
    | cons b bs => exact hch.elim
  | cons a l ih =>
    match bs, as, hch with
    | [], [], _ => rfl
    | b :: bs, c :: as, hch =>
      have hhead := huniq k b c List.mem_cons_self
      rw [walk]
      split
      · next ha =>
        obtain rfl := hhead a List.mem_cons_self hch.1 ha
        refine ih hch.2 hsub.tail fun k b x hx y hy => ?_
        exact huniq k b x (List.mem_cons_of_mem _ hx) y (List.mem_cons_of_mem _ hy)
      · next ha =>
        have hne : c ≠ a := by rintro rfl; exact ha hch.1
        have hsub' : (c :: as).Sublist l := (List.cons_sublist_cons'.1 hsub).resolve_right fun h => hne h.1
        exact ih hch hsub' fun k b x hx y hy => huniq k b x hx y (List.mem_cons_of_mem _ hy)

theorem Chain.length_eq (h : Chain accept next k bs as) : as.length = bs.length := by
  induction as generalizing bs k with
  | nil => cases bs with
    | nil => rfl
    | cons b bs => exact h.elim
  | cons a as ih => cases bs with
    | nil => exact h.elim
    | cons b bs => exact congrArg (· + 1) (ih h.2)

/-- Where at most one element is accepted at a time, there is at most one chain. -/
theorem Chain.unique {as' : List α} (h : Chain accept next k bs as) (h' : Chain accept next k bs as')
    (huniq : ∀ k b, ∀ a ∈ as, ∀ a' ∈ as', accept k b a = true → accept k b a' = true → a' = a) : as' = as := by
  induction as generalizing bs k as' with
  | nil =>
    obtain rfl := List.length_eq_zero_iff.1 h.length_eq.symm
    exact List.length_eq_zero_iff.1 h'.length_eq
  | cons a as ih =>
    match bs, as', h, h' with
    | b :: bs, a' :: as', h, h' =>
      obtain rfl := huniq k b a List.mem_cons_self a' List.mem_cons_self h.1 h'.1
      refine congrArg (a' :: ·) (ih h.2 h'.2 fun k b x hx y hy => ?_)
      exact huniq k b x (List.mem_cons_of_mem _ hx) y (List.mem_cons_of_mem _ hy)

theorem Chain.exists_singleton {b : β} (h : Chain accept next k [b] as) :
    ∃ a, as = [a] ∧ accept k b a = true := by
  match as, h with
  | [a], h => exact ⟨a, rfl, h.1⟩

/-- Two ways of writing down the state give the same chains. -/
theorem Chain.iff_map {κ' : Type} {accept' : κ' → β → α → Bool} (f : κ → κ') (K : κ → Prop)
    (hnext : ∀ a ∈ as, K (next a))
    (hacc : ∀ k, K k → ∀ b, ∀ a ∈ as, accept k b a = accept' (f k) b a) (hk : K k) :
    Chain accept next k bs as ↔ Chain accept' (fun a => f (next a)) (f k) bs as := by
  induction as generalizing bs k with
  | nil => cases bs <;> exact Iff.rfl
  | cons a as ih =>
    cases bs with
    | nil => exact Iff.rfl
    | cons b bs =>
      have hrest : Chain accept next (next a) bs as ↔ Chain accept' (fun a => f (next a)) (f (next a)) bs as :=
        ih (fun x hx => hnext x (List.mem_cons_of_mem _ hx))
          (fun k hk b x hx => hacc k hk b x (List.mem_cons_of_mem _ hx)) (hnext a List.mem_cons_self)
      exact and_congr (by rw [hacc k hk b a List.mem_cons_self]) hrest

theorem last_append_singleton {a : α} : last next k (as ++ [a]) = next a := by
  induction as generalizing k with
  | nil => rfl
  | cons b as ih => exact ih

theorem chain_concat {b : β} {a : α} : Chain accept next k (bs ++ [b]) (as ++ [a]) ↔
    Chain accept next k bs as ∧ accept (last next k as) b a = true := by
  induction bs generalizing k as with
  | nil => cases as with
    | nil => simp [Chain, last]
    | cons c as => cases as <;> simp [Chain]
  | cons d bs ih => cases as with
    | nil => cases bs <;> simp [Chain]
    | cons c as => exact (and_congr_right fun _ => ih).trans and_assoc.symm

/-- A pass that uses up at least one key stops behind the last element of its chain. -/
theorem exists_concat_of_walk (hbs : bs ≠ []) (h : walk accept next l bs k = ([], k')) :
    ∃ as a, (as ++ [a]).Sublist l ∧ Chain accept next k bs (as ++ [a]) ∧ next a = k' := by
  obtain ⟨as, hsub, hch, hlast⟩ := exists_chain_of_walk h
  rcases List.eq_nil_or_concat as with rfl | ⟨as, a, rfl⟩
  · exact absurd (List.length_eq_zero_iff.1 hch.length_eq.symm) hbs
  · rw [List.concat_eq_append] at hsub hch hlast
    rw [last_append_singleton] at hlast
    exact ⟨as, a, hsub, hch, hlast⟩

end Lemmas

end Greedy

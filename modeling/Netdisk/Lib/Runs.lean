import Mathlib.Data.List.Basic

/-!
# Runs of a labelled step relation

A run carries the states it passes through, so "in every state of the run" and "at every step of
the run" are statements about one list. `IsRun.always` is the invariant rule; `IsRun.always_iff` is
its sharp form, for an invariant that every good step keeps and every bad step breaks at once;
`Meets.iff` is the same for properties of single steps.
-/

namespace Runs

variable {σ ι : Type*} {step : σ → ι → σ → Prop} {P I : σ → Prop} {C D : σ → ι → Prop}

/-- The steps `r` can be taken one after another from `s`. -/
def IsRun (step : σ → ι → σ → Prop) : σ → List (ι × σ) → Prop
  | _, [] => True
  | s, (i, t) :: r => step s i t ∧ IsRun step t r

/-- `P` holds in every state of the run, the first one included. -/
def Always (P : σ → Prop) (s : σ) (r : List (ι × σ)) : Prop :=
  P s ∧ ∀ x ∈ r, P x.2

/-- Every step of the run meets `C`, a condition on its label and the state before it. -/
def Meets (C : σ → ι → Prop) : σ → List (ι × σ) → Prop
  | _, [] => True
  | s, (i, t) :: r => C s i ∧ Meets C t r

/-- The last state of the run. -/
def final : σ → List (ι × σ) → σ
  | s, [] => s
  | _, (_, t) :: r => final t r

/-- `t` is the last state of some run from `s`. -/
def Reaches (step : σ → ι → σ → Prop) (s t : σ) : Prop :=
  ∃ r, IsRun step s r ∧ final s r = t

/-- The run that a computable step takes on the labels `is`, up to the first one it refuses. -/
def trace (f : σ → ι → Option σ) : σ → List ι → List (ι × σ)
  | _, [] => []
  | s, i :: is => match f s i with
    | some t => (i, t) :: trace f t is
    | none => []

instance decidableIsRun (step : σ → ι → σ → Prop) [h : ∀ s i t, Decidable (step s i t)] :
    (s : σ) → (r : List (ι × σ)) → Decidable (IsRun step s r)
  | _, [] => isTrue trivial
  | s, (i, t) :: r => @instDecidableAnd _ _ (h s i t) (decidableIsRun step t r)

instance decidableMeets (C : σ → ι → Prop) [h : ∀ s i, Decidable (C s i)] :
    (s : σ) → (r : List (ι × σ)) → Decidable (Meets C s r)
  | _, [] => isTrue trivial
  | s, (i, t) :: r => @instDecidableAnd _ _ (h s i) (decidableMeets C t r)

section Lemmas
variable {s t : σ} {i : ι} {r r' : List (ι × σ)}

@[simp] theorem always_nil : Always P s ([] : List (ι × σ)) ↔ P s := by simp [Always]

@[simp] theorem always_cons : Always P s ((i, t) :: r) ↔ P s ∧ Always P t r := by simp [Always]

theorem Always.mono (hP : ∀ s, I s → P s) (h : Always I s r) : Always P s r :=
  ⟨hP s h.1, fun x hx => hP x.2 (h.2 x hx)⟩

theorem Always.final (h : Always P s r) : P (final s r) := by
  induction r generalizing s with
  | nil => exact h.1
  | cons x r ih => exact ih (always_cons.1 h).2

theorem final_append : final s (r ++ r') = final (final s r) r' := by
  induction r generalizing s with
  | nil => rfl
  | cons x r ih => exact ih

theorem IsRun.append (h : IsRun step s r) (h' : IsRun step (final s r) r') :
    IsRun step s (r ++ r') := by
  induction r generalizing s with
  | nil => exact h'
  | cons x r ih => exact ⟨h.1, ih h.2 h'⟩

theorem isRun_append : IsRun step s (r ++ r') ↔ IsRun step s r ∧ IsRun step (final s r) r' := by
  induction r generalizing s with
  | nil => exact ⟨fun h => ⟨trivial, h⟩, And.right⟩
  | cons x r ih => exact (and_congr_right fun _ => ih).trans and_assoc.symm

theorem meets_append : Meets C s (r ++ r') ↔ Meets C s r ∧ Meets C (final s r) r' := by
  induction r generalizing s with
  | nil => exact ⟨fun h => ⟨trivial, h⟩, And.right⟩
  | cons x r ih => exact (and_congr_right fun _ => ih).trans and_assoc.symm

/-- The invariant rule: `I` survives every step that meets `C`. -/
theorem IsRun.always (keep : ∀ s i t, I s → C s i → step s i t → I t)
    (hr : IsRun step s r) (hs : I s) (hC : Meets C s r) : Always I s r := by
  induction r generalizing s with
  | nil => exact always_nil.2 hs
  | cons x r ih => exact always_cons.2 ⟨hs, ih hr.2 (keep s x.1 x.2 hs hC.1 hr.1) hC.2⟩

theorem IsRun.meets_step (keep : ∀ s i t, I s → C s i → step s i t → I t) (toD : ∀ s i t, I s → C s i → step s i t → D s i)
    (hr : IsRun step s r) (hs : I s) (hC : Meets C s r) : Meets D s r := by
  induction r generalizing s with
  | nil => trivial
  | cons x r ih => exact ⟨toD s x.1 x.2 hs hC.1 hr.1, ih hr.2 (keep s x.1 x.2 hs hC.1 hr.1) hC.2⟩

theorem IsRun.meets (keep : ∀ s i t, I s → C s i → step s i t → I t) (toD : ∀ s i, I s → C s i → D s i)
    (hr : IsRun step s r) (hs : I s) (hC : Meets C s r) : Meets D s r :=
  hr.meets_step keep (fun s i _ hs hC _ => toD s i hs hC) hs hC

/-- The sharp rule: if a step that meets `C` keeps `I`, `I` gives `P`, and a step from `I` that
fails `C` loses `P`, then `P` holds along the run exactly when all its steps meet `C`. -/
theorem IsRun.always_iff (toP : ∀ s, I s → P s) (keep : ∀ s i t, I s → C s i → step s i t → I t)
    (lose : ∀ s i t, I s → ¬ C s i → step s i t → ¬ P t) (hr : IsRun step s r) (hs : I s) :
    Always P s r ↔ Meets C s r := by
  refine ⟨fun h => ?_, fun hC => (hr.always keep hs hC).mono toP⟩
  induction r generalizing s with
  | nil => trivial
  | cons x r ih =>
    have ht : P x.2 := (always_cons.1 h).2.1
    have hC : C s x.1 := by
      by_contra hC
      exact lose s x.1 x.2 hs hC hr.1 ht
    exact ⟨hC, ih hr.2 (keep s x.1 x.2 hs hC hr.1) (always_cons.1 h).2⟩

/-- The rule of forward simulation: if every step that meets `C` is matched by one of another system, which
keeps `R` and whose label goes with it, every run whose steps meet `C` is matched by a run of that system. -/
theorem IsRun.simulated {τ κ : Type*} {step' : τ → κ → τ → Prop} {R : σ → τ → Prop} {L : ι → κ → Prop}
    (sim : ∀ s i s' t, R s t → C s i → step s i s' → ∃ k t', step' t k t' ∧ L i k ∧ R s' t') {t : τ}
    (hr : IsRun step s r) (hs : R s t) (hC : Meets C s r) :
    ∃ r', IsRun step' t r' ∧ List.Forall₂ (fun x y => L x.1 y.1 ∧ R x.2 y.2) r r' := by
  induction r generalizing s t with
  | nil => exact ⟨[], trivial, .nil⟩
  | cons x r ih =>
    obtain ⟨k, t', hstep, hL, hR⟩ := sim s x.1 x.2 t hs hC.1 hr.1
    obtain ⟨r', hr', hall⟩ := ih hr.2 hR hC.2
    exact ⟨(k, t') :: r', ⟨hstep, hr'⟩, .cons ⟨hL, hR⟩ hall⟩

/-- The states at the end of two runs that go with each other do so too. -/
theorem final_of_forall₂ {τ κ : Type*} {L : ι → κ → Prop} {R : σ → τ → Prop} {t : τ} {r' : List (κ × τ)}
    (h : List.Forall₂ (fun x y => L x.1 y.1 ∧ R x.2 y.2) r r') (hR : R s t) : R (final s r) (final t r') := by
  induction h generalizing s t with
  | nil => exact hR
  | cons hxy _ ih => exact ih hxy.2

theorem exists_of_forall₂ {α β : Type*} {R : α → β → Prop} {l : List α} {l' : List β} {a : α}
    (h : List.Forall₂ R l l') (ha : a ∈ l) : ∃ b ∈ l', R a b := by
  induction h with
  | nil => cases ha
  | cons hab _ ih =>
    rcases List.mem_cons.1 ha with rfl | ha
    · exact ⟨_, List.mem_cons_self, hab⟩
    · obtain ⟨b, hb, hR⟩ := ih ha
      exact ⟨b, List.mem_cons_of_mem _ hb, hR⟩

theorem Meets.of_forall (h : ∀ s i, C s i) (s : σ) (r : List (ι × σ)) : Meets C s r := by
  induction r generalizing s with
  | nil => trivial
  | cons x r ih => exact ⟨h s x.1, ih x.2⟩

theorem Meets.mono (h : ∀ s i, C s i → D s i) (hC : Meets C s r) : Meets D s r := by
  induction r generalizing s with
  | nil => trivial
  | cons x r ih => exact ⟨h s x.1 hC.1, ih hC.2⟩

/-- What the steps of a run meet can be made a part of the step. -/
theorem IsRun.and_meets (hr : IsRun step s r) (hC : Meets C s r) : IsRun (fun s i t => C s i ∧ step s i t) s r := by
  induction r generalizing s with
  | nil => trivial
  | cons x r ih => exact ⟨⟨hC.1, hr.1⟩, ih hr.2 hC.2⟩

theorem Meets.and (hC : Meets C s r) (hD : Meets D s r) : Meets (fun s i => C s i ∧ D s i) s r := by
  induction r generalizing s with
  | nil => trivial
  | cons x r ih => exact ⟨⟨hC.1, hD.1⟩, ih hC.2 hD.2⟩

/-- Step properties that agree on every step of the system agree along its runs. -/
theorem Meets.iff (h : ∀ s i t, step s i t → (C s i ↔ D s i)) (hr : IsRun step s r) :
    Meets C s r ↔ Meets D s r := by
  induction r generalizing s with
  | nil => exact Iff.rfl
  | cons x r ih => exact and_congr (h s x.1 x.2 hr.1) (ih hr.2)

/-- The sharp rule for a condition `S` on the labels so far: if in a state that `I` relates to them a step has
`D` exactly under `S`, and a step under `S` keeps `I`, then all steps of a run have `D` exactly if each of
its labels meets `S` behind the ones before it. -/
theorem IsRun.meets_iff_history {I : List ι → σ → Prop} {S : List ι → ι → Prop} {hist : List ι}
    (sharp : ∀ hist s i, I hist s → (D s i ↔ S hist i))
    (keep : ∀ hist s i t, I hist s → S hist i → step s i t → I (hist ++ [i]) t) (hr : IsRun step s r) (hs : I hist s) :
    Meets D s r ↔ ∀ before i after, r.map Prod.fst = before ++ i :: after → S (hist ++ before) i := by
  induction r generalizing hist s with
  | nil =>
    refine iff_of_true trivial fun before i after h => ?_
    simp at h
  | cons x r ih =>
    obtain ⟨i, t⟩ := x
    constructor
    · rintro ⟨hD, hrest⟩ before j after h
      have hS := (sharp hist s i hs).1 hD
      cases before with
      | nil =>
        obtain ⟨rfl, -⟩ := List.cons.inj h
        rwa [List.append_nil]
      | cons k before =>
        obtain ⟨rfl, htail⟩ := List.cons.inj h
        have hnext := (ih hr.2 (keep hist s i t hs hS hr.1)).1 hrest before j after htail
        rwa [List.append_assoc, List.singleton_append] at hnext
    · intro h
      have hS : S hist i := by
        have hfirst := h [] i (r.map Prod.fst) rfl
        rwa [List.append_nil] at hfirst
      refine ⟨(sharp hist s i hs).2 hS, (ih hr.2 (keep hist s i t hs hS hr.1)).2 fun before j after hr' => ?_⟩
      have hnext := h (i :: before) j after (by rw [List.map_cons, hr', List.cons_append])
      rwa [List.append_assoc, List.singleton_append]

theorem Reaches.refl : Reaches step s s := ⟨[], trivial, rfl⟩

theorem Reaches.snoc {u : σ} (h : Reaches step s t) (ht : step t i u) : Reaches step s u := by
  obtain ⟨r, hr, rfl⟩ := h
  exact ⟨r ++ [(i, u)], hr.append ⟨ht, trivial⟩, by rw [final_append]; rfl⟩

/-- Every reachable state satisfies an invariant of the system. -/
theorem Reaches.inv (keep : ∀ s i t, I s → step s i t → I t) (hs : I s) (h : Reaches step s t) :
    I t := by
  obtain ⟨r, hr, rfl⟩ := h
  induction r generalizing s with
  | nil => exact hs
  | cons x r ih => exact ih (keep s x.1 x.2 hs hr.1) hr.2

theorem isRun_trace (f : σ → ι → Option σ) (s : σ) (is : List ι) :
    IsRun (fun s i t => f s i = some t) s (trace f s is) := by
  induction is generalizing s with
  | nil => trivial
  | cons i is ih =>
    cases h : f s i with
    | none => simp [trace, h, IsRun]
    | some t => simpa [trace, h, IsRun] using ih t

theorem meets_trace {f : σ → ι → Option σ} {Q : ι → Prop} {is : List ι} (h : ∀ i ∈ is, Q i) (s : σ) :
    Meets (fun _ i => Q i) s (trace f s is) := by
  induction is generalizing s with
  | nil => trivial
  | cons i is ih =>
    obtain ⟨hi, hrest⟩ := List.forall_mem_cons.1 h
    cases hf : f s i with
    | none => simp [trace, hf, Meets]
    | some t => simpa [trace, hf, Meets] using ⟨hi, ih hrest t⟩

theorem meets_trace_cons {f : σ → ι → Option σ} {is : List ι} (hi : C s i)
    (h : ∀ t, f s i = some t → Meets C t (trace f t is)) : Meets C s (trace f s (i :: is)) := by
  rw [trace]
  split
  · next t ht => exact ⟨hi, h t ht⟩
  · trivial

theorem isRun_trace_append (f : σ → ι → Option σ) (s : σ) (is is' : List ι) :
    IsRun (fun s i t => f s i = some t) s (trace f s is ++ trace f (final s (trace f s is)) is') :=
  (isRun_trace f s is).append (isRun_trace f _ is')

theorem meets_trace_append {f : σ → ι → Option σ} {Q : ι → Prop} {is is' : List ι} (h : ∀ i ∈ is, Q i)
    (h' : ∀ i ∈ is', Q i) (s : σ) :
    Meets (fun _ i => Q i) s (trace f s is ++ trace f (final s (trace f s is)) is') :=
  meets_append.2 ⟨meets_trace h s, meets_trace h' _⟩

theorem Reaches.of_trace (f : σ → ι → Option σ) (s : σ) (is : List ι) :
    Reaches (fun s i t => f s i = some t) s (final s (trace f s is)) :=
  ⟨_, isRun_trace f s is, rfl⟩

end Lemmas

end Runs

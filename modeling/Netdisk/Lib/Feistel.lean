import Mathlib.Logic.Function.Basic

/-!
# Feistel networks

A round mixes a function of one half into the other and exchanges the halves. The round functions are
arbitrary; all that is asked of the mixing is that mixing the same value in twice undoes it.
`run_reverse` is the reason such a cipher is decrypted by the code that encrypts: the same rounds the
other way round take the exchanged result back.
-/

namespace Feistel

variable {α : Type} (mix : α → α → α)

def round (f : α → α) (b : α × α) : α × α := (mix b.2 (f b.1), b.1)

def run (fs : List (α → α)) (b : α × α) : α × α := fs.foldl (fun b f => round mix f b) b

@[simp] theorem run_nil (b : α × α) : run mix [] b = b := rfl

@[simp] theorem run_cons (f : α → α) (fs : List (α → α)) (b : α × α) :
    run mix (f :: fs) b = run mix fs (round mix f b) := rfl

theorem run_append (fs gs : List (α → α)) (b : α × α) : run mix (fs ++ gs) b = run mix gs (run mix fs b) :=
  List.foldl_append

variable {mix} (hmix : ∀ a b, mix (mix a b) b = a)

include hmix

/-- A round, on exchanged halves, is undone by itself. -/
theorem round_swap_round (f : α → α) (b : α × α) : round mix f (round mix f b).swap = b.swap := by
  simp only [round, Prod.fst_swap, Prod.snd_swap, hmix]
  rfl

theorem run_reverse (fs : List (α → α)) (b : α × α) : run mix fs.reverse (run mix fs b).swap = b.swap := by
  induction fs generalizing b with
  | nil => rfl
  | cons f fs ih =>
    rw [run_cons, List.reverse_cons, run_append, ih, run_cons, run_nil]
    exact round_swap_round hmix f b

theorem run_bijective (fs : List (α → α)) : Function.Bijective (run mix fs) := by
  refine Function.bijective_iff_has_inverse.2 ⟨fun b => (run mix fs.reverse b.swap).swap, fun b => ?_, fun b => ?_⟩
  · exact (congrArg Prod.swap (run_reverse hmix fs b)).trans (Prod.swap_swap b)
  · have h := run_reverse hmix fs.reverse b.swap
    rw [List.reverse_reverse] at h
    exact h.trans (Prod.swap_swap b)

end Feistel

import Netdisk.Lib.Arrays
import Netdisk.TypedLine

/-!
# When `remove_space` normalises

`remove_space` is the same on both sides. It looks for an earlier space in the original string, where
line breaks still stand, and repairs the end of `temp` at an index that may be `-1`: it normalises
(`Normalises`) exactly the strings that are `Unbroken`.
-/

namespace Netdisk
open Arrays Logged

namespace RemoveSpace

inductive Buffer where
  | argument | temp
deriving DecidableEq

/-- Both have room for the terminator. -/
def size (argument : CStr) (_ : Buffer) : Nat := argument.length + 1

/-- `temp[j++] = c` -/
def put (v : CStr × Nat) (c : Char) : Logged Buffer (CStr × Nat) := do
  let temp ← writeAt .temp v.1 v.2 c
  pure (temp, v.2 + 1)

/-- One iteration, on `temp` and `j`. -/
def iteration (argument : CStr) (v : CStr × Nat) (i : Nat) : Logged Buffer (CStr × Nat) := do
  let c ← readAt .argument argument '\x00' i
  if i = 0 ∧ c = ' ' then pure v
  else if c = ' ' then
    let prev ← readAt .argument argument '\x00' ((i : Int) - 1)
    if prev = ' ' then pure v else put v c
  else if c = '\n' then pure v
  else put v c

/-- `if(temp[j-1]==' ') temp[j-1] = '\0';` -/
def cut (temp : CStr) (j : Nat) : Logged Buffer CStr := do
  let last ← readAt .temp temp '\x00' ((j : Int) - 1)
  if last = ' ' then writeAt .temp temp ((j : Int) - 1) '\x00' else pure temp

end RemoveSpace

/-- `remove_space` with its accesses. -/
def removeSpaceLog (argument : CStr) : Logged RemoveSpace.Buffer CStr := do
  let (temp, j) ← (List.range' 0 argument.length).foldlM (RemoveSpace.iteration argument)
    (List.replicate (argument.length + 1) '\x00', 0)
  let temp ← RemoveSpace.cut temp j
  let blank ← fill .argument (argument ++ ['\x00']) argument.length '\x00'
  let res ← copyN '\x00' .argument blank .temp temp j
  pure (res.takeWhile (· ≠ '\x00'))

/-! ### What a normal form is -/

def IsBlank (c : Char) : Prop := c = ' ' ∨ c = '\n'

instance : DecidablePred IsBlank := fun _ => inferInstanceAs (Decidable (_ ∨ _))

/-- The characters that are not blank, each with whether a space stands in front of it, behind the one
before; `seen` says so for the first. -/
def marked : (seen : Bool) → CStr → List (Char × Bool)
  | _, [] => []
  | seen, c :: s =>
    if c = ' ' then marked true s
    else if c = '\n' then marked seen s
    else (c, seen) :: marked false s

/-- `remove_space` stays inside its strings and leaves the normal form of `s`. -/
structure Normalises (s : CStr) : Prop where
  inBounds : ∀ x ∈ (removeSpaceLog s).log, x.Within (RemoveSpace.size s)
  tidy : Tidy (removeSpace s)
  others : (removeSpace s).filter (¬ IsBlank ·) = s.filter (¬ IsBlank ·)
  separated : marked true (removeSpace s) = marked true s
  fixed : removeSpace (removeSpace s) = removeSpace s

/-- Back to an earlier space, or to the start, there are only blanks. -/
def Open (s : CStr) : Prop := ∃ pre gap, s = pre ++ gap ∧ (∀ c ∈ gap, IsBlank c) ∧ (pre = [] ∨ pre.getLast? = some ' ')

/-- A line break directly in front of a space splits the blanks at the start, or those behind a space. -/
def Interrupted (s : CStr) : Prop := ∃ pre post, s = pre ++ '\n' :: ' ' :: post ∧ Open pre

/-- The strings that `remove_space` normalises: no gap is interrupted, or there is nothing but blanks and
exactly one line break directly in front of a space. -/
def Unbroken (s : CStr) : Prop :=
  ((∃ c ∈ s, ¬ IsBlank c) ∧ ¬ Interrupted s) ∨ ((∀ c ∈ s, IsBlank c) ∧ (s.zip s.tail).count ('\n', ' ') = 1)

/-- The loop only leaves characters out. -/
theorem removeSpaceLoop_sublist (prev : Option Char) (s : CStr) : (removeSpaceLoop prev s).Sublist s := by
  induction s generalizing prev with
  | nil => exact .slnil
  | cons c s ih =>
    rw [removeSpaceLoop]
    split
    · exact (ih _).cons c
    split
    · exact (ih _).cons c
    split
    · exact (ih _).cons c
    · exact (ih _).cons_cons c

theorem removeSpace_sublist_loop (s : CStr) : (removeSpace s).Sublist (removeSpaceLoop none s) := by
  unfold removeSpace
  dsimp only
  split
  · exact List.dropLast_sublist _
  · exact .refl _

theorem removeSpace_sublist (s : CStr) : (removeSpace s).Sublist s :=
  (removeSpace_sublist_loop s).trans (removeSpaceLoop_sublist none s)

/-! ### The accesses -/

namespace RemoveSpace
variable {argument pre rest t : CStr} {v : CStr × Nat} {i : Nat} {c : Char}

theorem iteration_j (argument : CStr) (v : CStr × Nat) (i : Nat) : (iteration argument v i).val.2 ≤ v.2 + 1 := by
  have hput (c : Char) : (put v c).val.2 ≤ v.2 + 1 := Nat.le_refl _
  have hskip : v.2 ≤ v.2 + 1 := Nat.le_succ _
  unfold iteration
  simp only [val_bind]
  split
  · exact hskip
  split
  · simp only [val_bind]
    split
    · exact hskip
    · exact hput _
  split
  · exact hskip
  · exact hput _

theorem loop_j (argument : CStr) (temp : CStr) (k : Nat) :
    ((List.range' 0 k).foldl (fun v i => (iteration argument v i).val) (temp, 0)).2 ≤ k := by
  induction k with
  | zero => exact Nat.le_refl 0
  | succ k ih =>
    rw [List.range'_1_concat, List.foldl_append]
    exact Nat.le_trans (iteration_j _ _ _) (Nat.succ_le_succ ih)

theorem iteration_within (hj : v.2 ≤ i) (hi : i < argument.length) :
    ∀ x ∈ (iteration argument v i).log, x.Within (size argument) := by
  have hput (c : Char) : ∀ x ∈ (put v c).log, x.Within (size argument) := by
    simp only [put, log_bind, log_writeAt, log_pure, List.append_nil, List.forall_mem_singleton]
    exact ⟨Int.natCast_nonneg _, Int.ofNat_lt.2 (by simp only [size]; omega)⟩
  unfold iteration
  simp only [log_bind, log_readAt, List.forall_mem_append, List.forall_mem_singleton]
  refine ⟨⟨Int.natCast_nonneg _, Int.ofNat_lt.2 (Nat.lt_succ_of_lt hi)⟩, ?_⟩
  split
  · simp
  next hfirst =>
  split
  · next hspace =>
    have hpos : i ≠ 0 := fun h => hfirst ⟨h, hspace⟩
    simp only [log_bind, log_readAt, List.forall_mem_append, List.forall_mem_singleton]
    refine ⟨⟨?_, ?_⟩, ?_⟩
    · show (0 : Int) ≤ (i : Int) - 1
      omega
    · show (i : Int) - 1 < (argument.length + 1 : Nat)
      omega
    · split
      · simp
      · exact hput _
  split
  · simp
  · exact hput _

/-- `temp` when `t` is written to it. -/
def filled (n : Nat) (t : CStr) : CStr := t ++ List.replicate (n - t.length) '\x00'

theorem put_filled {n : Nat} (h : t.length < n) (c : Char) :
    (put (filled n t, t.length) c).val = (filled n (t ++ [c]), (t ++ [c]).length) := by
  have hroom : n - t.length = n - (t.length + 1) + 1 := by omega
  simp only [put, val_bind, val_writeAt, val_pure, filled, hroom, List.replicate_succ, Nat.sub_self, List.set_cons_zero,
    List.set_append_right _ _ (Nat.le_refl _), List.append_assoc, List.singleton_append, List.length_append,
    List.length_singleton]

/-- What an iteration does depends on the character and on the one in front of it. -/
theorem iteration_val (v : CStr × Nat) (pre rest : CStr) (c : Char) :
    (iteration (pre ++ c :: rest) v pre.length).val =
      if pre.getLast? = none ∧ c = ' ' then v
      else if c = ' ' ∧ pre.getLast? = some ' ' then v
      else if c = '\n' then v
      else (put v c).val := by
  have hget : (readAt Buffer.argument (pre ++ c :: rest) '\x00' (pre.length : Nat)).val = c := by simp
  have hlast {p : Char} (h : pre.getLast? = some p) :
      (readAt Buffer.argument (pre ++ c :: rest) '\x00' ((pre.length : Int) - 1)).val = p := by
    obtain ⟨front, rfl⟩ := List.getLast?_eq_some_iff.1 h
    rw [val_readAt_eq (k := front.length) (by simp)]
    simp
  simp only [iteration, val_bind, hget, val_ite, val_pure]
  cases hpre : pre.getLast? with
  | none =>
    obtain rfl := List.getLast?_eq_none_iff.1 hpre
    by_cases hc : c = ' '
    · simp [hc]
    · simp [hc]
  | some p =>
    have hne : pre.length ≠ 0 := by
      rintro h
      rw [List.length_eq_zero_iff.1 h] at hpre
      cases hpre
    rw [hlast hpre]
    by_cases hc : c = ' '
    · simp [hc, hne]
    · simp [hc]

theorem loop_val {n : Nat} (hn : t.length + rest.length ≤ n) :
    ((List.range' pre.length rest.length).foldlM (iteration (pre ++ rest)) (filled n t, t.length)).val =
      (filled n (t ++ removeSpaceLoop pre.getLast? rest), (t ++ removeSpaceLoop pre.getLast? rest).length) := by
  induction rest generalizing pre t with
  | nil => simp [removeSpaceLoop]
  | cons c rest ih =>
    rw [List.length_cons] at hn
    have hassoc : pre ++ c :: rest = (pre ++ [c]) ++ rest := by simp
    have hlen : (pre ++ [c]).length = pre.length + 1 := List.length_append
    have hskip := @ih (pre ++ [c]) t (by omega)
    have hkeep := @ih (pre ++ [c]) (t ++ [c]) (by simp; omega)
    rw [hlen, ← hassoc, List.getLast?_concat] at hskip hkeep
    rw [List.length_cons, List.range'_succ, List.foldlM_cons, val_bind, iteration_val, removeSpaceLoop]
    split
    · exact hskip
    split
    · exact hskip
    split
    · exact hskip
    · rw [put_filled (by omega), hkeep, List.append_assoc, List.singleton_append]

theorem removeSpaceLoop_loop (s : CStr) :
    ((List.range' 0 s.length).foldlM (iteration s) (List.replicate (s.length + 1) '\x00', 0)).val =
      (filled (s.length + 1) (removeSpaceLoop none s), (removeSpaceLoop none s).length) := by
  exact @loop_val [] s [] (s.length + 1) (by simp)

theorem cut_val {n : Nat} (h : t.length ≤ n) :
    (cut (filled n t) t.length).val = filled n (if t.getLast? = some ' ' then t.dropLast else t) := by
  cases t using List.reverseRecOn with
  | nil => simp [cut, readAt]
  | append_singleton front c =>
    have hidx : (((front ++ [c]).length : Nat) : Int) - 1 = front.length := by simp
    rw [List.length_append, List.length_singleton] at h
    have hroom : n - front.length = n - (front.length + 1) + 1 := by omega
    simp only [cut, val_bind, hidx, val_readAt, val_ite, val_writeAt, val_pure, List.getLast?_concat, Option.some.injEq,
      List.dropLast_concat]
    have hget : (filled n (front ++ [c])).getD front.length '\x00' = c := by simp [filled]
    rw [hget]
    split
    · simp [filled, hroom, List.replicate_succ]
    · rfl

end RemoveSpace

section Log
variable {s : CStr}
open RemoveSpace

theorem takeWhile_filled {n : Nat} {t : CStr} (ht : '\x00' ∉ t) : (filled n t).takeWhile (· ≠ '\x00') = t := by
  have hall : ∀ x ∈ t, decide (x ≠ '\x00') = true := fun x hx => decide_eq_true fun h => ht (h ▸ hx)
  rw [filled, List.takeWhile_append_of_pos hall, List.takeWhile_replicate]
  simp

/-- The string that is left in `argument`. -/
theorem removeSpaceLog_val (hs : '\x00' ∉ s) : (removeSpaceLog s).val = removeSpace s := by
  have hle := (removeSpaceLoop_sublist none s).length_le
  have hnul : '\x00' ∉ removeSpace s := fun h => hs ((removeSpace_sublist s).subset h)
  have hcut : (cut (filled (s.length + 1) (removeSpaceLoop none s)) (removeSpaceLoop none s).length).val =
      filled (s.length + 1) (removeSpace s) := cut_val (Nat.le_succ_of_le hle)
  have htake : (removeSpace s).take (removeSpaceLoop none s).length = removeSpace s :=
    List.take_of_length_le (removeSpace_sublist_loop s).length_le
  simp only [removeSpaceLog, val_bind, removeSpaceLoop_loop, hcut, val_pure, copyN, takeWhile_filled hnul, htake]
  have hall : ∀ x ∈ removeSpace s, decide (x ≠ '\x00') = true := fun x hx => decide_eq_true fun h => hnul (h ▸ hx)
  have hblank : (fill Buffer.argument (s ++ ['\x00']) s.length '\x00').val = List.replicate (s.length + 1) '\x00' := by
    simp [fill, List.replicate_succ']
  rw [hblank, List.append_assoc, List.takeWhile_append_of_pos hall, List.drop_replicate, List.replicate_append_replicate,
    List.takeWhile_replicate]
  simp

theorem removeSpaceLog_within : (∀ x ∈ (removeSpaceLog s).log, x.Within (size s)) ↔ removeSpaceLoop none s ≠ [] := by
  have hle := (removeSpaceLoop_sublist none s).length_le
  have hloop : ∀ x ∈ ((List.range' 0 s.length).foldlM (iteration s) (List.replicate (s.length + 1) '\x00', 0)).log,
      x.Within (size s) := by
    intro x hx
    obtain ⟨k, hk, hx⟩ := mem_log_loop.1 hx
    rw [Nat.zero_add] at hx
    exact iteration_within (loop_j s _ k) hk x hx
  simp only [removeSpaceLog, log_bind, removeSpaceLoop_loop, log_pure, List.append_nil, List.forall_mem_append]
  constructor
  · rintro ⟨-, hcut, -⟩ hnil
    rw [hnil] at hcut
    have hread := hcut (.read .temp ((0 : Nat) - 1)) List.mem_cons_self
    exact absurd hread.1 (by decide)
  · intro hne
    have hpos := List.length_pos_iff.2 hne
    have hidx (w : Access Buffer) (hw : w.idx = ((removeSpaceLoop none s).length : Int) - 1) : w.Within (size s) := by
      refine ⟨by omega, ?_⟩
      show w.idx < (s.length + 1 : Nat)
      omega
    have hfill : s.length ≤ size s .argument := Nat.le_succ _
    have hroom (b : Buffer) : (removeSpaceLoop none s).length ≤ size s b := Nat.le_succ_of_le hle
    refine ⟨hloop, ?_, within_fill hfill, within_copyN (hroom _) (hroom _)⟩
    simp only [cut, log_bind, log_readAt, List.forall_mem_append, List.forall_mem_singleton]
    refine ⟨hidx _ rfl, ?_⟩
    split
    · simpa using hidx (.write .temp _) rfl
    · simp

end Log

/-! ### The characters -/

section Characters
variable {s t : CStr} {prev : Option Char}

theorem newline_not_mem_loop (prev : Option Char) (s : CStr) : '\n' ∉ removeSpaceLoop prev s := by
  induction s generalizing prev with
  | nil => exact List.not_mem_nil
  | cons c s ih =>
    rw [removeSpaceLoop]
    split
    · exact ih _
    split
    · exact ih _
    split
    · exact ih _
    · next hbreak => exact List.not_mem_cons_of_ne_of_not_mem (Ne.symm hbreak) (ih _)

theorem loop_others (prev : Option Char) (s : CStr) :
    (removeSpaceLoop prev s).filter (¬ IsBlank ·) = s.filter (¬ IsBlank ·) := by
  induction s generalizing prev with
  | nil => rfl
  | cons c s ih =>
    have hblank (h : c = ' ' ∨ c = '\n') : (removeSpaceLoop (some c) s).filter (¬ IsBlank ·) = (c :: s).filter (¬ IsBlank ·) := by
      have hc : IsBlank c := h
      rw [ih, List.filter_cons_of_neg (by simpa using hc)]
    rw [removeSpaceLoop]
    split
    · next h => exact hblank (.inl h.2)
    split
    · next h => exact hblank (.inl h.1)
    split
    · next h => exact hblank (.inr h)
    · simp only [List.filter_cons, ih]

/-- Of the spaces in a gap the loop keeps one at least. -/
theorem loop_marked {seen : Bool} (hseen : prev = none ∨ prev = some ' ' → seen = true) :
    marked seen (removeSpaceLoop prev s) = marked seen s := by
  induction s generalizing prev seen with
  | nil => rfl
  | cons c s ih =>
    rw [removeSpaceLoop, marked]
    split
    · next h => 
      rw [if_pos h.2, hseen (.inl h.1)]
      exact ih fun _ => rfl
    split
    · next h =>
      rw [if_pos h.1, hseen (.inr h.2)]
      exact ih fun _ => rfl
    split
    · next h =>
      rw [if_neg (by rw [h]; decide)]
      refine ih fun hc => ?_
      rw [h] at hc
      simp at hc
    · next h =>
      rw [marked, if_neg h]
      split
      · exact ih fun _ => rfl
      · next hspace =>
        have hnext : marked false (removeSpaceLoop (some c) s) = marked false s := ih fun hc => by
          simp [hspace] at hc
        rw [hnext]

theorem marked_space (seen : Bool) (t : CStr) : marked seen (t ++ [' ']) = marked seen t := by
  induction t generalizing seen with
  | nil => rfl
  | cons c t ih => simp only [List.cons_append, marked, ih]

/-- The repair at the end takes away one space at most. -/
theorem removeSpace_eq_or (s : CStr) : ((removeSpaceLoop none s).getLast? ≠ some ' ' ∧ removeSpace s = removeSpaceLoop none s) ∨
    removeSpaceLoop none s = removeSpace s ++ [' '] := by
  by_cases h : (removeSpaceLoop none s).getLast? = some ' '
  · right
    obtain ⟨front, hfront⟩ := List.getLast?_eq_some_iff.1 h
    rw [removeSpace, hfront]
    simp
  · exact .inl ⟨h, if_neg h⟩

theorem removeSpace_others (s : CStr) : (removeSpace s).filter (¬ IsBlank ·) = s.filter (¬ IsBlank ·) := by
  rw [← loop_others none s]
  rcases removeSpace_eq_or s with ⟨-, h⟩ | h
  · rw [h]
  · rw [h, List.filter_append]
    simp [IsBlank]

theorem removeSpace_marked (s : CStr) : marked true (removeSpace s) = marked true s := by
  have hloop : marked true (removeSpaceLoop none s) = marked true s := loop_marked fun _ => rfl
  rw [← hloop]
  rcases removeSpace_eq_or s with ⟨-, h⟩ | h
  · rw [h]
  · rw [h, marked_space]

end Characters

/-! ### The spaces -/

section Spaces
variable {s t : CStr}

theorem open_nil : Open [] := ⟨[], [], rfl, nofun, .inl rfl⟩

theorem open_space (s : CStr) : Open (s ++ [' ']) := ⟨s ++ [' '], [], (List.append_nil _).symm, nofun, .inr List.getLast?_concat⟩

theorem open_newline : Open (s ++ ['\n']) ↔ Open s := by
  constructor
  · rintro ⟨pre, gap, h, hgap, hpre⟩
    cases gap using List.reverseRecOn with
    | nil =>
      rw [List.append_nil] at h
      rw [← h] at hpre
      simp at hpre
    | append_singleton gap c =>
      rw [← List.append_assoc] at h
      obtain ⟨rfl, -⟩ := List.append_inj' h rfl
      exact ⟨pre, gap, rfl, fun c hc => hgap c (List.mem_append_left _ hc), hpre⟩
  · rintro ⟨pre, gap, rfl, hgap, hpre⟩
    refine ⟨pre, gap ++ ['\n'], List.append_assoc _ _ _, fun c hc => ?_, hpre⟩
    rcases List.mem_append.1 hc with hc | hc
    · exact hgap c hc
    · exact .inr (List.mem_singleton.1 hc)

theorem not_open_other {c : Char} (hc : ¬ IsBlank c) : ¬ Open (s ++ [c]) := by
  rintro ⟨pre, gap, h, hgap, hpre⟩
  cases gap using List.reverseRecOn with
  | nil =>
    rw [List.append_nil] at h
    rw [← h] at hpre
    rcases hpre with hpre | hpre
    · simp at hpre
    · rw [List.getLast?_concat, Option.some.injEq] at hpre
      exact hc (.inl hpre)
  | append_singleton gap d =>
    rw [← List.append_assoc] at h
    obtain ⟨-, h⟩ := List.append_inj' h rfl
    obtain ⟨rfl, -⟩ := List.cons.inj h
    exact hc (hgap c (by simp))

/-- One of the line breaks that interrupt a gap has its space in `rest`. -/
def Interrupts (pre rest : CStr) : Prop :=
  ∃ front post, pre ++ rest = front ++ '\n' :: ' ' :: post ∧ Open front ∧ post.length < rest.length

theorem interrupts_nil (s : CStr) : Interrupts [] s ↔ Interrupted s := by
  constructor
  · rintro ⟨front, post, h, hopen, -⟩
    exact ⟨front, post, h, hopen⟩
  · rintro ⟨front, post, h, hopen⟩
    refine ⟨front, post, h, hopen, ?_⟩
    rw [h]
    simp
    omega

theorem interrupts_cons (pre rest : CStr) (c : Char) :
    Interrupts pre (c :: rest) ↔ (c = ' ' ∧ pre.getLast? = some '\n' ∧ Open pre) ∨ Interrupts (pre ++ [c]) rest := by
  constructor
  · rintro ⟨front, post, h, hopen, hlen⟩
    rcases Nat.lt_succ_iff_lt_or_eq.1 hlen with hlen | hlen
    · exact .inr ⟨front, post, by simpa using h, hopen, hlen⟩
    · left
      have happend : pre ++ c :: rest = (front ++ ['\n']) ++ ' ' :: post := by simpa using h
      obtain ⟨rfl, htail⟩ := List.append_inj' happend (by simp [hlen])
      exact ⟨(List.cons.inj htail).1, List.getLast?_concat, open_newline.2 hopen⟩
  · rintro (⟨rfl, hlast, hopen⟩ | ⟨front, post, h, hopen, hlen⟩)
    · obtain ⟨front, rfl⟩ := List.getLast?_eq_some_iff.1 hlast
      exact ⟨front, rest, by simp, open_newline.1 hopen, Nat.lt_succ_self _⟩
    · exact ⟨front, post, by simpa using h, hopen, Nat.lt_succ_of_lt hlen⟩

theorem spaced_cons {c : Char} (hc : c ≠ ' ') : Spaced (c :: t) ↔ Spaced t := by
  refine List.isChain_cons.trans ⟨And.right, fun h => ⟨fun b _ hb => hc hb.1, h⟩⟩

/-- What is written behind `pre` has no leading or doubled space, if `pre` ends in a gap that has got its
space, and no doubled one otherwise, unless a gap is interrupted. -/
theorem loop_spaced (pre rest : CStr) :
    (Open pre → (Spaced (' ' :: removeSpaceLoop pre.getLast? rest) ↔ ¬ Interrupts pre rest)) ∧
    (¬ Open pre → (Spaced (removeSpaceLoop pre.getLast? rest) ↔ ¬ Interrupts pre rest)) := by
  induction rest generalizing pre with
  | nil =>
    have hnone : ¬ Interrupts pre [] := fun ⟨_, _, _, _, h⟩ => Nat.not_lt_zero _ h
    exact ⟨fun _ => ⟨fun _ => hnone, fun _ => .singleton _⟩, fun _ => ⟨fun _ => hnone, fun _ => .nil⟩⟩
  | cons c rest ih =>
    obtain ⟨hopen, hshut⟩ := ih (pre ++ [c])
    rw [List.getLast?_concat] at hopen hshut
    rw [interrupts_cons, removeSpaceLoop]
    by_cases hspace : c = ' '
    · subst hspace
      have hspaced := hopen (open_space pre)
      by_cases hfirst : pre.getLast? = none
      · obtain rfl := List.getLast?_eq_none_iff.1 hfirst
        simpa [open_nil] using hspaced
      by_cases hagain : pre.getLast? = some ' '
      · obtain ⟨front, rfl⟩ := List.getLast?_eq_some_iff.1 hagain
        simpa [open_space] using hspaced
      simp only [hfirst, hagain, false_and, and_false, if_false, Char.reduceEq]
      constructor
      · intro hpre
        obtain ⟨p, hp⟩ := Option.ne_none_iff_exists'.1 hfirst
        have hbreak : p = '\n' := by
          obtain ⟨front, rfl⟩ := List.getLast?_eq_some_iff.1 hp
          by_contra hne
          have hother : ¬ IsBlank p := by
            rintro (rfl | rfl)
            · exact hagain hp
            · exact hne rfl
          exact not_open_other hother hpre
        subst hbreak
        have hdouble : ¬ Spaced (' ' :: ' ' :: removeSpaceLoop (some ' ') rest) :=
          fun h => (List.isChain_cons_cons.1 h).1 ⟨rfl, rfl⟩
        exact iff_of_false hdouble (not_not.2 (.inl ⟨trivial, hp, hpre⟩))
      · intro hpre
        simpa [hpre] using hspaced
    · simp only [hspace, false_and, and_false, if_false, false_or]
      by_cases hbreak : c = '\n'
      · subst hbreak
        rw [if_pos rfl]
        rw [open_newline] at hopen hshut
        exact ⟨hopen, hshut⟩
      · rw [if_neg hbreak]
        have hspaced := hshut (not_open_other fun h => h.elim hspace hbreak)
        have hhead : Spaced (' ' :: c :: removeSpaceLoop (some c) rest) ↔ Spaced (c :: removeSpaceLoop (some c) rest) :=
          List.isChain_cons_cons.trans (and_iff_right fun h => hspace h.2)
        rw [hhead, spaced_cons hspace]
        exact ⟨fun _ => hspaced, fun _ => hspaced⟩

/-- The text is in order up to its end exactly if no gap is interrupted. -/
theorem loop_spaced_iff (s : CStr) : Spaced (' ' :: removeSpaceLoop none s) ↔ ¬ Interrupted s := by
  have h := (loop_spaced [] s).1 open_nil
  rwa [interrupts_nil] at h

/-- Blanks alone come out as one space for each line break in front of a space. -/
theorem loop_blank {p : Char} (hp : IsBlank p) (hs : ∀ c ∈ s, IsBlank c) :
    removeSpaceLoop (some p) s = List.replicate (((p :: s).zip s).count ('\n', ' ')) ' ' := by
  induction s generalizing p with
  | nil => rfl
  | cons c s ih =>
    obtain ⟨hc, hs⟩ := List.forall_mem_cons.1 hs
    rw [removeSpaceLoop, ih hc hs, List.zip_cons_cons, List.count_cons]
    rcases hc with rfl | rfl
    · rcases hp with rfl | rfl
      · simp
      · simp [List.replicate_succ]
    · simp

theorem tidy_of_spaced (h : Spaced (' ' :: removeSpaceLoop none s)) : Tidy (removeSpace s) := by
  have hline : '\n' ∉ removeSpace s := fun hmem => newline_not_mem_loop none s ((removeSpace_sublist_loop s).subset hmem)
  have hhead {t : CStr} (ht : Spaced (' ' :: t)) : t.head? ≠ some ' ' :=
    fun hhead => (List.isChain_cons.1 ht).1 ' ' hhead ⟨rfl, rfl⟩
  rcases removeSpace_eq_or s with ⟨hlast, heq⟩ | heq
  · rw [← heq] at h hlast
    exact ⟨hline, h.tail, hhead h, hlast⟩
  · rw [heq, ← List.cons_append] at h
    obtain ⟨hfront, -, hend⟩ := List.isChain_append.1 h
    refine ⟨hline, hfront.tail, hhead hfront, fun hlast => ?_⟩
    refine hend ' ' ?_ ' ' rfl ⟨rfl, rfl⟩
    rw [Option.mem_def, List.getLast?_cons, hlast]
    rfl

theorem spaced_of_tidy (h : Tidy (removeSpace s)) (hother : ∃ c ∈ s, ¬ IsBlank c) : Spaced (' ' :: removeSpaceLoop none s) := by
  have hspaced : Spaced (' ' :: removeSpace s) :=
    List.isChain_cons.2 ⟨fun b hb hab => h.head (hab.2 ▸ hb), h.spaced⟩
  rcases removeSpace_eq_or s with ⟨-, heq⟩ | heq
  · rwa [← heq]
  · obtain ⟨c, hc, hblank⟩ := hother
    have hmem : c ∈ (removeSpace s).filter (¬ IsBlank ·) := by
      rw [removeSpace_others]
      exact List.mem_filter.2 ⟨hc, by simpa using hblank⟩
    obtain ⟨d, r, hr⟩ := List.exists_cons_of_ne_nil (List.ne_nil_of_mem (List.mem_filter.1 hmem).1)
    rw [heq, ← List.cons_append]
    refine List.isChain_append.2 ⟨hspaced, .singleton _, fun x hx y _ hxy => h.last ?_⟩
    rw [hr, List.getLast?_cons_cons, ← hr, hxy.1] at hx
    exact hx

theorem loop_ne_nil (hother : ∃ c ∈ s, ¬ IsBlank c) : removeSpaceLoop none s ≠ [] := by
  obtain ⟨c, hc, hblank⟩ := hother
  have hmem : c ∈ (removeSpaceLoop none s).filter (¬ IsBlank ·) := by
    rw [loop_others]
    exact List.mem_filter.2 ⟨hc, by simpa using hblank⟩
  exact List.ne_nil_of_mem (List.mem_filter.1 hmem).1

theorem loop_blank_none (hs : ∀ c ∈ s, IsBlank c) :
    removeSpaceLoop none s = List.replicate ((s.zip s.tail).count ('\n', ' ')) ' ' := by
  cases s with
  | nil => rfl
  | cons c s =>
    obtain ⟨hc, hs⟩ := List.forall_mem_cons.1 hs
    have hfirst : removeSpaceLoop none (c :: s) = removeSpaceLoop (some c) s := by
      rw [removeSpaceLoop]
      rcases hc with rfl | rfl
      · simp
      · simp
    rw [hfirst, loop_blank hc hs, List.tail_cons]

end Spaces

/-- `remove_space` stays inside its strings and normalises exactly the unbroken ones. -/
theorem normalises_iff_unbroken (s : CStr) : Normalises s ↔ Unbroken s := by
  have hnormal : Normalises s ↔ removeSpaceLoop none s ≠ [] ∧ Tidy (removeSpace s) := by
    constructor
    · intro h
      exact ⟨removeSpaceLog_within.1 h.inBounds, h.tidy⟩
    · rintro ⟨hne, htidy⟩
      exact ⟨removeSpaceLog_within.2 hne, htidy, removeSpace_others s, removeSpace_marked s, htidy.removeSpace_eq⟩
  rw [hnormal]
  by_cases hother : ∃ c ∈ s, ¬ IsBlank c
  · have hblank : ¬ ∀ c ∈ s, IsBlank c := by
      obtain ⟨c, hc, hne⟩ := hother
      exact fun h => hne (h c hc)
    simp only [Unbroken, hother, hblank, loop_ne_nil hother, ne_eq, not_false_eq_true, true_and, false_and, or_false]
    rw [← loop_spaced_iff]
    exact ⟨fun h => spaced_of_tidy h hother, tidy_of_spaced⟩
  · have hblank : ∀ c ∈ s, IsBlank c := fun c hc => by_contra fun h => hother ⟨c, hc, h⟩
    simp only [Unbroken, hother, false_and, false_or]
    rw [and_iff_right hblank, loop_blank_none hblank, removeSpace, loop_blank_none hblank]
    generalize (s.zip s.tail).count ('\n', ' ') = n
    rcases n with _ | _ | n
    · simp
    · have hnil : Tidy [] := ⟨List.not_mem_nil, .nil, Option.some_ne_none _ ∘ Eq.symm, Option.some_ne_none _ ∘ Eq.symm⟩
      simpa using hnil
    · have hlast : (List.replicate (n + 2) ' ').getLast? = some ' ' := by
        rw [List.getLast?_replicate, if_neg (by omega)]
      have hfront : (List.replicate (n + 2) ' ').dropLast = ' ' :: List.replicate n ' ' := by
        rw [List.dropLast_replicate]
        rfl
      refine iff_of_false (fun h => h.2.head ?_) (by omega)
      rw [if_pos hlast, hfront]
      rfl

/-- An empty line: there is no `temp[j-1]`. -/
theorem removeSpace_emptyLine : ¬ Normalises ['\n'] := fun h => absurd h.inBounds (by decide)

example : ¬ Normalises "a \n b".toList := fun h => absurd h.tidy.spaced (by decide)

end Netdisk

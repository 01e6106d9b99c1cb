import Mathlib.Algebra.GroupWithZero.Nat
import Netdisk.Lib.Literals

/-!
# Formats with strings between quotes

A `printf` format with `%s` and `%lu` as a template of a statement: each `%s` stands between quotes and is
meant as a literal that denotes its argument. `scan_vsprintf_iff` is `scan_render_iff` for the texts that
are printed with such a format, `length_vsprintf` says how long they are.
-/

namespace Literals

/-- An argument: a string, or an `unsigned long`. -/
inductive Arg where
  | str (s : List Char)
  | long (n : Nat)

/-- What is printed for it. -/
def Arg.text : Arg → List Char
  | str s => s
  | long n => Nat.toDigits 10 n

/-- `vsprintf`, for the conversions `%s` and `%lu`. -/
def vsprintf : (format : List Char) → List Arg → List Char
  | '%' :: 's' :: format, .str s :: args => s ++ vsprintf format args
  | '%' :: 'l' :: 'u' :: format, .long n :: args => Nat.toDigits 10 n ++ vsprintf format args
  | c :: format, args => c :: vsprintf format args
  | [], _ => []

/-- A part of a format; `const` is a literal without conversions, `str` a literal that is filled in. -/
inductive Part where
  | code (c : Char)
  | const (s : List Char)
  | str
  | long
deriving DecidableEq

/-- The parts of a format, or of the rest of it behind `v` in a literal. -/
def parse : (v : Option (List Char)) → (format : List Char) → Option (List Part)
  | none, [] => some []
  | some _, [] => none
  | none, '%' :: 'l' :: 'u' :: format => (parse none format).map (.long :: ·)
  | none, c :: format =>
    if c = '\x27' then parse (some []) format
    else if c = '%' then none
    else (parse none format).map (.code c :: ·)
  | some [], '%' :: 's' :: '\x27' :: format => (parse none format).map (.str :: ·)
  | some v, c :: format =>
    if c = '\x27' then (parse none format).map (.const v :: ·)
    else if c = '%' then none
    else parse (some (v ++ [c])) format

/-- The parts with the arguments in their places. -/
def fill : List Part → List Arg → List Piece
  | .code c :: parts, args => .code [c] :: fill parts args
  | .const s :: parts, args => .quoted s :: fill parts args
  | .str :: parts, .str s :: args => .quoted s :: fill parts args
  | .long :: parts, .long n :: args => .code (Nat.toDigits 10 n) :: fill parts args
  | _, _ => []

/-- The arguments are those that the parts ask for. -/
def takes : List Part → List Arg → Bool
  | .code _ :: parts, args | .const _ :: parts, args => takes parts args
  | .str :: parts, .str _ :: args | .long :: parts, .long _ :: args => takes parts args
  | [], [] => true
  | _, _ => false

/-- What is printed besides the arguments. -/
def width : List Part → Nat
  | [] => 0
  | .code _ :: parts => width parts + 1
  | .const s :: parts => width parts + s.length + 2
  | .str :: parts => width parts + 2
  | .long :: parts => width parts

instance : DecidablePred Special := fun c => inferInstanceAs (Decidable (c = '\x27' ∨ c = '\x5c'))

/-- Nothing, or a character that is neither a quote nor a backslash. -/
def clear : List Part → Bool
  | [] => true
  | .code c :: _ => ¬ Special c
  | _ => false

/-- What is written in the format is read as it is written. -/
def sound : List Part → Bool
  | [] => true
  | .code c :: parts => c ≠ '\x27' && sound parts
  | .const s :: parts => s.all (¬ Special ·) && clear parts && sound parts
  | .str :: parts => clear parts && sound parts
  | .long :: parts => sound parts

/-- The parts of a format that has no literal left open and no conversion out of place. -/
def partsOf (format : List Char) : List Part := (parse none format).getD []

/-- A format whose strings stand between quotes, with its arguments. -/
def fits (format : List Char) (args : List Arg) : Bool :=
  (parse none format).any fun parts => sound parts && takes parts args

/-- What is open of a literal. -/
def opened : Option (List Char) → List Char
  | none => []
  | some v => '\x27' :: v

section Templates
variable {format : List Char} {args : List Arg} {parts : List Part} {c : Char} {s : List Char}

theorem vsprintf_char (hc : c ≠ '%') : vsprintf (c :: format) args = c :: vsprintf format args := by
  rw [vsprintf]
  · intro _ _ _ _ h _
    exact hc h
  · intro _ _ _ _ h _
    exact hc h

theorem exists_of_takes_str (h : takes (.str :: parts) args = true) : ∃ s args', args = .str s :: args' ∧ takes parts args' = true := by
  rcases args with _ | ⟨_ | _, args⟩
  · exact absurd h Bool.false_ne_true
  · exact ⟨_, args, rfl, h⟩
  · exact absurd h Bool.false_ne_true

theorem exists_of_takes_long (h : takes (.long :: parts) args = true) : ∃ n args', args = .long n :: args' ∧ takes parts args' = true := by
  rcases args with _ | ⟨_ | _, args⟩
  · exact absurd h Bool.false_ne_true
  · exact absurd h Bool.false_ne_true
  · exact ⟨_, args, rfl, h⟩

/-- Where nothing is filled in any more, nothing was asked for. -/
theorem nil_of_takes (hcode : ∀ c parts', parts = .code c :: parts' → False)
    (hconst : ∀ s parts', parts = .const s :: parts' → False)
    (hstr : ∀ parts' s args', parts = .str :: parts' → args = .str s :: args' → False)
    (hlong : ∀ parts' n args', parts = .long :: parts' → args = .long n :: args' → False)
    (h : takes parts args = true) : parts = [] ∧ args = [] := by
  rcases parts with _ | ⟨c | s | _ | _, parts⟩
  · rcases args with _ | ⟨a, args⟩
    · exact ⟨rfl, rfl⟩
    · exact absurd h Bool.false_ne_true
  · exact absurd rfl (hcode c parts)
  · exact absurd rfl (hconst s parts)
  · obtain ⟨s, args, rfl, -⟩ := exists_of_takes_str h
    exact absurd rfl (hstr parts s args rfl)
  · obtain ⟨n, args, rfl, -⟩ := exists_of_takes_long h
    exact absurd rfl (hlong parts n args rfl)

/-- The text is the parts with the arguments in their places. -/
theorem opened_vsprintf {v : Option (List Char)} (h : parse v format = some parts) (ht : takes parts args = true) :
    opened v ++ vsprintf format args = (fill parts args).flatMap Piece.render := by
  rw [Piece.flatMap_render]
  fun_induction parse v format generalizing parts args with
  | case1 =>
    cases h
    rw [vsprintf]
    rfl
  | case2 => nomatch h
  | case3 format ih =>
    obtain ⟨parts, hparts, rfl⟩ := Option.map_eq_some_iff.1 h
    obtain ⟨n, args, rfl, ht⟩ := exists_of_takes_long ht
    exact congrArg (Nat.toDigits 10 n ++ ·) (ih hparts ht)
  | case4 format _ ih =>
    rw [vsprintf_char (by decide), ← ih h ht]
    rfl
  | case5 => nomatch h
  | case6 c format _ _ hc ih =>
    obtain ⟨parts, hparts, rfl⟩ := Option.map_eq_some_iff.1 h
    rw [vsprintf_char hc]
    exact congrArg (c :: ·) (ih hparts ht)
  | case7 format ih =>
    obtain ⟨parts, hparts, rfl⟩ := Option.map_eq_some_iff.1 h
    obtain ⟨s, args, rfl, ht⟩ := exists_of_takes_str ht
    have hquote : vsprintf ('\x27' :: format) args = '\x27' :: vsprintf format args := vsprintf_char (by decide)
    show '\x27' :: (s ++ vsprintf ('\x27' :: format) args) = _
    rw [hquote]
    exact congrArg (fun t => '\x27' :: (s ++ '\x27' :: t)) (ih hparts ht)
  | case8 v format _ ih =>
    obtain ⟨parts, hparts, rfl⟩ := Option.map_eq_some_iff.1 h
    rw [vsprintf_char (by decide)]
    exact congrArg (fun t => '\x27' :: (v ++ '\x27' :: t)) (ih hparts ht)
  | case9 => nomatch h
  | case10 v c format _ _ hc ih =>
    rw [vsprintf_char hc, ← ih h ht]
    simp [opened]

theorem outside_fill (h : clear parts = true) : Outside ((fill parts args).flatMap Piece.render) := by
  rcases parts with _ | ⟨c | _ | _ | _, parts⟩
  · intro c hc
    cases hc
  · intro d hd
    have hdc : c = d := by simpa [fill, Piece.render] using hd
    exact hdc ▸ of_decide_eq_true h
  all_goals exact absurd h Bool.false_ne_true

theorem wellFormed_fill (h : sound parts = true) : WellFormed (fill parts args) := by
  fun_induction fill parts args with
  | case1 c parts args ih =>
    obtain ⟨hc, h⟩ := Bool.and_eq_true_iff.1 h
    exact ⟨fun hq => of_decide_eq_true hc (List.mem_singleton.1 hq).symm, ih h⟩
  | case2 s parts args ih =>
    obtain ⟨h, hparts⟩ := Bool.and_eq_true_iff.1 h
    exact ⟨outside_fill (Bool.and_eq_true_iff.1 h).2, ih hparts⟩
  | case3 parts s args ih =>
    obtain ⟨hclear, hparts⟩ := Bool.and_eq_true_iff.1 h
    exact ⟨outside_fill hclear, ih hparts⟩
  | case4 parts n args ih =>
    refine ⟨fun hq => ?_, ih h⟩
    exact absurd (Nat.isDigit_of_mem_toDigits (by decide) (by decide) hq) (by decide)
  | case5 => trivial

theorem plain_of_ordinary (h : ∀ c ∈ s, ¬ Special c) : Plain s := by
  induction s with
  | nil => exact .nil
  | cons c s ih => exact (Plain.cons_iff (h c (.head _))).2 (ih fun d hd => h d (.tail _ hd))

theorem plain_fill_iff (h : sound parts = true) (ht : takes parts args = true) :
    (∀ s, .quoted s ∈ fill parts args → Plain s) ↔ ∀ s, .str s ∈ args → Plain s := by
  fun_induction fill parts args with
  | case1 c parts args ih =>
    obtain ⟨-, h⟩ := Bool.and_eq_true_iff.1 h
    rw [← ih h ht]
    simp
  | case2 s parts args ih =>
    obtain ⟨h, hparts⟩ := Bool.and_eq_true_iff.1 h
    have hs : Plain s := plain_of_ordinary fun c hc => of_decide_eq_true (List.all_eq_true.1 (Bool.and_eq_true_iff.1 h).1 c hc)
    rw [← ih hparts ht]
    simp [hs]
  | case3 parts s args ih =>
    obtain ⟨-, hparts⟩ := Bool.and_eq_true_iff.1 h
    simp [ih hparts ht]
  | case4 parts n args ih => simp [ih h ht]
  | case5 parts args hcode hconst hstr hlong =>
    obtain ⟨rfl, rfl⟩ := nil_of_takes hcode hconst hstr hlong ht
    simp

theorem length_fill (ht : takes parts args = true) :
    ((fill parts args).flatMap Piece.render).length = width parts + (args.map fun a => a.text.length).sum := by
  fun_induction fill parts args with
  | case1 c parts args ih =>
    rw [List.flatMap_cons, List.length_append, ih ht, width, Piece.render]
    simp; omega
  | case2 s parts args ih =>
    rw [List.flatMap_cons, List.length_append, ih ht, width, Piece.render]
    simp; omega
  | case3 parts s args ih =>
    rw [List.flatMap_cons, List.length_append, ih ht, width, Piece.render]
    simp [Arg.text]; omega
  | case4 parts n args ih =>
    rw [List.flatMap_cons, List.length_append, ih ht, width, Piece.render]
    simp [Arg.text]; omega
  | case5 parts args hcode hconst hstr hlong =>
    obtain ⟨rfl, rfl⟩ := nil_of_takes hcode hconst hstr hlong ht
    rfl

/-- What a format and its arguments mean: the literals denote the strings. -/
def meaning (format : List Char) (args : List Arg) : List Tok := (fill (partsOf format) args).flatMap Piece.toks

theorem exists_of_fits (h : fits format args = true) :
    parse none format = some (partsOf format) ∧ sound (partsOf format) = true ∧ takes (partsOf format) args = true := by
  unfold fits at h
  unfold partsOf
  cases hparse : parse none format with
  | none =>
    rw [hparse] at h
    nomatch h
  | some parts =>
    rw [hparse] at h
    exact ⟨rfl, Bool.and_eq_true_iff.1 h⟩

/-- For the formats that are string literals. -/
theorem fits_ofList (h : fits format args = true) : fits (String.ofList format).toList args = true := by
  rwa [String.toList_ofList]

theorem scan_vsprintf_iff (h : fits format args = true) :
    scan none (vsprintf format args) = some (meaning format args) ↔ ∀ s, .str s ∈ args → Plain s := by
  obtain ⟨hparse, hsound, htakes⟩ := exists_of_fits h
  rw [← plain_fill_iff hsound htakes, ← scan_render_iff (wellFormed_fill hsound), ← opened_vsprintf hparse htakes]
  rfl

theorem length_vsprintf (h : fits format args = true) :
    (vsprintf format args).length = width (partsOf format) + (args.map fun a => a.text.length).sum := by
  obtain ⟨hparse, -, htakes⟩ := exists_of_fits h
  rw [← length_fill htakes, ← opened_vsprintf hparse htakes]
  rfl

end Templates

end Literals

import Netdisk.Client
import Netdisk.Worker
import Mathlib.Data.List.Chain
import Mathlib.Data.List.TakeWhile

/-!
# What a typed line means on either side

The client takes a line for a command by the letters it begins with, the server by its whole first
word. `agrees_iff_namesCommand`: the two sides, and the client's own splitting of `puts` and `gets`,
agree on a line exactly when its first word is the name of a command and it is not too long to be split,
or the client refuses it.
-/

namespace Netdisk

/-- A line as the user can type it: no line break but the one that ends it, if the input does not
end there. -/
structure Line where
  text : CStr
  ended : Bool
  oneLine : '\n' ∉ text

/-- What `read` delivers. -/
def Line.typed (line : Line) : CStr := if line.ended then line.text ++ ['\n'] else line.text

/-- The index in `command[]`. -/
def Command.no : Command → Nat
  | .cd => 0
  | .ls => 1
  | .ll => 2
  | .pwd => 3
  | .mkdir => 4
  | .puts => 5
  | .gets => 6
  | .rm => 7

/-- The text behind the first space. -/
def behindSpace (c : CStr) : CStr := (c.dropWhile (· ≠ ' ')).tail

/-- Both sides take the cleaned line for the command `i`, with the same arguments. -/
def AgreeOn (c : CStr) (i : Nat) : Prop :=
  (∃ command, dispatch c = some (command, behindSpace c) ∧ command.no = i) ∧
    (i = 5 ∨ i = 6 → ∃ argument1 argument2, spliteArgument (behindSpace c) = some (argument1, argument2) ∧
      transfileArguments c = some (some argument1, some argument2))

/-- If the client accepts the line, the server takes it for the same. -/
def Line.Agrees (line : Line) : Prop :=
  ∀ i kind, classify (removeSpace line.typed) = some (i, kind) → AgreeOn (removeSpace line.typed) i

/-- The line's first word is the name of a command, and a line for `transfile` fits `cmd` there. -/
def NamesCommand (c : CStr) : Prop :=
  c.takeWhile (· ≠ ' ') ∈ order ∧ (c.takeWhile (· ≠ ' ') ∈ ["puts".toList, "gets".toList] → c.length ≤ 255)

/-- If the client accepts the line, it names its command. -/
def Line.NamesCommand (line : Line) : Prop :=
  classify (removeSpace line.typed) ≠ none → Netdisk.NamesCommand (removeSpace line.typed)

/-! ### `remove_space` -/

/-- No two spaces follow one another. -/
abbrev Spaced (s : CStr) : Prop := s.IsChain fun a b => ¬ (a = ' ' ∧ b = ' ')

/-- A string that `remove_space` has nothing to do on. -/
structure Tidy (c : CStr) : Prop where
  oneLine : '\n' ∉ c
  spaced : Spaced c
  head : c.head? ≠ some ' '
  last : c.getLast? ≠ some ' '

section RemoveSpace
variable {s c : CStr} {prev : Option Char}

theorem removeSpaceLoop_newline (hs : '\n' ∉ s) : removeSpaceLoop prev (s ++ ['\n']) = removeSpaceLoop prev s := by
  induction s generalizing prev with
  | nil => cases prev <;> rfl
  | cons a s ih =>
    have hrest : removeSpaceLoop (some a) (s ++ ['\n']) = removeSpaceLoop (some a) s :=
      ih fun h => hs (List.mem_cons_of_mem _ h)
    simp only [List.cons_append, removeSpaceLoop, hrest]

theorem removeSpace_typed (line : Line) : removeSpace line.typed = removeSpace line.text := by
  unfold Line.typed
  split
  · rw [removeSpace, removeSpaceLoop_newline line.oneLine]
    rfl
  · rfl

/-- After a character of the string the loop drops line breaks and spaces behind a space. -/
theorem removeSpaceLoop_spec {p : Char} (hs : '\n' ∉ s) :
    '\n' ∉ removeSpaceLoop (some p) s ∧ Spaced (removeSpaceLoop (some p) s) ∧
      (p = ' ' → (removeSpaceLoop (some p) s).head? ≠ some ' ') := by
  induction s generalizing p with
  | nil => exact ⟨List.not_mem_nil, .nil, fun _ => nofun⟩
  | cons a s ih =>
    obtain ⟨hne, hs⟩ := not_or.1 (List.mem_cons.not.1 hs)
    obtain ⟨hmem, hspaced, hhead⟩ := ih (p := a) hs
    have hbreak : ¬ a = '\n' := Ne.symm hne
    by_cases hskip : a = ' ' ∧ p = ' '
    · obtain ⟨rfl, rfl⟩ := hskip
      have hdrop : removeSpaceLoop (some ' ') (' ' :: s) = removeSpaceLoop (some ' ') s := by
        simp [removeSpaceLoop]
      rw [hdrop]
      exact ⟨hmem, hspaced, hhead⟩
    · simp only [removeSpaceLoop, Option.some.injEq, hskip, hbreak, reduceCtorEq, false_and, if_false]
      refine ⟨List.not_mem_cons_of_ne_of_not_mem hne hmem, ?_, fun hp hhead' => hskip ⟨Option.some.inj hhead', hp⟩⟩
      refine List.isChain_cons.2 ⟨fun b hb hab => ?_, hspaced⟩
      exact hhead hab.1 (hab.2 ▸ hb)

theorem removeSpace_tidy (hs : '\n' ∉ s) : Tidy (removeSpace s) := by
  -- the first character is not behind another one
  have hloop : '\n' ∉ removeSpaceLoop none s ∧ Spaced (removeSpaceLoop none s) ∧
      (removeSpaceLoop none s).head? ≠ some ' ' := by
    cases s with
    | nil => exact ⟨List.not_mem_nil, .nil, nofun⟩
    | cons a s =>
      obtain ⟨hne, hs⟩ := not_or.1 (List.mem_cons.not.1 hs)
      obtain ⟨hmem, hspaced, hhead⟩ := removeSpaceLoop_spec (p := a) hs
      by_cases ha : a = ' '
      · simp only [removeSpaceLoop, ha, and_self, if_true]
        subst ha
        exact ⟨hmem, hspaced, hhead rfl⟩
      · simp only [removeSpaceLoop, ha, Ne.symm hne, and_false, false_and, if_false]
        refine ⟨List.not_mem_cons_of_ne_of_not_mem hne hmem, List.isChain_cons.2 ⟨fun b hb hab => ha hab.1, hspaced⟩, ?_⟩
        exact fun h => ha (Option.some.inj h)
  obtain ⟨hmem, hspaced, hhead⟩ := hloop
  unfold removeSpace
  dsimp only
  generalize removeSpaceLoop none s = temp at hmem hspaced hhead ⊢
  split
  · next hlast =>
    obtain ⟨front, rfl⟩ := List.getLast?_eq_some_iff.1 hlast
    rw [List.dropLast_concat]
    refine ⟨fun h => hmem (List.mem_append_left _ h), hspaced.left_of_append, fun h => hhead ?_, fun h => ?_⟩
    · rw [List.head?_append, h]
      rfl
    · obtain ⟨front', rfl⟩ := List.getLast?_eq_some_iff.1 h
      exact List.isChain_append.1 hspaced |>.2.2 ' ' (by simp) ' ' rfl ⟨rfl, rfl⟩
  · next hlast => exact ⟨hmem, hspaced, hhead, hlast⟩

theorem removeSpaceLoop_of_spaced {p : Char} (hs : '\n' ∉ s) (h : Spaced (p :: s)) : removeSpaceLoop (some p) s = s := by
  induction s generalizing p with
  | nil => rfl
  | cons a s ih =>
    obtain ⟨hne, hs⟩ := not_or.1 (List.mem_cons.not.1 hs)
    obtain ⟨hpa, hspaced⟩ := List.isChain_cons_cons.1 h
    have hskip : ¬ (a = ' ' ∧ p = ' ') := fun h => hpa h.symm
    have hbreak : ¬ a = '\n' := Ne.symm hne
    simp only [removeSpaceLoop, Option.some.injEq, hskip, hbreak, reduceCtorEq, false_and, if_false, ih hs hspaced]

theorem Tidy.removeSpace_eq (h : Tidy c) : removeSpace c = c := by
  have hloop : removeSpaceLoop none c = c := by
    cases c with
    | nil => rfl
    | cons a c =>
      obtain ⟨hne, hc⟩ := not_or.1 (List.mem_cons.not.1 h.oneLine)
      have ha : ¬ a = ' ' := fun ha => h.head (congrArg some ha)
      simp only [removeSpaceLoop, ha, Ne.symm hne, and_false, false_and, if_false,
        removeSpaceLoop_of_spaced hc h.spaced]
  rw [removeSpace, hloop]
  exact if_neg h.last

end RemoveSpace

/-! ### Words -/

section Words
variable {s c w t : CStr}

theorem takeWhile_split (hw : ' ' ∉ w) : (w ++ ' ' :: t).takeWhile (· ≠ ' ') = w := by
  have hall : ∀ x ∈ w, decide (x ≠ ' ') = true := fun x hx => decide_eq_true fun h => hw (h ▸ hx)
  rw [List.takeWhile_append_of_pos hall]
  simp

theorem dropWhile_split (hw : ' ' ∉ w) : (w ++ ' ' :: t).dropWhile (· ≠ ' ') = ' ' :: t := by
  have hall : ∀ x ∈ w, decide (x ≠ ' ') = true := fun x hx => decide_eq_true fun h => hw (h ▸ hx)
  rw [List.dropWhile_append_of_pos hall]
  simp

theorem dropSpaces (ht : t.head? ≠ some ' ') : t.dropWhile (· = ' ') = t := by
  cases t with
  | nil => rfl
  | cons a t =>
    have ha : ¬ a = ' ' := fun ha => ht (congrArg some ha)
    simp [ha]

theorem spliteArgument_split (hw : ' ' ∉ w) (ht : t.head? ≠ some ' ') : spliteArgument (w ++ ' ' :: t) = some (w, t) := by
  have hspace : (' ' :: t).dropWhile (· = ' ') = t := by simpa using dropSpaces ht
  rw [spliteArgument, dropWhile_split hw, takeWhile_split hw]
  exact congrArg (fun x => some (w, x)) hspace

theorem strtok_split (hne : w ≠ []) (hw : ' ' ∉ w) : strtok ' ' (w ++ ' ' :: t) = some (w, t) := by
  obtain ⟨a, w, rfl⟩ := List.exists_cons_of_ne_nil hne
  have ha : ¬ a = ' ' := fun ha => hw (ha ▸ List.mem_cons_self)
  have hstart : (a :: w ++ ' ' :: t).dropWhile (· = ' ') = a :: w ++ ' ' :: t := by simp [ha]
  unfold strtok
  rw [hstart]
  show some (_, _) = _
  rw [takeWhile_split hw, dropWhile_split hw]
  rfl

theorem strtok_line (hne : w ≠ []) (hw : '\n' ∉ w) : strtok '\n' w = some (w, []) := by
  have hall : ∀ x ∈ w, decide (x ≠ '\n') = true := fun x hx => decide_eq_true fun h => hw (h ▸ hx)
  have htake : w.takeWhile (· ≠ '\n') = w := List.takeWhile_eq_self_iff.2 hall
  have hdrop : w.dropWhile (· ≠ '\n') = [] := List.dropWhile_eq_nil_iff.2 hall
  obtain ⟨a, w, rfl⟩ := List.exists_cons_of_ne_nil hne
  have ha : ¬ a = '\n' := fun ha => hw (ha ▸ List.mem_cons_self)
  have hstart : (a :: w).dropWhile (· = '\n') = a :: w := by simp [ha]
  unfold strtok
  rw [hstart]
  show some (_, _) = _
  rw [htake, hdrop]
  rfl

/-- Behind a space of a tidy string no other one follows. -/
theorem Tidy.behind (h : Tidy (w ++ ' ' :: t)) : t.head? ≠ some ' ' := by
  intro ht
  obtain ⟨t', rfl⟩ := List.head?_eq_some_iff.1 ht
  exact (List.isChain_cons_cons.1 h.spaced.right_of_append).1 ⟨rfl, rfl⟩

/-- The server splits a tidy string at its first space. -/
theorem Tidy.parseRequest (h : Tidy c) : parseRequest c = (c.takeWhile (· ≠ ' '), behindSpace c) := by
  rw [Netdisk.parseRequest, h.removeSpace_eq, behindSpace]
  by_cases hspace : ' ' ∈ c
  · obtain ⟨w, t, rfl, hw⟩ := List.eq_append_cons_of_mem hspace
    rw [spliteArgument_split hw h.behind, takeWhile_split hw, dropWhile_split hw]
    rfl
  · have hall : ∀ x ∈ c, decide (x ≠ ' ') = true := fun x hx => decide_eq_true fun heq => hspace (heq ▸ hx)
    have hdrop : c.dropWhile (· ≠ ' ') = [] := List.dropWhile_eq_nil_iff.2 hall
    rw [spliteArgument, hdrop, List.takeWhile_eq_self_iff.2 hall]
    rfl

/-- A tidy string with two spaces has three words, none of the last two empty. -/
theorem Tidy.words (h : Tidy c) (hcount : c.count ' ' = 2) : ∃ w₀ w₁ w₂, c = w₀ ++ ' ' :: (w₁ ++ ' ' :: w₂) ∧
    ' ' ∉ w₀ ∧ ' ' ∉ w₁ ∧ w₁ ≠ [] ∧ w₂ ≠ [] ∧ '\n' ∉ w₂ := by
  have hmem : ' ' ∈ c := List.count_pos_iff.1 (by omega)
  obtain ⟨w₀, t, rfl, hw₀⟩ := List.eq_append_cons_of_mem hmem
  have hcount' : t.count ' ' = 1 := by
    rw [List.count_append, List.count_cons_self, List.count_eq_zero.2 hw₀] at hcount
    omega
  have hmem' : ' ' ∈ t := List.count_pos_iff.1 (by omega)
  obtain ⟨w₁, w₂, rfl, hw₁⟩ := List.eq_append_cons_of_mem hmem'
  refine ⟨w₀, w₁, w₂, rfl, hw₀, hw₁, ?_, ?_, ?_⟩
  · rintro rfl
    exact h.behind rfl
  · rintro rfl
    have hlast : w₀ ++ ' ' :: (w₁ ++ [' ']) = (w₀ ++ ' ' :: w₁) ++ [' '] := by simp
    exact h.last (hlast ▸ List.getLast?_concat)
  · intro hbreak
    exact h.oneLine (List.mem_append_right _ (List.mem_cons_of_mem _ (List.mem_append_right _ (List.mem_cons_of_mem _ hbreak))))

end Words

/-! ### Both sides -/

section Agree
variable {c : CStr} {i : Nat} {kind : CommandKind}

theorem classify_eq (h : classify c = some (i, kind)) :
    i < 8 ∧ order.getD i [] <+: c ∧ checkSize i (c.count ' ') = some kind := by
  obtain ⟨j, hfind, h⟩ := Option.bind_eq_some_iff.1 h
  obtain ⟨kind', hsize, h⟩ := Option.bind_eq_some_iff.1 h
  obtain ⟨rfl, rfl⟩ := Prod.mk.inj (Option.some.inj h)
  obtain ⟨hlt, hstart, -⟩ := List.findIdx?_eq_some_iff_getElem.1 hfind
  refine ⟨hlt, ?_, hsize⟩
  rw [List.getD_eq_getElem?_getD, List.getElem?_eq_getElem hlt]
  exact List.isPrefixOf_iff_prefix.1 hstart

theorem checkSize_long {size : Nat} (hi : i = 5 ∨ i = 6) (h : checkSize i size = some kind) : size = 2 := by
  rcases hi with rfl | rfl <;>
  · by_contra hsize
    simp [checkSize, hsize] at h

/-- No command name begins with another one. -/
theorem order_starts : ∀ i < 8, ∀ j < 8, order.getD i [] <+: order.getD j [] → i = j := by decide

theorem ofName_order : ∀ i < 8, (Command.ofName (order.getD i [])).map Command.no = some i := by decide

theorem spaceless_order : ∀ i < 8, ' ' ∉ order.getD i [] := by decide

theorem mem_order {cmd : CStr} {command : Command} (h : Command.ofName cmd = some command) : cmd ∈ order := by
  rw [Command.eq_text_of_ofName h]
  cases command <;> decide

theorem prefix_takeWhile {name : CStr} (hname : ' ' ∉ name) (h : name <+: c) : name <+: c.takeWhile (· ≠ ' ') := by
  obtain ⟨rest, rfl⟩ := h
  have hall : ∀ x ∈ name, decide (x ≠ ' ') = true := fun x hx => decide_eq_true fun heq => hname (heq ▸ hx)
  rw [List.takeWhile_append_of_pos hall]
  exact List.prefix_append _ _

theorem mem_long {name : CStr} {command : Command} (h : Command.ofName name = some command) :
    name ∈ ["puts".toList, "gets".toList] ↔ command.no = 5 ∨ command.no = 6 := by
  rw [Command.eq_text_of_ofName h]
  cases command <;> decide

/-- A tidy line whose first word is the name it begins with. -/
theorem Tidy.agreeOn (h : Tidy c) (hc : classify c = some (i, kind)) (hnames : NamesCommand c) : AgreeOn c i := by
  obtain ⟨hword, hfits⟩ := hnames
  obtain ⟨hi, hstart, hsize⟩ := classify_eq hc
  obtain ⟨j, hj, hget⟩ := List.mem_iff_getElem.1 hword
  have hword : c.takeWhile (· ≠ ' ') = order.getD j [] := by
    rw [List.getD_eq_getElem?_getD, List.getElem?_eq_getElem hj]
    exact hget.symm
  obtain rfl : i = j := order_starts i hi j hj (hword ▸ prefix_takeWhile (spaceless_order i hi) hstart)
  obtain ⟨command, hname, hno⟩ := Option.map_eq_some_iff.1 (ofName_order i hi)
  rw [hword, mem_long hname, hno] at hfits
  refine ⟨⟨command, ?_, hno⟩, fun hlong => ?_⟩
  · rw [dispatch, h.parseRequest, hword, hname]
    rfl
  · have hshort := hfits hlong
    obtain ⟨w₀, w₁, w₂, rfl, hw₀, hw₁, hne₁, hne₂, hbreak⟩ := h.words (checkSize_long hlong hsize)
    have hne₀ : w₀ ≠ [] := by
      rintro rfl
      exact h.head rfl
    have hbehind : behindSpace (w₀ ++ ' ' :: (w₁ ++ ' ' :: w₂)) = w₁ ++ ' ' :: w₂ := by
      rw [behindSpace, dropWhile_split hw₀]
      rfl
    have hspace : w₂.head? ≠ some ' ' := by
      have hassoc : w₀ ++ ' ' :: (w₁ ++ ' ' :: w₂) = (w₀ ++ ' ' :: w₁) ++ ' ' :: w₂ := by simp
      exact Tidy.behind (hassoc ▸ h)
    refine ⟨w₁, w₂, ?_, ?_⟩
    · rw [hbehind]
      exact spliteArgument_split hw₁ hspace
    rw [transfileArguments, if_neg (by omega), strtok_split hne₀ hw₀]
    simp only [Option.bind_some, strtok_split hne₁ hw₁, strtok_line hne₂ hbreak, Option.map_some]

end Agree

/-- The client's and the server's reading of a line agree exactly if a line that the client accepts
has the name of a command for its first word, and 255 bytes at most if that is `puts` or `gets`. -/
theorem agrees_iff_namesCommand (line : Line) : line.Agrees ↔ line.NamesCommand := by
  have htidy : Tidy (removeSpace line.typed) := by
    rw [removeSpace_typed]
    exact removeSpace_tidy line.oneLine
  constructor
  · intro h hc
    obtain ⟨⟨i, kind⟩, hc⟩ := Option.ne_none_iff_exists'.1 hc
    obtain ⟨⟨command, hdispatch, rfl⟩, hsplit⟩ := h i kind hc
    obtain ⟨command', hname, hsame⟩ := Option.map_eq_some_iff.1 hdispatch
    obtain ⟨rfl, -⟩ := Prod.mk.inj hsame
    rw [htidy.parseRequest] at hname
    refine ⟨mem_order hname, fun hlong => ?_⟩
    obtain ⟨argument1, argument2, -, harguments⟩ := hsplit ((mem_long hname).1 hlong)
    by_contra hlen
    rw [transfileArguments, if_pos (by omega)] at harguments
    cases harguments
  · intro h i kind hc
    exact htidy.agreeOn hc (h (by rw [hc]; nofun))

/-- The client sends `cdx y` as a `cd`, and the server does not know the command. -/
theorem prefix_accepted : ¬ ∀ line : Line, line.Agrees := by
  intro h
  obtain ⟨⟨command, hdispatch, -⟩, -⟩ := h ⟨"cdx y".toList, true, by decide⟩ 0 .short (by decide)
  have hnone : dispatch (removeSpace "cdx y\n".toList) = none := by decide
  exact absurd (hnone.symm.trans hdispatch) nofun

end Netdisk

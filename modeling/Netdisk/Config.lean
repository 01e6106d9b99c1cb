import Netdisk.Tools
import Mathlib.Data.List.TakeWhile

/-!
# The configuration file (`read_config`)

`readConfig` works on the raw lines: it takes the first one that begins with the request. A file as it
is meant is a list of section headers, comments, empty lines and entries (`ConfFile`), and the value of
a key is that of the first entry with this key. `readConfig_eq_iff` says when the two agree.
-/

namespace Netdisk

/-! ### `read_config` -/

/-- What successive calls of `fgets` deliver to a buffer of `size` bytes; `cur` is in the buffer. -/
def fgetsAll (size : Nat) : (cur : CStr) → CStr → List CStr
  | cur, [] => if cur = [] then [] else [cur]
  | cur, c :: file =>
    if c = '\n' then (cur ++ [c]) :: fgetsAll size [] file
    else if cur.length + 2 = size then (cur ++ [c]) :: fgetsAll size [] file
    else fgetsAll size (cur ++ [c]) file

/-- The text behind the first `'='` of the buffer, without its last character. -/
def configValue (buf : CStr) : Option (Option CStr) :=
  match buf.dropWhile (· ≠ '=') with
  | _ :: c :: need => some (some (c :: need).dropLast)
  | _ => none

/-- `read_config`: the value, or `some none` for `NULL`. On a line without a `'='`, or with nothing behind
it, the call runs outside its strings (`none`). -/
def readConfig (conf request : CStr) : Option (Option CStr) :=
  match (fgetsAll 1024 [] conf).find? (request.isPrefixOf ·) with
  | none => some none
  | some buf => configValue buf

/-! ### The file as it is meant -/

structure ConfKey where
  text : CStr
  nonempty : text ≠ []
  oneLine : '\n' ∉ text
  noEquals : '=' ∉ text

structure ConfValue where
  text : CStr
  nonempty : text ≠ []
  oneLine : '\n' ∉ text

/-- A line of the file. -/
inductive ConfLine where
  | header (name : CStr)
  | comment (text : CStr)
  | empty
  | entry (key : ConfKey) (value : ConfValue)

namespace ConfLine

def text : ConfLine → CStr
  | header name => '[' :: name ++ [']']
  | comment text => '#' :: text
  | empty => []
  | entry key value => key.text ++ '=' :: value.text

/-- It is one line, and it fits the buffer with its line break. -/
def Fits (l : ConfLine) : Prop := '\n' ∉ l.text ∧ l.text.length < 1023

/-- The value, if the line has this key. -/
def valueOf (k : CStr) : ConfLine → Option CStr
  | entry key value => if key.text = k then some value.text else none
  | _ => none

end ConfLine

/-- A configuration file: lines that end in a line break, and maybe a last one that does not. -/
structure ConfFile where
  lines : List ConfLine
  last : Option ConfLine
  fits : ∀ l ∈ lines ++ last.toList, l.Fits
  lastNonempty : ∀ l ∈ last, l.text ≠ []

namespace ConfFile

/-- What stands in the file. -/
def text (f : ConfFile) : CStr := f.lines.flatMap (fun l => l.text ++ ['\n']) ++ f.last.toList.flatMap ConfLine.text

/-- The value of the first entry with this key. -/
def lookup (f : ConfFile) (k : ConfKey) : Option CStr := (f.lines ++ f.last.toList).findSome? (ConfLine.valueOf k.text)

/-- No line begins with the key, or the first one that does has a line break, and behind its first `'='`
stands the value of the first line with this key. -/
def Plain (f : ConfFile) (k : ConfKey) : Prop :=
  (∀ l ∈ f.lines ++ f.last.toList, ¬ k.text <+: l.text) ∨
    ∃ l ∈ f.lines.find? (k.text.isPrefixOf ·.text), ∃ v, f.lookup k = some v ∧
      (l.text.dropWhile (· ≠ '=')) = '=' :: v

end ConfFile

/-! ### Reading line by line -/

section Lines
variable {t rest k : CStr}

theorem fgetsAll_line {cur : CStr} (ht : '\n' ∉ t) (hlen : cur.length + t.length < 1023) :
    fgetsAll 1024 cur (t ++ '\n' :: rest) = (cur ++ t ++ ['\n']) :: fgetsAll 1024 [] rest := by
  induction t generalizing cur with
  | nil => simp [fgetsAll]
  | cons c t ih =>
    obtain ⟨hc, ht⟩ := not_or.1 (List.mem_cons.not.1 ht)
    rw [List.length_cons] at hlen
    have hroom : cur.length + 2 ≠ 1024 := by omega
    rw [List.cons_append, fgetsAll, if_neg (Ne.symm hc), if_neg hroom, ih ht (by simp; omega)]
    simp

theorem fgetsAll_last {cur : CStr} (ht : '\n' ∉ t) (hlen : cur.length + t.length < 1023) (hne : cur ++ t ≠ []) :
    fgetsAll 1024 cur t = [cur ++ t] := by
  induction t generalizing cur with
  | nil =>
    rw [List.append_nil] at hne ⊢
    rw [fgetsAll, if_neg hne]
  | cons c t ih =>
    obtain ⟨hc, ht⟩ := not_or.1 (List.mem_cons.not.1 ht)
    rw [List.length_cons] at hlen
    have hroom : cur.length + 2 ≠ 1024 := by omega
    rw [fgetsAll, if_neg (Ne.symm hc), if_neg hroom, ih ht (by simp; omega) (by simp)]
    simp

theorem ConfFile.fgetsAll_text (f : ConfFile) :
    fgetsAll 1024 [] f.text = f.lines.map (fun l => l.text ++ ['\n']) ++ f.last.toList.map ConfLine.text := by
  obtain ⟨lines, last, fits, nonempty⟩ := f
  have hlines : ∀ rest, fgetsAll 1024 [] (lines.flatMap (fun l => l.text ++ ['\n']) ++ rest) =
      lines.map (fun l => l.text ++ ['\n']) ++ fgetsAll 1024 [] rest := by
    intro rest
    induction lines with
    | nil => rfl
    | cons l lines ih =>
      obtain ⟨⟨hline, hshort⟩, hrest⟩ := List.forall_mem_cons.1 fits
      have hl : fgetsAll 1024 [] (l.text ++ '\n' :: (lines.flatMap (fun l => l.text ++ ['\n']) ++ rest)) = _ :=
        fgetsAll_line hline (by simpa using hshort)
      rw [ih hrest, List.nil_append] at hl
      simpa using hl
  show fgetsAll 1024 [] (_ ++ _) = _
  rw [hlines]
  congr 1
  cases last with
  | none => rfl
  | some l =>
    obtain ⟨hline, hshort⟩ := fits l (by simp)
    have hl := @fgetsAll_last l.text [] hline (by simpa using hshort) (by simpa using nonempty l rfl)
    simpa using hl

theorem isPrefixOf_line (hk : '\n' ∉ k) : k.isPrefixOf (t ++ ['\n']) = k.isPrefixOf t := by
  rw [Bool.eq_iff_iff, List.isPrefixOf_iff_prefix, List.isPrefixOf_iff_prefix, List.prefix_concat_iff]
  refine or_iff_right fun h => hk ?_
  rw [h]
  simp

end Lines

/-! ### The lookup -/

namespace ConfLine
variable {l : ConfLine} {k v : CStr}

theorem dropWhile_entry (key : ConfKey) (value : ConfValue) :
    (entry key value).text.dropWhile (· ≠ '=') = '=' :: value.text := by
  have hall : ∀ x ∈ key.text, decide (x ≠ '=') = true := fun x hx => decide_eq_true fun h => key.noEquals (h ▸ hx)
  rw [text, List.dropWhile_append_of_pos hall]
  rfl

/-- A line with the key begins with it. -/
theorem valueOf_eq (h : l.valueOf k = some v) : k <+: l.text ∧ l.text.dropWhile (· ≠ '=') = '=' :: v ∧ v ≠ [] := by
  match l, h with
  | entry key value, h =>
    rw [valueOf] at h
    split at h
    · next hk =>
      obtain rfl := Option.some.inj h
      exact ⟨hk ▸ List.prefix_append _ _, dropWhile_entry key value, value.nonempty⟩
    · cases h

end ConfLine

namespace ConfFile
variable {f : ConfFile} {k : ConfKey} {l : ConfLine} {v : CStr}

theorem exists_of_lookup (h : f.lookup k = some v) :
    ∃ l ∈ f.lines ++ f.last.toList, k.text <+: l.text ∧ l.text.dropWhile (· ≠ '=') = '=' :: v ∧ v ≠ [] := by
  obtain ⟨l, hl, hv⟩ := List.exists_of_findSome?_eq_some h
  exact ⟨l, hl, ConfLine.valueOf_eq hv⟩

theorem find?_fgetsAll (f : ConfFile) (k : ConfKey) :
    (fgetsAll 1024 [] f.text).find? (k.text.isPrefixOf ·) =
      ((f.lines.find? (k.text.isPrefixOf ·.text)).map (·.text ++ ['\n'])).or
        ((f.last.toList.find? (k.text.isPrefixOf ·.text)).map ConfLine.text) := by
  rw [f.fgetsAll_text, List.find?_append, List.find?_map, List.find?_map]
  congr 3
  funext l
  exact isPrefixOf_line k.oneLine

theorem dropWhile_equals (t : CStr) : (∃ v, t.dropWhile (· ≠ '=') = '=' :: v) ∨ '=' ∉ t := by
  by_cases h : '=' ∈ t
  · obtain ⟨a, v, rfl, ha⟩ := List.eq_append_cons_of_mem h
    have hall : ∀ x ∈ a, decide (x ≠ '=') = true := fun x hx => decide_eq_true fun h => ha (h ▸ hx)
    refine .inl ⟨v, ?_⟩
    rw [List.dropWhile_append_of_pos hall]
    rfl
  · exact .inr h

theorem dropWhile_nil {t : CStr} (h : '=' ∉ t) : t.dropWhile (· ≠ '=') = [] :=
  List.dropWhile_eq_nil_iff.2 fun _ hx => decide_eq_true fun heq => h (heq ▸ hx)

/-- A line that ends in a line break: what stands behind its first `'='` comes out whole. -/
theorem readConfig_line (h : f.lines.find? (k.text.isPrefixOf ·.text) = some l) :
    (∃ v, l.text.dropWhile (· ≠ '=') = '=' :: v ∧ readConfig f.text k.text = some (some v)) ∨
      ('=' ∉ l.text ∧ readConfig f.text k.text = none) := by
  have hread : (fgetsAll 1024 [] f.text).find? (k.text.isPrefixOf ·) = some (l.text ++ ['\n']) := by
    rw [find?_fgetsAll, h]
    rfl
  have hvalue : readConfig f.text k.text = configValue (l.text ++ ['\n']) := by
    rw [readConfig, hread]
  rw [hvalue, configValue]
  rcases dropWhile_equals l.text with ⟨v, hv⟩ | hnone
  · have hdrop : (l.text ++ ['\n']).dropWhile (· ≠ '=') = '=' :: (v ++ ['\n']) := by
      rw [List.dropWhile_append, hv]
      rfl
    refine .inl ⟨v, hv, ?_⟩
    rw [hdrop]
    cases v with
    | nil => rfl
    | cons c v =>
      show some (some (c :: (v ++ ['\n'])).dropLast) = _
      rw [← List.cons_append, List.dropLast_concat]
  · have hdrop : (l.text ++ ['\n']).dropWhile (· ≠ '=') = [] := dropWhile_nil (by simpa using hnone)
    refine .inr ⟨hnone, ?_⟩
    rw [hdrop]

/-- The last line without its line break: the value loses its last character. -/
theorem readConfig_last (hlines : f.lines.find? (k.text.isPrefixOf ·.text) = none)
    (h : f.last.toList.find? (k.text.isPrefixOf ·.text) = some l) : readConfig f.text k.text ≠ some (f.lookup k) := by
  have hread : (fgetsAll 1024 [] f.text).find? (k.text.isPrefixOf ·) = some l.text := by
    rw [find?_fgetsAll, hlines, h]
    rfl
  obtain ⟨hstart, hmem⟩ : k.text.isPrefixOf l.text = true ∧ l ∈ f.last.toList := by
    have hsome := List.find?_some h
    exact ⟨hsome, List.mem_of_find?_eq_some h⟩
  have hlast : f.last = some l := Option.mem_toList.1 hmem
  have hvalue : readConfig f.text k.text = configValue l.text := by
    rw [readConfig, hread]
  rw [hvalue, configValue]
  intro heq
  -- an entry with the key begins with it, so it is the last line
  have hsole {v : CStr} (hv : f.lookup k = some v) : l.text.dropWhile (· ≠ '=') = '=' :: v ∧ v ≠ [] := by
    obtain ⟨l', hl', hstart', hdrop⟩ := exists_of_lookup hv
    rcases List.mem_append.1 hl' with hl' | hl'
    · exact absurd (List.isPrefixOf_iff_prefix.2 hstart') (List.find?_eq_none.1 hlines l' hl')
    · rw [hlast] at hl'
      obtain rfl := List.mem_singleton.1 hl'
      exact hdrop
  cases hv : f.lookup k with
  | some v =>
    obtain ⟨hdrop, hne⟩ := hsole hv
    obtain ⟨c, v, rfl⟩ := List.exists_cons_of_ne_nil hne
    rw [hdrop, hv] at heq
    have hlen := congrArg List.length (Option.some.inj (Option.some.inj heq))
    rw [List.length_dropLast] at hlen
    simp at hlen
  | none =>
    rw [hv] at heq
    split at heq
    · cases heq
    · cases heq

theorem readConfig_none (h : ∀ l ∈ f.lines ++ f.last.toList, ¬ k.text <+: l.text) :
    readConfig f.text k.text = some (f.lookup k) := by
  have hnone (ls : List ConfLine) (hls : ls ⊆ f.lines ++ f.last.toList) : ls.find? (k.text.isPrefixOf ·.text) = none :=
    List.find?_eq_none.2 fun l hl hstart => h l (hls hl) (List.isPrefixOf_iff_prefix.1 hstart)
  have hread : (fgetsAll 1024 [] f.text).find? (k.text.isPrefixOf ·) = none := by
    rw [find?_fgetsAll, hnone _ (List.subset_append_left _ _), hnone _ (List.subset_append_right _ _)]
    rfl
  have hlookup : f.lookup k = none := by
    cases hv : f.lookup k with
    | none => rfl
    | some v =>
      obtain ⟨l, hl, hstart, -⟩ := exists_of_lookup hv
      exact absurd hstart (h l hl)
  rw [readConfig, hread, hlookup]

end ConfFile

/-- `read_config` looks a key up correctly exactly in the files that are plain for it. -/
theorem readConfig_eq_iff (f : ConfFile) (k : ConfKey) : readConfig f.text k.text = some (f.lookup k) ↔ f.Plain k := by
  cases hline : f.lines.find? (k.text.isPrefixOf ·.text) with
  | some l =>
    have hstart := List.find?_some hline
    have hstarts : ¬ ∀ l ∈ f.lines ++ f.last.toList, ¬ k.text <+: l.text := fun h =>
      h l (List.mem_append_left _ (List.mem_of_find?_eq_some hline)) (List.isPrefixOf_iff_prefix.1 hstart)
    simp only [ConfFile.Plain, hstarts, hline, false_or, Option.mem_some_iff, exists_eq_left']
    rcases ConfFile.readConfig_line hline with ⟨v, hv, hread⟩ | ⟨hnone, hread⟩
    · rw [hread, hv]
      constructor
      · intro h
        exact ⟨v, (Option.some.inj h).symm, rfl⟩
      · rintro ⟨v', hv', htail⟩
        rw [hv', (List.cons.inj htail).2]
    · rw [hread, ConfFile.dropWhile_nil hnone]
      exact iff_of_false nofun fun ⟨_, _, h⟩ => nomatch h
  | none =>
    simp only [ConfFile.Plain, hline, Option.mem_def, reduceCtorEq, false_and, exists_false, or_false]
    cases hlast : f.last.toList.find? (k.text.isPrefixOf ·.text) with
    | some l =>
      have hstart := List.find?_some hlast
      refine iff_of_false (ConfFile.readConfig_last hline hlast) fun h => ?_
      exact h l (List.mem_append_right _ (List.mem_of_find?_eq_some hlast)) (List.isPrefixOf_iff_prefix.1 hstart)
    | none =>
      have hnone : ∀ l ∈ f.lines ++ f.last.toList, ¬ k.text <+: l.text := by
        intro l hl hstart
        have hprefix := List.isPrefixOf_iff_prefix.2 hstart
        rcases List.mem_append.1 hl with hl | hl
        · exact List.find?_eq_none.1 hline l hl hprefix
        · exact List.find?_eq_none.1 hlast l hl hprefix
      exact iff_of_true (ConfFile.readConfig_none hnone) hnone

/-- `server_port=8080` in a file that ends there. -/
def ConfFile.unended : ConfFile where
  lines := []
  last := some (.entry ⟨"server_port".toList, by decide, by decide, by decide⟩ ⟨"8080".toList, by decide, by decide⟩)
  fits := fun l hl => by
    obtain rfl := List.mem_singleton.1 hl
    exact ⟨by decide, by decide⟩
  lastNonempty := fun l hl => by
    obtain rfl := Option.some.inj hl
    decide

/-- The port is read as `808`. -/
theorem readConfig_unended : readConfig ConfFile.unended.text "server_port".toList ≠
    some (ConfFile.unended.lookup ⟨"server_port".toList, by decide, by decide, by decide⟩) := by decide

example : readConfig "portal=1\nport=2\n".toList "port".toList = some (some ['1']) := by decide

end Netdisk

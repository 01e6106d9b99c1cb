import Mathlib.Data.List.Basic

/-!
# Strings between single quotes

How a statement is read that has literals in single quotes, with a doubled quote for one quote and with
backslash escapes. `scan_render_iff`: if strings are put between the quotes as they are, the statement
is read as it is meant exactly if none of them has a quote or a backslash that escapes something.
-/

namespace Literals

/-- What the reader finds: characters outside of literals, and literals by what they denote. -/
inductive Tok where
  | code (c : Char)
  | lit (s : List Char)
deriving DecidableEq

/-- What a backslash and the character `c` stand for; in front of `%` and `_` the backslash stays. -/
def unescape (c : Char) : List Char :=
  if c = '0' then ['\x00']
  else if c = 'b' then ['\x08']
  else if c = 'n' then ['\n']
  else if c = 'r' then ['\r']
  else if c = 't' then ['\t']
  else if c = 'Z' then ['\x1a']
  else if c = '%' ∨ c = '_' then ['\x5c', c]
  else [c]

/-- Reads a statement, or the rest of it behind `v` in a literal; `none` if a literal does not end. -/
def scan : (v : Option (List Char)) → List Char → Option (List Tok)
  | none, [] => some []
  | some _, [] => none
  | none, c :: t => if c = '\x27' then scan (some []) t else (scan none t).map (.code c :: ·)
  | some v, [c] => if c = '\x27' then some [.lit v] else none
  | some v, c :: d :: t =>
    if c = '\x27' then
      if d = '\x27' then scan (some (v ++ ['\x27'])) t else (scan none (d :: t)).map (.lit v :: ·)
    else if c = '\x5c' then scan (some (v ++ unescape d)) t
    else scan (some (v ++ [c])) (d :: t)

/-- The characters that are read otherwise than they stand. -/
def Special (c : Char) : Prop := c = '\x27' ∨ c = '\x5c'

/-- A string that stays what it is between quotes: it has no quote, and each backslash stands in front of
`%` or `_`. -/
def Plain (s : List Char) : Prop :=
  '\x27' ∉ s ∧ ∀ pre post, s = pre ++ '\x5c' :: post → post.head? = some '%' ∨ post.head? = some '_'

/-- A statement as it is meant: code, and literals that shall denote a string. -/
inductive Piece where
  | code (t : List Char)
  | quoted (s : List Char)
deriving DecidableEq

namespace Piece

/-- The strings are put between the quotes as they are. -/
def render : Piece → List Char
  | code t => t
  | quoted s => '\x27' :: s ++ ['\x27']

def toks : Piece → List Tok
  | code t => t.map .code
  | quoted s => [.lit s]

/-- `render` in front of a rest, with nothing left to be reassociated. -/
def put : Piece → List Char → List Char
  | code t, rest => t ++ rest
  | quoted s, rest => '\x27' :: (s ++ '\x27' :: rest)

theorem flatMap_render (ps : List Piece) : ps.flatMap render = ps.foldr put [] := by
  induction ps with
  | nil => rfl
  | cons p ps ih =>
    rw [List.flatMap_cons, List.foldr_cons, ih]
    cases p with
    | code t => rfl
    | quoted s => simp [render, put]

end Piece

/-- Characters outside of a literal that cannot be taken for a part of it. -/
def Outside (t : List Char) : Prop := ∀ c ∈ t.head?, ¬ Special c

/-- No quote in the code, and something else than a quote or a backslash behind a literal. -/
def WellFormed : List Piece → Prop
  | [] => True
  | .code t :: ps => '\x27' ∉ t ∧ WellFormed ps
  | .quoted _ :: ps => Outside (ps.flatMap Piece.render) ∧ WellFormed ps

section Scan
variable {v u s t : List Char} {c d : Char} {r : List Tok}

theorem scan_open : scan none ('\x27' :: t) = scan (some []) t := by rw [scan, if_pos rfl]

theorem scan_code (hc : c ≠ '\x27') : scan none (c :: t) = (scan none t).map (.code c :: ·) := by rw [scan, if_neg hc]

theorem scan_append (hs : '\x27' ∉ s) : scan none (s ++ t) = (scan none t).map (s.map .code ++ ·) := by
  induction s with
  | nil => simp
  | cons c s ih =>
    have hc : c ≠ '\x27' := fun h => hs (h ▸ .head _)
    rw [List.cons_append, scan_code hc, ih fun h => hs (.tail _ h), Option.map_map]
    rfl

theorem scan_pair : scan (some v) ('\x27' :: '\x27' :: t) = scan (some (v ++ ['\x27'])) t := by
  rw [scan, if_pos rfl, if_pos rfl]

theorem scan_close (ht : t.head? ≠ some '\x27') : scan (some v) ('\x27' :: t) = (scan none t).map (.lit v :: ·) := by
  cases t with
  | nil => rfl
  | cons d t =>
    have hd : d ≠ '\x27' := fun h => ht (congrArg some h)
    simp only [scan.eq_5, if_pos, if_neg hd]

theorem scan_escape : scan (some v) ('\x5c' :: d :: t) = scan (some (v ++ unescape d)) t := by
  rw [scan, if_neg (by decide), if_pos rfl]

theorem scan_char (hc : ¬ Special c) : scan (some v) (c :: t) = scan (some (v ++ [c])) t := by
  obtain ⟨hquote, hback⟩ := not_or.1 hc
  cases t with
  | nil => simp only [scan, if_neg hquote]
  | cons d t => simp only [scan.eq_5, if_neg hquote, if_neg hback]

/-- A literal that is being read keeps what is read of it. -/
theorem prefix_of_scan {o : Option (List Char)} (h : scan o s = some (.lit u :: r)) (ho : o = some v) : v <+: u := by
  fun_induction scan o s generalizing v with
  | case1 => nomatch ho
  | case2 => nomatch h
  | case3 => nomatch ho
  | case4 => nomatch ho
  | case5 v' =>
    cases ho; cases h
    exact List.prefix_rfl
  | case6 => nomatch h
  | case7 v' t ih =>
    cases ho
    exact (List.prefix_append _ _).trans (ih h rfl)
  | case8 v' d t hd ih =>
    cases ho
    obtain ⟨r', -, hr'⟩ := Option.map_eq_some_iff.1 h
    cases hr'
    exact List.prefix_rfl
  | case9 v' d t hquote ih =>
    cases ho
    exact (List.prefix_append _ _).trans (ih h rfl)
  | case10 v' c d t hquote hback ih =>
    cases ho
    exact (List.prefix_append _ _).trans (ih h rfl)

/-- A literal that is closed is not longer than what was read of it. -/
theorem eq_nil_of_closed {o : Option (List Tok)} (h : o.map (.lit v :: ·) = some (.lit (v ++ u) :: r)) : u = [] := by
  obtain ⟨r', -, hr'⟩ := Option.map_eq_some_iff.1 h
  injection hr' with hv
  injection hv with hv
  exact List.self_eq_append_right.1 hv

theorem special_of_unescape (d : Char) :
    (∃ e, unescape d = [e] ∧ ¬ Special e) ∨ (unescape d = ['\x5c', d] ∧ (d = '%' ∨ d = '_')) ∨ unescape d = [d] := by
  unfold unescape Special
  grind

theorem not_special_of_like (hd : d = '%' ∨ d = '_') : ¬ Special d := by
  rcases hd with rfl | rfl <;> simp [Special]

theorem unescape_of_like (hd : d = '%' ∨ d = '_') : unescape d = ['\x5c', d] := by
  rcases hd with rfl | rfl <;> rfl

/-- Something that is missing, of special characters only. -/
structure Behind (W : List Char) : Prop where
  ne_nil : W ≠ []
  special : ∀ c ∈ W, Special c

namespace Behind
variable {W U z : List Char}

theorem single (hd : Special d) : Behind [d] := ⟨List.cons_ne_nil _ _, fun _ hc => List.mem_singleton.1 hc ▸ hd⟩

theorem quote : Behind ['\x27'] := single (.inl rfl)

theorem backslash : Behind ['\x5c'] := single (.inr rfl)

theorem append (hW : ∀ c ∈ W, Special c) (hU : Behind U) : Behind (W ++ U) :=
  ⟨fun h => hU.ne_nil (List.append_eq_nil_iff.1 h).2, fun c hc => (List.mem_append.1 hc).elim (hW c) (hU.special c)⟩

/-- The next character that is read is the first that is missing. -/
theorem step (hW : Behind W) (h : scan (some (v ++ [c])) t = some (.lit (v ++ (W ++ z)) :: r)) :
    Special c ∧ ∃ W', W = c :: W' ∧ (∀ c ∈ W', Special c) ∧ v ++ (W ++ z) = v ++ [c] ++ (W' ++ z) := by
  obtain ⟨e, W, rfl⟩ := List.exists_cons_of_ne_nil hW.ne_nil
  have hce : [c] <+: e :: (W ++ z) := (List.prefix_append_right_inj v).1 (prefix_of_scan h rfl)
  obtain rfl : c = e := (List.cons_prefix_cons.1 hce).1
  exact ⟨hW.special c (.head _), W, rfl, fun c hc => hW.special c (.tail _ hc), by simp⟩

end Behind

namespace Outside
variable {W z : List Char}

theorem scan_close (ht : Outside t) : scan (some v) ('\x27' :: t) = (scan none t).map (.lit v :: ·) :=
  Literals.scan_close fun h => ht _ h (.inl rfl)

/-- What follows a literal does not close it. -/
theorem scan_ne_special (ht : Outside t) (hW : ∀ c ∈ W, Special c) : scan (some v) t ≠ some (.lit (v ++ W) :: r) := by
  intro h
  cases t with
  | nil => nomatch h
  | cons c t =>
    have hc : ¬ Special c := ht c rfl
    rw [scan_char hc] at h
    have hcW : [c] <+: W := (List.prefix_append_right_inj v).1 (prefix_of_scan h rfl)
    exact hc (hW c (hcW.subset (.head _)))

/-- A literal that is behind by special characters does not catch up: `W` is missing, `z` is to come. -/
theorem scan_ne (ht : Outside t) (hW : Behind W) : scan (some v) (z ++ '\x27' :: t) ≠ some (.lit (v ++ (W ++ z)) :: r) := by
  intro h
  induction hn : z.length using Nat.strongRecOn generalizing v W z with
  | _ n ih =>
  subst hn
  have hlong : W ++ z ≠ [] := fun h => hW.ne_nil (List.append_eq_nil_iff.1 h).1
  rcases z with _ | ⟨c, z⟩
  · rw [List.nil_append, ht.scan_close] at h
    exact hlong (eq_nil_of_closed h)
  by_cases hquote : c = '\x27'
  · subst hquote
    rcases z with _ | ⟨d, z⟩
    · rw [List.cons_append, List.nil_append, scan_pair] at h
      obtain ⟨-, W', -, hW', hval⟩ := hW.step h
      rw [hval] at h
      exact ht.scan_ne_special (Behind.append hW' .quote).special h
    by_cases hd : d = '\x27'
    · subst hd
      rw [List.cons_append, List.cons_append, scan_pair] at h
      obtain ⟨-, W', -, hW', hval⟩ := hW.step h
      have hnext : W' ++ '\x27' :: '\x27' :: z = W' ++ (['\x27'] ++ ['\x27']) ++ z := by simp
      rw [hval, hnext] at h
      exact ih z.length (Nat.lt_succ_of_lt (Nat.lt_succ_self _)) (.append hW' (.append Behind.quote.special .quote)) h rfl
    · rw [List.cons_append, Literals.scan_close (by simpa using hd)] at h
      exact hlong (eq_nil_of_closed h)
  by_cases hback : c = '\x5c'
  · subst hback
    rcases z with _ | ⟨d, z⟩
    · rw [List.cons_append, List.nil_append, scan_escape] at h
      obtain ⟨-, W', -, hW', hval⟩ := hW.step h
      rw [hval] at h
      exact ht.scan_ne_special (Behind.append hW' .backslash).special h
    rw [List.cons_append, List.cons_append, scan_escape] at h
    obtain ⟨e, he, hes⟩ | ⟨hd, hlike⟩ | hd := special_of_unescape d
    · rw [he] at h
      exact hes (hW.step h).1
    · -- the backslash is read for itself, so that `d` is next
      have hds : ¬ Special d := not_special_of_like hlike
      rw [hd, List.append_cons v, ← scan_char hds] at h
      obtain ⟨-, W', -, hW', hval⟩ := hW.step h
      rw [hval, scan_char hds] at h
      rcases W' with _ | ⟨w, W'⟩
      · exact hds (Behind.backslash.step h).1
      · exact hds (Behind.step ⟨List.cons_ne_nil _ _, hW'⟩ h).1
    · rw [hd] at h
      obtain ⟨hds, W', -, hW', hval⟩ := hW.step h
      have hnext : W' ++ '\x5c' :: d :: z = W' ++ (['\x5c'] ++ [d]) ++ z := by simp
      rw [hval, hnext] at h
      exact ih z.length (Nat.lt_succ_of_lt (Nat.lt_succ_self _)) (.append hW' (.append Behind.backslash.special (.single hds))) h rfl
  · have hc : ¬ Special c := not_or.2 ⟨hquote, hback⟩
    rw [List.cons_append, scan_char hc] at h
    exact hc (hW.step h).1

end Outside

namespace Plain

theorem nil : Plain [] := ⟨List.not_mem_nil, fun _ _ h => by simp at h⟩

theorem cons_iff (hc : ¬ Special c) : Plain (c :: s) ↔ Plain s := by
  obtain ⟨hquote, hback⟩ := not_or.1 hc
  constructor
  · rintro ⟨hs, hesc⟩
    refine ⟨fun h => hs (.tail _ h), fun pre post h => hesc (c :: pre) post (by rw [h]; rfl)⟩
  · rintro ⟨hs, hesc⟩
    refine ⟨fun h => (List.mem_cons.1 h).elim (fun h => hquote h.symm) hs, fun pre post h => ?_⟩
    rcases pre with _ | ⟨e, pre⟩
    · exact absurd (List.cons_eq_cons.1 h).1 hback
    · exact hesc pre post (List.cons_eq_cons.1 h).2

theorem escape_iff : Plain ('\x5c' :: s) ↔ (s.head? = some '%' ∨ s.head? = some '_') ∧ Plain s := by
  constructor
  · rintro ⟨hs, hesc⟩
    exact ⟨hesc [] s rfl, fun h => hs (.tail _ h), fun pre post h => hesc ('\x5c' :: pre) post (by rw [h]; rfl)⟩
  · rintro ⟨hlike, hs, hesc⟩
    refine ⟨fun h => (List.mem_cons.1 h).elim (by simp) hs, fun pre post h => ?_⟩
    rcases pre with _ | ⟨e, pre⟩
    · exact (List.cons_eq_cons.1 h).2 ▸ hlike
    · exact hesc pre post (List.cons_eq_cons.1 h).2

/-- A plain string is read as it stands. -/
theorem scan_eq (hs : Plain s) (ht : Outside t) :
    scan (some v) (s ++ '\x27' :: t) = (scan none t).map (.lit (v ++ s) :: ·) := by
  induction hn : s.length using Nat.strongRecOn generalizing v s with
  | _ n ih =>
  subst hn
  rcases s with _ | ⟨c, s⟩
  · rw [List.nil_append, List.append_nil, ht.scan_close]
  by_cases hc : Special c
  · rcases hc with rfl | rfl
    · exact absurd (List.Mem.head _) hs.1
    · obtain ⟨hlike, hs⟩ := escape_iff.1 hs
      rcases s with _ | ⟨d, s⟩
      · simp at hlike
      have hlike : d = '%' ∨ d = '_' := by simpa using hlike
      have hs : Plain s := (cons_iff (not_special_of_like hlike)).1 hs
      rw [List.cons_append, List.cons_append, scan_escape, unescape_of_like hlike, ih s.length (Nat.lt_succ_of_lt (Nat.lt_succ_self _)) hs rfl]
      simp
  · rw [List.cons_append, scan_char hc, ih s.length (by simp) ((cons_iff hc).1 hs) rfl]
    simp

end Plain

/-- Only a plain string is read as it stands. -/
theorem plain_of_scan (ht : Outside t) (h : scan (some v) (s ++ '\x27' :: t) = some (.lit (v ++ s) :: r)) : Plain s := by
  induction hn : s.length using Nat.strongRecOn generalizing v s with
  | _ n ih =>
  subst hn
  rcases s with _ | ⟨c, s⟩
  · exact .nil
  by_cases hquote : c = '\x27'
  · subst hquote
    rcases s with _ | ⟨d, s⟩
    · have hnone : ∀ c ∈ ([] : List Char), Special c := fun _ hc => absurd hc List.not_mem_nil
      rw [List.cons_append, List.nil_append, scan_pair] at h
      exact absurd (h.trans (by simp)) (ht.scan_ne_special (r := r) hnone)
    by_cases hd : d = '\x27'
    · subst hd
      rw [List.cons_append, List.cons_append, scan_pair, List.append_cons v '\x27' ('\x27' :: s)] at h
      exact absurd h (ht.scan_ne .quote)
    · rw [List.cons_append, Literals.scan_close (by simpa using hd)] at h
      exact absurd (eq_nil_of_closed h) (List.cons_ne_nil _ _)
  by_cases hback : c = '\x5c'
  · subst hback
    rcases s with _ | ⟨d, s⟩
    · rw [List.cons_append, List.nil_append, scan_escape] at h
      obtain ⟨-, W', hW', -, -⟩ := Behind.backslash.step (z := []) h
      exact absurd (List.cons_eq_cons.1 hW').1 hquote
    rw [List.cons_append, List.cons_append, scan_escape] at h
    obtain ⟨e, he, hes⟩ | ⟨hd, hlike⟩ | hd := special_of_unescape d
    · rw [he] at h
      exact absurd (Behind.backslash.step h).1 hes
    · rw [hd, show v ++ '\x5c' :: d :: s = v ++ ['\x5c', d] ++ s by simp] at h
      have hs : Plain s := ih s.length (Nat.lt_succ_of_lt (Nat.lt_succ_self _)) h rfl
      refine Plain.escape_iff.2 ⟨?_, (Plain.cons_iff (not_special_of_like hlike)).2 hs⟩
      simpa using hlike
    · rw [hd] at h
      obtain ⟨-, W', hW', -, -⟩ := Behind.backslash.step h
      obtain ⟨rfl, -⟩ := List.cons_eq_cons.1 hW'
      rw [List.append_cons v '\x5c' ('\x5c' :: s)] at h
      exact absurd h (ht.scan_ne .backslash)
  · have hc : ¬ Special c := not_or.2 ⟨hquote, hback⟩
    rw [List.cons_append, scan_char hc, List.append_cons v c s] at h
    exact (Plain.cons_iff hc).2 (ih s.length (by simp) h rfl)

/-- Statements with strings put between quotes as they are: read as meant exactly if all of them are plain. -/
theorem scan_render_iff {ps : List Piece} (h : WellFormed ps) :
    scan none (ps.flatMap Piece.render) = some (ps.flatMap Piece.toks) ↔ ∀ s, .quoted s ∈ ps → Plain s := by
  induction ps with
  | nil => exact ⟨fun _ _ hs => absurd hs List.not_mem_nil, fun _ => by rw [List.flatMap_nil, scan]; rfl⟩
  | cons p ps ih =>
    -- the tokens of the first piece are read, so that the rest remains
    have hrest : ∀ p : Piece, (scan none (ps.flatMap Piece.render)).map (p.toks ++ ·) = some (p.toks ++ ps.flatMap Piece.toks) ↔
        scan none (ps.flatMap Piece.render) = some (ps.flatMap Piece.toks) := by
      intro p
      rw [Option.map_eq_some_iff]
      simp
    cases p with
    | code t =>
      obtain ⟨ht, h⟩ := h
      have hcode : ∀ s, .quoted s ∈ Piece.code t :: ps ↔ .quoted s ∈ ps := by simp
      simp only [hcode, ← ih h, List.flatMap_cons, ← hrest (.code t)]
      rw [Piece.render, scan_append ht]
      rfl
    | quoted s =>
      obtain ⟨hout, h⟩ := h
      have hread : scan none (Piece.render (.quoted s) ++ ps.flatMap Piece.render) =
          scan (some []) (s ++ '\x27' :: ps.flatMap Piece.render) := by
        rw [Piece.render, List.cons_append, List.cons_append, scan_open, List.append_assoc]
        rfl
      rw [List.flatMap_cons, List.flatMap_cons, hread]
      constructor
      · intro hscan
        have hs : Plain s := plain_of_scan hout hscan
        rw [hs.scan_eq hout] at hscan
        have hps := (ih h).1 ((hrest (.quoted s)).1 hscan)
        intro s' hs'
        rcases List.mem_cons.1 hs' with heq | hs'
        · cases heq
          exact hs
        · exact hps s' hs'
      · intro hps
        rw [(hps s (.head _)).scan_eq hout]
        exact (hrest (.quoted s)).2 ((ih h).2 fun s' hs' => hps s' (.tail _ hs'))

end Scan

end Literals

import Netdisk.Tools
import Mathlib.Data.List.Induction

/-!
# What `simplifyPath` computes

The components of a path are stacked one after another (`enter`); the loop of `simplifyPath` keeps
that stack in `name`, one slash behind each component, and in `list` the places of these slashes.
-/

namespace Netdisk

/-- The stack as `name` holds it. -/
def trail (ns : List CStr) : CStr := '/' :: ns.flatMap (· ++ ['/'])

/-- A component that stays as it is. -/
def IsName (n : CStr) : Prop := n ≠ [] ∧ '/' ∉ n ∧ n ≠ ['.'] ∧ n ≠ ['.', '.']

instance : DecidablePred IsName := fun _ => inferInstanceAs (Decidable (_ ∧ _ ∧ _ ∧ _))

theorem trail_snoc (ns : List CStr) (n : CStr) : trail (ns ++ [n]) = trail ns ++ n ++ ['/'] := by
  simp [trail]

/-- Each name is followed by a slash, and preceded by one. -/
theorem trail_eq_joinPath {ns : List CStr} (hne : ns ≠ []) : trail ns = joinPath ns ++ ['/'] := by
  induction ns with
  | nil => exact absurd rfl hne
  | cons n ns ih =>
    cases ns with
    | nil => simp [trail, joinPath]
    | cons m ns =>
      have hrest := ih (List.cons_ne_nil m ns)
      simp only [trail, joinPath, List.flatMap_cons, List.cons_append, List.append_assoc, List.cons.injEq,
        true_and] at hrest ⊢
      rw [← hrest]
      rfl

theorem lt_length_trail {ns : List CStr} (h : ∀ n ∈ ns, n ≠ []) : 2 * ns.length < (trail ns).length := by
  induction ns using List.reverseRecOn with
  | nil => simp [trail]
  | append_singleton ns n ih =>
    have hn : 0 < n.length := List.length_pos_iff.2 (h n (List.mem_append_right _ (List.mem_singleton_self n)))
    have hns := ih fun m hm => h m (List.mem_append_left _ hm)
    rw [trail_snoc]
    simp only [List.length_append, List.length_singleton]
    omega

theorem enter_forall {P : CStr → Prop} {ns : List CStr} {n : CStr} (hns : ∀ m ∈ ns, P m)
    (hn : n ≠ [] → n ≠ ['.'] → n ≠ ['.', '.'] → P n) : ∀ m ∈ enter ns n, P m := by
  intro m hm
  unfold enter at hm
  split at hm
  · exact hns m hm
  split at hm
  · exact hns m ((List.dropLast_sublist ns).subset hm)
  · next hskip hup =>
    rcases List.mem_append.1 hm with hm | hm
    · exact hns m hm
    · obtain rfl := List.mem_singleton.1 hm
      exact hn (fun h => hskip (.inl h)) (fun h => hskip (.inr h)) hup

theorem pieces_no_slash {cur rest : CStr} (hcur : '/' ∉ cur) : ∀ n ∈ pieces cur rest, '/' ∉ n := by
  induction rest generalizing cur with
  | nil => simpa [pieces] using hcur
  | cons c rest ih =>
    rw [pieces]
    split
    · exact List.forall_mem_cons.2 ⟨hcur, ih List.not_mem_nil⟩
    · next hc => exact ih (by simpa [hcur] using Ne.symm hc)

theorem isName_resolve (rest : CStr) : ∀ n ∈ resolve rest, IsName n := by
  have hfold : ∀ (l ns : List CStr), (∀ n ∈ l, '/' ∉ n) → (∀ n ∈ ns, IsName n) → ∀ n ∈ l.foldl enter ns, IsName n := by
    intro l
    induction l with
    | nil => exact fun ns _ hns => hns
    | cons n l ih =>
      intro ns hl hns
      obtain ⟨hn, hl⟩ := List.forall_mem_cons.1 hl
      exact ih _ hl (enter_forall hns fun h₁ h₂ h₃ => ⟨h₁, hn, h₂, h₃⟩)
  exact hfold _ [] (pieces_no_slash nofun) nofun

/-! ### The loop -/

namespace Simplify

/-- In front of the component `cur`, which comes behind `pre`, the stack is `ns`. -/
structure Holds (path pre cur : CStr) (ns : List CStr) (s : Simplify) : Prop where
  name : s.name.take s.nameIdx = trail ns ++ cur
  nameIdx : s.nameIdx = (trail ns).length + cur.length
  nameLength : s.name.length = path.length + 1
  listIdx : s.listIdx = ns.length + 1
  list : ∀ j ≤ ns.length, s.list.getD j 0 + 1 = (trail (ns.take j)).length
  listLength : s.list.length = path.length
  lastSlash : s.lastSlash + 1 = pre.length
  bound : (trail ns).length ≤ pre.length
  nonempty : ∀ n ∈ ns, n ≠ []

variable {path pre cur rest : CStr} {ns : List CStr} {s : Simplify}

theorem take_set {l : List Char} {i : Nat} (h : i < l.length) (c : Char) : (l.set i c).take (i + 1) = l.take i ++ [c] := by
  rw [List.take_add_one, List.take_set_of_le (Nat.le_refl i), List.getElem?_set_self h]
  rfl

theorem Holds.char (h : Holds path pre cur ns s) {c : Char} (hpath : path = pre ++ cur ++ c :: rest) (hc : c ≠ '/') :
    Holds path pre (cur ++ [c]) ns (step path s (pre ++ cur).length) := by
  have hlen : path.length = pre.length + cur.length + (rest.length + 1) := by
    rw [hpath]
    simp only [List.length_append, List.length_cons]
  have hget : path.getD (pre ++ cur).length '\x00' = c := by rw [hpath]; simp
  have hlt : s.nameIdx < s.name.length := by
    have := h.nameIdx
    have := h.bound
    have := h.nameLength
    omega
  have hstep : step path s (pre ++ cur).length = { s with name := s.name.set s.nameIdx c, nameIdx := s.nameIdx + 1 } := by
    rw [step, if_pos ⟨by rw [List.length_append]; omega, by rwa [hget]⟩, hget]
  rw [hstep]
  exact
    { name := by
        show (s.name.set s.nameIdx c).take (s.nameIdx + 1) = _
        rw [take_set hlt, h.name, List.append_assoc]
      nameIdx := by
        show s.nameIdx + 1 = _
        rw [h.nameIdx, List.length_append]
        rfl
      nameLength := (List.length_set).trans h.nameLength
      listIdx := h.listIdx
      list := h.list
      listLength := h.listLength
      lastSlash := h.lastSlash
      bound := h.bound
      nonempty := h.nonempty }

theorem trail_take_starts (ns : List CStr) (k : Nat) : trail (ns.take k) <+: trail ns := by
  refine ⟨(ns.drop k).flatMap (· ++ ['/']), ?_⟩
  rw [trail, trail, List.cons_append, ← List.flatMap_append, List.take_append_drop]

/-- The component behind the next slash, the stack cut down to `k` of its entries. -/
theorem Holds.back (h : Holds path pre cur ns s) {k : Nat} (hk : k ≤ ns.length) :
    Holds path (pre ++ cur ++ ['/']) [] (ns.take k)
      { s with lastSlash := (pre ++ cur).length, listIdx := k + 1, nameIdx := (trail (ns.take k)).length } := by
  have hle : (trail (ns.take k)).length ≤ (trail ns).length := (trail_take_starts ns k).length_le
  have hlength : (ns.take k).length = k := List.length_take_of_le hk
  exact
    { name := by
        have hidx : (trail (ns.take k)).length ≤ s.nameIdx := by
          have := h.nameIdx
          omega
        show s.name.take (trail (ns.take k)).length = _
        rw [← Nat.min_eq_left hidx, ← List.take_take, h.name, List.append_nil]
        exact (List.prefix_iff_eq_take.1 ((trail_take_starts ns k).trans (List.prefix_append _ cur))).symm
      nameIdx := rfl
      nameLength := h.nameLength
      listIdx := by rw [hlength]
      list := fun j hj => by
        rw [hlength] at hj
        rw [List.take_take, Nat.min_eq_left hj]
        exact h.list j (Nat.le_trans hj hk)
      listLength := h.listLength
      lastSlash := by simp [Nat.add_assoc]
      bound := by
        have := h.bound
        simp only [List.length_append]
        omega
      nonempty := fun n hn => h.nonempty n (List.mem_of_mem_take hn) }

theorem Holds.keep (h : Holds path pre cur ns s) (hlen : (pre ++ cur).length ≤ path.length) (hcur : cur ≠ []) :
    Holds path (pre ++ cur ++ ['/']) [] (ns ++ [cur]) (keep { s with lastSlash := (pre ++ cur).length }) := by
  have hidx := h.nameIdx
  have hbound := h.bound
  have hns := lt_length_trail h.nonempty
  have hpos : 0 < cur.length := List.length_pos_iff.2 hcur
  rw [List.length_append] at hlen
  have hname : s.nameIdx < s.name.length := by
    have := h.nameLength
    omega
  have hlist : ns.length + 1 < s.list.length := by
    have := h.listLength
    omega
  exact
    { name := by
        show (s.name.set s.nameIdx '/').take (s.nameIdx + 1) = _
        rw [take_set hname, h.name, trail_snoc, List.append_nil]
      nameIdx := by
        show s.nameIdx + 1 = _
        rw [trail_snoc]
        simp only [List.length_append, List.length_singleton, List.length_nil]
        omega
      nameLength := (List.length_set).trans h.nameLength
      listIdx := by
        show s.listIdx + 1 = _
        rw [h.listIdx, List.length_append]
        rfl
      list := fun j hj => by
        show (s.list.set s.listIdx s.nameIdx).getD j 0 + 1 = _
        rw [h.listIdx, List.getD_eq_getElem?_getD]
        rw [List.length_append, List.length_singleton] at hj
        rcases Nat.lt_or_ge ns.length j with hlt | hge
        · obtain rfl : j = ns.length + 1 := by omega
          rw [List.getElem?_set_self hlist, List.take_of_length_le (by simp), trail_snoc]
          simp only [Option.getD_some, List.length_append, List.length_singleton]
          omega
        · rw [List.getElem?_set_ne (by omega), ← List.getD_eq_getElem?_getD, List.take_append_of_le_length hge]
          exact h.list j hge
      listLength := (List.length_set).trans h.listLength
      lastSlash := by
        show (pre ++ cur).length + 1 = _
        simp [Nat.add_assoc]
      bound := by
        rw [trail_snoc]
        simp only [List.length_append, List.length_singleton]
        omega
      nonempty := fun n hn => by
        rcases List.mem_append.1 hn with hn | hn
        · exact h.nonempty n hn
        · exact List.mem_singleton.1 hn ▸ hcur }

theorem Holds.slash (h : Holds path pre cur ns s) (hpath : path = pre ++ cur ++ rest)
    (hend : rest = [] ∨ ∃ rest', rest = '/' :: rest') :
    Holds path (pre ++ cur ++ ['/']) [] (enter ns cur) (step path s (pre ++ cur).length) := by
  have hlen : (pre ++ cur).length ≤ path.length := by
    rw [hpath]
    simp
  have hstop : ¬ ((pre ++ cur).length < path.length ∧ path.getD (pre ++ cur).length '\x00' ≠ '/') := by
    rintro ⟨hlt, hne⟩
    rcases hend with rfl | ⟨rest', rfl⟩
    · rw [hpath, List.append_nil] at hlt
      exact Nat.lt_irrefl _ hlt
    · rw [hpath] at hne
      simp at hne
  have hnameLen : (pre ++ cur).length - s.lastSlash = cur.length + 1 := by
    have := h.lastSlash
    rw [List.length_append]
    omega
  -- the stack as it is, and without its last entry
  have hsame : Holds path (pre ++ cur ++ ['/']) [] ns
      { s with lastSlash := (pre ++ cur).length, nameIdx := (trail ns).length } := by
    have hback := h.back (Nat.le_refl ns.length)
    rw [List.take_length, ← h.listIdx] at hback
    exact hback
  have hup : Holds path (pre ++ cur ++ ['/']) [] ns.dropLast
      { s with
        lastSlash := (pre ++ cur).length
        listIdx := ns.length - 1 + 1
        nameIdx := (trail ns.dropLast).length } := by
    rw [List.dropLast_eq_take]
    exact h.back (Nat.sub_le _ _)
  unfold step
  rw [if_neg hstop]
  dsimp only
  rw [hnameLen]
  match cur, h, hpath with
  | [], h, _ =>
    have hlength : ([] : CStr).length + 1 = 1 := rfl
    rw [if_pos hlength, enter, if_pos (.inl rfl)]
    have hidx := h.nameIdx
    simp only [List.length_nil, Nat.add_zero] at hidx
    rw [← hidx] at hsame
    exact hsame
  | [c], h, hpath =>
    have hlast : path.getD ((pre ++ [c]).length - 1) '\x00' = c := by rw [hpath]; simp
    have hlength : [c].length + 1 = 2 := rfl
    rw [if_neg (by simp), if_pos hlength, hlast]
    split
    · next hdot =>
      have hidx : s.list.getD (s.listIdx - 1) 0 + 1 = (trail ns).length := by
        rw [h.listIdx, Nat.add_sub_cancel, h.list ns.length (Nat.le_refl _), List.take_length]
      rw [enter, if_pos (.inr (by rw [hdot])), hidx]
      exact hsame
    · next hdot =>
      rw [enter, if_neg (by simpa using hdot), if_neg (by simp)]
      exact h.keep hlen (List.cons_ne_nil _ _)
  | [d, c], h, hpath =>
    have hlast : path.getD ((pre ++ [d, c]).length - 1) '\x00' = c := by rw [hpath]; simp
    have hfirst : path.getD ((pre ++ [d, c]).length - 2) '\x00' = d := by rw [hpath]; simp
    have hlength : [d, c].length + 1 = 3 := rfl
    rw [if_neg (by simp), if_neg (by simp), if_pos hlength, hlast, hfirst]
    split
    · next hdots =>
      obtain ⟨rfl, rfl⟩ := hdots
      rw [enter, if_neg (by simp), if_pos rfl, h.listIdx]
      split
      · next hone =>
        obtain rfl : ns = [] := List.length_eq_zero_iff.1 (by omega)
        exact hup
      · next hmore =>
        have hidx := h.list (ns.length - 1) (Nat.sub_le _ _)
        rw [← List.dropLast_eq_take] at hidx
        have hpred : ns.length + 1 - 2 = ns.length - 1 := by omega
        have hsucc : ns.length + 1 - 1 = ns.length - 1 + 1 := by omega
        rw [hpred, hidx, hsucc]
        exact hup
    · next hdots =>
      rw [enter, if_neg (by simp), if_neg (by simpa [and_comm] using hdots)]
      exact h.keep hlen (List.cons_ne_nil _ _)
  | a :: b :: c :: cur, h, _ =>
    rw [if_neg (by simp), if_neg (by simp), if_neg (by simp), enter, if_neg (by simp), if_neg (by simp)]
    exact h.keep hlen (List.cons_ne_nil _ _)

theorem Holds.loop (h : Holds path pre cur ns s) (hpath : path = pre ++ cur ++ rest) :
    ∃ pre', Holds path pre' [] ((pieces cur rest).foldl enter ns)
      ((List.range' (pre ++ cur).length (rest.length + 1)).foldl (step path) s) := by
  induction rest generalizing pre cur ns s with
  | nil => exact ⟨_, h.slash hpath (.inl rfl)⟩
  | cons c rest ih =>
    rw [pieces, List.length_cons, List.range'_succ, List.foldl_cons]
    by_cases hc : c = '/'
    · subst hc
      have hnext := ih (h.slash hpath (.inr ⟨rest, rfl⟩)) (by simp [hpath])
      rw [if_pos rfl, List.foldl_cons]
      simpa [Nat.add_assoc] using hnext
    · have hnext := ih (h.char hpath hc) (by simp [hpath])
      rw [if_neg hc]
      simpa [Nat.add_assoc] using hnext

theorem holds_init (rest : CStr) :
    Holds ('/' :: rest) ['/'] [] []
      { name := (List.replicate (('/' :: rest).length + 1) '\x00').set 0 '/'
        nameIdx := 1
        list := List.replicate ('/' :: rest).length 0
        listIdx := 1
        lastSlash := 0 } where
  name := by simp [trail, List.replicate_succ]
  nameIdx := rfl
  nameLength := by simp
  listIdx := rfl
  list := fun j hj => by
    obtain rfl := Nat.le_zero.1 hj
    simp [trail, List.replicate_succ]
  listLength := by simp
  lastSlash := rfl
  bound := by simp [trail]
  nonempty := nofun

end Simplify

/-- What is left of an absolute path is its stack of components. -/
theorem simplifyPath_eq (rest : CStr) :
    simplifyPath ('/' :: rest) = if resolve rest = [] then ['/'] else joinPath (resolve rest) := by
  let init : Simplify :=
    { name := (List.replicate (('/' :: rest).length + 1) '\x00').set 0 '/'
      nameIdx := 1
      list := List.replicate ('/' :: rest).length 0
      listIdx := 1
      lastSlash := 0 }
  have hpath : '/' :: rest = ['/'] ++ [] ++ rest := rfl
  obtain ⟨pre, hend⟩ := (Simplify.holds_init rest).loop hpath
  let s := (List.range' 1 ('/' :: rest).length).foldl (Simplify.step ('/' :: rest)) init
  have hname : s.name.take s.nameIdx = trail (resolve rest) := hend.name.trans (List.append_nil _)
  have hidx : s.nameIdx = (trail (resolve rest)).length := hend.nameIdx
  show s.name.take (s.nameIdx - if s.nameIdx = 1 then 0 else 1) = _
  by_cases hroot : resolve rest = []
  · rw [hroot] at hname hidx
    have hone : s.nameIdx = 1 := hidx
    rw [if_pos hone, if_pos hroot, Nat.sub_zero, hname]
    rfl
  · have htrail := trail_eq_joinPath hroot
    have hlen : s.nameIdx = (joinPath (resolve rest)).length + 1 := by
      rw [hidx, htrail]
      simp
    have hpos : 0 < (joinPath (resolve rest)).length := by
      obtain ⟨n, ns, hns⟩ := List.exists_cons_of_ne_nil hroot
      rw [hns]
      simp [joinPath]
    rw [if_neg (by omega), if_neg hroot, hlen, Nat.add_sub_cancel]
    have htake := congrArg (List.take (joinPath (resolve rest)).length) hname
    rwa [List.take_take, Nat.min_eq_left (by omega), htrail, List.take_left' rfl] at htake

end Netdisk

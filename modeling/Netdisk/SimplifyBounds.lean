import Netdisk.Lib.Arrays
import Netdisk.SimplifyPath

/-!
# The arrays of `simplifyPath`

`simplifyPath` once more with every access to `path`, `name` and `list` on record. The record is held
against the stack of components that the variables stand for (`Simplify.Holds`).
-/

namespace Netdisk
open Arrays Logged

namespace Simplify

/-- The arrays of `simplifyPath`. -/
inductive Buffer where
  | path | name | list
deriving DecidableEq

/-- How many elements each of them has; `path` includes its terminator. -/
def size (path : CStr) : Buffer → Nat
  | .path => path.length + 1
  | .name => path.length + 1
  | .list => path.length

/-- The variables in front of the loop. -/
def init (path : CStr) : Simplify where
  name := (List.replicate (path.length + 1) '\x00').set 0 '/'
  nameIdx := 1
  list := List.replicate path.length 0
  listIdx := 1
  lastSlash := 0

/-- The variables at the start of iteration `i`; at `i = pathLen + 1` behind the loop. -/
def before (path : CStr) (i : Nat) : Simplify := (List.range' 1 (i - 1)).foldl (step path) (init path)

def initLog (path : CStr) : Logged Buffer Simplify := do
  let name ← writeAt .name (List.replicate (path.length + 1) '\x00') 0 '/'
  let list ← writeAt .list (List.replicate path.length 0) 0 0
  pure { name := name, nameIdx := 1, list := list, listIdx := 1, lastSlash := 0 }

def keepLog (s : Simplify) : Logged Buffer Simplify := do
  let name ← writeAt .name s.name s.nameIdx '/'
  let list ← writeAt .list s.list s.listIdx s.nameIdx
  pure { s with name := name, nameIdx := s.nameIdx + 1, list := list, listIdx := s.listIdx + 1 }

/-- The iteration at a slash or at the end of the path. -/
def slashLog (path : CStr) (s : Simplify) (i : Nat) : Logged Buffer Simplify :=
  let nameLen := i - s.lastSlash
  let s := { s with lastSlash := i }
  if nameLen = 1 then pure s
  else if nameLen = 2 then do
    let last ← readAt .path path '\x00' ((i : Int) - 1)
    if last = '.' then
      let back ← readAt .list s.list 0 ((s.listIdx : Int) - 1)
      pure { s with nameIdx := back + 1 }
    else s.keepLog
  else if nameLen = 3 then do
    let last ← readAt .path path '\x00' ((i : Int) - 1)
    if last = '.' then
      let first ← readAt .path path '\x00' ((i : Int) - 2)
      if first = '.' then
        if s.listIdx ≤ 1 then pure { s with listIdx := 1, nameIdx := 1 }
        else
          let s := { s with listIdx := s.listIdx - 1 }
          let back ← readAt .list s.list 0 ((s.listIdx : Int) - 1)
          pure { s with nameIdx := back + 1 }
      else s.keepLog
    else s.keepLog
  else s.keepLog

def stepLog (path : CStr) (s : Simplify) (i : Nat) : Logged Buffer Simplify :=
  if i < path.length then do
    let here ← readAt .path path '\x00' i
    if here ≠ '/' then
      let c ← readAt .path path '\x00' i
      let name ← writeAt .name s.name s.nameIdx c
      pure { s with name := name, nameIdx := s.nameIdx + 1 }
    else slashLog path s i
  else slashLog path s i

end Simplify

/-- `simplifyPath` with its accesses. -/
def simplifyPathLog (path : CStr) : Logged Simplify.Buffer CStr := do
  let s ← Simplify.initLog path
  let s ← (List.range' 1 path.length).foldlM (Simplify.stepLog path) s
  let num : Nat := if s.nameIdx = 1 then 0 else 1
  let name ← writeAt .name s.name ((s.nameIdx : Int) - num) '\x00'
  pure (name.take (s.nameIdx - num))
namespace Simplify
variable {path pre cur rest : CStr} {ns : List CStr} {s : Simplify} {i : Nat}

theorem before_succ (path : CStr) (k : Nat) : before path (k + 2) = step path (before path (k + 1)) (k + 1) := by
  show (List.range' 1 (k + 1)).foldl (step path) (init path) = _
  rw [List.range'_1_concat, List.foldl_append, Nat.add_comm 1 k]
  rfl

theorem initLog_val (path : CStr) : (initLog path).val = init path := by
  simp [initLog, init, writeAt]

theorem keepLog_val (s : Simplify) : s.keepLog.val = s.keep := by
  simp only [keepLog, keep, val_bind, val_writeAt, val_pure]

theorem stepLog_slash (h : ¬ (i < path.length ∧ path.getD i '\x00' ≠ '/')) :
    (stepLog path s i).val = (slashLog path s i).val := by
  unfold stepLog
  split
  · next hlt =>
    have hc : path.getD i '\x00' = '/' := by_contra fun hne => h ⟨hlt, hne⟩
    simp only [val_bind, val_readAt, hc, ne_eq, not_true, if_false]
  · rfl

/-- What a step computes does not depend on keeping the record. -/
theorem stepLog_val (path : CStr) (i : Nat) (hlist : 1 ≤ s.listIdx) : (stepLog path s i).val = step path s i := by
  unfold step
  by_cases hchar : i < path.length ∧ path.getD i '\x00' ≠ '/'
  · simp only [stepLog, hchar, if_true, val_bind, val_readAt, ne_eq, not_false_eq_true, val_writeAt, val_pure,
      and_self]
  rw [if_neg hchar, stepLog_slash hchar]
  have hlast (h : 2 ≤ i - s.lastSlash) :
      (readAt Buffer.path path '\x00' ((i : Int) - 1)).val = path.getD (i - 1) '\x00' := val_readAt_eq (by omega)
  have hfirst (h : 3 ≤ i - s.lastSlash) :
      (readAt Buffer.path path '\x00' ((i : Int) - 2)).val = path.getD (i - 2) '\x00' := val_readAt_eq (by omega)
  have hback (n : Nat) (h : 1 ≤ n) : (readAt Buffer.list s.list 0 ((n : Int) - 1)).val = s.list.getD (n - 1) 0 :=
    val_readAt_eq (by omega)
  unfold slashLog
  dsimp only
  split
  · rfl
  split
  · next h2 => simp only [val_bind, val_ite, val_pure, keepLog_val, hlast (Nat.le_of_eq h2.symm), hback _ hlist]
  split
  · next h3 =>
    simp only [val_bind, val_ite, val_pure, keepLog_val, hlast (by omega), hfirst (Nat.le_of_eq h3.symm)]
    by_cases hl : path.getD (i - 1) '\x00' = '.'
    · by_cases hf : path.getD (i - 2) '\x00' = '.'
      · simp only [hl, hf, and_self, if_true]
        split
        · rfl
        · next hmore => rw [hback (s.listIdx - 1) (by omega), Nat.sub_sub]
      · simp only [hl, hf, and_false, if_true, if_false]
    · simp only [hl, false_and, if_false]
  · exact keepLog_val _

/-! ### Where the accesses go -/

/-- Where an access of the iteration stays that leaves `listIdx` entries in `list`. -/
def InBounds (path : CStr) (listIdx : Nat) : Access Buffer → Prop
  | .read .path k => 0 ≤ k ∧ k ≤ path.length
  | .write .name k => 0 ≤ k ∧ k ≤ path.length
  | .write .list k => 0 ≤ k ∧ k ≤ (path.length : Int) - 1
  | .read .list k => 0 ≤ k ∧ k ≤ (listIdx : Int) - 1
  | .read .name _ => False
  | .write .path _ => False

/-- Iteration `i`: the indices at its start, and where its accesses go. -/
structure Safe (path : CStr) (i : Nat) : Prop where
  nameIdx : 1 ≤ (before path i).nameIdx ∧ (before path i).nameIdx ≤ i
  listIdx : 1 ≤ (before path i).listIdx
  next : (stepLog path (before path i) i).val = before path (i + 1)
  inBounds : ∀ x ∈ (stepLog path (before path i) i).log, InBounds path (before path (i + 1)).listIdx x

theorem keepLog_inBounds {n : Nat} (hname : s.nameIdx ≤ path.length) (hlist : s.listIdx < path.length) :
    ∀ x ∈ s.keepLog.log, InBounds path n x := by
  intro x hx
  simp only [keepLog, log_bind, log_writeAt, log_pure, List.append_nil, List.mem_append, List.mem_singleton] at hx
  rcases hx with rfl | rfl
  · exact ⟨by omega, by omega⟩
  · exact ⟨by omega, by omega⟩

theorem slashLog_inBounds (hi : i ≤ path.length) (hname : s.nameIdx ≤ path.length) (hlist : 1 ≤ s.listIdx)
    (hslash : s.lastSlash < i) (hroom : 2 ≤ i - s.lastSlash → s.listIdx < path.length) :
    ∀ x ∈ (slashLog path s i).log, InBounds path (slashLog path s i).val.listIdx x := by
  have hlast (h : 2 ≤ i - s.lastSlash) (n : Nat) : InBounds path n (.read .path ((i : Int) - 1)) :=
    ⟨by omega, by omega⟩
  have hfirst (h : 3 ≤ i - s.lastSlash) (n : Nat) : InBounds path n (.read .path ((i : Int) - 2)) :=
    ⟨by omega, by omega⟩
  have hback (n : Nat) (h : 1 ≤ n) : InBounds path n (.read .list ((n : Int) - 1)) := ⟨by omega, by omega⟩
  have hkeep (n : Nat) (h : 2 ≤ i - s.lastSlash) : ∀ x ∈ (keepLog { s with lastSlash := i }).log, InBounds path n x :=
    keepLog_inBounds hname (hroom h)
  unfold slashLog
  dsimp only
  split
  · simp
  split
  · next h2 =>
    simp only [log_bind, val_bind, log_readAt, List.forall_mem_append, List.forall_mem_singleton]
    refine ⟨hlast (by omega) _, ?_⟩
    split
    · simpa using hback _ hlist
    · exact hkeep _ (by omega)
  split
  · next h3 =>
    simp only [log_bind, val_bind, log_readAt, List.forall_mem_append, List.forall_mem_singleton]
    refine ⟨hlast (by omega) _, ?_⟩
    split
    · simp only [log_bind, val_bind, log_readAt, List.forall_mem_append, List.forall_mem_singleton]
      refine ⟨hfirst (by omega) _, ?_⟩
      split
      · split
        · simp
        · next hmore => simpa using hback (s.listIdx - 1) (by omega)
      · exact hkeep _ (by omega)
    · exact hkeep _ (by omega)
  · exact hkeep _ (by omega)

/-- What an iteration finds: the stack `ns`, and behind it the component that it has read so far. -/
theorem exists_holds {tail : CStr} {k : Nat} (hk : k ≤ tail.length) :
    ∃ pre cur ns rest, '/' :: tail = pre ++ cur ++ rest ∧ (pre ++ cur).length = k + 1 ∧
      Holds ('/' :: tail) pre cur ns (before ('/' :: tail) (k + 1)) := by
  induction k with
  | zero => exact ⟨['/'], [], [], tail, rfl, rfl, holds_init tail⟩
  | succ k ih =>
    obtain ⟨pre, cur, ns, rest, hpath, hlen, h⟩ := ih (Nat.le_of_succ_le hk)
    match rest, hpath with
    | [], hpath =>
      have hlength := congrArg List.length hpath
      simp only [List.append_nil, List.length_cons] at hlength
      omega
    | c :: rest, hpath =>
      by_cases hc : c = '/'
      · subst hc
        have hnext := h.slash hpath (.inr ⟨rest, rfl⟩)
        rw [hlen, ← before_succ] at hnext
        refine ⟨pre ++ cur ++ ['/'], [], _, rest, by simp [hpath], ?_, hnext⟩
        rw [List.append_nil, List.length_append, hlen, List.length_singleton]
      · have hnext := h.char hpath hc
        rw [hlen, ← before_succ] at hnext
        refine ⟨pre, cur ++ [c], ns, rest, by simp [hpath], ?_, hnext⟩
        rw [← List.append_assoc, List.length_append, hlen, List.length_singleton]

theorem Holds.nameIdx_le (h : Holds path pre cur ns s) : 1 ≤ s.nameIdx ∧ s.nameIdx ≤ (pre ++ cur).length := by
  have hidx := h.nameIdx
  have hbound := h.bound
  have hpos : 0 < (trail ns).length := List.length_pos_iff.2 (List.cons_ne_nil _ _)
  rw [List.length_append]
  omega

theorem Holds.listIdx_pos (h : Holds path pre cur ns s) : 1 ≤ s.listIdx := by
  have hidx := h.listIdx
  omega

/-- There is room in `list` for a component that is not empty. -/
theorem Holds.listIdx_lt (h : Holds path pre cur ns s) (hlen : (pre ++ cur).length ≤ path.length)
    (hcur : 2 ≤ (pre ++ cur).length - s.lastSlash) : s.listIdx < path.length := by
  have hidx := h.listIdx
  have hbound := h.bound
  have hlast := h.lastSlash
  have hns := lt_length_trail h.nonempty
  rw [List.length_append] at hlen hcur
  omega

theorem Holds.inBounds (h : Holds path pre cur ns s) (hlen : (pre ++ cur).length ≤ path.length) :
    ∀ x ∈ (stepLog path s (pre ++ cur).length).log,
      InBounds path (stepLog path s (pre ++ cur).length).val.listIdx x := by
  obtain ⟨-, hname⟩ := h.nameIdx_le
  have hslash : s.lastSlash < (pre ++ cur).length := by
    have := h.lastSlash
    rw [List.length_append]
    omega
  have hend := slashLog_inBounds hlen (Nat.le_trans hname hlen) h.listIdx_pos hslash (h.listIdx_lt hlen)
  have hread (n : Nat) : InBounds path n (.read .path ((pre ++ cur).length : Nat)) := ⟨by omega, by omega⟩
  unfold stepLog
  split
  · simp only [log_bind, val_bind, log_readAt, List.forall_mem_append, List.forall_mem_singleton]
    refine ⟨hread _, ?_⟩
    split
    · simp only [log_bind, val_bind, log_readAt, log_writeAt, log_pure, List.append_nil, List.forall_mem_append,
        List.forall_mem_singleton]
      exact ⟨hread _, by omega, by omega⟩
    · exact hend
  · exact hend

/-- Behind the loop the whole path has been read. -/
theorem exists_holds_end (tail : CStr) :
    ∃ pre ns, pre.length = ('/' :: tail).length + 1 ∧
      Holds ('/' :: tail) pre [] ns (before ('/' :: tail) (('/' :: tail).length + 1)) := by
  obtain ⟨pre, cur, ns, rest, hpath, hlen, h⟩ := exists_holds (Nat.le_refl tail.length)
  have hrest : rest = [] := by
    have hlength := congrArg List.length hpath
    rw [List.length_append, hlen, List.length_cons] at hlength
    exact List.length_eq_zero_iff.1 (by omega)
  have hnext := h.slash hpath (.inl hrest)
  rw [hlen, ← before_succ] at hnext
  refine ⟨_, _, ?_, hnext⟩
  rw [List.length_append, hlen]
  rfl

theorem Holds.listIdx_le (h : Holds path pre cur ns s) (hpath : path ≠ []) (hlen : pre.length ≤ path.length + 1) :
    s.listIdx ≤ path.length := by
  have hidx := h.listIdx
  have hbound := h.bound
  have hns := lt_length_trail h.nonempty
  have hpos := List.length_pos_iff.2 hpath
  omega

theorem safe {tail : CStr} {i : Nat} (hpos : 1 ≤ i) (hi : i ≤ ('/' :: tail).length) : Safe ('/' :: tail) i := by
  obtain ⟨k, rfl⟩ := Nat.exists_eq_add_of_le' hpos
  obtain ⟨pre, cur, ns, rest, hpath, hlen, h⟩ := exists_holds (Nat.le_of_succ_le_succ hi)
  have hname := h.nameIdx_le
  have hbounds := h.inBounds (hlen ▸ hi)
  rw [hlen] at hname hbounds
  have hval : (stepLog ('/' :: tail) (before ('/' :: tail) (k + 1)) (k + 1)).val = before ('/' :: tail) (k + 2) := by
    rw [stepLog_val _ _ h.listIdx_pos, before_succ]
  rw [hval] at hbounds
  exact ⟨hname, h.listIdx_pos, hval, hbounds⟩

/-- At the start of an iteration, and behind the last one, the entries of `list` are inside it. -/
theorem listIdx_before_le {tail : CStr} {i : Nat} (hpos : 1 ≤ i) (hi : i ≤ ('/' :: tail).length + 1) :
    (before ('/' :: tail) i).listIdx ≤ ('/' :: tail).length := by
  rcases Nat.le_succ_iff.1 hi with hi | rfl
  · obtain ⟨k, rfl⟩ := Nat.exists_eq_add_of_le' hpos
    obtain ⟨pre, cur, ns, rest, -, hlen, h⟩ := exists_holds (Nat.le_of_succ_le_succ hi)
    refine h.listIdx_le (List.cons_ne_nil _ _) ?_
    rw [List.length_append] at hlen
    omega
  · obtain ⟨pre, ns, hpre, h⟩ := exists_holds_end tail
    exact h.listIdx_le (List.cons_ne_nil _ _) (Nat.le_of_eq hpre)

theorem InBounds.within {x : Access Buffer} {n : Nat} (h : InBounds path n x) (hn : n ≤ path.length) :
    x.Within (size path) := by
  match x, h with
  | .read .path _, h => exact ⟨h.1, Int.lt_add_one_of_le h.2⟩
  | .write .name _, h => exact ⟨h.1, Int.lt_add_one_of_le h.2⟩
  | .write .list _, h => exact ⟨h.1, Int.lt_of_le_sub_one h.2⟩
  | .read .list _, h => exact ⟨h.1, Int.lt_of_lt_of_le (Int.lt_of_le_sub_one h.2) (Int.ofNat_le.2 hn)⟩

theorem foldl_stepLog {tail : CStr} {k : Nat} (hk : k ≤ ('/' :: tail).length) :
    (List.range' 1 k).foldl (fun s i => (stepLog ('/' :: tail) s i).val) (init ('/' :: tail)) =
      before ('/' :: tail) (k + 1) := by
  induction k with
  | zero => rfl
  | succ k ih =>
    rw [List.range'_1_concat, List.foldl_append, ih (Nat.le_of_succ_le hk), List.foldl_cons, List.foldl_nil,
      Nat.add_comm 1 k]
    exact (safe (Nat.succ_pos k) hk).next

end Simplify

/-- Every iteration of `simplifyPath` is safe, `listIdx` is positive behind the loop as well, and no access
of the call leaves its array, the final write included. -/
theorem simplifyPath_inBounds (tail : CStr) :
    (∀ i, 1 ≤ i → i ≤ ('/' :: tail).length → Simplify.Safe ('/' :: tail) i) ∧
    1 ≤ (Simplify.before ('/' :: tail) (('/' :: tail).length + 1)).listIdx ∧
    (simplifyPathLog ('/' :: tail)).val = simplifyPath ('/' :: tail) ∧
    ∀ x ∈ (simplifyPathLog ('/' :: tail)).log, x.Within (Simplify.size ('/' :: tail)) := by
  obtain ⟨pre, ns, hpre, hend⟩ := Simplify.exists_holds_end tail
  have hname := hend.nameIdx_le
  rw [List.append_nil, hpre] at hname
  have hloop : ((List.range' 1 ('/' :: tail).length).foldlM (Simplify.stepLog ('/' :: tail))
      (Simplify.init ('/' :: tail))).val = Simplify.before ('/' :: tail) (('/' :: tail).length + 1) := by
    rw [val_foldlM, Simplify.foldl_stepLog (Nat.le_refl _)]
  -- the place of the terminator
  have hstop (n : Nat) (h : 1 ≤ n) : (n : Int) - ((if n = 1 then 0 else 1 : Nat) : Int) = (n - if n = 1 then 0 else 1 : Nat) := by
    split <;> omega
  have hwrite : (n : Nat) → 1 ≤ n → n ≤ ('/' :: tail).length + 1 → (n - if n = 1 then 0 else 1) ≤ ('/' :: tail).length := by
    intro n hpos hn
    rw [List.length_cons] at hn ⊢
    split <;> omega
  refine ⟨fun i => Simplify.safe, hend.listIdx_pos, ?_, ?_⟩
  · simp only [simplifyPathLog, val_bind, Simplify.initLog_val, hloop, val_pure, hstop _ hname.1, val_writeAt]
    exact List.take_set_of_le (Nat.le_refl _)
  · simp only [simplifyPathLog, log_bind, log_pure, List.append_nil, log_writeAt, Simplify.initLog_val, hloop,
      hstop _ hname.1, List.forall_mem_append, List.forall_mem_singleton]
    refine ⟨?_, ?_, ?_⟩
    · intro x hx
      simp only [Simplify.initLog, log_bind, log_writeAt, log_pure, List.append_nil, List.mem_append, List.mem_singleton] at hx
      rcases hx with rfl | rfl
      · exact ⟨Int.le_refl 0, Int.natCast_pos.2 (Nat.succ_pos _)⟩
      · exact ⟨Int.le_refl 0, Int.natCast_pos.2 (Nat.succ_pos _)⟩
    · intro x hx
      obtain ⟨k, hk, hx⟩ := mem_log_loop.1 hx
      rw [Simplify.foldl_stepLog (Nat.le_of_lt hk), Nat.add_comm 1 k] at hx
      have hin := (Simplify.safe (Nat.succ_pos k) hk).inBounds x hx
      exact hin.within (Simplify.listIdx_before_le (Nat.succ_pos _) (Nat.succ_le_succ hk))
    · exact ⟨Int.natCast_nonneg _, Int.lt_add_one_of_le (Int.ofNat_le.2 (hwrite _ hname.1 hname.2))⟩

end Netdisk

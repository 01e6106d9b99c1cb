import Netdisk.Db.Tree

/-!
# Entries are stored in directories

`query_cd` looks at names and parents only, so a path may end at a plain file, and what is stored
there then is below a plain file. `wellFormed_of_storesInDirs`: as long as no call does that, every
entry is stored in a directory of its own user, and no `rm` takes a directory away from under it.
-/

namespace Netdisk
namespace Db
open Runs

/-- Whatever is stored under a parent is stored in a directory of the same user. -/
def WellFormed (db : Db) : Prop :=
  ∀ x ∈ db.userFile, ∀ p, x.parentId = some p →
    ∃ t ∈ db.userFile, t.userId = x.userId ∧ t.fileId = p ∧ db.IsDir p

/-- A call that adds an entry adds it to a directory, and the file ids fit 32 bits. -/
def StoresInDirs (db : Db) : RowOrder × Call → Prop
  | (_, .userRegister ..) => db.nextFile < 2 ^ 32
  | (ord, .queryMkdir path name u) | (ord, .queryPuts path name _ u) => db.nextFile < 2 ^ 32 ∧
    ∀ D : Nat, db.cd ord path u = some (D : Int) → 0 < D → db.Free D name → db.IsDir D
  | _ => True

/-- The tree, with an entry of the same user for every parent, and only directories above. -/
structure Nested (db : Db) : Prop extends Tree db where
  bound : db.nextFile ≤ 2 ^ 32
  wellFormed : db.WellFormed

variable {db db' : Db} {ord : RowOrder} {u : Nat}

theorem Nested.empty : Nested {} := ⟨tree_empty, by decide, nofun⟩

theorem IsDir.of_subset {id : Nat} (hfile : db.file ⊆ db'.file) (h : db.IsDir id) : db'.IsDir id := by
  obtain ⟨f, hf, hid, htype⟩ := h
  exact ⟨f, hfile hf, hid, htype⟩

/-- At most one row is new, and it is a root or lies in a directory that its user has an entry for. -/
theorem Nested.insert (h : Nested db) (ht : Tree db') (hb : db'.nextFile ≤ 2 ^ 32) {row : UserFile}
    (hfile : db.file ⊆ db'.file) (hkeep : db.userFile ⊆ db'.userFile)
    (hrows : ∀ x ∈ db'.userFile, x ∈ db.userFile ∨ x = row)
    (hrow : ∀ p, row.parentId = some p → ∃ t ∈ db.userFile, t.userId = row.userId ∧ t.fileId = p ∧ db.IsDir p) :
    Nested db' where
  toTree := ht
  bound := hb
  wellFormed x hx p hp := by
    have hparent : ∃ t ∈ db.userFile, t.userId = x.userId ∧ t.fileId = p ∧ db.IsDir p := by
      rcases hrows x hx with hx | rfl
      · exact h.wellFormed x hx p hp
      · exact hrow p hp
    obtain ⟨t, ht, htu, htp, hdir⟩ := hparent
    exact ⟨t, hkeep ht, htu, htp, hdir.of_subset hfile⟩

theorem Nested.remove (h : Nested db) {f : File} {r : UserFile} {D : Nat}
    (hx : ∃ x ∈ db.userFile, x.fileId = r.fileId ∧ x.userId = u ∧ x.parentId = some D)
    (hf : f ∈ db.file) (hid : f.id = r.fileId) (hfree : ¬ db.Occupied f) :
    Nested (db.exec (.deleteUserFile r.fileId u)) where
  toTree := h.toTree.unlink hx
  bound := h.bound
  wellFormed y hy p hp := by
    have hy := (mem_unlink.1 hy).1
    obtain ⟨t, ht, htu, htp, hdir⟩ := h.wellFormed y hy p hp
    refine ⟨t, mem_unlink.2 ⟨ht, ?_⟩, htu, htp, hdir⟩
    rintro ⟨hgone, -⟩
    -- the row that goes is of a directory with `y` in it
    obtain ⟨g, hg, hgid, htype⟩ := hdir
    have hsame : f.id = g.id := by rw [hid, ← hgone, htp, hgid]
    obtain rfl := h.fileIds f hf g hg hsame
    exact hfree ⟨htype, y, hy, by rw [hp, hgid]⟩

theorem Nested.step {C : Crypt} {i : RowOrder × Call} (h : Nested db) (hC : StoresInDirs db i)
    (hst : Step C db i db') : Nested db' := by
  obtain ⟨ord, call⟩ := i
  have he := Step.effect hst
  have ht : db.nextFile < 2 ^ 32 → Tree db' := fun hb => h.toTree.effect hb he
  have htarget : ∀ {path : CStr} {u D : Nat}, db.cd ord path u = some (D : Int) → 0 < D → db.IsDir D → ∀ p,
      some D = some p → ∃ t ∈ db.userFile, t.userId = u ∧ t.fileId = p ∧ db.IsDir p := by
    intro path u D hcd hD hdir p hp
    obtain rfl := Option.some.inj hp
    obtain ⟨t, ht, htu, hfile⟩ := h.toTree.target h.bound hcd hD
    exact ⟨t, ht, htu, hfile, hdir⟩
  have hnew : ∀ {α : Type} (l : List α) (a : α), l ⊆ l ++ [a] := fun l a => List.subset_append_left l [a]
  cases he with
  | same => exact h
  | register word hacc => exact h.insert (ht hC) hC (hnew _ _) (hnew _ _) (fun _ => mem_added) nofun
  | mkdir hcd hD hlt hfree =>
    exact h.insert (ht hC.1) hC.1 (hnew _ _) (hnew _ _) (fun _ => mem_added) (htarget hcd hD (hC.2 _ hcd hD hfree))
  | putsNew hcd hD hlt hfree hhash =>
    exact h.insert (ht hC.1) hC.1 (hnew _ _) (hnew _ _) (fun _ => mem_added) (htarget hcd hD (hC.2 _ hcd hD hfree))
  | putsLink f hcd hD hlt hfree hf hhash =>
    exact h.insert (ht hC.1) hC.1.le (List.Subset.refl _) (hnew _ _) (fun _ => mem_added) (htarget hcd hD (hC.2 _ hcd hD hfree))
  | update =>
    refine ⟨h.toTree.complete _, h.bound, fun x hx p hp => ?_⟩
    obtain ⟨t, ht, htu, htp, hdir⟩ := h.wellFormed x hx p hp
    exact ⟨t, ht, htu, htp, isDir_complete.2 hdir⟩
  | remove r f hcd hD hlt hr hx hf hid hocc => exact h.remove hx hf hid hocc

/-- Every entry lies in a directory of its user, in every state of a run whose calls store entries
in directories only. -/
theorem wellFormed_of_storesInDirs (C : Crypt) (r : List ((RowOrder × Call) × Db)) (hr : IsRun (Step C) {} r)
    (hC : Meets StoresInDirs {} r) : Always WellFormed {} r :=
  (hr.always (I := Nested) (fun _ _ _ h hC hst => h.step hC hst) Nested.empty hC).mono fun _ h => h.wellFormed

/-- A directory is made in the root of `a`. -/
theorem wellFormed_of_storesInDirs_one :
    Always WellFormed {} (trace (call .plain) {}
      [(.stored, .userRegister [] ['a'] ['p']), (.stored, .queryMkdir ['/', 'a'] ['d'] 1)]) := by
  let db := final {} (trace (call .plain) {} [(.stored, .userRegister [] ['a'] ['p'])])
  have hcd : db.cd .stored ['/', 'a'] 1 = some ((1 : Nat) : Int) := by decide +kernel
  have hdir : db.IsDir 1 := ⟨⟨1, .dir, none, none, true, 1⟩, by decide, rfl, rfl⟩
  refine wellFormed_of_storesInDirs .plain _ (isRun_trace ..) ⟨by unfold StoresInDirs; decide, ⟨by decide, ?_⟩, trivial⟩
  intro D hD _ _
  obtain rfl : 1 = D := Int.ofNat.inj (Option.some.inj (hcd.symm.trans hD))
  exact hdir

/-- A directory made inside a plain file, and then the file removed from under it. -/
theorem orphan_left : ¬ ∀ C db, Reaches (Step C) {} db → WellFormed db := by
  intro h
  let db := final {} (trace (call .plain) {}
    [(.stored, .userRegister [] ['a'] ['p']), (.stored, .queryPuts ['/', 'a'] ['f'] ['H'] 1),
      (.stored, .queryMkdir ['/', 'a', '/', 'f'] ['d'] 1), (.stored, .queryRemove ['/', 'a'] ['f'] 1)])
  have hrow : (⟨3, ['d'], 1, 3, some 2⟩ : UserFile) ∈ db.userFile := by decide +kernel
  obtain ⟨t, ht, -, hid, -⟩ := h .plain db (.of_trace (call .plain) {} _) _ hrow 2 rfl
  have hnone : ∀ t ∈ db.userFile, t.fileId ≠ 2 := by decide +kernel
  exact hnone t ht hid

end Db
end Netdisk

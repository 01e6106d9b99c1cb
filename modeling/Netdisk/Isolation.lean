import Netdisk.Db.Tree

/-!
# Whose entries `ls` and `ll` show

Both commands list what is stored under a file id, whoever stored it there. That is the user's own
as long as no id has entries of one user under it and links of another (`Apart`). Directories are
linked once, so it is up to the plain files: `isolated_of_keepsApart`.
-/

namespace Netdisk
namespace Db
open Runs

/-- `ls` shows rows of the user only, and `ll` files that the user links. -/
def Isolated (db : Db) : Prop :=
  ∀ (ord : RowOrder) (path : CStr) (u : Nat),
    (∀ rows db', (queryLs path u).run (handler ord) db = some (some rows, db') →
      ∀ r ∈ rows, r.userId = u ∧ ∃ x ∈ db.userFile, convertToUserfile x = r) ∧
    (∀ files db', (queryLl path u).run (handler ord) db = some (some files, db') →
      ∀ f ∈ files, ∃ x ∈ db.userFile, x.userId = u ∧ x.fileId = f.id)

/-- Entries are stored only where no other user links the parent, a file is linked only if no
other user has stored something under it, and the file ids fit 32 bits. -/
def KeepsApart (db : Db) : RowOrder × Call → Prop
  | (_, .userRegister ..) => db.nextFile < 2 ^ 32
  | (ord, .queryMkdir path dirName u) => db.nextFile < 2 ^ 32 ∧
    ∀ D : Nat, db.cd ord path u = some (D : Int) → 0 < D → db.Free D dirName →
      ∀ x ∈ db.userFile, x.fileId = D → x.userId = u
  | (ord, .queryPuts path fileName hash u) => db.nextFile < 2 ^ 32 ∧
    ∀ D : Nat, db.cd ord path u = some (D : Int) → 0 < D → db.Free D fileName →
      (∀ x ∈ db.userFile, x.fileId = D → x.userId = u) ∧
      ∀ f ∈ db.file, f.hash = some hash → ∀ y ∈ db.userFile, y.parentId = some f.id → y.userId = u
  | _ => True

/-- The tree, with the entries under a file id and the links to it belonging to one user. -/
structure Apart (db : Db) : Prop extends Tree db where
  bound : db.nextFile ≤ 2 ^ 32
  apart : ∀ x ∈ db.userFile, ∀ y ∈ db.userFile, y.parentId = some x.fileId → y.userId = x.userId

variable {db : Db} {ord : RowOrder} {u : Nat}

theorem queryLs_run {path : CStr} {rows : List UserFileT} {db' : Db}
    (h : (queryLs path u).run (handler ord) db = some (some rows, db')) :
    ∃ D : Nat, db.cd ord path u = some (D : Int) ∧ 0 < D ∧ rows = db.selectUserFile ord (.lsOf D) := by
  rw [queryLs, Prog.bind_eq, queryCd_bind_run] at h
  obtain ⟨d, hcd, h⟩ := Option.bind_eq_some_iff.1 h
  by_cases hd : d ≤ 0
  · simp [hd] at h
  · obtain ⟨D, rfl, hD, hlt⟩ := cd_pos hcd (by omega)
    have hreg : regOf D = D := regOf_of_lt (by omega)
    simp [hD.ne', handler, hreg] at h
    exact ⟨D, hcd, hD, h.1.symm⟩

theorem queryLl_run {path : CStr} {files : List FileT} {db' : Db}
    (h : (queryLl path u).run (handler ord) db = some (some files, db')) :
    ∃ D : Nat, db.cd ord path u = some (D : Int) ∧ 0 < D ∧ files = db.selectFile ord (.llOf D) := by
  rw [queryLl, Prog.bind_eq, queryCd_bind_run] at h
  obtain ⟨d, hcd, h⟩ := Option.bind_eq_some_iff.1 h
  by_cases hd : d ≤ 0
  · simp [hd] at h
  · obtain ⟨D, rfl, hD, hlt⟩ := cd_pos hcd (by omega)
    have hreg : regOf D = D := regOf_of_lt (by omega)
    simp [hD.ne', handler, hreg] at h
    exact ⟨D, hcd, hD, h.1.symm⟩

theorem Apart.child (h : Apart db) {path : CStr} {D : Nat} (hcd : db.cd ord path u = some (D : Int))
    (hD : 0 < D) {y : UserFile} (hy : y ∈ db.userFile) (hp : y.parentId = some D) : y.userId = u := by
  obtain ⟨t, ht, rfl, rfl⟩ := h.toTree.target h.bound hcd hD
  exact h.apart t ht y hy hp

theorem Apart.isolated (h : Apart db) : Isolated db := by
  refine fun ord path u => ⟨fun rows db' hrun r hr => ?_, fun files db' hrun f hf => ?_⟩
  · obtain ⟨D, hcd, hD, rfl⟩ := queryLs_run hrun
    obtain ⟨x, hx, rfl⟩ := List.mem_map.1 hr
    obtain ⟨hx, hsel⟩ := (mem_userFileRows db ord).1 hx
    simp only [UserFileQuery.holds, Bool.and_eq_true, beq_iff_eq] at hsel
    exact ⟨h.child hcd hD hx hsel.2, x, hx, rfl⟩
  · obtain ⟨D, hcd, hD, rfl⟩ := queryLl_run hrun
    obtain ⟨g, hg, rfl⟩ := List.mem_map.1 hf
    have hsel := ((mem_fileRows db ord).1 hg).2
    simp only [FileQuery.holds, Bool.and_eq_true, List.any_eq_true, beq_iff_eq] at hsel
    obtain ⟨⟨x, hx, hid, hp⟩, -⟩ := hsel
    exact ⟨x, hx, h.child hcd hD hx hp, hid⟩

/-- At most one row is new, and it agrees with the rows above and below it. -/
theorem Apart.insert (h : Apart db) {db' : Db} (ht : Tree db') (hb : db'.nextFile ≤ 2 ^ 32) {row : UserFile}
    (hrows : ∀ x ∈ db'.userFile, x ∈ db.userFile ∨ x = row)
    (hup : ∀ x ∈ db.userFile, row.parentId = some x.fileId → row.userId = x.userId)
    (hdown : ∀ y ∈ db.userFile, y.parentId = some row.fileId → y.userId = row.userId) : Apart db' where
  toTree := ht
  bound := hb
  apart x hx y hy hp := by
    rcases hrows x hx with hx' | rfl <;> rcases hrows y hy with hy' | rfl
    · exact h.apart x hx' y hy' hp
    · exact hup x hx' hp
    · exact hdown y hy' hp
    · rfl

theorem Apart.step {C : Crypt} {i : RowOrder × Call} {db' : Db} (h : Apart db) (hC : KeepsApart db i)
    (hst : Step C db i db') : Apart db' := by
  obtain ⟨ord, call⟩ := i
  -- nothing is stored under a fresh id
  have hfresh : ∀ y ∈ db.userFile, y.parentId ≠ some db.nextFile := fun y hy hp =>
    (h.parentLt y hy _ hp).2.ne rfl
  have he := Step.effect hst
  have ht : db.nextFile < 2 ^ 32 → Tree db' := fun hb => h.toTree.effect hb he
  cases he with
  | same => exact h
  | register word hacc =>
    exact h.insert (ht hC) hC (fun _ => mem_added) nofun fun y hy hp => absurd hp (hfresh y hy)
  | mkdir hcd hD hlt hfree =>
    have ht := ht hC.1
    rw [regOf_intOf hC.1] at ht ⊢
    refine h.insert ht hC.1 (fun _ => mem_added) (fun x hx hp => ?_) fun y hy hp => absurd hp (hfresh y hy)
    exact (hC.2 _ hcd hD hfree x hx (Option.some.inj hp).symm).symm
  | putsNew hcd hD hlt hfree hnew =>
    refine h.insert (ht hC.1) hC.1 (fun _ => mem_added) (fun x hx hp => ?_) fun y hy hp => absurd hp (hfresh y hy)
    exact ((hC.2 _ hcd hD hfree).1 x hx (Option.some.inj hp).symm).symm
  | putsLink f hcd hD hlt hfree hf hhash =>
    refine h.insert (ht hC.1) hC.1.le (fun _ => mem_added) (fun x hx hp => ?_) fun y hy hp => (hC.2 _ hcd hD hfree).2 f hf hhash y hy hp
    exact ((hC.2 _ hcd hD hfree).1 x hx (Option.some.inj hp).symm).symm
  | update => exact ⟨h.toTree.complete _, h.bound, h.apart⟩
  | remove r f hcd hD hlt hr hx =>
    exact ⟨h.toTree.unlink hx, h.bound, fun x hx y hy => h.apart x (mem_unlink.1 hx).1 y (mem_unlink.1 hy).1⟩

/-- Users see only entries of their own, in every state of a run whose calls keep them apart. -/
theorem isolated_of_keepsApart (C : Crypt) (r : List ((RowOrder × Call) × Db)) (hr : IsRun (Step C) {} r)
    (hC : Meets KeepsApart {} r) : Always Isolated {} r :=
  (hr.always (I := Apart) (fun _ _ _ h hC hst => h.step hC hst) ⟨tree_empty, by decide, nofun⟩ hC).mono
    fun _ => Apart.isolated

/-- An id that a call of `query_cd` may have returned is one value. -/
instance {d : Option Int} {P : Nat → Prop} [DecidablePred P] : Decidable (∀ D : Nat, d = some (D : Int) → P D) :=
  match d with
  | some (.ofNat n) => decidable_of_iff (P n) ⟨fun h _ hD => Int.ofNat.inj (Option.some.inj hD) ▸ h, fun h => h n rfl⟩
  | some (.negSucc n) => isTrue fun D hD => absurd (Option.some.inj hD) (by have := Int.negSucc_lt_zero n; omega)
  | none => isTrue fun _ hD => absurd hD (Option.some_ne_none _).symm

instance (db : Db) : DecidablePred (KeepsApart db)
  | (_, .userRegister ..) => inferInstanceAs (Decidable (_ < _))
  | (ord, .queryMkdir path dirName u) => inferInstanceAs (Decidable (_ ∧
    ∀ D : Nat, db.cd ord path u = some (D : Int) → 0 < D → (∀ x ∈ db.userFile, x.parentId = some D → x.name ≠ dirName) →
      ∀ x ∈ db.userFile, x.fileId = D → x.userId = u))
  | (ord, .queryPuts path fileName hash u) => inferInstanceAs (Decidable (_ ∧
    ∀ D : Nat, db.cd ord path u = some (D : Int) → 0 < D → (∀ x ∈ db.userFile, x.parentId = some D → x.name ≠ fileName) →
      (∀ x ∈ db.userFile, x.fileId = D → x.userId = u) ∧
        ∀ f ∈ db.file, f.hash = some hash → ∀ y ∈ db.userFile, y.parentId = some f.id → y.userId = u))
  | (_, .queryUpdate _) | (_, .queryRemove ..) => isTrue trivial

/-- Two users make directories of one name and put one content into them, and the first removes a file. -/
def sideBySide : List (RowOrder × Call) :=
  [(.stored, .userRegister [] ['a'] ['p']), (.stored, .userRegister [] ['b'] ['q']),
    (.stored, .queryMkdir ['/', 'a'] ['d'] 1), (.stored, .queryMkdir ['/', 'b'] ['d'] 2),
    (.stored, .queryPuts ['/', 'a', '/', 'd'] ['f'] ['H'] 1), (.stored, .queryUpdate ['H']),
    (.stored, .queryPuts ['/', 'b', '/', 'd'] ['g'] ['H'] 2), (.stored, .queryPuts ['/', 'a'] ['e'] ['J'] 1),
    (.stored, .queryRemove ['/', 'a'] ['e'] 1)]

theorem isolated_of_keepsApart_two :
    Always Isolated {} (trace (call .plain) {} sideBySide) ∧
      ((final {} (trace (call .plain) {} sideBySide)).userFile.map fun x => (x.userId, x.name, x.fileId, x.parentId)) =
        [(1, ['a'], 1, none), (2, ['b'], 2, none), (1, ['d'], 3, some 1), (2, ['d'], 4, some 2),
          (1, ['f'], 5, some 3), (2, ['g'], 5, some 4)] :=
  ⟨isolated_of_keepsApart .plain _ (isRun_trace ..) (by decide +kernel), by decide +kernel⟩

/-- `b` makes a directory inside a file that `a` has uploaded too, and `a` gets to see it. -/
theorem foreign_directory_shown : ¬ ∀ C db, Reaches (Step C) {} db → Isolated db := by
  intro h
  let db := final {} (trace (call .plain) {}
    [(.stored, .userRegister [] ['a'] ['p']), (.stored, .userRegister [] ['b'] ['p']),
      (.stored, .queryPuts ['/', 'a'] ['f'] ['H'] 1), (.stored, .queryPuts ['/', 'b'] ['f'] ['H'] 2),
      (.stored, .queryMkdir ['/', 'b', '/', 'f'] ['d'] 2)])
  have hls := (h .plain db (.of_trace (call .plain) {} _) .stored ['/', 'a', '/', 'f'] 1).1
    [⟨5, ['d'], 2, 4, 3⟩] db (by decide +kernel) _ List.mem_cons_self
  exact absurd hls.1 (by decide)

end Db
end Netdisk

import Netdisk.Db.Tree

/-!
# What `rm` removes

`query_remove` looks for its entry among all rows of the files that the directory links, by `like`,
and then deletes by file id. `removesOnly_iff`: that comes to the one entry named exactly when the
row it finds first is linked by the user nowhere else.
-/

namespace Netdisk
namespace Db
open Runs

/-- `x` is the entry of `u` named `name` in the directory `p`. -/
def IsEntry (u p : Nat) (name : CStr) (x : UserFile) : Prop :=
  x.userId = u ∧ x.parentId = some p ∧ x.name = name

/-- The call removes at most the one entry named, and nothing else changes; without such an entry
nothing does and the call does not report success. -/
def RemovesOnly (db : Db) (ord : RowOrder) (path name : CStr) (u p : Nat) : Prop :=
  ∀ ret db', (queryRemove path name u).run (handler ord) db = some (ret, db') →
    db'.user = db.user ∧ db'.file = db.file ∧
    (db'.userFile = db.userFile ∨
      ∃ x ∈ db.userFile, IsEntry u p name x ∧ db'.userFile = db.userFile.erase x) ∧
    ((∀ x ∈ db.userFile, ¬ IsEntry u p name x) → db'.userFile = db.userFile ∧ ret ≠ 0)

/-- The first row that `query_remove` finds for the name, if there is one, is of an occupied
directory, or of a file that `u` links under this name in this directory only. -/
def FindsOnly (db : Db) (ord : RowOrder) (name : CStr) (u p : Nat) : Prop :=
  ∀ r rs, db.userFileRows ord (.likeIn u p name) = r :: rs → ∀ f ∈ db.file, f.id = r.fileId →
    db.Occupied f ∨ ∀ x ∈ db.userFile, x.userId = u → x.fileId = r.fileId → IsEntry u p name x

variable {db : Db} {ord : RowOrder} {u p : Nat} {name : CStr}

theorem Keys.entry_unique (h : Keys db) {x y : UserFile} (hx : x ∈ db.userFile) (hy : y ∈ db.userFile)
    (hex : IsEntry u p name x) (hey : IsEntry u p name y) : x = y :=
  h.names x hx y hy p hex.2.1 hey.2.1 (hex.2.2.trans hey.2.2.symm)

/-- Deleting by file id and user is deleting one row if these single it out. -/
theorem Keys.unlink_eq_erase (h : Keys db) {x : UserFile} (hxu : x.userId = u)
    (honly : ∀ y ∈ db.userFile, y.userId = u → y.fileId = x.fileId → y = x) :
    (db.exec (.deleteUserFile x.fileId u)).userFile = db.userFile.erase x := by
  have hnodup : db.userFile.Nodup := h.rowIds.of_map
  rw [hnodup.erase_eq_filter]
  refine List.filter_congr fun y hy => ?_
  rw [Bool.eq_iff_iff]
  simp only [Bool.not_eq_true', Bool.and_eq_false_imp, beq_iff_eq, beq_eq_false_iff_ne, bne_iff_ne]
  refine ⟨fun hne heq => ?_, fun hne hid hu => hne (honly y hy hu hid)⟩
  subst heq
  exact hne rfl hxu

/-- In a reachable state and a directory that the path resolves to, `query_remove` removes at most
the entry it names exactly when the row it goes by is linked by the user nowhere else. -/
theorem removesOnly_iff_findsOnly (C : Crypt) (db : Db) (hdb : Reaches (Step C) {} db) (ord : RowOrder)
    (path name : CStr) (u p : Nat) (hcd : (queryCd path u).run (handler ord) db = some ((p : Int), db))
    (hp : 0 < p) :
    RemovesOnly db ord path name u p ↔ FindsOnly db ord name u p := by
  have h : Keys db := hdb.inv (fun _ _ _ h hst => h.effect hst.effect) keys_empty
  have hcd : db.cd ord path u = some (p : Int) := by
    rw [queryCd_run] at hcd
    obtain ⟨d, hd, hdp⟩ := Option.map_eq_some_iff.1 hcd
    exact (Prod.mk.inj hdp).1 ▸ hd
  obtain ⟨hnil, hrun⟩ | ⟨r, rs, hrows, ⟨hnone, hrun⟩ | ⟨f, hf, hid, ⟨hocc, hrun⟩ | ⟨hocc, hrun⟩⟩⟩ :=
    queryRemove_cases name hcd hp
  · refine iff_of_true (fun ret db' hr => ?_) (fun r rs hrows => absurd (hnil.symm.trans hrows) nofun)
    obtain ⟨rfl, rfl⟩ := Prod.mk.inj (Option.some.inj (hrun.symm.trans hr))
    exact ⟨rfl, rfl, .inl rfl, fun _ => ⟨rfl, by decide⟩⟩
  · refine iff_of_true (fun ret db' hr => absurd (hrun.symm.trans hr) nofun) fun r' rs' hrows' f hf hid => ?_
    obtain ⟨rfl, rfl⟩ := List.cons.inj (hrows.symm.trans hrows')
    exact absurd hid (hnone f hf)
  · refine iff_of_true (fun ret db' hr => ?_) fun r' rs' hrows' g hg hgid => .inl ?_
    · obtain ⟨rfl, rfl⟩ := Prod.mk.inj (Option.some.inj (hrun.symm.trans hr))
      exact ⟨rfl, rfl, .inl rfl, fun _ => ⟨rfl, by decide⟩⟩
    · obtain ⟨rfl, rfl⟩ := List.cons.inj (hrows.symm.trans hrows')
      exact h.fileIds g hg f hf (hgid.trans hid.symm) ▸ hocc
  · obtain ⟨hr, x, hx, hxfile, hxu, hxp⟩ := mem_likeIn (hrows ▸ List.mem_cons_self)
    constructor
    · intro hprop r' rs' hrows' g hg hgid
      obtain ⟨rfl, rfl⟩ := List.cons.inj (hrows.symm.trans hrows')
      obtain ⟨-, -, herase, hfound⟩ := hprop 0 _ hrun
      refine .inr fun y hy hyu hyfile => ?_
      have hgone : y ∉ (db.exec (.deleteUserFile r.fileId u)).userFile := fun hmem =>
        (mem_unlink.1 hmem).2 ⟨hyfile, hyu⟩
      rcases herase with hsame | ⟨z, hz, hez, herase⟩
      · exact absurd (hsame ▸ hy) hgone
      · by_contra hne
        have hyz : y ≠ z := by rintro rfl; exact hne hez
        exact hgone (herase ▸ (List.mem_erase_of_ne hyz).2 hy)
    · intro hfinds ret db' hrun'
      obtain ⟨rfl, rfl⟩ := Prod.mk.inj (Option.some.inj (hrun.symm.trans hrun'))
      have honly := (hfinds r rs hrows f hf hid).resolve_left hocc
      have hex := honly x hx hxu hxfile
      refine ⟨rfl, rfl, .inr ⟨x, hx, hex, ?_⟩, fun hno => absurd hex (hno x hx)⟩
      rw [← hxfile]
      exact h.unlink_eq_erase hxu fun y hy hyu hyfile =>
        h.entry_unique hy hx (honly y hy hyu (hyfile.trans hxfile)) hex

/-- A directory with one upload in it, which is then removed. -/
theorem removesOnly_iff_findsOnly_one :
    let db := final {} (trace (call .plain) {}
      [(.stored, .userRegister [] ['a'] ['p']), (.stored, .queryPuts ['/', 'a'] ['f'] ['H'] 1)])
    RemovesOnly db .stored ['/', 'a'] ['f'] 1 1 ↔ FindsOnly db .stored ['f'] 1 1 :=
  removesOnly_iff_findsOnly .plain _ (.of_trace (call .plain) {} _) .stored ['/', 'a'] ['f'] 1 1
    (by decide) (by decide)

/-- The same file uploaded as `f` and as `g`: removing `f` removes both. -/
theorem removes_every_link : ¬ ∀ C db, Reaches (Step C) {} db → ∀ ord path name u (p : Nat),
    (queryCd path u).run (handler ord) db = some ((p : Int), db) → 0 < p →
    RemovesOnly db ord path name u p := by
  intro h
  let db := final {} (trace (call .plain) {}
    [(.stored, .userRegister [] ['a'] ['p']), (.stored, .queryPuts ['/', 'a'] ['f'] ['H'] 1),
      (.stored, .queryPuts ['/', 'a'] ['g'] ['H'] 1)])
  obtain ⟨-, -, hrows, -⟩ := h .plain db (.of_trace (call .plain) {} _) .stored ['/', 'a'] ['f'] 1 1
    (by decide) (by decide) 0 (db.exec (.deleteUserFile 2 1)) (by decide)
  rcases hrows with hsame | ⟨x, hx, hex, herase⟩
  · exact absurd hsame (by decide)
  · have hlen := congrArg List.length herase
    rw [List.length_erase_of_mem hx] at hlen
    exact absurd hlen (by decide)

end Db
end Netdisk

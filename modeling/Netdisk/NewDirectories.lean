import Netdisk.PathResolution

/-!
# New directories

A new row comes last in the pass of `query_cd`, since file ids grow: no path that is found loses its
end, and the new directory is found under its own path. `order by file_id` leaves rows of one file
in any order though, and a pass over them may go either way. `mkdirKeeps_of_linksApart`: for names that
fit their array, this matters only after an upload that links a file under itself, or twice in front of
the user's root.
-/

namespace Netdisk
namespace Db
open Runs

/-- `query_mkdir` makes a directory that is found under its path, and every path that was found still
is; otherwise it leaves the tables alone. The directories are given one of `names`, and the database takes one of
`choices` for rows of one file. -/
def MkdirKeeps (names : CStr → Prop) (choices : RowOrder → Prop) (db : Db) : Prop :=
  ∀ (ord : RowOrder) (path dirName : CStr) (u : Nat) (ret : Int) (db' : Db), choices ord → names dirName →
    '/' ∉ dirName → db'.nextFile ≤ 2 ^ 31 → (queryMkdir path dirName u).run (handler ord) db = some (ret, db') →
    (ret = 2 →
      (∃ dir ∈ db'.file, dir ∉ db.file ∧ dir.type = .dir ∧ ∀ ord', choices ord' →
        (queryCd (path ++ '/' :: dirName) u).run (handler ord') db' = some ((dir.id : Int), db')) ∧
      ∀ (before after : RowOrder) (v : Nat) (other : CStr) (d : Int), choices before → choices after → 0 < d →
        (queryCd other v).run (handler before) db = some (d, db) →
        (queryCd other v).run (handler after) db' = some (d, db')) ∧
    (ret ≠ 2 → db' = db)

/-- A name that fits `name` of `user_file_t`. -/
def ShortName (name : CStr) : Prop := name.length < nameSize

/-- A `query_puts` that finds its directory, and its name free there, links no file under itself;
one older than the user's root it does not link if the user has it in another place already. -/
def LinksApart (db : Db) : RowOrder × Call → Prop
  | (ord, .queryPuts path fileName hash u) =>
    ∀ D : Nat, db.cd ord path u = some (D : Int) → 0 < D → db.Free D fileName →
    ∀ f ∈ db.file, f.hash = some hash → f.id ≠ D ∧
      ∀ r ∈ db.userFile, r.userId = u → r.parentId = none → f.id < r.fileId →
      ∀ x ∈ db.userFile, x.userId = u → x.fileId = f.id → x.parentId = some D
  | _ => True

/-- Rows of one file make no difference to `query_cd`: none of them is below another, and those in
front of the root are in one place. -/
structure TieFree (db : Db) : Prop extends IntTree db where
  notSelf : ∀ x ∈ db.userFile, x.parentId ≠ some x.fileId
  onePlace : ∀ r ∈ db.userFile, r.parentId = none → ∀ x ∈ db.userFile, ∀ y ∈ db.userFile,
    x.userId = r.userId → y.userId = r.userId → x.fileId < r.fileId → x.fileId = y.fileId →
    x.parentId = y.parentId
  nameFits : ∀ x ∈ db.userFile, ShortName x.name

variable {db db' : Db} {ord ord' : RowOrder} {path dirName : CStr} {u v D : Nat}

/-! ### One row more -/

/-- The tables with a new directory in `D`. -/
def withDir (db : Db) (dirName : CStr) (u D : Nat) : Db :=
  (db.exec .insertDir).exec (.insertUserFile dirName u db.nextFile (some D))

def dirRow (db : Db) (dirName : CStr) (u D : Nat) : UserFile :=
  ⟨db.nextUserFile, dirName, u, db.nextFile, some D⟩

theorem userFile_withDir : (db.withDir dirName u D).userFile = db.userFile ++ [db.dirRow dirName u D] := rfl

theorem file_withDir :
    (db.withDir dirName u D).file = db.file ++ [{ id := db.nextFile, type := .dir, complete := true }] := rfl

theorem Tree.rows_withDir (h : Tree db) :
    (db.withDir dirName u D).userFileRows .stored (.ofUser v) =
      db.userFileRows .stored (.ofUser v) ++ if u = v then [db.dirRow dirName u D] else [] := by
  have hfilter : (db.withDir dirName u D).userFile.filter (UserFileQuery.holds (db.withDir dirName u D) (.ofUser v)) =
      db.userFile.filter (UserFileQuery.holds db (.ofUser v)) ++ if u = v then [db.dirRow dirName u D] else [] := by
    rw [userFile_withDir, List.filter_append]
    congr 1
    by_cases huv : u = v <;> simp [UserFileQuery.holds, dirRow, huv]
  unfold userFileRows
  rw [hfilter]
  by_cases huv : u = v
  · rw [if_pos huv]
    refine Sorted.insertionSort_concat _ fun x hx => ?_
    exact (h.fileId_lt (List.mem_filter.1 hx).1).le
  · simp only [if_neg huv, List.append_nil]

variable (dirName u D) in
/-- A pass that is over before the new row stays as it was. -/
theorem Tree.cd_withDir (h : Tree db) {d : Int} (hd : 0 < d) (hcd : db.cd .stored path v = some d) :
    (db.withDir dirName u D).cd .stored path v = some d := by
  obtain ⟨names, r, rs, hnames, hrows, hwalk⟩ := (cd_eq_some_iff hd).1 hcd
  refine (cd_eq_some_iff hd).2 ⟨names, r, rs ++ if u = v then [db.dirRow dirName u D] else [], hnames, ?_, ?_⟩
  · rw [h.rows_withDir, hrows, List.cons_append]
  · rw [← List.cons_append, Greedy.walk_append hwalk, Greedy.walk_nil_right]

theorem accepts_parent (hD : D < 2 ^ 31) (hpos : 0 < D) {x : UserFile} :
    accepts D dirName x = true ↔ x.heldName = dirName ∧ x.parentId = some D := by
  have hval : ulongOf (D : Int) = D := ulongOf_of_lt (by omega)
  simp only [accepts, Bool.and_eq_true, beq_iff_eq, hval]
  cases x.parentId with
  | none => simp [hpos.ne']
  | some p => simp [eq_comm]

theorem accepts_dir (hfits : ShortName dirName) (hD : D < 2 ^ 31) (hpos : 0 < D) {x : UserFile} :
    accepts D dirName x = true ↔ x.name = dirName ∧ x.parentId = some D := by
  rw [accepts_parent hD hpos, UserFile.heldName_eq_iff hfits]

/-- The new row is the first that takes the new name in `D`, and the pass comes to it in `D`. -/
theorem Tree.cd_new (h : Tree db) (hb : db.nextFile < 2 ^ 31) (hcd : db.cd .stored path u = some (D : Int))
    (hD : 0 < D) (hfree : db.Free D dirName) (hname : '/' ∉ dirName) (hfits : ShortName dirName) :
    (db.withDir dirName u D).cd .stored (path ++ '/' :: dirName) u = some (db.nextFile : Int) := by
  have hlt : D < 2 ^ 31 := cd_lt hcd
  obtain ⟨names, r, rs, hnames, hrows, hwalk⟩ := (cd_eq_some_iff (by omega)).1 hcd
  have hsplit : spliteFileName (path ++ '/' :: dirName) = some (names ++ [dirName]) := by
    cases path with
    | nil => simp [spliteFileName] at hnames
    | cons c rest =>
      rw [spliteFileName_cons] at hnames
      rw [List.cons_append, spliteFileName_cons, pieces_snoc hname, Option.some.inj hnames]
  have hnone : ∀ x ∈ r :: rs, accepts D dirName x = false := by
    intro x hx
    obtain ⟨hmem, -⟩ := mem_rows.1 (hrows ▸ hx)
    refine Bool.eq_false_iff.2 fun hacc => ?_
    obtain ⟨hxname, hparent⟩ := (accepts_dir hfits hlt hD).1 hacc
    exact hfree x hmem hparent hxname
  have hlast : accepts D dirName (db.dirRow dirName u D) = true := (accepts_dir hfits hlt hD).2 ⟨rfl, rfl⟩
  have hpos := h.nextPos
  refine (cd_eq_some_iff (by omega)).2 ⟨names ++ [dirName], r, rs ++ [db.dirRow dirName u D], hsplit, ?_, ?_⟩
  · rw [h.rows_withDir, hrows, if_pos rfl, List.cons_append]
  · rw [← List.cons_append, Greedy.walk_append (Greedy.walk_concat hwalk hnone), Greedy.walk, if_pos hlast,
      Greedy.walk_nil_right]
    exact congrArg (Prod.mk []) (intOf_of_lt hb)

/-! ### Rows of one file -/

/-- A row that is accepted after another is stored under it. -/
theorem IntTree.below (h : IntTree db) {x y : UserFile} {name : CStr} (hx : x ∈ db.userFile)
    (hacc : accepts (intOf x.fileId) name y = true) : y.parentId = some x.fileId := by
  obtain ⟨f, hf, hid⟩ := h.fileOf x hx
  have hpos := (h.fileLt f hf).1
  rw [intOf_of_lt (h.fileId_lt hx)] at hacc
  exact ((accepts_parent (h.fileId_lt hx) (by omega)).1 hacc).2

/-- What a pass finds has growing ids. -/
theorem TieFree.chain_sorted (h : TieFree db) {k : Int} {names : List CStr} {as : List UserFile}
    (hmem : ∀ x ∈ as, x ∈ db.userFile) (hle : as.Pairwise fun x y => x.fileId ≤ y.fileId)
    (hch : Greedy.Chain accepts (fun r => intOf r.fileId) k names as) :
    as.Pairwise fun x y => x.fileId < y.fileId := by
  refine List.isChain_iff_pairwise.1 ?_
  induction as generalizing k names with
  | nil => exact .nil
  | cons x as ih =>
    obtain ⟨hx, hmem⟩ := List.forall_mem_cons.1 hmem
    obtain ⟨hxle, hle⟩ := List.pairwise_cons.1 hle
    cases names with
    | nil => exact hch.elim
    | cons n names =>
      have hrest := ih hmem hle hch.2
      cases as with
      | nil => exact .singleton x
      | cons y as =>
        cases names with
        | nil => exact hch.2.elim
        | cons m names =>
          have hparent : y.parentId = some x.fileId := h.below hx hch.2.1
          have hne : y.fileId ≠ x.fileId := fun heq =>
            h.notSelf y (hmem y List.mem_cons_self) (hparent.trans (congrArg some heq.symm))
          have hlt := hxle y List.mem_cons_self
          exact List.isChain_cons_cons.2 ⟨by omega, hrest⟩

/-- The pass starts in the same place, whichever row comes first. -/
theorem TieFree.start (h : TieFree db) {r s : UserFile} {rs ss : List UserFile}
    (hr : db.userFileRows ord (.ofUser u) = r :: rs) (hs : db.userFileRows ord' (.ofUser u) = s :: ss) :
    r.parentId = s.parentId := by
  obtain ⟨⟨hrmem, hru⟩, hrle⟩ := first_row hr
  obtain ⟨⟨hsmem, hsu⟩, hsle⟩ := first_row hs
  have heq : r.fileId = s.fileId := Nat.le_antisymm (hrle s hsmem hsu) (hsle r hrmem hru)
  obtain ⟨root, hroot, hrootu, hp⟩ := h.hasRoot r hrmem
  have hrootu : root.userId = u := hrootu.trans hru
  rcases (hrle root hroot hrootu).eq_or_lt with hid | hlt
  · have hdir := h.rootDir root hroot hp
    obtain rfl := h.dirOnce root hroot r hrmem hdir hid.symm
    obtain rfl := h.dirOnce root hroot s hsmem hdir heq
    rfl
  · exact h.onePlace root hroot hp r hrmem s hsmem (hru.trans hrootu.symm) (hsu.trans hrootu.symm) hlt heq

/-- What one order of the rows leads to, every other does. -/
theorem TieFree.cd_order (h : TieFree db) {d : Int} (hd : 0 < d) (hcd : db.cd ord path u = some d) :
    db.cd ord' path u = some d := by
  obtain ⟨names, r, rs, hnames, hrows, hwalk⟩ := (cd_eq_some_iff hd).1 hcd
  have hr : r ∈ db.userFileRows ord' (.ofUser u) := mem_rows.2 (mem_rows.1 (hrows ▸ List.mem_cons_self))
  obtain ⟨s, ss, hrows'⟩ := List.exists_cons_of_ne_nil (List.ne_nil_of_mem hr)
  obtain ⟨as, hsub, hch, hlast⟩ := Greedy.exists_chain_of_walk hwalk
  have hmem : ∀ x ∈ as, x ∈ db.userFile ∧ x.userId = u := fun x hx => mem_rows.1 (hrows ▸ hsub.subset hx)
  have hle : as.Pairwise fun x y => x.fileId ≤ y.fileId :=
    (hrows ▸ rows_sorted db ord u : (r :: rs).Pairwise fun x y => x.fileId ≤ y.fileId).sublist hsub
  have hlt := h.chain_sorted (fun x hx => (hmem x hx).1) hle hch
  have hsub' : as.Sublist (s :: ss) :=
    Sorted.sublist_of_sorted (hrows' ▸ rows_sorted db ord' u) hlt fun x hx => hrows' ▸ mem_rows.2 (hmem x hx)
  refine (cd_eq_some_iff hd).2 ⟨names, s, ss, hnames, hrows', ?_⟩
  rw [← h.start hrows hrows', ← hlast]
  refine Greedy.walk_of_chain hch hsub' fun k n x hx y hy hax hay => ?_
  obtain ⟨hx, hxu⟩ := hmem x hx
  obtain ⟨hy, hyu⟩ := mem_rows.1 (hrows' ▸ hy)
  exact h.toTree.accepts_unique hx hy (hxu.trans hyu.symm) (h.nameFits x hx) hax hay

/-! ### Steps -/

/-- A row more, which is the first of its user or in the place of the rows it could be taken for. -/
theorem TieFree.insert (h : TieFree db) (ht : IntTree db') {row : UserFile}
    (hrows : ∀ x ∈ db'.userFile, x ∈ db.userFile ∨ x = row) (hfits : ShortName row.name) (hself : row.parentId ≠ some row.fileId)
    (hroot : row.parentId = none → ∀ x ∈ db.userFile, x.userId ≠ row.userId)
    (hplace : ∀ r ∈ db.userFile, r.userId = row.userId → r.parentId = none → row.fileId < r.fileId →
      ∀ x ∈ db.userFile, x.userId = row.userId → x.fileId = row.fileId → x.parentId = row.parentId) :
    TieFree db' where
  toIntTree := ht
  nameFits := by
    intro x hx
    rcases hrows x hx with hx | rfl
    · exact h.nameFits x hx
    · exact hfits
  notSelf := by
    intro x hx
    rcases hrows x hx with hx | rfl
    · exact h.notSelf x hx
    · exact hself
  onePlace := by
    intro r hr hp x hx y hy hxu hyu hlt hxy
    rcases hrows r hr with hr | rfl
    · rcases hrows x hx with hx | rfl <;> rcases hrows y hy with hy | rfl
      · exact h.onePlace r hr hp x hx y hy hxu hyu hlt hxy
      · exact hplace r hr hyu.symm hp (hxy ▸ hlt) x hx (hxu.trans hyu.symm) hxy
      · exact (hplace r hr hxu.symm hp hlt y hy (hyu.trans hxu.symm) hxy.symm).symm
      · rfl
    · have hnew : ∀ z, z ∈ db'.userFile → z.userId = r.userId → z = r := fun z hz hzu =>
        (hrows z hz).resolve_left fun hz => hroot hp z hz hzu
      rw [hnew x hx hxu, hnew y hy hyu]

theorem TieFree.insertNew (h : TieFree db) (ht : IntTree db') {row : UserFile}
    (hrows : ∀ x ∈ db'.userFile, x ∈ db.userFile ∨ x = row) (hfits : ShortName row.name) (hid : row.fileId = db.nextFile)
    (hparent : ∀ p, row.parentId = some p → p < db.nextFile)
    (hroot : row.parentId = none → ∀ x ∈ db.userFile, x.userId ≠ row.userId) : TieFree db' := by
  refine h.insert ht hrows hfits (fun hp => ?_) hroot fun r hr _ _ hlt => ?_
  · have := hparent _ hp
    omega
  · have := h.toTree.fileId_lt hr
    omega

theorem TieFree.step {C : Crypt} {i : RowOrder × Call} (h : TieFree db) (hfits : i.2.NameFits) (hC : LinksApart db i)
    (hst : IdStep C db i db') : TieFree db' := by
  obtain ⟨ord, call⟩ := i
  have ht := h.toIntTree.step hst
  have htarget : ∀ {path : CStr} {u D : Nat}, db.cd ord path u = some (D : Int) → 0 < D → D < db.nextFile := by
    intro path u D hcd hD
    obtain ⟨t, htmem, -, rfl⟩ := h.target hcd hD
    exact h.toTree.fileId_lt htmem
  cases Step.effect hst.2 with
  | same => exact h
  | register word hnew =>
    exact h.insertNew ht (fun _ => mem_added) hfits rfl nofun fun _ x hx => (h.userLt x hx).ne
  | mkdir hcd hD hlt hfree =>
    rw [h.regOf_nextFile] at ht ⊢
    exact h.insertNew ht (fun _ => mem_added) hfits rfl (fun p hp => Option.some.inj hp ▸ htarget hcd hD) nofun
  | putsNew hcd hD hlt hfree hnew =>
    exact h.insertNew ht (fun _ => mem_added) hfits rfl (fun p hp => Option.some.inj hp ▸ htarget hcd hD) nofun
  | putsLink f hcd hD hlt hfree hf hhash =>
    obtain ⟨hne, hplace⟩ := hC _ hcd hD hfree f hf hhash
    exact h.insert ht (fun _ => mem_added) hfits (fun hp => hne (Option.some.inj hp).symm) nofun hplace
  | update => exact ⟨ht, h.notSelf, h.onePlace, h.nameFits⟩
  | remove r =>
    exact ⟨ht, fun x hx => h.notSelf x (mem_unlink.1 hx).1, fun r hr hp x hx y hy =>
      h.onePlace r (mem_unlink.1 hr).1 hp x (mem_unlink.1 hx).1 y (mem_unlink.1 hy).1,
      fun x hx => h.nameFits x (mem_unlink.1 hx).1⟩

/-! ### `query_mkdir` keeps its promise -/

/-- It does for a kind of choices under which `query_cd` does not depend on the choice. -/
theorem IntTree.mkdirKeeps {choices : RowOrder → Prop} (h : IntTree db)
    (hbefore : ∀ ord, choices ord → ∀ (path : CStr) (u : Nat) (d : Int), 0 < d →
      db.cd ord path u = some d → db.cd .stored path u = some d)
    (hafter : ∀ (dirName : CStr) (u D : Nat), ShortName dirName → D < db.nextFile → IntTree (db.withDir dirName u D) →
      ∀ ord, choices ord → ∀ (path : CStr) (v : Nat) (d : Int), 0 < d →
      (db.withDir dirName u D).cd .stored path v = some d → (db.withDir dirName u D).cd ord path v = some d) :
    MkdirKeeps ShortName choices db := by
  intro ord path dirName u ret db' hord hfits hname hb hrun
  rcases queryMkdir_cases hrun with ⟨hret, rfl⟩ | ⟨rfl, D, hcd, hD, hlt, hfree, hdb'⟩
  · exact ⟨fun h2 => absurd h2 hret, fun _ => rfl⟩
  rw [h.regOf_nextFile] at hdb'
  change db' = db.withDir dirName u D at hdb'
  subst hdb'
  have hnext : db.nextFile + 1 ≤ 2 ^ 31 := hb
  have ht : IntTree (db.withDir dirName u D) :=
    ⟨h.toTree.effect (h.bound.trans_lt (by omega)) (queryMkdir_effect hrun), hb⟩
  have hDlt : D < db.nextFile := by
    obtain ⟨t, htmem, -, rfl⟩ := h.target hcd hD
    exact h.toTree.fileId_lt htmem
  have hcd' := hbefore ord hord path u D (by omega) hcd
  have hkeep := hafter dirName u D hfits hDlt ht
  refine ⟨fun _ => ⟨⟨{ id := db.nextFile, type := .dir, complete := true }, ?_, ?_, rfl, ?_⟩, ?_⟩,
    fun h2 => absurd rfl h2⟩
  · rw [file_withDir]
    exact List.mem_append_right _ (List.mem_singleton_self _)
  · intro hmem
    exact absurd (h.fileLt _ hmem).2 (Nat.lt_irrefl _)
  · intro ord' hord'
    have hnew := h.toTree.cd_new (Nat.lt_of_succ_le hnext) hcd' hD hfree hname hfits
    have hpos := h.nextPos
    rw [queryCd_run, hkeep ord' hord' _ _ _ (by omega) hnew]
    rfl
  · intro before after v other d hb4 haft hd hfound
    rw [queryCd_run] at hfound
    obtain ⟨d', hd', heq⟩ := Option.map_eq_some_iff.1 hfound
    obtain ⟨rfl, -⟩ := Prod.mk.inj heq
    have hstored := h.toTree.cd_withDir dirName u D hd (hbefore before hb4 other v d' hd hd')
    rw [queryCd_run, hkeep after haft other v d' hd hstored]
    rfl

theorem IntTree.mkdirKeeps_stored (h : IntTree db) : MkdirKeeps ShortName (· = .stored) db := by
  refine h.mkdirKeeps ?_ ?_
  · rintro ord rfl path u d - hcd
    exact hcd
  · rintro dirName u D - - - ord rfl path v d - hcd
    exact hcd

theorem TieFree.mkdirKeeps (h : TieFree db) : MkdirKeeps ShortName (fun _ => True) db := by
  refine h.toIntTree.mkdirKeeps ?_ ?_
  · intro ord _ path u d hd hcd
    exact h.cd_order hd hcd
  · intro dirName u D hfits hD ht ord _ path v d hd hcd
    have h' : TieFree (db.withDir dirName u D) :=
      h.insertNew ht (fun _ => mem_added) hfits rfl (fun p hp => Option.some.inj hp ▸ hD) nofun
    exact h'.cd_order hd hcd

theorem tieFree_empty : TieFree {} where
  toTree := tree_empty
  bound := by decide
  notSelf := nofun
  onePlace := nofun
  nameFits := nofun

/-- From the empty database, `query_mkdir` keeps its promise for names that fit in every state of a run if rows of
one file come in the order of insertion, and whatever their order is if all names of the run fit and all its
uploads link apart. -/
theorem mkdirKeeps_of_linksApart (C : Crypt) (r : List ((RowOrder × Call) × Db)) (hr : IsRun (IdStep C) {} r) :
    Always (MkdirKeeps ShortName (· = .stored)) {} r ∧
      (Meets (fun db i => i.2.NameFits ∧ LinksApart db i) {} r → Always (MkdirKeeps ShortName fun _ => True) {} r) := by
  constructor
  · have hall : Meets (fun _ _ => True) ({} : Db) r := .of_forall (fun _ _ => trivial) _ _
    exact (hr.always (I := IntTree) (fun _ _ _ h _ hst => h.step hst) tieFree_empty.toIntTree hall).mono
      fun _ h => h.mkdirKeeps_stored
  · intro hC
    exact (hr.always (fun _ _ _ h hC hst => TieFree.step h hC.1 hC.2 hst) tieFree_empty hC).mono
      fun _ h => h.mkdirKeeps

theorem linksApart_of_behind {fileName hash : CStr} (h : ∀ f ∈ db.file, f.hash = some hash →
    db.cd ord path u ≠ some (f.id : Int) ∧ ∀ r ∈ db.userFile, r.userId = u → r.parentId = none → r.fileId ≤ f.id) :
    LinksApart db (ord, .queryPuts path fileName hash u) := by
  intro D hcd hD hfree f hf hhash
  obtain ⟨hne, hbehind⟩ := h f hf hhash
  refine ⟨?_, fun r hr hru hp hlt => absurd (hbehind r hr hru hp) (Nat.not_le.2 hlt)⟩
  rintro rfl
  exact hne hcd

/-- `a` has a file in her root and in a directory of it. -/
theorem mkdirKeeps_of_linksApart_four :
    let r := trace (call .plain) {}
      [(.stored, .userRegister [] ['a'] ['p']), (.stored, .queryMkdir ['/', 'a'] ['d'] 1),
        (.stored, .queryPuts ['/', 'a'] ['f'] ['H'] 1), (.stored, .queryPuts ['/', 'a', '/', 'd'] ['f'] ['H'] 1)]
    Always (MkdirKeeps ShortName (· = .stored)) {} r ∧ Always (MkdirKeeps ShortName fun _ => True) {} r := by
  intro r
  have hr : IsRun (IdStep .plain) {} r := by decide +kernel
  obtain ⟨hstored, hall⟩ := mkdirKeeps_of_linksApart .plain r hr
  have hfits : Meets (fun _ i => i.2.NameFits) {} r := meets_trace (Q := fun i : RowOrder × Call => i.2.NameFits) (by decide) _
  have hapart : Meets LinksApart {} r := by
    refine ⟨trivial, trivial, ?_, ?_, trivial⟩
    · exact linksApart_of_behind (by decide +kernel)
    · exact linksApart_of_behind (by decide +kernel)
  exact ⟨hstored, hall (hfits.and hapart)⟩

/-- `a` uploads a file, and uploads it again into itself. A path that leads over both rows is found
before a `mkdir` and lost after it. -/
theorem path_lost : ¬ ∀ C db, Reaches (IdStep C) {} db → MkdirKeeps (fun _ => True) (fun _ => True) db := by
  intro h
  let r := trace (call .plain) {}
    [(.stored, .userRegister [] ['a'] ['p']), (.stored, .queryPuts ['/', 'a'] ['f'] ['H'] 1),
      (.stored, .queryPuts ['/', 'a', '/', 'f'] ['g'] ['H'] 1)]
  let db := final {} r
  have hkeeps := h .plain db ⟨r, by decide +kernel, rfl⟩
  have hmade : (queryMkdir ['/', 'a'] ['d'] 1).run (handler .stored) db =
      some (2, db.withDir ['d'] 1 1) := by decide +kernel
  have hfound : (queryCd ['/', 'a', '/', 'f', '/', 'g'] 1).run (handler .stored) db = some (2, db) := by
    decide +kernel
  have hkept := ((hkeeps .stored _ _ _ _ _ trivial trivial (by decide) (by decide) hmade).1 rfl).2 .stored RowOrder.reversed
    1 _ 2 trivial trivial (by decide) hfound
  have hlost : (queryCd ['/', 'a', '/', 'f', '/', 'g'] 1).run (handler RowOrder.reversed) (db.withDir ['d'] 1 1) =
      some (0, db.withDir ['d'] 1 1) := by decide +kernel
  rw [hlost] at hkept
  exact absurd (congrArg Prod.fst (Option.some.inj hkept)) (by decide)

end Db
end Netdisk

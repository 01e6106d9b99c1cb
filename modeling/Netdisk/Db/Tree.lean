import Netdisk.Db.Sequential
import Netdisk.Lib.Greedy
import Netdisk.Lib.Sorted

/-!
# The directory tree in the tables

`Keys` and `Tree` are what the completed calls keep true of the tables. `Keys` holds in every
reachable state. `Tree` needs the file ids to fit 32 bits, since `query_mkdir` and `query_cd` pass
them through an `int`.
-/

namespace Netdisk
namespace Db

/-- `id` is the id of a directory. -/
def IsDir (db : Db) (id : Nat) : Prop := ∃ f ∈ db.file, f.id = id ∧ f.type = .dir

/-- The keys: the ids, and the name of an entry within its parent. -/
structure Keys (db : Db) : Prop where
  nextPos : 0 < db.nextFile
  fileLt : ∀ f ∈ db.file, 0 < f.id ∧ f.id < db.nextFile
  fileIds : ∀ f ∈ db.file, ∀ g ∈ db.file, f.id = g.id → f = g
  rowIds : (db.userFile.map (·.id)).Nodup
  rowLt : ∀ x ∈ db.userFile, x.id < db.nextUserFile
  names : ∀ x ∈ db.userFile, ∀ y ∈ db.userFile, ∀ p, x.parentId = some p → y.parentId = some p →
    x.name = y.name → x = y

/-- The directories form one tree for each user, with ids that grow downwards. -/
structure Tree (db : Db) : Prop extends Keys db where
  hashes : ∀ f ∈ db.file, ∀ g ∈ db.file, ∀ h, f.hash = some h → g.hash = some h → f = g
  dirHash : ∀ f ∈ db.file, f.type = .dir → f.hash = none
  fileOf : ∀ x ∈ db.userFile, ∃ f ∈ db.file, f.id = x.fileId
  userLt : ∀ x ∈ db.userFile, x.userId < db.nextUser
  parentLt : ∀ x ∈ db.userFile, ∀ p, x.parentId = some p → 0 < p ∧ p < db.nextFile
  hasRoot : ∀ x ∈ db.userFile, ∃ r ∈ db.userFile, r.userId = x.userId ∧ r.parentId = none
  roots : ∀ x ∈ db.userFile, ∀ y ∈ db.userFile, x.userId = y.userId → x.parentId = none →
    y.parentId = none → x = y
  rootDir : ∀ x ∈ db.userFile, x.parentId = none → db.IsDir x.fileId
  dirOnce : ∀ x ∈ db.userFile, ∀ y ∈ db.userFile, db.IsDir x.fileId → x.fileId = y.fileId → x = y
  dirAbove : ∀ x ∈ db.userFile, ∀ p, db.IsDir x.fileId → x.parentId = some p → p < x.fileId

variable {db : Db} {ord : RowOrder}

/-! ### `Keys` -/

theorem keys_empty : Keys {} where
  nextPos := Nat.one_pos
  fileLt := nofun
  fileIds := nofun
  rowIds := .nil
  rowLt := nofun
  names := nofun

theorem Keys.addFile (h : Keys db) {g : File} (hg : g.id = db.nextFile) :
    Keys { db with file := db.file ++ [g], nextFile := db.nextFile + 1 } where
  nextPos := Nat.succ_pos _
  fileLt := by
    simp only [List.mem_append, List.mem_singleton]
    rintro f (hf | rfl)
    · exact ⟨(h.fileLt f hf).1, Nat.lt_succ_of_lt (h.fileLt f hf).2⟩
    · exact ⟨hg ▸ h.nextPos, hg ▸ Nat.lt_succ_self _⟩
  fileIds := by
    simp only [List.mem_append, List.mem_singleton]
    rintro f (hf | rfl) e (he | rfl) hid
    · exact h.fileIds f hf e he hid
    · exact absurd (hid.trans hg) (h.fileLt f hf).2.ne
    · exact absurd (hid.symm.trans hg) (h.fileLt e he).2.ne
    · rfl
  rowIds := h.rowIds
  rowLt := h.rowLt
  names := h.names

theorem Keys.addRow (h : Keys db) {name : CStr} {u fileId : Nat} {parentId : Option Nat}
    (hfree : ∀ p, parentId = some p → db.Free p name) :
    Keys (db.exec (.insertUserFile name u fileId parentId)) where
  nextPos := h.nextPos
  fileLt := h.fileLt
  fileIds := h.fileIds
  rowIds := by
    simp only [exec, change, draw, apply, List.map_append, List.map_cons, List.map_nil]
    refine List.nodup_append.2 ⟨h.rowIds, List.nodup_singleton _, ?_⟩
    simp only [List.mem_map, List.mem_singleton]
    rintro _ ⟨x, hx, rfl⟩ _ rfl
    exact (h.rowLt x hx).ne
  rowLt := by
    simp only [exec, change, draw, apply, List.mem_append, List.mem_singleton]
    rintro x (hx | rfl)
    · exact Nat.lt_succ_of_lt (h.rowLt x hx)
    · exact Nat.lt_succ_self _
  names := by
    simp only [exec, change, draw, apply, List.mem_append, List.mem_singleton]
    rintro x (hx | rfl) y (hy | rfl) p hp hp' hn
    · exact h.names x hx y hy p hp hp' hn
    · exact absurd hn (hfree p hp' x hx hp)
    · exact absurd hn.symm (hfree p hp y hy hp')
    · rfl

theorem mem_unlink {fileId u : Nat} {x : UserFile} :
    x ∈ (db.exec (.deleteUserFile fileId u)).userFile ↔ x ∈ db.userFile ∧ ¬ (x.fileId = fileId ∧ x.userId = u) := by
  simp [exec, change, draw, apply, imp_iff_not_or]

theorem Keys.unlink (h : Keys db) (fileId u : Nat) : Keys (db.exec (.deleteUserFile fileId u)) where
  nextPos := h.nextPos
  fileLt := h.fileLt
  fileIds := h.fileIds
  rowIds := h.rowIds.sublist (List.filter_sublist.map _)
  rowLt x hx := h.rowLt x (mem_unlink.1 hx).1
  names x hx y hy := h.names x (mem_unlink.1 hx).1 y (mem_unlink.1 hy).1

theorem mem_complete {hash : CStr} {f : File} (hf : f ∈ (db.exec (.updateComplete hash)).file) :
    ∃ e ∈ db.file, f.id = e.id ∧ f.type = e.type ∧ f.hash = e.hash ∧
      f = if e.hash = some hash then { e with complete := true } else e := by
  obtain ⟨e, he, rfl⟩ := List.mem_map.1 hf
  exact ⟨e, he, by split <;> rfl, by split <;> rfl, by split <;> rfl, rfl⟩

theorem Keys.complete (h : Keys db) (hash : CStr) : Keys (db.exec (.updateComplete hash)) where
  nextPos := h.nextPos
  fileLt f hf := by
    obtain ⟨e, he, hid, -⟩ := mem_complete hf
    exact hid ▸ h.fileLt e he
  fileIds f hf g hg hfg := by
    obtain ⟨e, he, hid, -, -, rfl⟩ := mem_complete hf
    obtain ⟨e', he', hid', -, -, rfl⟩ := mem_complete hg
    rw [h.fileIds e he e' he' (hid.symm.trans (hfg.trans hid'))]
  rowIds := h.rowIds
  rowLt := h.rowLt
  names := h.names

theorem Keys.addUser (h : Keys db) (name password : CStr) : Keys (db.exec (.insertUser name password)) :=
  { h with }

theorem Keys.effect {call : Call} {db' : Db} (h : Keys db) (he : Effect db ord call db') : Keys db' := by
  have hdir : ∀ {db : Db}, Keys db → Keys (db.exec .insertDir) := fun h => h.addFile rfl
  cases he with
  | same => exact h
  | @register rand account password word hnew => exact (hdir (h.addUser account word)).addRow nofun
  | mkdir hcd hD hlt hfree => exact (hdir h).addRow fun p hp => Option.some.inj hp ▸ hfree
  | @putsNew path fileName hash u D hcd hD hlt hfree hnew =>
    have h' : Keys (db.exec (.insertFile hash hash)) := h.addFile rfl
    exact h'.addRow fun p hp => Option.some.inj hp ▸ hfree
  | putsLink f hcd hD hlt hfree => exact h.addRow fun p hp => Option.some.inj hp ▸ hfree
  | update => exact h.complete _
  | remove r => exact h.unlink r.fileId _

/-! ### `Tree` -/

theorem tree_empty : Tree {} where
  toKeys := keys_empty
  hashes := nofun
  dirHash := nofun
  fileOf := nofun
  userLt := nofun
  parentLt := nofun
  hasRoot := nofun
  roots := nofun
  rootDir := nofun
  dirOnce := nofun
  dirAbove := nofun

theorem Tree.addUser (h : Tree db) (name password : CStr) : Tree (db.exec (.insertUser name password)) :=
  { h with userLt := fun x hx => Nat.lt_succ_of_lt (h.userLt x hx) }

/-- Rows refer to files that exist, so a new file changes what is known about none of them. -/
theorem Tree.isDir_addFile (h : Tree db) {x : UserFile} (hx : x ∈ db.userFile) {g : File}
    (hg : g.id = db.nextFile) {db' : Db} (hfile : db'.file = db.file ++ [g]) :
    db'.IsDir x.fileId ↔ db.IsDir x.fileId := by
  obtain ⟨f, hf, hid⟩ := h.fileOf x hx
  have hlt := (h.fileLt f hf).2
  unfold IsDir
  rw [hfile]
  constructor
  · rintro ⟨e, he, heid, htype⟩
    rcases List.mem_append.1 he with he | he
    · exact ⟨e, he, heid, htype⟩
    · obtain rfl := List.mem_singleton.1 he
      omega
  · rintro ⟨e, he, heid, htype⟩
    exact ⟨e, List.mem_append_left _ he, heid, htype⟩

theorem Tree.addFile (h : Tree db) {g : File} (hg : g.id = db.nextFile) (hdir : g.type = .dir → g.hash = none)
    (hhash : ∀ k, g.hash = some k → ∀ f ∈ db.file, f.hash ≠ some k) :
    Tree { db with file := db.file ++ [g], nextFile := db.nextFile + 1 } := by
  have hisDir : ∀ x ∈ db.userFile,
      Db.IsDir { db with file := db.file ++ [g], nextFile := db.nextFile + 1 } x.fileId ↔ db.IsDir x.fileId :=
    fun x hx => h.isDir_addFile hx hg rfl
  have hmem : ∀ f ∈ db.file ++ [g], f ∈ db.file ∨ f = g := fun f => mem_added
  exact
    { toKeys := h.toKeys.addFile hg
      hashes := fun f hf e he k hk hk' => by
        rcases hmem f hf with hf' | rfl <;> rcases hmem e he with he' | rfl
        · exact h.hashes f hf' e he' k hk hk'
        · exact absurd hk (hhash k hk' f hf')
        · exact absurd hk' (hhash k hk e he')
        · rfl
      dirHash := fun f hf => by
        rcases hmem f hf with hf | rfl
        · exact h.dirHash f hf
        · exact hdir
      fileOf := fun x hx => (h.fileOf x hx).imp fun f hf => ⟨List.mem_append_left _ hf.1, hf.2⟩
      userLt := h.userLt
      parentLt := fun x hx p hp => ⟨(h.parentLt x hx p hp).1, Nat.lt_succ_of_lt (h.parentLt x hx p hp).2⟩
      hasRoot := h.hasRoot
      roots := h.roots
      rootDir := fun x hx hp => (hisDir x hx).2 (h.rootDir x hx hp)
      dirOnce := fun x hx y hy hd => h.dirOnce x hx y hy ((hisDir x hx).1 hd)
      dirAbove := fun x hx p hd => h.dirAbove x hx p ((hisDir x hx).1 hd) }

/-- A row for a file that exists, under a name that is free. A directory gets its only row, under a
parent that is older; a row without a parent is the first one of its user. -/
theorem Tree.addRow (h : Tree db) {name : CStr} {u fileId : Nat} {parentId : Option Nat}
    (hfile : ∃ f ∈ db.file, f.id = fileId) (hu : u < db.nextUser)
    (hfree : ∀ p, parentId = some p → db.Free p name)
    (hparent : ∀ p, parentId = some p → 0 < p ∧ p < db.nextFile ∧ ∃ x ∈ db.userFile, x.userId = u)
    (hroot : parentId = none → db.IsDir fileId ∧ ∀ x ∈ db.userFile, x.userId ≠ u)
    (hdir : db.IsDir fileId → (∀ x ∈ db.userFile, x.fileId ≠ fileId) ∧ ∀ p, parentId = some p → p < fileId) :
    Tree (db.exec (.insertUserFile name u fileId parentId)) := by
  let row : UserFile := ⟨db.nextUserFile, name, u, fileId, parentId⟩
  have hmem : ∀ x ∈ db.userFile ++ [row], x ∈ db.userFile ∨ x = row := fun x => mem_added
  have hrow : row ∈ db.userFile ++ [row] := List.mem_append_right _ (List.mem_singleton_self _)
  suffices Tree { db with userFile := db.userFile ++ [row], nextUserFile := db.nextUserFile + 1 } from this
  exact
    { toKeys := h.toKeys.addRow hfree
      hashes := h.hashes
      dirHash := h.dirHash
      fileOf := fun x hx => by
        rcases hmem x hx with hx | rfl
        · exact h.fileOf x hx
        · exact hfile
      userLt := fun x hx => by
        rcases hmem x hx with hx | rfl
        · exact h.userLt x hx
        · exact hu
      parentLt := fun x hx p hp => by
        rcases hmem x hx with hx | rfl
        · exact h.parentLt x hx p hp
        · exact ⟨(hparent p hp).1, (hparent p hp).2.1⟩
      hasRoot := fun x hx => by
        have hold : ∀ x ∈ db.userFile, ∃ r ∈ db.userFile ++ [row], r.userId = x.userId ∧ r.parentId = none :=
          fun x hx => (h.hasRoot x hx).imp fun r hr => ⟨List.mem_append_left _ hr.1, hr.2⟩
        rcases hmem x hx with hx | rfl
        · exact hold x hx
        · cases hp : parentId with
          | none => exact ⟨row, hrow, rfl, hp⟩
          | some p =>
            obtain ⟨y, hy, hyu⟩ := (hparent p hp).2.2
            obtain ⟨r, hr, hru, hrp⟩ := hold y hy
            exact ⟨r, hr, hru.trans hyu, hrp⟩
      roots := fun x hx y hy hxy hpx hpy => by
        rcases hmem x hx with hx | rfl <;> rcases hmem y hy with hy | rfl
        · exact h.roots x hx y hy hxy hpx hpy
        · exact absurd hxy ((hroot hpy).2 x hx)
        · exact absurd hxy.symm ((hroot hpx).2 y hy)
        · rfl
      rootDir := fun x hx hp => by
        rcases hmem x hx with hx | rfl
        · exact h.rootDir x hx hp
        · exact (hroot hp).1
      dirOnce := fun x hx y hy hd hxy => by
        rcases hmem x hx with hx | rfl <;> rcases hmem y hy with hy | rfl
        · exact h.dirOnce x hx y hy hd hxy
        · exact absurd hxy ((hdir (show db.IsDir row.fileId from hxy ▸ hd)).1 x hx)
        · exact absurd hxy.symm ((hdir hd).1 y hy)
        · rfl
      dirAbove := fun x hx p hd hp => by
        rcases hmem x hx with hx | rfl
        · exact h.dirAbove x hx p hd hp
        · exact (hdir hd).2 p hp }

/-- Removing the entries of one user for a file that is stored under some parent. -/
theorem Tree.unlink (h : Tree db) {fileId u p : Nat}
    (hx : ∃ x ∈ db.userFile, x.fileId = fileId ∧ x.userId = u ∧ x.parentId = some p) :
    Tree (db.exec (.deleteUserFile fileId u)) := by
  have hsub : ∀ x, x ∈ (db.exec (.deleteUserFile fileId u)).userFile → x ∈ db.userFile :=
    fun x hx => (mem_unlink.1 hx).1
  exact
    { toKeys := h.toKeys.unlink fileId u
      hashes := h.hashes
      dirHash := h.dirHash
      fileOf := fun x hx => h.fileOf x (hsub x hx)
      userLt := fun x hx => h.userLt x (hsub x hx)
      parentLt := fun x hx => h.parentLt x (hsub x hx)
      hasRoot := fun y hy => by
        obtain ⟨r, hr, hru, hrp⟩ := h.hasRoot y (hsub y hy)
        refine ⟨r, List.mem_filter.2 ⟨hr, ?_⟩, hru, hrp⟩
        simp only [Bool.not_eq_true', Bool.and_eq_false_imp, beq_iff_eq, beq_eq_false_iff_ne]
        -- the root is a directory and so the only row with its file id
        rintro hfile -
        obtain ⟨x, hx, hxf, -, hxp⟩ := hx
        obtain rfl := h.dirOnce r hr x hx (h.rootDir r hr hrp) (hfile.trans hxf.symm)
        exact absurd (hrp.symm.trans hxp) nofun
      roots := fun x hx y hy => h.roots x (hsub x hx) y (hsub y hy)
      rootDir := fun x hx => h.rootDir x (hsub x hx)
      dirOnce := fun x hx y hy => h.dirOnce x (hsub x hx) y (hsub y hy)
      dirAbove := fun x hx => h.dirAbove x (hsub x hx) }

theorem isDir_complete {hash : CStr} {id : Nat} :
    (db.exec (.updateComplete hash)).IsDir id ↔ db.IsDir id := by
  simp only [IsDir, exec, change, draw, apply, List.mem_map]
  constructor
  · rintro ⟨_, ⟨f, hf, rfl⟩, hid, htype⟩
    exact ⟨f, hf, by split at hid <;> exact hid, by split at htype <;> exact htype⟩
  · rintro ⟨f, hf, hid, htype⟩
    exact ⟨_, ⟨f, hf, rfl⟩, by split <;> exact hid, by split <;> exact htype⟩

theorem Tree.complete (h : Tree db) (hash : CStr) : Tree (db.exec (.updateComplete hash)) where
  toKeys := h.toKeys.complete hash
  hashes f hf g hg k hk hk' := by
    obtain ⟨e, he, -, -, hh, rfl⟩ := mem_complete hf
    obtain ⟨e', he', -, -, hh', rfl⟩ := mem_complete hg
    rw [h.hashes e he e' he' k (hh ▸ hk) (hh' ▸ hk')]
  dirHash f hf hd := by
    obtain ⟨e, he, -, htype, hh, -⟩ := mem_complete hf
    exact hh.trans (h.dirHash e he (htype ▸ hd))
  fileOf x hx := by
    obtain ⟨f, hf, hid⟩ := h.fileOf x hx
    exact ⟨_, List.mem_map_of_mem hf, by split <;> exact hid⟩
  userLt := h.userLt
  parentLt := h.parentLt
  hasRoot := h.hasRoot
  roots := h.roots
  rootDir x hx hp := isDir_complete.2 (h.rootDir x hx hp)
  dirOnce x hx y hy hd := h.dirOnce x hx y hy (isDir_complete.1 hd)
  dirAbove x hx p hd := h.dirAbove x hx p (isDir_complete.1 hd)

/-! ### The walk of `query_cd` -/

/-- The test in the loop of `query_cd`. -/
def accepts (parentId : Int) (name : CStr) (r : UserFile) : Bool :=
  r.heldName == name && ulongOf parentId == r.parentId.getD 0

/-- Nothing else of the user is accepted where a row of the user is, whose name fits. -/
theorem Tree.accepts_unique (h : Tree db) {x y : UserFile} (hx : x ∈ db.userFile) (hy : y ∈ db.userFile)
    (hu : x.userId = y.userId) (hfits : x.name.length < nameSize) {k : Int} {name : CStr} (hax : accepts k name x = true)
    (hay : accepts k name y = true) : y = x := by
  simp only [accepts, Bool.and_eq_true, beq_iff_eq] at hax hay
  rw [UserFile.heldName_of_lt hfits] at hax
  have hp : x.parentId.getD 0 = y.parentId.getD 0 := hax.2.symm.trans hay.2
  have hname : y.name = x.name := (UserFile.heldName_eq_iff hfits).1 (hay.1.trans hax.1.symm)
  cases hxp : x.parentId with
  | none =>
    cases hyp : y.parentId with
    | none => exact h.roots y hy x hx hu.symm hyp hxp
    | some q =>
      have := (h.parentLt y hy q hyp).1
      simp [hxp, hyp] at hp
      omega
  | some p =>
    cases hyp : y.parentId with
    | none =>
      have := (h.parentLt x hx p hxp).1
      simp [hxp, hyp] at hp
      omega
    | some q =>
      have hpq : p = q := by simpa [hxp, hyp] using hp
      exact h.names y hy x hx p (hpq ▸ hyp) hxp hname

theorem cdLoop_eq_walk (rows : List UserFile) (names : List CStr) (p : Int) :
    cdLoop (rows.map convertToUserfile) names p =
      Greedy.walk accepts (fun r => intOf r.fileId) rows names p := by
  induction rows generalizing names p with
  | nil => rfl
  | cons r rows ih =>
    cases names with
    | nil => rfl
    | cons n names =>
      rw [List.map_cons, cdLoop, Greedy.walk, ih, ih]
      simp only [accepts, convertToUserfile, Bool.and_eq_true, beq_iff_eq]
      congr

theorem cd_eq {path : CStr} {names : List CStr} {u : Nat} {r : UserFile} {rs : List UserFile}
    (hrows : db.userFileRows ord (.ofUser u) = r :: rs) (hnames : spliteFileName path = some names) :
    db.cd ord path u =
      let (left, parentId) := Greedy.walk accepts (fun r => intOf r.fileId) (r :: rs) names (intOf (r.parentId.getD 0))
      some (if left = [] then parentId else 0) := by
  rw [cd, selectUserFile, hrows, List.map_cons, hnames]
  simp only [Option.map_some, ← cdLoop_eq_walk, List.map_cons, convertToUserfile]
  rfl

/-- A path that resolves uses up its names on the user's rows. -/
theorem cd_eq_some_iff {path : CStr} {u : Nat} {d : Int} (hd : 0 < d) :
    db.cd ord path u = some d ↔ ∃ names r rs, spliteFileName path = some names ∧
      db.userFileRows ord (.ofUser u) = r :: rs ∧
      Greedy.walk accepts (fun r => intOf r.fileId) (r :: rs) names (intOf (r.parentId.getD 0)) = ([], d) := by
  constructor
  · intro hcd
    cases hrows : db.userFileRows ord (.ofUser u) with
    | nil =>
      rw [cd, selectUserFile, hrows] at hcd
      obtain rfl := Option.some.inj hcd
      omega
    | cons r rs =>
      cases hnames : spliteFileName path with
      | none =>
        rw [cd, selectUserFile, hrows, List.map_cons, hnames] at hcd
        cases hcd
      | some names =>
        rw [cd_eq hrows hnames] at hcd
        have hwalk := Option.some.inj hcd
        refine ⟨names, r, rs, rfl, rfl, ?_⟩
        split at hwalk
        · next hleft => exact Prod.ext hleft hwalk
        · omega
  · rintro ⟨names, r, rs, hnames, hrows, hwalk⟩
    rw [cd_eq hrows hnames, hwalk]
    rfl

/-- The rows that the path is found over, and the last of them. -/
theorem chain_of_cd {path : CStr} {u : Nat} {d : Int} (hcd : db.cd ord path u = some d) (hd : 0 < d) :
    ∃ names r rs as t, spliteFileName path = some names ∧ db.userFileRows ord (.ofUser u) = r :: rs ∧
      (as ++ [t]).Sublist (r :: rs) ∧
      Greedy.Chain accepts (fun r => intOf r.fileId) (intOf (r.parentId.getD 0)) names (as ++ [t]) ∧ intOf t.fileId = d := by
  obtain ⟨names, r, rs, hnames, hrows, hwalk⟩ := (cd_eq_some_iff hd).1 hcd
  obtain ⟨as, t, hchain⟩ := Greedy.exists_concat_of_walk (spliteFileName_ne_nil hnames) hwalk
  exact ⟨names, r, rs, as, t, hnames, hrows, hchain⟩

theorem Tree.target {path : CStr} {u D : Nat} (h : Tree db) (hbound : db.nextFile ≤ 2 ^ 32)
    (hcd : db.cd ord path u = some (D : Int)) (hD : 0 < D) :
    ∃ t ∈ db.userFile, t.userId = u ∧ t.fileId = D := by
  obtain ⟨names, r, rs, as, t, -, hrows, hsub, -, hlast⟩ := chain_of_cd hcd (by omega)
  have ht : t ∈ as ++ [t] := List.mem_append_right _ (List.mem_singleton_self t)
  obtain ⟨htmem, htu⟩ := (mem_userFileRows db ord).1 (hrows ▸ hsub.subset ht)
  obtain ⟨f, hf, hid⟩ := h.fileOf t htmem
  have hlt := (h.fileLt f hf).2
  exact ⟨t, htmem, by simpa [UserFileQuery.holds] using htu,
    eq_of_intOf (by omega) hlast hD⟩

theorem Tree.fileId_lt (h : Tree db) {x : UserFile} (hx : x ∈ db.userFile) : x.fileId < db.nextFile := by
  obtain ⟨f, hf, hid⟩ := h.fileOf x hx
  exact hid ▸ (h.fileLt f hf).2

/-- A new directory, linked once, under an older parent or as the root of a new user. -/
theorem Tree.addDir (h : Tree db) {name : CStr} {u : Nat} {parentId : Option Nat} (hu : u < db.nextUser)
    (hfree : ∀ p, parentId = some p → db.Free p name)
    (hparent : ∀ p, parentId = some p → 0 < p ∧ p < db.nextFile ∧ ∃ x ∈ db.userFile, x.userId = u)
    (hroot : parentId = none → ∀ x ∈ db.userFile, x.userId ≠ u) :
    Tree ((db.exec .insertDir).exec (.insertUserFile name u db.nextFile parentId)) := by
  let dir : File := { id := db.nextFile, type := .dir, complete := true }
  have hdir : dir ∈ db.file ++ [dir] := List.mem_append_right _ (List.mem_singleton_self _)
  have h' : Tree (db.exec .insertDir) := h.addFile (g := dir) rfl (fun _ => rfl) nofun
  refine h'.addRow ⟨dir, hdir, rfl⟩ hu hfree (fun p hp => ?_) (fun hp => ⟨⟨dir, hdir, rfl, rfl⟩, hroot hp⟩) fun _ => ?_
  · obtain ⟨hpos, hlt, hx⟩ := hparent p hp
    exact ⟨hpos, Nat.lt_succ_of_lt hlt, hx⟩
  · exact ⟨fun x hx => (h.fileId_lt hx).ne, fun p hp => (hparent p hp).2.1⟩

/-- Every call keeps the tree, as long as the file ids fit. -/
theorem Tree.effect {call : Call} {db' : Db} (h : Tree db) (hbound : db.nextFile < 2 ^ 32)
    (he : Effect db ord call db') : Tree db' := by
  cases he with
  | same => exact h
  | @register rand account password word hnew =>
    exact (h.addUser account word).addDir (Nat.lt_succ_self _) nofun nofun fun _ x hx => (h.userLt x hx).ne
  | @mkdir path dirName u D hcd hD hlt hfree =>
    obtain ⟨t, ht, htu, hfile⟩ := h.target hbound.le hcd hD
    have hid : regOf (intOf db.nextFile) = db.nextFile := regOf_intOf hbound
    rw [hid]
    refine h.addDir (htu ▸ h.userLt t ht) (fun p hp => Option.some.inj hp ▸ hfree) (fun p hp => ?_) nofun
    obtain rfl := Option.some.inj hp
    exact ⟨hD, hfile ▸ h.fileId_lt ht, t, ht, htu⟩
  | @putsNew path fileName hash u D hcd hD hlt hfree hnew =>
    obtain ⟨t, ht, htu, hfile⟩ := h.target hbound.le hcd hD
    let file : File := { id := db.nextFile, type := .file, realPath := hash, hash := hash, complete := false }
    have hmem : file ∈ db.file ++ [file] := List.mem_append_right _ (List.mem_singleton_self _)
    have h' : Tree (db.exec (.insertFile hash hash)) :=
      h.addFile (g := file) rfl nofun fun k hk f hf => Option.some.inj hk ▸ hnew f hf
    refine h'.addRow ⟨file, hmem, rfl⟩ (htu ▸ h.userLt t ht) (fun p hp => Option.some.inj hp ▸ hfree)
      (fun p hp => ?_) nofun ?_
    · obtain rfl := Option.some.inj hp
      exact ⟨hD, Nat.lt_succ_of_lt (hfile ▸ h.fileId_lt ht), t, ht, htu⟩
    · rintro ⟨f, hf, hid, htype⟩
      rw [h'.fileIds f hf file hmem hid] at htype
      cases htype
  | @putsLink path fileName hash u D f hcd hD hlt hfree hf hhash =>
    obtain ⟨t, ht, htu, hfile⟩ := h.target hbound.le hcd hD
    refine h.addRow ⟨f, hf, rfl⟩ (htu ▸ h.userLt t ht) (fun p hp => Option.some.inj hp ▸ hfree)
      (fun p hp => ?_) nofun ?_
    · obtain rfl := Option.some.inj hp
      exact ⟨hD, hfile ▸ h.fileId_lt ht, t, ht, htu⟩
    · rintro ⟨e, he, hid, htype⟩
      rw [h.fileIds e he f hf hid] at htype
      exact absurd (h.dirHash f hf htype) (hhash ▸ nofun)
  | update => exact h.complete _
  | remove r f hcd hD hlt hr hx hf => exact h.unlink hx

/-! ### Ids that fit an `int` -/

/-- A completed call, with file ids below `2³¹`. -/
def IdStep (C : Crypt) (db : Db) (i : RowOrder × Call) (db' : Db) : Prop :=
  db'.nextFile ≤ 2 ^ 31 ∧ Step C db i db'

instance (C : Crypt) (db : Db) (i : RowOrder × Call) (db' : Db) : Decidable (IdStep C db i db') :=
  inferInstanceAs (Decidable (_ ∧ _))

/-- The tree, with ids that an `int` holds. -/
structure IntTree (db : Db) : Prop extends Tree db where
  bound : db.nextFile ≤ 2 ^ 31

theorem IntTree.fileId_lt (h : IntTree db) {x : UserFile} (hx : x ∈ db.userFile) : x.fileId < 2 ^ 31 :=
  (h.toTree.fileId_lt hx).trans_le h.bound

theorem IntTree.target (h : IntTree db) {path : CStr} {u D : Nat} (hcd : db.cd ord path u = some (D : Int)) (hD : 0 < D) :
    ∃ t ∈ db.userFile, t.userId = u ∧ t.fileId = D :=
  h.toTree.target (h.bound.trans (by omega)) hcd hD

theorem IntTree.regOf_nextFile (h : IntTree db) : regOf (intOf db.nextFile) = db.nextFile :=
  regOf_intOf (h.bound.trans_lt (by omega))

theorem IntTree.step {C : Crypt} {i : RowOrder × Call} {db' : Db} (h : IntTree db) (hst : IdStep C db i db') : IntTree db' :=
  ⟨h.toTree.effect (h.bound.trans_lt (by omega)) (Step.effect hst.2), hst.1⟩

end Db
end Netdisk

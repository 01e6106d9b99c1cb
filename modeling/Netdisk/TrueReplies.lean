import Netdisk.Answers
import Netdisk.FoundPaths

/-!
# Replies that are true (`file_change.c`, `file_no_change.c`)

What the texts of `cd`, `mkdir`, `rm` and `puts` claim, in terms of the tables, and which requests they
are true of. `mkdir` tells the truth, the others where they see the rows they ask for (`told_iff`).
-/

namespace Netdisk
open Os Prog Runs Hearing

/-! ### The facts -/

/-- The path that the argument of `cd` resolves to exists for the user. -/
def PathExists (argument : CStr) (token : TokenInfo) (db : Db) : Prop :=
  ∃ path D, getUserPath argument token = some path ∧ db.LeadsTo token.userId path D

def DirAdded (db db' : Db) : Prop := ∃ x ∈ db'.userFile, x ∉ db.userFile ∧ db'.IsDir x.fileId

def EntryDeleted (db db' : Db) : Prop := ∃ x ∈ db.userFile, x ∉ db'.userFile

/-- The name in the directory is linked to a complete file with that digest. -/
def Db.HoldsFile (db : Db) (D : Nat) (name digest : CStr) : Prop :=
  ∃ x ∈ db.userFile, x.parentId = some D ∧ x.name = name ∧
    ∃ f ∈ db.file, f.id = x.fileId ∧ f.hash = some digest ∧ f.complete = true

/-- The argument of `puts` names a file to be stored under `name` in the directory `path`. -/
def PutsTarget (argument : CStr) (token : TokenInfo) (path name : CStr) : Prop :=
  ∃ localPath target, spliteArgument argument = some (localPath, target) ∧ getUserPath target token = some path ∧
    getFileName localPath = name

def Uploaded (argument : CStr) (token : TokenInfo) (digest : CStr) (db : Db) : Prop :=
  ∃ path name D, PutsTarget argument token path name ∧ db.LeadsTo token.userId path D ∧ db.HoldsFile D name digest

/-! ### Where they are told -/

section Conditions
variable (ord : RowOrder) (db : Db) (argument : CStr) (token : TokenInfo)

/-- The rows of the path come in its order. -/
def CdSeen : Prop := ∀ path, getUserPath argument token = some path → db.InOrder ord token.userId path

/-- The directory of the entry exists and its rows come in order, if the user has any. -/
def RmSeen : Prop :=
  ∀ path, getUserPath argument token = some path → cutName path ≠ [] → (∃ x ∈ db.userFile, x.userId = token.userId) →
    (∃ D, db.LeadsTo token.userId (cutName path) D) ∧ db.InOrder ord token.userId (cutName path)

/-- An upload that is there already is in a directory whose rows come in order; a frame without a digest
is not for the name of a directory there. -/
def PutsSeen (digest : CStr) : Prop :=
  ∀ path name D, PutsTarget argument token path name → db.LeadsTo token.userId path D →
    (db.HoldsFile D name digest → db.InOrder ord token.userId path) ∧
    (db.InOrder ord token.userId path → digest = [] →
      ∀ x ∈ db.userFile, x.parentId = some D → x.name = name → ¬ db.IsDir x.fileId)

/-- If the data file cannot be opened, the upload has not recorded an entry: it does not find its directory, or
the name is taken there, or a complete file has the digest. -/
def PutsRecordsNothing (digest : CStr) (opened : Int) : Prop :=
  opened < 0 → ∀ path name D, PutsTarget argument token path name → db.LeadsTo token.userId path D →
    db.InOrder ord token.userId path → db.Free D name → ∃ f ∈ db.file, f.hash = some digest ∧ f.complete = true

end Conditions

section Truth
variable {ord : RowOrder} {frame : TransFile} {opened fd : Int} {db : Db} {argument : CStr} {token : TokenInfo} {E : Env}

theorem pathExists_iff {path : CStr} (hpath : getUserPath argument token = some path) :
    PathExists argument token db ↔ ∃ D, db.LeadsTo token.userId path D := by
  constructor
  · rintro ⟨path', D, hpath', hD⟩
    obtain rfl := Option.some.inj (hpath.symm.trans hpath')
    exact ⟨D, hD⟩
  · rintro ⟨D, hD⟩
    exact ⟨path, D, hpath, hD⟩

theorem cdText_eq_iff {d : Int} : cdText d = utf8 "change success" ↔ 0 < d := by
  unfold cdText
  split
  · exact iff_of_false (by decide) (by omega)
  split
  · exact iff_of_false (by decide) (by omega)
  · exact iff_of_true rfl (by omega)

theorem tells_cd_iff (h : db.Catalogue) :
    Tells ord frame opened db (utf8 "change success") (PathExists argument token) (dealCommand E .cd fd argument token) ↔
      CdSeen ord db argument token := by
  cases hpath : getUserPath argument token with
  | none =>
    rw [(dealCommand_noPath hpath).1]
    refine iff_of_true (tells_crash.2 ?_) ?_
    · rintro ⟨path, D, hsome, -⟩
      cases hpath.symm.trans hsome
    · intro path hsome
      cases hpath.symm.trans hsome
  | some path =>
    have hseen : CdSeen ord db argument token ↔ db.InOrder ord token.userId path := by
      unfold CdSeen
      simp [hpath]
    rw [dealCommand_cd hpath, hseen]
    cases hcd : db.cd ord path token.userId with
    | none =>
      have hnames := Db.spliteFileName_of_cd_none hcd
      have hquery : queryCd path token.userId = (queryCd path token.userId).bind .pure := (Prog.bind_pure _).symm
      rw [hquery]
      refine iff_of_true ((tells_lost hcd).2 ?_) ?_
      · rw [pathExists_iff hpath]
        rintro ⟨D, hD⟩
        exact Db.not_leadsTo_of_cd_none hcd hD
      · intro names rows hsome
        cases hnames.symm.trans hsome
    | some d =>
      have hrun : (queryCd path token.userId).run (Db.handler ord) db = some (d, db) := by
        rw [Db.queryCd_run, hcd]
        rfl
      rw [tells_answering queryCd_only.sql hrun, cdText_eq_iff, pathExists_iff hpath]
      rw [h.cd_pos_iff hcd]
      have hvacuous : (¬ ∃ D, db.LeadsTo token.userId path D) → db.InOrder ord token.userId path := Db.inOrder_of_not_exists
      tauto

theorem keeps_cd : Keeps ord frame opened db (utf8 "change success") token (dealCommand E .cd fd argument token) := by
  cases hpath : getUserPath argument token with
  | none =>
    rw [(dealCommand_noPath hpath).1]
    exact keeps_crash
  | some path =>
    rw [dealCommand_cd hpath]
    cases hcd : db.cd ord path token.userId with
    | none =>
      have hquery : queryCd path token.userId = (queryCd path token.userId).bind .pure := (Prog.bind_pure _).symm
      rw [hquery]
      exact keeps_lost hcd
    | some d =>
      have hrun : (queryCd path token.userId).run (Db.handler ord) db = some (d, db) := by
        rw [Db.queryCd_run, hcd]
        rfl
      refine (keeps_answering queryCd_only.sql hrun).2 fun htext => ⟨rfl, ?_⟩
      rw [if_neg (cdText_eq_iff.not.1 htext)]

theorem rmText_eq_iff {ret : Int} : rmText ret = utf8 "删除成功" ↔ ret ≠ -1 ∧ ret ≠ 1 ∧ ret ≠ 2 := by
  unfold rmText
  split
  · exact iff_of_false (by decide) (by omega)
  split
  · exact iff_of_false (by decide) (by omega)
  split
  · exact iff_of_false (by decide) (by omega)
  · exact iff_of_true rfl (by omega)

theorem mkdirText_eq_iff {ret : Int} : mkdirText ret = utf8 "创建成功" ↔ ret ≠ -1 ∧ ret ≠ 0 ∧ ret ≠ 1 := by
  unfold mkdirText
  split
  · exact iff_of_false (by decide) (by omega)
  split
  · exact iff_of_false (by decide) (by omega)
  split
  · exact iff_of_false (by decide) (by omega)
  · exact iff_of_true rfl (by omega)

theorem not_dirAdded : ¬ DirAdded db db := fun ⟨_, hx, hno, _⟩ => hno hx

theorem not_entryDeleted : ¬ EntryDeleted db db := fun ⟨_, hx, hno⟩ => hno hx

/-- What a `mkdir` comes to. -/
theorem queryMkdir_outcome (name : CStr) (h : db.Grounded) {path : CStr} {u : Nat} {d : Int} (hcd : db.cd ord path u = some d) :
    ∃ ret db', (queryMkdir path name u).run (Db.handler ord) db = some (ret, db') ∧
      ((ret = -1 ∨ ret = 0 ∨ ret = 1) ∧ db' = db ∨ ret = 2 ∧ DirAdded db db') := by
  rcases le_or_gt d 0 with hd | hd
  · refine ⟨d, db, Db.queryMkdir_nonpos hcd hd, .inl ⟨?_, rfl⟩⟩
    rcases h.cd_nonpos hcd hd with ⟨rfl, -⟩ | ⟨rfl, -⟩
    · exact .inl rfl
    · exact .inr (.inl rfl)
  · obtain ⟨D, rfl, hD, -⟩ := Db.cd_pos hcd hd
    by_cases hfree : db.Free D name
    · refine ⟨_, _, Db.queryMkdir_made hcd hD hfree, .inr ⟨rfl, ?_⟩⟩
      rw [h.regOf_nextFile]
      refine ⟨⟨db.nextUserFile, name, u, db.nextFile, some D⟩, List.mem_append_right _ (List.mem_singleton_self _), ?_, ?_⟩
      · exact fun hx => absurd (h.rowLt _ hx) (Nat.lt_irrefl _)
      · exact ⟨_, List.mem_append_right _ (List.mem_singleton_self _), rfl, rfl⟩
    · exact ⟨_, _, Db.queryMkdir_taken hcd hD hfree, .inl ⟨.inr (.inr rfl), rfl⟩⟩

theorem tells_mkdir (h : db.Grounded) :
    Tells ord frame opened db (utf8 "创建成功") (DirAdded db) (dealCommand E .mkdir fd argument token) ∧
      Keeps ord frame opened db (utf8 "创建成功") token (dealCommand E .mkdir fd argument token) := by
  cases hpath : getUserPath argument token with
  | none =>
    rw [(dealCommand_noPath hpath).2.1]
    exact ⟨tells_crash.2 not_dirAdded, keeps_crash⟩
  | some path =>
    rw [dealCommand_mkdir hpath]
    cases hcd : db.cd ord (cutName path) token.userId with
    | none => exact ⟨(tells_lost hcd).2 not_dirAdded, keeps_lost hcd⟩
    | some d =>
      obtain ⟨ret, db', hrun, ⟨hret, rfl⟩ | ⟨rfl, hadded⟩⟩ := queryMkdir_outcome (getFileName argument) h hcd
      · have htext : mkdirText ret ≠ utf8 "创建成功" := mkdirText_eq_iff.not.2 (by omega)
        constructor
        · exact (tells_answering queryMkdir_only.sql hrun).2 (iff_of_false htext not_dirAdded)
        · exact (keeps_answering queryMkdir_only.sql hrun).2 fun _ => ⟨rfl, rfl⟩
      · have htext : mkdirText 2 = utf8 "创建成功" := mkdirText_eq_iff.2 (by decide)
        constructor
        · exact (tells_answering queryMkdir_only.sql hrun).2 (iff_of_true htext hadded)
        · exact (keeps_answering queryMkdir_only.sql hrun).2 fun hne => absurd htext hne

/-- What an `rm` comes to: the directory is not found, or something is said about its entries. -/
theorem queryRemove_outcome (name : CStr) (h : db.Grounded) {path : CStr} {u : Nat} {d : Int} (hcd : db.cd ord path u = some d) :
    ∃ ret db', (queryRemove path name u).run (Db.handler ord) db = some (ret, db') ∧
      (d ≤ 0 ∧ ret = d ∧ db' = db ∨ 0 < d ∧ ((ret = 1 ∨ ret = 2) ∧ db' = db ∨ ret = 0 ∧ EntryDeleted db db')) := by
  rcases le_or_gt d 0 with hd | hd
  · exact ⟨d, db, Db.queryRemove_nonpos hcd hd, .inl ⟨hd, rfl, rfl⟩⟩
  · obtain ⟨D, rfl, hD, -⟩ := Db.cd_pos hcd hd
    rcases Db.queryRemove_cases name hcd hD with ⟨-, hrun⟩ | ⟨r, rs, hrows, ⟨hno, -⟩ | ⟨f, hf, hid, ⟨-, hrun⟩ | ⟨-, hrun⟩⟩⟩
    · exact ⟨1, db, hrun, .inr ⟨hd, .inl ⟨.inl rfl, rfl⟩⟩⟩
    · obtain ⟨hr, -⟩ := Db.mem_likeIn (hrows ▸ List.mem_cons_self)
      obtain ⟨f, hf, hid⟩ := h.fileOf r hr
      exact absurd hid (hno f hf)
    · exact ⟨2, db, hrun, .inr ⟨hd, .inl ⟨.inr rfl, rfl⟩⟩⟩
    · obtain ⟨-, x, hx, hxf, hxu, -⟩ := Db.mem_likeIn (hrows ▸ List.mem_cons_self)
      exact ⟨0, _, hrun, .inr ⟨hd, .inr ⟨rfl, x, hx, fun hmem => (Db.mem_unlink.1 hmem).2 ⟨hxf, hxu⟩⟩⟩⟩

theorem tells_rm_iff (h : db.Grounded) :
    (Tells ord frame opened db (utf8 "删除成功") (EntryDeleted db) (dealCommand E .rm fd argument token) ↔
      RmSeen ord db argument token) ∧
      Keeps ord frame opened db (utf8 "删除成功") token (dealCommand E .rm fd argument token) := by
  cases hpath : getUserPath argument token with
  | none =>
    rw [(dealCommand_noPath hpath).2.2]
    refine ⟨iff_of_true (tells_crash.2 not_entryDeleted) ?_, keeps_crash⟩
    intro path hsome
    cases hpath.symm.trans hsome
  | some path =>
    have hseen : RmSeen ord db argument token ↔ (cutName path ≠ [] → (∃ x ∈ db.userFile, x.userId = token.userId) →
        (∃ D, db.LeadsTo token.userId (cutName path) D) ∧ db.InOrder ord token.userId (cutName path)) := by
      unfold RmSeen
      simp [hpath]
    rw [dealCommand_rm hpath, hseen]
    cases hcd : db.cd ord (cutName path) token.userId with
    | none =>
      refine ⟨iff_of_true ((tells_lost hcd).2 not_entryDeleted) fun hne => ?_, keeps_lost hcd⟩
      exact absurd (spliteFileName_eq_none.1 (Db.spliteFileName_of_cd_none hcd)) hne
    | some d =>
      obtain ⟨ret, db', hrun, hout⟩ := queryRemove_outcome (getFileName argument) h hcd
      rw [tells_answering queryRemove_only.sql hrun, keeps_answering queryRemove_only.sql hrun, ← h.cd_pos_iff hcd, rmText_eq_iff]
      rcases hout with ⟨hd, rfl, rfl⟩ | ⟨hd, ⟨hret, rfl⟩ | ⟨rfl, hdeleted⟩⟩
      · refine ⟨?_, fun _ => ⟨rfl, rfl⟩⟩
        rcases h.cd_nonpos hcd hd with ⟨rfl, hnone⟩ | ⟨rfl, hsome, hnames⟩
        · refine iff_of_true (iff_of_false (by decide) not_entryDeleted) fun _ ⟨x, hx, hxu⟩ => ?_
          exact absurd hxu (hnone x hx)
        · -- the path is not found, and the reply is that of a deletion
          refine iff_of_false (fun htold => not_entryDeleted (htold.1 (by decide))) fun hpos => ?_
          exact absurd (hpos (spliteFileName_eq_none.not.1 hnames) hsome) (by decide)
      · have hno : ¬ (ret ≠ -1 ∧ ret ≠ 1 ∧ ret ≠ 2) := fun hne => hret.elim hne.2.1 hne.2.2
        exact ⟨iff_of_true (iff_of_false hno not_entryDeleted) fun _ _ => hd, fun _ => ⟨rfl, rfl⟩⟩
      · refine ⟨iff_of_true (iff_of_true (by decide) hdeleted) fun _ _ => hd, fun hne => ?_⟩
        exact absurd (rmText_eq_iff.2 (by decide)) hne

end Truth

/-! ### Uploads -/

section Uploads
variable {ord : RowOrder} {frame : TransFile} {opened fd : Int} {db : Db} {argument path name digest : CStr} {token : TokenInfo}
  {E : Env} {u D : Nat}

theorem PutsTarget.unique {path' name' : CStr} (h : PutsTarget argument token path name)
    (h' : PutsTarget argument token path' name') : path' = path ∧ name' = name := by
  obtain ⟨localPath, target, hargs, hpath, rfl⟩ := h
  obtain ⟨localPath', target', hargs', hpath', rfl⟩ := h'
  obtain ⟨rfl, rfl⟩ := Prod.mk.inj (Option.some.inj (hargs.symm.trans hargs'))
  exact ⟨Option.some.inj (hpath'.symm.trans hpath), rfl⟩

theorem PutsTarget.dealCommand (h : PutsTarget argument token path name) :
    dealCommand E .puts fd argument token = (recv fd).bind fun trans =>
      (queryPuts path name trans.data token.userId).bind (putsReply E fd trans token) := by
  obtain ⟨localPath, target, hargs, hpath, rfl⟩ := h
  exact dealCommand_puts hargs hpath

theorem dealCommand_noTarget (hnone : ∀ path name, ¬ PutsTarget argument token path name) :
    dealCommand E .puts fd argument token = Os.crash := by
  show (recvFile E.jwt E.cwd fd argument token E.strerror).bind _ = _
  rw [recvFile]
  cases hargs : spliteArgument argument with
  | none => exact crash_bind _
  | some x =>
    obtain ⟨localPath, target⟩ := x
    dsimp only
    cases hpath : getUserPath target token with
    | none => exact crash_bind _
    | some path => exact absurd ⟨localPath, target, hargs, hpath, rfl⟩ (hnone path _)

theorem PutsTarget.uploaded_iff (h : PutsTarget argument token path name) :
    Uploaded argument token digest db ↔ ∃ D, db.LeadsTo token.userId path D ∧ db.HoldsFile D name digest := by
  constructor
  · rintro ⟨path', name', D, h', hD⟩
    obtain ⟨rfl, rfl⟩ := h.unique h'
    exact ⟨D, hD⟩
  · rintro ⟨D, hD⟩
    exact ⟨path, name, D, h, hD⟩

theorem PutsTarget.seen_iff (h : PutsTarget argument token path name) :
    PutsSeen ord db argument token digest ↔ ∀ D, db.LeadsTo token.userId path D →
      (db.HoldsFile D name digest → db.InOrder ord token.userId path) ∧
      (db.InOrder ord token.userId path → digest = [] →
        ∀ x ∈ db.userFile, x.parentId = some D → x.name = name → ¬ db.IsDir x.fileId) := by
  constructor
  · exact fun hseen D hD => hseen path name D h hD
  · intro hseen path' name' D h' hD
    obtain ⟨rfl, rfl⟩ := h.unique h'
    exact hseen D hD

theorem PutsTarget.recordsNothing_iff (h : PutsTarget argument token path name) :
    PutsRecordsNothing ord db argument token digest opened ↔ (opened < 0 → ∀ D, db.LeadsTo token.userId path D →
      db.InOrder ord token.userId path → db.Free D name → ∃ f ∈ db.file, f.hash = some digest ∧ f.complete = true) := by
  constructor
  · exact fun hno hopen D hD => hno hopen path name D h hD
  · intro hno hopen path' name' D h' hD
    obtain ⟨rfl, rfl⟩ := h.unique h'
    exact hno hopen D hD

/-- An entry under the name decides what the directory holds. -/
theorem holdsFile_iff (h : db.Tree) {x : UserFile} (hx : x ∈ db.userFile) (hp : x.parentId = some D) (hname : x.name = name)
    {f : File} (hf : f ∈ db.file) (hid : f.id = x.fileId) :
    db.HoldsFile D name digest ↔ f.hash = some digest ∧ f.complete = true := by
  constructor
  · rintro ⟨y, hy, hyp, hyname, g, hg, hgid, hhash⟩
    obtain rfl := h.names y hy x hx D hyp hp (hyname.trans hname.symm)
    obtain rfl := h.fileIds g hg f hf (hgid.trans hid.symm)
    exact hhash
  · exact fun hhash => ⟨x, hx, hp, hname, f, hf, hid, hhash⟩

theorem exists_holdsFile_iff (h : db.Tree) (hD : db.LeadsTo u path D) :
    (∃ D, db.LeadsTo u path D ∧ db.HoldsFile D name digest) ↔ db.HoldsFile D name digest := by
  constructor
  · rintro ⟨D', hD', hholds⟩
    exact h.leadsTo_unique hD hD' ▸ hholds
  · exact fun hholds => ⟨D, hD, hholds⟩

/-- What an upload comes to: its directory is not found, the name is taken there, or it gets an entry for a file
that is complete if one with the digest was. -/
theorem queryPuts_outcome (name digest : CStr) (h : db.Catalogue) {d : Int} (hcd : db.cd ord path u = some d) :
    ∃ ret db', (queryPuts path name digest u).run (Db.handler ord) db = some (ret, db') ∧
      (ret = -2 ∨ ret = -1 ∨ ret = 0 ∨ ret = 1 ∨ ret = 2) ∧
      (d ≤ 0 ∧ ret ≠ 2 ∧ db' = db ∨
      ∃ D : Nat, d = D ∧ 0 < D ∧
        ((∃ x ∈ db.userFile, x.parentId = some D ∧ x.name = name ∧ ∃ f ∈ db.file, f.id = x.fileId ∧
          ret = (if digest = f.hash.getD [] then (if f.complete then 2 else 1) else 0) ∧ db' = db) ∨
        (db.Free D name ∧ ∃ x, db'.userFile = db.userFile ++ [x] ∧ x.parentId = some D ∧ x.name = name ∧
          ∃ f ∈ db'.file, f.id = x.fileId ∧ f.hash = some digest ∧ ret = (if f.complete then 2 else 1) ∧
          ((∃ g ∈ db.file, g.hash = some digest ∧ g.complete = true) ↔ f.complete = true)))) := by
  rcases le_or_gt d 0 with hd | hd
  · refine ⟨_, db, Db.queryPuts_nonpos hcd hd, ?_, .inl ⟨hd, ?_, rfl⟩⟩
    · split
      · exact .inl rfl
      · exact .inr (.inl rfl)
    · split <;> decide
  · obtain ⟨D, rfl, hD, -⟩ := Db.cd_pos hcd hd
    by_cases hfree : db.Free D name
    · by_cases hnew : ∀ f ∈ db.file, f.hash ≠ some digest
      · refine ⟨_, _, Db.queryPuts_recorded hcd hD hfree hnew, by decide, .inr ⟨D, rfl, hD, .inr ⟨hfree, _, rfl, rfl, rfl, ?_⟩⟩⟩
        refine ⟨_, List.mem_append_right _ (List.mem_singleton_self _), rfl, rfl, rfl, iff_of_false ?_ Bool.false_ne_true⟩
        rintro ⟨g, hg, hhash, -⟩
        exact hnew g hg hhash
      · obtain ⟨f, hf, hhash⟩ : ∃ f ∈ db.file, f.hash = some digest := by
          by_contra hno
          exact hnew fun f hf hhash => hno ⟨f, hf, hhash⟩
        refine ⟨_, _, h.queryPuts_link hcd hD hfree hf hhash, by split <;> decide, .inr ⟨D, rfl, hD, .inr ⟨hfree, _, rfl, rfl, rfl, ?_⟩⟩⟩
        refine ⟨f, hf, rfl, hhash, rfl, ?_, fun hcomplete => ⟨f, hf, hhash, hcomplete⟩⟩
        rintro ⟨g, hg, hghash, hcomplete⟩
        exact h.hashes g hg f hf digest hghash hhash ▸ hcomplete
    · obtain ⟨x, hx, hp, hname⟩ : ∃ x ∈ db.userFile, x.parentId = some D ∧ x.name = name := by
        by_contra hno
        exact hfree fun x hx hp hname => hno ⟨x, hx, hp, hname⟩
      obtain ⟨f, hf, hid⟩ := h.fileOf x hx
      exact ⟨_, _, h.queryPuts_known hcd hD hx hp hname hf hid, by split; split <;> decide; decide,
        .inr ⟨D, rfl, hD, .inl ⟨x, hx, hp, hname, f, hf, hid, rfl, rfl⟩⟩⟩

/-- A directory that is not found. -/
theorem told_refused (h : db.Catalogue) {d ret : Int} (hcd : db.cd ord path u = some d) (hd : d ≤ 0) (hret : ret ≠ 2) :
    (ret = 2 ↔ ∃ D, db.LeadsTo u path D ∧ db.HoldsFile D name digest) ↔ ∀ D, db.LeadsTo u path D →
      (db.HoldsFile D name digest → db.InOrder ord u path) ∧
      (db.InOrder ord u path → digest = [] → ∀ x ∈ db.userFile, x.parentId = some D → x.name = name → ¬ db.IsDir x.fileId) := by
  have hlost : ∀ D, db.LeadsTo u path D → ¬ db.InOrder ord u path := by
    intro D hlead horder
    exact absurd ((h.cd_pos_iff hcd).2 ⟨⟨D, hlead⟩, horder⟩) (not_lt.2 hd)
  constructor
  · intro htold D hlead
    exact ⟨fun hholds => absurd (htold.2 ⟨D, hlead, hholds⟩) hret, fun horder => absurd horder (hlost D hlead)⟩
  · intro hseen
    refine iff_of_false hret ?_
    rintro ⟨D, hlead, hholds⟩
    exact hlost D hlead ((hseen D hlead).1 hholds)

/-- A name that is taken: the digests are compared as strings, and that of a directory reads as empty. -/
theorem told_known (h : db.Catalogue) (hlead : db.LeadsTo u path D) (horder : db.InOrder ord u path) {x : UserFile}
    (hx : x ∈ db.userFile) (hp : x.parentId = some D) (hname : x.name = name) {f : File} (hf : f ∈ db.file) (hid : f.id = x.fileId) :
    ((if digest = f.hash.getD [] then (if f.complete then 2 else 1) else 0 : Int) = 2 ↔ db.HoldsFile D name digest) ↔
    ∀ D, db.LeadsTo u path D → (db.HoldsFile D name digest → db.InOrder ord u path) ∧
      (db.InOrder ord u path → digest = [] → ∀ x ∈ db.userFile, x.parentId = some D → x.name = name → ¬ db.IsDir x.fileId) := by
  have hseen : (∀ D, db.LeadsTo u path D → (db.HoldsFile D name digest → db.InOrder ord u path) ∧ (db.InOrder ord u path →
      digest = [] → ∀ x ∈ db.userFile, x.parentId = some D → x.name = name → ¬ db.IsDir x.fileId)) ↔
      (digest = [] → f.type ≠ .dir) := by
    constructor
    · intro hseen hnil hdir
      exact (hseen D hlead).2 horder hnil x hx hp hname ⟨f, hf, hid, hdir⟩
    · intro hfile D' hD'
      obtain rfl := h.leadsTo_unique hlead hD'
      refine ⟨fun _ => horder, fun _ hnil y hy hyp hyname hdir => hfile hnil ?_⟩
      obtain rfl := h.names y hy x hx D' hyp hp (hyname.trans hname.symm)
      obtain ⟨g, hg, hgid, htype⟩ := hdir
      exact h.fileIds g hg f hf (hgid.trans hid.symm) ▸ htype
  rw [hseen, holdsFile_iff h.toTree hx hp hname hf hid]
  cases hhash : f.hash with
  | none =>
    have hdir := h.digest f hf hhash
    have hcomplete := h.whole f hf hdir
    simp [hdir, hcomplete]
  | some k =>
    have hfile : f.type ≠ .dir := fun hdir => absurd (hhash.symm.trans (h.dirHash f hf hdir)) nofun
    refine iff_of_true ?_ fun _ => hfile
    rw [Option.getD_some, Option.some.injEq]
    split
    · next heq =>
      split
      · next hcomplete => exact iff_of_true rfl ⟨heq.symm, hcomplete⟩
      · next hcomplete => exact iff_of_false (by decide) fun hholds => hcomplete hholds.2
    · next hne => exact iff_of_false (by decide) fun hholds => hne hholds.1.symm

theorem tells_puts_iff (h : db.Catalogue) (hE : E.strerror ≠ utf8 "上传成功") :
    Tells ord frame opened db (utf8 "上传成功") (Uploaded argument token frame.data) (dealCommand E .puts fd argument token) ↔
      PutsSeen ord db argument token frame.data := by
  by_cases htarget : ∃ path name, PutsTarget argument token path name
  · obtain ⟨path, name, ht⟩ := htarget
    rw [ht.dealCommand, ht.seen_iff]
    cases hcd : db.cd ord path token.userId with
    | none =>
      have hlost : ∀ D, ¬ db.LeadsTo token.userId path D := fun D => Db.not_leadsTo_of_cd_none hcd
      refine iff_of_true (wp_recv.2 ?_) fun D hD => absurd hD (hlost D)
      rw [queryPuts, Prog.bind_eq, Prog.bind_assoc]
      refine (wp_lost hcd).2 (iff_of_false (Option.some_ne_none _ ∘ Eq.symm) ?_)
      intro hup
      obtain ⟨D, hD, -⟩ := ht.uploaded_iff.1 hup
      exact hlost D hD
    | some d =>
      obtain ⟨ret, db', hrun, hret, hout⟩ := queryPuts_outcome name frame.data h hcd
      rw [tells_puts hE hrun hret, ht.uploaded_iff]
      rcases hout with ⟨hd, hne, rfl⟩ | ⟨D, rfl, hD, hout⟩
      · exact told_refused h hcd hd (by omega)
      obtain ⟨hlead, horder⟩ := h.found_iff.1 ⟨hcd, hD⟩
      rcases hout with ⟨x, hx, hp, hname, f, hf, hid, rfl, rfl⟩ | ⟨hfree, x, hrows, hp, hname, f, hf, hid, hhash, rfl, -⟩
      · rw [exists_holdsFile_iff h.toTree hlead]
        exact told_known h hlead horder hx hp hname hf hid
      · have htree : db'.Tree := h.toTree.effect (h.bound.trans_lt (by omega)) (Db.queryPuts_effect hrun)
        have hlead' : db'.LeadsTo token.userId path D := hlead.mono fun y hy => hrows ▸ List.mem_append_left _ hy
        have hx : x ∈ db'.userFile := hrows ▸ List.mem_append_right _ (List.mem_singleton_self x)
        rw [exists_holdsFile_iff htree hlead', holdsFile_iff htree hx hp hname hf hid]
        refine iff_of_true ?_ fun D' hD' => ⟨fun _ => horder, fun _ _ y hy hyp hyname => ?_⟩
        · cases f.complete <;> simp [hhash]
        · obtain rfl := h.leadsTo_unique hlead hD'
          exact absurd hyname (hfree y hy hyp)
  · have hnone : ∀ path name, ¬ PutsTarget argument token path name := fun path name ht => htarget ⟨path, name, ht⟩
    rw [dealCommand_noTarget hnone]
    refine iff_of_true (tells_crash.2 ?_) fun path name _ ht => absurd ht (hnone path name)
    rintro ⟨path, name, _, ht, -⟩
    exact hnone path name ht

theorem keeps_puts_iff (h : db.Catalogue) (hE : E.strerror ≠ utf8 "上传成功") :
    Keeps ord frame opened db (utf8 "上传成功") token (dealCommand E .puts fd argument token) ↔
      PutsRecordsNothing ord db argument token frame.data opened := by
  by_cases htarget : ∃ path name, PutsTarget argument token path name
  · obtain ⟨path, name, ht⟩ := htarget
    rw [ht.dealCommand, ht.recordsNothing_iff]
    cases hcd : db.cd ord path token.userId with
    | none =>
      refine iff_of_true (wp_recv.2 ?_) fun _ D hD => absurd hD (Db.not_leadsTo_of_cd_none hcd)
      rw [queryPuts, Prog.bind_eq, Prog.bind_assoc]
      exact (wp_lost hcd).2 trivial
    | some d =>
      obtain ⟨ret, db', hrun, hret, hout⟩ := queryPuts_outcome name frame.data h hcd
      rw [keeps_puts hE hrun hret]
      rcases hout with ⟨hd, -, rfl⟩ | ⟨D, rfl, hD, hout⟩
      · refine iff_of_true (fun _ _ => rfl) fun _ D hlead horder => ?_
        exact absurd ((h.cd_pos_iff hcd).2 ⟨⟨D, hlead⟩, horder⟩) (not_lt.2 hd)
      obtain ⟨hlead, horder⟩ := h.found_iff.1 ⟨hcd, hD⟩
      rcases hout with ⟨x, hx, hp, hname, -, -, -, -, rfl⟩ | ⟨hfree, x, hrows, -, -, f, -, -, -, rfl, hknown⟩
      · refine iff_of_true (fun _ _ => rfl) fun _ D' hD' _ hfree => ?_
        obtain rfl := h.leadsTo_unique hlead hD'
        exact absurd hname (hfree x hx hp)
      · have hchanged : db' ≠ db := by
          rintro rfl
          simpa using congrArg List.length hrows
        have hrecorded : (opened < 0 → ∀ D, db.LeadsTo token.userId path D → db.InOrder ord token.userId path → db.Free D name →
            ∃ g ∈ db.file, g.hash = some frame.data ∧ g.complete = true) ↔ (opened < 0 → f.complete = true) := by
          refine forall_congr' fun _ => ?_
          rw [← hknown]
          refine ⟨fun hall => hall D hlead horder hfree, fun hex _ _ _ _ => hex⟩
        rw [hrecorded]
        cases f.complete <;> simp [hchanged]
  · have hnone : ∀ path name, ¬ PutsTarget argument token path name := fun path name ht => htarget ⟨path, name, ht⟩
    rw [dealCommand_noTarget hnone]
    exact iff_of_true keeps_crash fun _ path name _ ht => absurd ht (hnone path name)

end Uploads

/-- After a run in which what is stored fits, without file ids from `2³¹` on and without links to files older than the
home: `mkdir` tells the truth, and `cd`, `rm` and `puts` tell it exactly if they see the rows they ask for. A text of `puts` other than
that of a success stands for no change exactly if no entry was recorded before the file could not be opened. -/
theorem told_iff (E : Env) (hE : E.strerror ≠ utf8 "上传成功") (r : List ((RowOrder × Db.Call) × Db))
    (hr : IsRun (Db.Step E.crypt) {} r) (hC : Meets Db.InBounds {} r)
    (ord : RowOrder) (frame : TransFile) (opened fd : Int) (argument : CStr) (token : TokenInfo) :
    let db := final {} r
    ((Tells ord frame opened db (utf8 "change success") (PathExists argument token) (dealCommand E .cd fd argument token) ↔
        CdSeen ord db argument token) ∧
      Keeps ord frame opened db (utf8 "change success") token (dealCommand E .cd fd argument token)) ∧
    (Tells ord frame opened db (utf8 "创建成功") (DirAdded db) (dealCommand E .mkdir fd argument token) ∧
      Keeps ord frame opened db (utf8 "创建成功") token (dealCommand E .mkdir fd argument token)) ∧
    ((Tells ord frame opened db (utf8 "删除成功") (EntryDeleted db) (dealCommand E .rm fd argument token) ↔
        RmSeen ord db argument token) ∧
      Keeps ord frame opened db (utf8 "删除成功") token (dealCommand E .rm fd argument token)) ∧
    (Tells ord frame opened db (utf8 "上传成功") (Uploaded argument token frame.data) (dealCommand E .puts fd argument token) ↔
        PutsSeen ord db argument token frame.data) ∧
    (Keeps ord frame opened db (utf8 "上传成功") token (dealCommand E .puts fd argument token) ↔
        PutsRecordsNothing ord db argument token frame.data opened) := by
  intro db
  have h : db.Catalogue :=
    (hr.always (I := Db.Catalogue) (fun _ _ _ h hi hst => h.step hi hst) Db.catalogue_empty hC).final
  exact ⟨⟨tells_cd_iff h, keeps_cd⟩, tells_mkdir h.toGrounded, tells_rm_iff h.toGrounded, tells_puts_iff h hE, keeps_puts_iff h hE⟩

/-- `a` has registered. -/
def oneAccount : List ((RowOrder × Db.Call) × Db) := trace (Db.call .plain) {} [(.stored, .userRegister [] ['a'] ['p'])]

theorem tells_rm_home :
    Tells .stored {} 3 (final {} oneAccount) (utf8 "删除成功") (EntryDeleted (final {} oneAccount))
      (dealCommand .plain .rm 5 ['x'] { userId := 1, workpath := ['/', 'a'] }) ↔
    RmSeen .stored (final {} oneAccount) ['x'] { userId := 1, workpath := ['/', 'a'] } :=
  (told_iff .plain (by decide) oneAccount (by decide) ⟨⟨by decide, by decide, trivial⟩, trivial⟩ .stored {} 3 5 ['x'] _).2.2.1.1

/-- `rm nope/x`: there is no `nope`, and the reply is that of a deletion. -/
theorem rm_nowhere :
    Reaches (Db.Step .plain) {} (final {} oneAccount) ∧
    ¬ Tells .stored {} 3 (final {} oneAccount) (utf8 "删除成功") (EntryDeleted (final {} oneAccount))
      (dealCommand .plain .rm 5 "nope/x".toList { userId := 1, workpath := ['/', 'a'] }) := by
  have hrun : IsRun (Db.Step .plain) {} oneAccount := by decide
  refine ⟨⟨oneAccount, hrun, rfl⟩, ?_⟩
  have hpath : getUserPath "nope/x".toList { userId := 1, workpath := ['/', 'a'] } = some "/a/nope/x".toList := by decide
  have hquery : (queryRemove (cutName "/a/nope/x".toList) (getFileName "nope/x".toList) 1).run (Db.handler .stored)
      (final {} oneAccount) = some (0, final {} oneAccount) := by decide
  rw [dealCommand_rm hpath, tells_answering queryRemove_only.sql hquery]
  exact fun htold => not_entryDeleted (htold.1 (by decide))

end Netdisk

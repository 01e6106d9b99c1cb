import Netdisk.FileSystem.Steps

/-!
# Every call is a step of the trees

One lemma for each operation: it comes to an end, in tables that stand for what the trees become.
-/

namespace Netdisk
namespace Db

variable {db db' : Db} {ord : RowOrder} {s : Trees} {u v D : Nat} {p q names : List CStr} {path name hash : CStr}
  {x y d : UserFile} {f : File} {n : FileTrees.Node CStr}

section Calls
variable {C : Crypt} {rand account password : CStr}

/-- A call comes to an end in tables that stand for what the trees become, and says what is answered there. -/
def Simulated (C : Crypt) (db : Db) (ord : RowOrder) (s : Trees) (call : Call) : Prop :=
  ∃ ret db' a s', Returns C db (ord, call, ret) db' ∧ FileTrees.Step s (call.meaning, a) s' ∧ Says call a ret ∧
    Represents db' s'

/-- One row more, for a file of the tables. -/
theorem Represents.insert {s' : Trees} {row : UserFile} {m : FileTrees.Node CStr} {files : List File}
    (hs : Represents db s) (h : Sound db) (h' : Sound db') (hrows : db'.userFile = db.userFile ++ [row])
    (hfile : db'.file = db.file ++ files) (hnew : ∀ f ∈ files, db.nextFile ≤ f.id)
    (hbelow : ∀ x ∈ db'.userFile, x.parentId ≠ some row.fileId) (hrow : db'.At u p row) (his : db'.Is row m)
    (hfree : s.node u p = none) (hnode : s'.node = FileTrees.setNode s.node u p (some m))
    (hcontent : ∀ hash whole, s'.content hash = some whole ↔ ∃ f ∈ db'.file, f.hash = some hash ∧ f.complete = whole) :
    Represents db' s' := by
  refine ⟨?_, hcontent⟩
  rw [hnode]
  exact setNode_insert hs.node h'.toKeys (h'.at_insert hrows hbelow hrow) ((hs.node_eq_none h.toTree).1 hfree)
    (fun x hx n => is_append h.toTree hfile hnew hx) his

theorem Represents.content_append {g : File} (hs : Represents db s) (hg : g.hash = none) (hash : CStr) (whole : Bool) :
    s.content hash = some whole ↔ ∃ f ∈ db.file ++ [g], f.hash = some hash ∧ f.complete = whole := by
  rw [hs.content]
  constructor
  · rintro ⟨f, hf, hrest⟩
    exact ⟨f, List.mem_append_left _ hf, hrest⟩
  · rintro ⟨f, hf, hh, hw⟩
    rcases mem_added hf with hf | rfl
    · exact ⟨f, hf, hh, hw⟩
    · rw [hg] at hh
      cases hh

/-- Nothing is stored under an id that is yet to be drawn. -/
theorem Sound.not_below_next (h : Sound db) {row : UserFile} (hrows : db'.userFile = db.userFile ++ [row])
    (hrow : ∀ p, row.parentId = some p → p < db.nextFile) : ∀ x ∈ db'.userFile, x.parentId ≠ some db.nextFile := by
  intro x hx hp
  rcases mem_added (hrows ▸ hx) with hx | rfl
  · exact absurd (h.parentLt x hx _ hp).2 (Nat.lt_irrefl _)
  · exact absurd (hrow _ hp) (Nat.lt_irrefl _)

theorem Returns.step {call : Call} {ret : Int} (h : Returns C db (ord, call, ret) db') : Step C db (ord, call) db' := by
  have hrun : (call.prog C).run (handler ord) db = some (ret, db') := h
  rw [Step, Db.call, hrun]
  rfl

theorem Sound.returns {call : Call} {ret : Int} (h : Sound db) (hi : db.Proper (ord, call))
    (hr : Returns C db (ord, call, ret) db') : Sound db' :=
  h.step hi hr.step

theorem Represents.register (hs : Represents db s) (h : Sound db)
    (hi : db.Proper (ord, .userRegister rand account password)) :
    Simulated C db ord s (.userRegister rand account password) := by
  by_cases htaken : ∃ x ∈ db.user, x.name = account
  · obtain ⟨x, hx, rfl⟩ := htaken
    have hsel : db.selectUser ord x.name ≠ [] := fun hnil => selectUser_eq_nil.1 hnil x hx rfl
    have hrun : Returns C db (ord, .userRegister rand x.name password, 0) db := by
      simp [Returns, Call.prog, userRegister, handler, hsel]
    obtain ⟨r, hr, hu, hp, hname⟩ := h.home x hx
    have hat : db.At x.id [x.name] r := hname ▸ .home hr hu hp
    exact ⟨0, db, .taken, s, hrun, .registered ((hs.node_ne_none h.toTree).2 ⟨r, hat⟩), .accountTaken, hs⟩
  · have hfree : ∀ x ∈ db.user, x.name ≠ account := fun x hx hname => htaken ⟨x, hx, hname⟩
    have hsel : db.selectUser ord account = [] := selectUser_eq_nil.2 hfree
    let root : UserFile := ⟨db.nextUserFile, account, db.nextUser, db.nextFile, none⟩
    let db' := ((db.exec (.insertUser account (encryptPassword C rand password))).exec .insertDir).exec
      (.insertUserFile account db.nextUser db.nextFile none)
    have hrun : Returns C db (ord, .userRegister rand account password, intOf db.nextUser) db' := by
      simp [Returns, Call.prog, userRegister, handler, hsel]
      exact ⟨rfl, rfl⟩
    have h' : Sound db' := h.returns hi hrun
    have hnone : ∀ p, s.node db.nextUser p = none := by
      intro p
      refine (hs.node_eq_none h.toTree).2 fun x hx => ?_
      exact absurd hx.mem.2 (h.userLt x hx.mem.1).ne
    have hname : ∀ v, s.node v [account] = none := by
      intro v
      refine (hs.node_eq_none h.toTree).2 fun x hx => ?_
      obtain ⟨hp, hxn⟩ := hx.single
      obtain ⟨y, hy, -, hyn⟩ := h.account x hx.mem.1 hp
      exact hfree y hy (hyn.trans hxn)
    have hrows : db'.userFile = db.userFile ++ [root] := rfl
    have hroot : root ∈ db'.userFile := List.mem_append_right _ (List.mem_singleton_self _)
    refine ⟨_, db', .user db.nextUser, s.register db.nextUser account hnone hname, hrun, .register hnone hname,
      .registered, ?_⟩
    have hfile : db'.file = db.file ++ [{ id := db.nextFile, type := .dir, complete := true }] := rfl
    refine hs.insert h h' hrows hfile ?_
      (h.not_below_next hrows fun p hp => absurd hp (Option.some_ne_none p).symm) (.home hroot rfl rfl) ?_ (hnone [account]) rfl (hs.content_append rfl)
    · intro f hf
      rw [List.mem_singleton.1 hf]
    · exact ⟨_, List.mem_append_right _ (List.mem_singleton_self _), rfl, rfl⟩

/-- Where an entry is to be stored, `query_cd` finds a directory or nothing. -/
theorem Represents.cd_storing (hs : Represents db s) (h : Sound db) (hpath : path ≠ [])
    (hi : ∀ D : Nat, db.cd ord path u = some (D : Int) → 0 < D → db.Free D name → db.IsDir D) :
    (∃ d, db.At u (namesOn path) d ∧ db.IsDir d.fileId ∧ s.node u (namesOn path) = some .dir ∧
      db.cd ord path u = some (d.fileId : Int) ∧ 0 < d.fileId) ∨
    s.node u (namesOn path) ≠ some .dir ∧ ∃ k ≤ 0, db.cd ord path u = some k := by
  rcases hs.cd_cases h ord u hpath with hdir | ⟨hno, k, hcd, hk | ⟨D, rfl, hD, hnotdir⟩⟩
  · exact .inl hdir
  · exact .inr ⟨hno, k, hk, hcd⟩
  · refine absurd (hi D hcd hD ?_) hnotdir
    intro x hx hp
    exact absurd (h.isDir_of_parent hx hp) hnotdir

theorem Represents.mkdir (hs : Represents db s) (h : Sound db) (hi : db.Proper (ord, .queryMkdir path name u)) :
    Simulated C db ord s (.queryMkdir path name u) := by
  rcases hs.cd_storing h hi.orderly.1 hi.orderly.2.2.2 with ⟨d, hd, hdir, hnode, hcd, hpos⟩ | ⟨hno, k, hk, hcd⟩
  · by_cases hfree : db.Free d.fileId name
    · let row : UserFile := ⟨db.nextUserFile, name, u, db.nextFile, some d.fileId⟩
      let db' := (db.exec .insertDir).exec (.insertUserFile name u db.nextFile (some d.fileId))
      have hrun : Returns C db (ord, .queryMkdir path name u, 2) db' := by
        have hmade := queryMkdir_made hcd hpos hfree
        rw [h.regOf_nextFile] at hmade
        exact hmade
      have h' : Sound db' := h.returns hi hrun
      have hnone := (hs.free_iff h hd hdir).1 hfree
      have hrows : db'.userFile = db.userFile ++ [row] := rfl
      have hrow : row ∈ db'.userFile := List.mem_append_right _ (List.mem_singleton_self _)
      have hbelow := h.not_below_next hrows fun p hp => Option.some.inj hp ▸ h.toTree.fileId_lt hd.mem.1
      refine ⟨2, db', .done, s.add u (namesOn path) name .dir hnode hnone nofun, hrun, .mkdir hnode hnone, .made, ?_⟩
      have hfile : db'.file = db.file ++ [{ id := db.nextFile, type := .dir, complete := true }] := rfl
      refine hs.insert h h' hrows hfile ?_ hbelow
        (.entry (hd.mono (hrows ▸ List.subset_append_left _ _)) hrow rfl rfl) ?_ hnone rfl (hs.content_append rfl)
      · intro f hf
        rw [List.mem_singleton.1 hf]
      · exact ⟨_, List.mem_append_right _ (List.mem_singleton_self _), rfl, rfl⟩
    · refine ⟨1, db, .taken, s, queryMkdir_taken hcd hpos hfree, .mkdirTaken hnode ?_, .dirTaken, hs⟩
      exact (hs.free_iff h hd hdir).not.1 hfree
  · exact ⟨k, db, .nowhere, s, queryMkdir_nonpos hcd hk, .mkdirNowhere hno, .dirNowhere hk, hs⟩

theorem Tree.queryPuts_linked (h : Tree db) (hcd : db.cd ord path u = some (D : Int)) (hD : 0 < D) (hfree : db.Free D name)
    (hf : f ∈ db.file) (hhash : f.hash = some hash) :
    (queryPuts path name hash u).run (handler ord) db =
      some (if f.complete then 2 else 1, db.exec (.insertUserFile name u f.id (some D))) := by
  have hreg : regOf D = D := regOf_of_lt (by have := cd_lt hcd; omega)
  have hneg : ¬ (D : Int) < 0 := by omega
  have hn : db.selectUserFile ord (.named D name) = [] := selectUserFile_named_eq_nil.2 hfree
  rw [queryPuts, Prog.bind_eq, queryCd_bind_run, hcd]
  cases hh : db.selectFile ord (.byHash hash) with
  | nil => exact absurd hhash (selectFile_byHash_eq_nil.1 hh f hf)
  | cons g gs =>
    obtain ⟨g, hg, hholds, rfl⟩ := selectFile_cons hh
    have hghash : g.hash = some hash := beq_iff_eq.1 hholds
    obtain rfl := h.hashes g hg f hf hash hghash hhash
    simp [hneg, hD.ne', handler, hreg, hn, hh, convertToFile]

theorem says_receipt (whole : Bool) :
    Says (.queryPuts path name hash u) (if whole then .whole else .pending) (if whole then 2 else 1) := by
  cases whole with
  | false => exact .pending
  | true => exact .whole

theorem Represents.content_of_hash (hs : Represents db s) (hf : f ∈ db.file) (hhash : f.hash = some hash) :
    s.content hash = some f.complete := (hs.content hash _).2 ⟨f, hf, hhash, rfl⟩

section Put

theorem Represents.put_linked (hs : Represents db s) (h : Sound db) (hi : db.Proper (ord, .queryPuts path name hash u))
    (hd : db.At u (namesOn path) d) (hnode : s.node u (namesOn path) = some .dir)
    (hcd : db.cd ord path u = some (d.fileId : Int)) (hpos : 0 < d.fileId) (hfree : db.Free d.fileId name)
    (hnone : s.node u (namesOn path ++ [name]) = none) (hf : f ∈ db.file) (hhash : f.hash = some hash) :
    Simulated C db ord s (.queryPuts path name hash u) := by
  let row : UserFile := ⟨db.nextUserFile, name, u, f.id, some d.fileId⟩
  let db' := db.exec (.insertUserFile name u f.id (some d.fileId))
  have hrun : Returns C db (ord, .queryPuts path name hash u, if f.complete then 2 else 1) db' :=
    h.toTree.queryPuts_linked hcd hpos hfree hf hhash
  have h' : Sound db' := h.returns hi hrun
  have hrows : db'.userFile = db.userFile ++ [row] := rfl
  have hrow : row ∈ db'.userFile := List.mem_append_right _ (List.mem_singleton_self _)
  have hthere := hs.content_of_hash hf hhash
  have hstep := FileTrees.Step.put hnode hnone (c := hash)
  rw [FileTrees.State.receipt_of_some hthere] at hstep
  refine ⟨_, db', _, _, hrun, hstep, says_receipt f.complete, ?_⟩
  refine hs.insert h h' hrows (List.append_nil db.file).symm (by simp) ?_
    (.entry (hd.mono (hrows ▸ List.subset_append_left _ _)) hrow rfl rfl) ⟨f, hf, rfl, nodeOf_eq_file.2 hhash⟩ hnone
    rfl ?_
  · -- what is stored under an id is stored in a directory, and this one has a digest
    intro x hx hp
    obtain ⟨g, hg, hid, htype⟩ := h'.isDir_of_parent hx hp
    obtain rfl := h.fileIds g hg f hf hid
    rw [h.dirHash g hg htype] at hhash
    cases hhash
  · intro k whole
    have hkeep : (s.record hash).content k = s.content k :=
      FileTrees.State.content_record_of_there (hthere ▸ Option.some_ne_none _)
    exact hkeep ▸ hs.content k whole

/-- The digest of a new file is there, and not whole. -/
theorem Represents.content_record (hs : Represents db s) (hnew : ∀ f ∈ db.file, f.hash ≠ some hash) {g : File}
    (hg : g.hash = some hash) (hopen : g.complete = false) (k : CStr) (whole : Bool) :
    (s.record hash).content k = some whole ↔ ∃ f ∈ db.file ++ [g], f.hash = some k ∧ f.complete = whole := by
  by_cases hk : k = hash
  · rw [hk, FileTrees.State.content_record, hs.content_eq_none.2 hnew, Option.getD_none]
    constructor
    · intro hw
      exact ⟨g, List.mem_append_right _ (List.mem_singleton_self _), hg, hopen.trans (Option.some.inj hw)⟩
    · rintro ⟨f, hf, hfh, rfl⟩
      rcases mem_added hf with hf | rfl
      · exact absurd hfh (hnew f hf)
      · rw [hopen]
  · rw [FileTrees.State.content_record_of_ne hk, hs.content]
    constructor
    · rintro ⟨f, hf, hrest⟩
      exact ⟨f, List.mem_append_left _ hf, hrest⟩
    · rintro ⟨f, hf, hfh, hw⟩
      rcases mem_added hf with hf | rfl
      · exact ⟨f, hf, hfh, hw⟩
      · exact absurd (Option.some.inj (hfh.symm.trans hg)) hk

theorem Represents.put_new (hs : Represents db s) (h : Sound db) (hi : db.Proper (ord, .queryPuts path name hash u))
    (hd : db.At u (namesOn path) d) (hnode : s.node u (namesOn path) = some .dir)
    (hcd : db.cd ord path u = some (d.fileId : Int)) (hpos : 0 < d.fileId) (hfree : db.Free d.fileId name)
    (hnone : s.node u (namesOn path ++ [name]) = none) (hnew : ∀ f ∈ db.file, f.hash ≠ some hash) :
    Simulated C db ord s (.queryPuts path name hash u) := by
  let row : UserFile := ⟨db.nextUserFile, name, u, db.nextFile, some d.fileId⟩
  let file : File := { id := db.nextFile, type := .file, realPath := hash, hash := hash, complete := false }
  let db' := (db.exec (.insertFile hash hash)).exec (.insertUserFile name u db.nextFile (some d.fileId))
  have hrun : Returns C db (ord, .queryPuts path name hash u, 1) db' := queryPuts_recorded hcd hpos hfree hnew
  have h' : Sound db' := h.returns hi hrun
  have hrows : db'.userFile = db.userFile ++ [row] := rfl
  have hrow : row ∈ db'.userFile := List.mem_append_right _ (List.mem_singleton_self _)
  have hfile : db'.file = db.file ++ [file] := rfl
  have hmem : file ∈ db'.file := List.mem_append_right _ (List.mem_singleton_self _)
  have hbelow := h.not_below_next hrows fun p hp => Option.some.inj hp ▸ h.toTree.fileId_lt hd.mem.1
  have hstep := FileTrees.Step.put hnode hnone (c := hash)
  have hreceipt : s.receipt hash = (.pending : FileTrees.Answer Nat) := by
    rw [FileTrees.State.receipt, hs.content_eq_none.2 hnew, if_neg (Option.some_ne_none true).symm]
  rw [hreceipt] at hstep
  refine ⟨1, db', .pending, _, hrun, hstep, .pending, ?_⟩
  refine hs.insert h h' hrows hfile ?_ hbelow
    (.entry (hd.mono (hrows ▸ List.subset_append_left _ _)) hrow rfl rfl) ⟨file, hmem, rfl, rfl⟩ hnone rfl
    (hs.content_record hnew rfl rfl)
  intro f hf
  rw [List.mem_singleton.1 hf]

theorem Represents.put_taken (hs : Represents db s) (h : Sound db) (hhash : hash ≠ []) (hd : db.At u (namesOn path) d)
    (hnode : s.node u (namesOn path) = some .dir) (hcd : db.cd ord path u = some (d.fileId : Int)) (hpos : 0 < d.fileId)
    (htaken : s.node u (namesOn path ++ [name]) ≠ none) : Simulated C db ord s (.queryPuts path name hash u) := by
  obtain ⟨x, hx⟩ := (hs.node_ne_none h.toTree).1 htaken
  obtain ⟨e, he, hp, hname⟩ := hx.snoc hd.ne_nil
  obtain rfl := h.at_unique hd he
  obtain ⟨f, hf, hid⟩ := h.fileOf x hx.mem.1
  have hrun : (queryPuts path name hash u).run (handler ord) db =
      some (if hash = f.hash.getD [] then (if f.complete then 2 else 1) else 0, db) :=
    h.queryPuts_known hcd hpos hx.mem.1 hp hname hf hid
  have hnodex := hs.node_of_at hx ⟨f, hf, hid, rfl⟩
  by_cases hsame : f.hash = some hash
  · rw [hsame, Option.getD_some, if_pos rfl] at hrun
    rw [nodeOf_eq_file.2 hsame] at hnodex
    have hstep := FileTrees.Step.putSame hnodex
    rw [FileTrees.State.receipt_of_some (hs.content_of_hash hf hsame)] at hstep
    exact ⟨_, db, _, s, hrun, hstep, says_receipt f.complete, hs⟩
  · have hne : hash ≠ f.hash.getD [] := by
      intro heq
      cases hfh : f.hash with
      | none =>
        rw [hfh] at heq
        exact hhash heq
      | some k =>
        rw [hfh, Option.getD_some] at heq
        exact hsame (heq ▸ hfh)
    rw [if_neg hne] at hrun
    refine ⟨0, db, .taken, s, hrun, .putTaken hnode htaken ?_, .fileTaken, hs⟩
    rw [hnodex]
    exact fun heq => hsame (nodeOf_eq_file.1 (Option.some.inj heq))

theorem Represents.put (hs : Represents db s) (h : Sound db) (hi : db.Proper (ord, .queryPuts path name hash u)) :
    Simulated C db ord s (.queryPuts path name hash u) := by
  rcases hs.cd_storing h hi.orderly.1 hi.orderly.2.2.2.1.2 with ⟨d, hd, hdir, hnode, hcd, hpos⟩ | ⟨hno, k, hk, hcd⟩
  · by_cases hfree : db.Free d.fileId name
    · have hnone := (hs.free_iff h hd hdir).1 hfree
      by_cases hknown : ∃ f ∈ db.file, f.hash = some hash
      · obtain ⟨f, hf, hhash⟩ := hknown
        exact hs.put_linked h hi hd hnode hcd hpos hfree hnone hf hhash
      · exact hs.put_new h hi hd hnode hcd hpos hfree hnone fun f hf hhash => hknown ⟨f, hf, hhash⟩
    · exact hs.put_taken h hi.orderly.2.1 hd hnode hcd hpos ((hs.free_iff h hd hdir).not.1 hfree)
  · have hneg : (if k < 0 then (-2 : Int) else -1) < 0 := by split <;> decide
    exact ⟨_, db, .nowhere, s, queryPuts_nonpos hcd hk, .putNowhere hno, .fileNowhere hneg, hs⟩

end Put

theorem Represents.update (hs : Represents db s) : Simulated C db ord s (.queryUpdate hash) := by
  let db' := db.exec (.updateComplete hash)
  have hrun : Returns C db (ord, .queryUpdate hash, 0) db' := by
    simp [Returns, Call.prog, queryUpdate, handler]
    rfl
  have hnode : ∀ {s' : Trees}, s'.node = s.node → ∀ v q n, s'.node v q = some n ↔ ∃ x, db'.At v q x ∧ db'.Is x n := by
    intro s' hsame v q n
    have hrows : db'.userFile = db.userFile := rfl
    have hat : ∀ x, db.At v q x ↔ db'.At v q x := fun x => (at_congr hrows).symm
    rw [hsame, hs.node]
    refine exists_congr fun x => and_congr (hat x) ?_
    constructor
    · rintro ⟨f, hf, hid, hn⟩
      refine ⟨_, List.mem_map_of_mem hf, ?_, ?_⟩
      · split <;> exact hid
      · split <;> exact hn
    · rintro ⟨f, hf, hid, hn⟩
      obtain ⟨e, he, hide, -, hh, -⟩ := mem_complete hf
      refine ⟨e, he, hide.symm.trans hid, ?_⟩
      rw [← hn, nodeOf, nodeOf, hh]
  have hcontent : ∀ k whole, (∃ f ∈ db'.file, f.hash = some k ∧ f.complete = whole) ↔
      if k = hash then (∃ f ∈ db.file, f.hash = some hash) ∧ whole = true
      else ∃ f ∈ db.file, f.hash = some k ∧ f.complete = whole := by
    intro k whole
    split
    · next hk =>
      subst hk
      constructor
      · rintro ⟨f, hf, hfh, rfl⟩
        obtain ⟨e, he, -, -, hh, rfl⟩ := mem_complete hf
        have heh := hh.symm.trans hfh
        rw [if_pos heh]
        exact ⟨⟨e, he, heh⟩, rfl⟩
      · rintro ⟨⟨e, he, heh⟩, rfl⟩
        refine ⟨_, List.mem_map_of_mem he, ?_⟩
        rw [if_pos heh]
        exact ⟨heh, rfl⟩
    · next hk =>
      constructor
      · rintro ⟨f, hf, hfh, rfl⟩
        obtain ⟨e, he, -, -, hh, rfl⟩ := mem_complete hf
        have heh := hh.symm.trans hfh
        have hne : e.hash ≠ some hash := fun heq => hk (Option.some.inj (heh.symm.trans heq))
        rw [if_neg hne]
        exact ⟨e, he, heh, rfl⟩
      · rintro ⟨e, he, heh, rfl⟩
        have hne : e.hash ≠ some hash := fun heq => hk (Option.some.inj (heh.symm.trans heq))
        refine ⟨_, List.mem_map_of_mem he, ?_⟩
        rw [if_neg hne]
        exact ⟨heh, rfl⟩
  by_cases hthere : s.content hash = none
  · refine ⟨0, db', .done, s, hrun, .finishNothing hthere, .updated, hnode rfl, fun k whole => ?_⟩
    rw [hcontent]
    split
    · next hk =>
      rw [hk, hthere]
      refine iff_of_false (Option.some_ne_none whole).symm ?_
      rintro ⟨⟨f, hf, hfh⟩, -⟩
      exact hs.content_eq_none.1 hthere f hf hfh
    · exact hs.content k whole
  · refine ⟨0, db', .done, s.finish hash, hrun, .finish hthere, .updated, hnode rfl, fun k whole => ?_⟩
    rw [hcontent]
    split
    · next hk =>
      rw [hk, FileTrees.State.content_finish]
      obtain ⟨b, hb⟩ := Option.ne_none_iff_exists'.1 hthere
      obtain ⟨f, hf, hfh, -⟩ := (hs.content hash b).1 hb
      constructor
      · intro hw
        exact ⟨⟨f, hf, hfh⟩, (Option.some.inj hw).symm⟩
      · rintro ⟨-, rfl⟩
        rfl
    · next hk =>
      rw [FileTrees.State.content_finish_of_ne hk]
      exact hs.content k whole

/-- A literal name is like itself only. -/
theorem like_literal {pattern t : CStr} (hp : Literal pattern) : like pattern t = true ↔ t = pattern := by
  induction pattern generalizing t with
  | nil => rw [like, List.isEmpty_iff]
  | cons c pattern ih =>
    obtain ⟨⟨h1, h2, h3⟩, hrest⟩ := List.forall_mem_cons.1 hp
    cases t with
    | nil =>
      refine iff_of_false ?_ nofun
      rw [like.eq_def]
      split <;> simp_all
    | cons b t =>
      rw [like]
      · rw [Bool.and_eq_true, beq_iff_eq, ih hrest, List.cons.injEq]
      all_goals simp_all

theorem Represents.missing (hs : Represents db s) {k : Int} (hpath : path ≠ [])
    (hno : s.node u (namesOn path) ≠ some .dir) (hrun : Returns C db (ord, .queryRemove path name u, k) db) (hk : k ≤ 1) :
    Simulated C db ord s (.queryRemove path name u) := by
  obtain ⟨names, hnames⟩ := Option.ne_none_iff_exists'.1 (spliteFileName_eq_none.not.2 hpath)
  have hne : namesOn path ≠ [] := by
    rw [namesOn, hnames, Option.getD_some]
    exact spliteFileName_ne_nil hnames
  refine ⟨k, db, .missing, s, hrun, .removeMissing ?_, .missing hk, hs⟩
  by_contra hthere
  exact hno (s.above hne hthere)

/-- What is found by a literal name is found in the directory, unless the user has the file elsewhere. -/
theorem Represents.remove_found (hs : Represents db s) (h : Sound db) (hliteral : Literal name)
    (hd : db.At u (namesOn path) d) (hcd : db.cd ord path u = some (d.fileId : Int)) (hpos : 0 < d.fileId)
    (honly : db.FindsOnly ord name u d.fileId) : Simulated C db ord s (.queryRemove path name u) := by
  rcases queryRemove_cases name hcd hpos with ⟨hnil, hrun⟩ | ⟨r, rs, hrows, hcase⟩
  · refine ⟨1, db, .missing, s, hrun, .removeMissing ?_, .missing le_rfl, hs⟩
    refine (hs.node_eq_none h.toTree).2 fun x hx => ?_
    obtain ⟨e, he, hp, hname⟩ := hx.snoc hd.ne_nil
    obtain rfl := h.at_unique hd he
    have hmem : x ∈ db.userFileRows ord (.likeIn u d.fileId name) := by
      refine (mem_userFileRows db ord).2 ⟨hx.mem.1, ?_⟩
      simp only [UserFileQuery.holds, Bool.and_eq_true, List.any_eq_true, beq_iff_eq]
      exact ⟨⟨x, hx.mem.1, ⟨rfl, hx.mem.2⟩, hp⟩, (like_literal hliteral).2 hname⟩
    rw [hnil] at hmem
    exact absurd hmem List.not_mem_nil
  have hr : r ∈ db.userFileRows ord (.likeIn u d.fileId name) := hrows ▸ List.mem_cons_self
  obtain ⟨hrmem, x, hx, hid, hxu, hxp⟩ := mem_likeIn hr
  have hrname : r.name = name := by
    have hholds := ((mem_userFileRows db ord).1 hr).2
    simp only [UserFileQuery.holds, Bool.and_eq_true] at hholds
    exact (like_literal hliteral).1 hholds.2
  rcases hcase with ⟨hnofile, -⟩ | ⟨f, hf, hfid, ⟨hocc, hrun⟩ | ⟨hocc, hrun⟩⟩
  · obtain ⟨f, hf, hfid⟩ := h.fileOf r hrmem
    exact absurd hfid (hnofile f hf)
  · -- the row is that of a directory, and the only one
    obtain ⟨htype, y, hy, hyp⟩ := hocc
    have hdir : db.IsDir r.fileId := ⟨f, hf, hfid, htype⟩
    obtain rfl := h.dirOnce x hx r hrmem (hid ▸ hdir) hid
    obtain ⟨t, ht, htu, htid, -⟩ := h.wellFormed y hy _ hyp
    obtain rfl := h.dirOnce x hx t ht hdir (hfid.symm.trans htid.symm)
    have hat : db.At u (namesOn path ++ [name]) x := hrname ▸ .entry hd hx hxu hxp
    have hbelow : db.At u (namesOn path ++ [name] ++ [y.name]) y := .entry hat hy (htu.symm.trans hxu) (hfid ▸ hyp)
    exact ⟨2, db, .full, s, hrun, .removeFull ((hs.node_ne_none h.toTree).2 ⟨y, hbelow⟩), .full, hs⟩
  · have hentries : ∀ y ∈ db.userFile, y.userId = u → y.fileId = r.fileId → IsEntry u d.fileId name y :=
      (honly r rs hrows f hf hfid).resolve_left hocc
    obtain ⟨-, -, hxname⟩ := hentries x hx hxu hid
    have hat : db.At u (namesOn path ++ [name]) x := hxname ▸ .entry hd hx hxu hxp
    have hbelow : ∀ y ∈ db.userFile, y.parentId ≠ some x.fileId := by
      intro y hy hyp
      obtain ⟨g, hg, hgid, htype⟩ := h.isDir_of_parent hy hyp
      obtain rfl := h.fileIds g hg f hf (hgid.trans (hid.trans hfid.symm))
      exact hocc ⟨htype, y, hy, hgid ▸ hyp⟩
    have hempty : ∀ m, s.node u (namesOn path ++ [name] ++ [m]) = none := by
      intro m
      refine (hs.node_eq_none h.toTree).2 fun z hz => ?_
      obtain ⟨e, he, hp, -⟩ := hz.snoc hat.ne_nil
      obtain rfl := h.at_unique hat he
      exact hbelow z hz.mem.1 hp
    let db' := db.exec (.deleteUserFile r.fileId u)
    have hrows' : ∀ y, y ∈ db'.userFile ↔ y ∈ db.userFile ∧ y ≠ x := by
      intro y
      rw [mem_unlink]
      refine and_congr_right fun hy => not_congr ⟨?_, ?_⟩
      · rintro ⟨hyid, hyu⟩
        exact h.entry_unique hy hx (hentries y hy hyu hyid) (hentries x hx hxu hid)
      · rintro rfl
        exact ⟨hid, hxu⟩
    refine ⟨0, db', .done, s.erase u (namesOn path) name hd.ne_nil hempty, hrun, .remove hd.ne_nil hempty ?_, .removed, ?_, ?_⟩
    · exact (hs.node_ne_none h.toTree).2 ⟨x, hat⟩
    · exact setNode_remove hs.node h (at_remove hrows' fun y hy _ => hbelow y hy) hat rfl
    · exact hs.content

theorem Represents.remove (hs : Represents db s) (h : Sound db) (hi : db.Proper (ord, .queryRemove path name u)) :
    Simulated C db ord s (.queryRemove path name u) := by
  obtain ⟨hpath, hliteral, honly⟩ := hi.orderly
  rcases hs.cd_cases h ord u hpath with ⟨d, hd, -, -, hcd, hpos⟩ | ⟨hno, k, hcd, hk | ⟨D, rfl, hD, hnotdir⟩⟩
  · exact hs.remove_found h hliteral hd hcd hpos (honly _ hcd hpos)
  · exact hs.missing hpath hno (queryRemove_nonpos hcd hk) (by omega)
  · rcases queryRemove_cases name hcd hD with ⟨-, hrun⟩ | ⟨r, rs, hrows, -⟩
    · exact hs.missing hpath hno hrun le_rfl
    · obtain ⟨-, x, hx, -, -, hp⟩ := mem_likeIn (hrows ▸ List.mem_cons_self)
      exact absurd (h.isDir_of_parent hx hp) hnotdir

theorem Represents.simulated (hs : Represents db s) (h : Sound db) {call : Call} (hi : db.Proper (ord, call)) :
    Simulated C db ord s call := by
  cases call with
  | userRegister => exact hs.register h hi
  | queryMkdir => exact hs.mkdir h hi
  | queryPuts => exact hs.put h hi
  | queryUpdate => exact hs.update
  | queryRemove => exact hs.remove h hi

/-- A call that returns is matched by a step of the trees. -/
theorem Represents.step (hs : Represents db s) (h : Sound db) {call : Call} {ret : Int} (hi : db.Proper (ord, call))
    (hr : Returns C db (ord, call, ret) db') :
    ∃ a s', FileTrees.Step s (call.meaning, a) s' ∧ Says call a ret ∧ Sound db' ∧ Represents db' s' := by
  obtain ⟨ret', db'', a, s', hrun, hstep, hsays, hs'⟩ := hs.simulated (C := C) h hi
  have hsame : some (ret', db'') = some (ret, db') := hrun.symm.trans hr
  obtain ⟨rfl, rfl⟩ := Prod.mk.inj (Option.some.inj hsame)
  exact ⟨a, s', hstep, hsays, h.returns hi hr, hs'⟩

end Calls

end Db
end Netdisk

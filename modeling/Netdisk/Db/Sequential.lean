import Netdisk.DealSql
import Netdisk.Lib.Runs

/-!
# One call after the other

The database operations run to completion one at a time: there is always a free connection and a
statement takes effect at once. `Db.cd` is what `query_cd` computes from the tables; `Effect` says
everything that a call of the other operations can do to them.
-/

namespace Netdisk
namespace Db

/-- The database under calls that do not overlap. -/
def handler (ord : RowOrder) : (o : Op) → Db → Option (Resp o × Db)
  | .getConnection, db => some (some (0 : Nat), db)
  | .releaseConnection _, db => some ((), db)
  | .autocommit _ _, db => some ((), db)
  | .commit _, db => some ((), db)
  | .selectUser _ name, db => some (db.selectUser ord name, db)
  | .selectUserFile _ q, db => some (db.selectUserFile ord q, db)
  | .selectFile _ q, db => some (db.selectFile ord q, db)
  | .exec _ st, db => some ((db.change st).2, db.exec st)
  | _, _ => none

/-- The operations that change the tables. -/
inductive Call
  | userRegister (rand account password : CStr)
  | queryMkdir (path dirName : CStr) (userId : Nat)
  | queryPuts (path fileName hashValue : CStr) (userId : Nat)
  | queryUpdate (hashValue : CStr)
  | queryRemove (path fileName : CStr) (userId : Nat)
deriving DecidableEq

def Call.prog (C : Crypt) : Call → Os Int
  | .userRegister rand account password => Netdisk.userRegister C rand account password
  | .queryMkdir path dirName userId => Netdisk.queryMkdir path dirName userId
  | .queryPuts path fileName hashValue userId => Netdisk.queryPuts path fileName hashValue userId
  | .queryUpdate hashValue => Netdisk.queryUpdate hashValue
  | .queryRemove path fileName userId => Netdisk.queryRemove path fileName userId

/-- The tables after a call that runs to its end, on rows delivered in the order given with it. -/
def call (C : Crypt) (db : Db) (i : RowOrder × Call) : Option Db :=
  ((i.2.prog C).run (handler i.1) db).map fun x => x.2

abbrev Step (C : Crypt) (db : Db) (i : RowOrder × Call) (db' : Db) : Prop := call C db i = some db'

variable (db : Db) (ord : RowOrder)

/-! ### `query_cd` -/

/-- What `query_cd` returns, unless it faults. -/
def cd (path : CStr) (userId : Nat) : Option Int :=
  match db.selectUserFile ord (.ofUser userId) with
  | [] => some (-1)
  | file :: files => (spliteFileName path).map fun pathName =>
    let (pathLeft, parentId) := cdLoop (file :: files) pathName (intOf file.parentId)
    if pathLeft = [] then parentId else 0

theorem queryCd_run (path : CStr) (u : Nat) :
    (queryCd path u).run (handler ord) db = (db.cd ord path u).map fun d => (d, db) := by
  cases hrows : db.selectUserFile ord (.ofUser u) with
  | nil => simp [queryCd, cd, handler, hrows]
  | cons file files =>
    cases hnames : spliteFileName path with
    | none => simp [queryCd, cd, Os.crash, handler, hrows, hnames]
    | some names => simp [queryCd, cd, handler, hrows, hnames]

theorem cdLoop_lt (files : List UserFileT) (names : List CStr) {p : Int} (hp : p < 2 ^ 31) :
    (cdLoop files names p).2 < 2 ^ 31 := by
  induction files generalizing names p with
  | nil => exact hp
  | cons file files ih =>
    cases names with
    | nil => exact hp
    | cons n names =>
      rw [cdLoop]
      split
      · exact ih _ (intOf_lt _)
      · exact ih _ hp

variable {db ord} {path : CStr} {u : Nat}

/-- A path that resolves does so to an id that an `int` can hold. -/
theorem cd_pos {d : Int} (h : db.cd ord path u = some d) (hd : 0 < d) :
    ∃ D : Nat, d = D ∧ 0 < D ∧ D < 2 ^ 31 := by
  have hlt : d < 2 ^ 31 := by
    unfold cd at h
    split at h
    · obtain rfl := Option.some.inj h; omega
    · obtain ⟨names, -, rfl⟩ := Option.map_eq_some_iff.1 h
      dsimp only
      split
      · exact cdLoop_lt _ _ (intOf_lt _)
      · omega
  exact ⟨d.toNat, by omega, by omega, by omega⟩

theorem cd_lt {D : Nat} (h : db.cd ord path u = some (D : Int)) : D < 2 ^ 31 := by
  rcases Nat.eq_zero_or_pos D with rfl | hD
  · omega
  · obtain ⟨D', heq, -, hlt⟩ := cd_pos h (by omega)
    omega

/-! ### What a call does -/

variable (db) in
/-- Nothing named `name` is stored under `parentId`. -/
def Free (parentId : Nat) (name : CStr) : Prop :=
  ∀ x ∈ db.userFile, x.parentId = some parentId → x.name ≠ name

theorem selectUserFile_named_eq_nil {p : Nat} {name : CStr} :
    db.selectUserFile ord (.named p name) = [] ↔ db.Free p name := by
  rw [selectUserFile, List.map_eq_nil_iff, List.eq_nil_iff_forall_not_mem]
  simp [mem_userFileRows, UserFileQuery.holds, Free]

variable (db) in
/-- A directory that something is stored under. -/
def Occupied (f : File) : Prop := f.type = .dir ∧ ∃ y ∈ db.userFile, y.parentId = some f.id

variable (db ord) in
/-- The outcomes of a call: the tables as they were, or with the rows of the call added or removed. -/
inductive Effect : Call → Db → Prop
  | same (call : Call) : Effect call db
  | register {rand account password : CStr} (word : CStr) :
    (∀ x ∈ db.user, x.name ≠ account) →
    Effect (.userRegister rand account password)
      (((db.exec (.insertUser account word)).exec .insertDir).exec
        (.insertUserFile account db.nextUser db.nextFile none))
  | mkdir {path dirName : CStr} {u D : Nat} :
    db.cd ord path u = some (D : Int) → 0 < D → D < 2 ^ 31 → db.Free D dirName →
    Effect (.queryMkdir path dirName u)
      ((db.exec .insertDir).exec (.insertUserFile dirName u (regOf (intOf db.nextFile)) (some D)))
  | putsNew {path fileName hash : CStr} {u D : Nat} :
    db.cd ord path u = some (D : Int) → 0 < D → D < 2 ^ 31 → db.Free D fileName →
    (∀ f ∈ db.file, f.hash ≠ some hash) →
    Effect (.queryPuts path fileName hash u)
      ((db.exec (.insertFile hash hash)).exec (.insertUserFile fileName u db.nextFile (some D)))
  | putsLink {path fileName hash : CStr} {u D : Nat} (f : File) :
    db.cd ord path u = some (D : Int) → 0 < D → D < 2 ^ 31 → db.Free D fileName →
    f ∈ db.file → f.hash = some hash →
    Effect (.queryPuts path fileName hash u) (db.exec (.insertUserFile fileName u f.id (some D)))
  | update {hash : CStr} : Effect (.queryUpdate hash) (db.exec (.updateComplete hash))
  | remove {path fileName : CStr} {u D : Nat} (r : UserFile) (f : File) :
    db.cd ord path u = some (D : Int) → 0 < D → D < 2 ^ 31 →
    r ∈ db.userFile → (∃ x ∈ db.userFile, x.fileId = r.fileId ∧ x.userId = u ∧ x.parentId = some D) →
    f ∈ db.file → f.id = r.fileId → ¬ db.Occupied f →
    Effect (.queryRemove path fileName u) (db.exec (.deleteUserFile r.fileId u))

/-- The members of a table that a row has been added to. -/
theorem mem_added {α : Type} {rows : List α} {row x : α} (hx : x ∈ rows ++ [row]) : x ∈ rows ∨ x = row :=
  (List.mem_append.1 hx).imp_right List.mem_singleton.1

theorem selectFile_byHash_eq_nil {hash : CStr} :
    db.selectFile ord (.byHash hash) = [] ↔ ∀ f ∈ db.file, f.hash ≠ some hash := by
  rw [selectFile, List.map_eq_nil_iff, List.eq_nil_iff_forall_not_mem]
  simp [mem_fileRows, FileQuery.holds]

theorem selectUserFile_cons {q : UserFileQuery} {r : UserFileT} {rs : List UserFileT}
    (h : db.selectUserFile ord q = r :: rs) :
    ∃ x ∈ db.userFile, q.holds db x = true ∧ convertToUserfile x = r := by
  have hmem : r ∈ db.selectUserFile ord q := h ▸ List.mem_cons_self
  obtain ⟨x, hx, rfl⟩ := List.mem_map.1 hmem
  exact ⟨x, ((mem_userFileRows db ord).1 hx).1, ((mem_userFileRows db ord).1 hx).2, rfl⟩

theorem selectFile_cons {q : FileQuery} {r : FileT} {rs : List FileT}
    (h : db.selectFile ord q = r :: rs) : ∃ f ∈ db.file, q.holds db f = true ∧ convertToFile f = r := by
  have hmem : r ∈ db.selectFile ord q := h ▸ List.mem_cons_self
  obtain ⟨x, hx, rfl⟩ := List.mem_map.1 hmem
  exact ⟨x, ((mem_fileRows db ord).1 hx).1, ((mem_fileRows db ord).1 hx).2, rfl⟩

theorem queryCd_bind_run {α : Type} (k : Int → Os α) :
    ((queryCd path u).bind k).run (handler ord) db =
      (db.cd ord path u).bind fun d => (k d).run (handler ord) db := by
  rw [Prog.run_bind, queryCd_run]
  cases db.cd ord path u <;> rfl

/-- A call that starts with `query_cd` and goes on only if the path resolves. -/
theorem resolved {α : Type} {k : Int → Os α} {x : α × Db} (hk : ∀ d ≤ 0, ∃ a, k d = .pure a)
    (h : ((queryCd path u).bind k).run (handler ord) db = some x) :
    x.2 = db ∨ ∃ D : Nat, db.cd ord path u = some (D : Int) ∧ 0 < D ∧ D < 2 ^ 31 ∧
      (k D).run (handler ord) db = some x := by
  rw [queryCd_bind_run] at h
  obtain ⟨d, hcd, h⟩ := Option.bind_eq_some_iff.1 h
  by_cases hd : d ≤ 0
  · obtain ⟨a, ha⟩ := hk d hd
    rw [ha, Prog.run_pure] at h
    exact .inl (Option.some.inj h ▸ rfl)
  · obtain ⟨D, rfl, hD, hlt⟩ := cd_pos hcd (by omega)
    exact .inr ⟨D, hcd, hD, hlt, h⟩

theorem userRegister_effect {C : Crypt} {rand account password : CStr} {ret : Int} {db' : Db}
    (h : (userRegister C rand account password).run (handler ord) db = some (ret, db')) :
    Effect db ord (.userRegister rand account password) db' := by
  by_cases hu : db.selectUser ord account = []
  · simp [userRegister, handler, hu] at h
    obtain ⟨-, rfl⟩ := h
    exact .register _ (selectUser_eq_nil.1 hu)
  · simp [userRegister, handler, hu] at h
    obtain ⟨-, rfl⟩ := h
    exact .same _

theorem queryMkdir_made {dirName : CStr} {D : Nat} (hcd : db.cd ord path u = some (D : Int)) (hD : 0 < D)
    (hfree : db.Free D dirName) :
    (queryMkdir path dirName u).run (handler ord) db = some (2,
      (db.exec .insertDir).exec (.insertUserFile dirName u (regOf (intOf db.nextFile)) (some D))) := by
  have hreg : regOf D = D := regOf_of_lt (by have := cd_lt hcd; omega)
  have hn : db.selectUserFile ord (.named D dirName) = [] := selectUserFile_named_eq_nil.2 hfree
  rw [queryMkdir, Prog.bind_eq, queryCd_bind_run, hcd]
  simp [hD.ne', handler, hreg, hn]
  rfl

theorem queryMkdir_cases {dirName : CStr} {ret : Int} {db' : Db}
    (h : (queryMkdir path dirName u).run (handler ord) db = some (ret, db')) :
    (ret ≠ 2 ∧ db' = db) ∨ (ret = 2 ∧ ∃ D : Nat, db.cd ord path u = some (D : Int) ∧ 0 < D ∧ D < 2 ^ 31 ∧
      db.Free D dirName ∧
      db' = (db.exec .insertDir).exec (.insertUserFile dirName u (regOf (intOf db.nextFile)) (some D))) := by
  have hrun := h
  rw [queryMkdir, Prog.bind_eq, queryCd_bind_run] at h
  obtain ⟨d, hcd, h⟩ := Option.bind_eq_some_iff.1 h
  by_cases hd : d ≤ 0
  · simp only [hd, if_true, Prog.pure_eq, Prog.run_pure, Option.some.injEq, Prod.mk.injEq] at h
    obtain ⟨rfl, rfl⟩ := h
    exact .inl ⟨by omega, rfl⟩
  obtain ⟨D, rfl, hD, hlt⟩ := cd_pos hcd (by omega)
  by_cases hfree : db.Free D dirName
  · obtain ⟨rfl, rfl⟩ := Prod.mk.inj (Option.some.inj (hrun.symm.trans (queryMkdir_made hcd hD hfree)))
    exact .inr ⟨rfl, D, hcd, hD, hlt, hfree, rfl⟩
  · have hreg : regOf D = D := regOf_of_lt (by omega)
    have hn : db.selectUserFile ord (.named D dirName) ≠ [] := selectUserFile_named_eq_nil.not.2 hfree
    simp [hD.ne', handler, hreg, hn] at h
    obtain ⟨rfl, rfl⟩ := h
    exact .inl ⟨by decide, rfl⟩

theorem queryMkdir_effect {dirName : CStr} {ret : Int} {db' : Db}
    (h : (queryMkdir path dirName u).run (handler ord) db = some (ret, db')) :
    Effect db ord (.queryMkdir path dirName u) db' := by
  rcases queryMkdir_cases h with ⟨-, rfl⟩ | ⟨-, D, hcd, hD, hlt, hfree, rfl⟩
  · exact .same _
  · exact .mkdir hcd hD hlt hfree

variable (db ord path u) in
/-- What `query_puts` returns, with the tables after it: nothing is recorded, the name is taken by a
file of that hash, the hash is new, or a file that has it gets another row. -/
inductive Puts (fileName hash : CStr) : Int → Db → Prop
  | nothing {ret : Int} : ret ≠ 1 → ret ≠ 2 → Puts fileName hash ret db
  | known {D : Nat} {x : UserFile} {f : File} : db.cd ord path u = some (D : Int) → 0 < D →
    x ∈ db.userFile → x.parentId = some D → x.name = fileName →
    f ∈ db.file → f.id = regOf (intOf x.fileId) → f.heldHash = hash →
    Puts fileName hash (if f.complete then 2 else 1) db
  | new {D : Nat} : db.cd ord path u = some (D : Int) → 0 < D → db.Free D fileName →
    (∀ f ∈ db.file, f.hash ≠ some hash) →
    Puts fileName hash 1 ((db.exec (.insertFile hash hash)).exec (.insertUserFile fileName u db.nextFile (some D)))
  | link {D : Nat} {f : File} : db.cd ord path u = some (D : Int) → 0 < D → db.Free D fileName →
    f ∈ db.file → f.hash = some hash →
    Puts fileName hash (if f.complete then 2 else 1) (db.exec (.insertUserFile fileName u f.id (some D)))

theorem queryPuts_cases {fileName hash : CStr} {ret : Int} {db' : Db}
    (h : (queryPuts path fileName hash u).run (handler ord) db = some (ret, db')) :
    Puts db ord path u fileName hash ret db' := by
  rw [queryPuts, Prog.bind_eq, queryCd_bind_run] at h
  obtain ⟨d, hcd, h⟩ := Option.bind_eq_some_iff.1 h
  rcases lt_trichotomy d 0 with hd | rfl | hd
  · simp only [hd, if_true, Prog.pure_eq, Prog.run_pure, Option.some.injEq, Prod.mk.injEq] at h
    obtain ⟨rfl, rfl⟩ := h
    exact .nothing (by decide) (by decide)
  · simp only [lt_irrefl, if_false, if_true, Prog.pure_eq, Prog.run_pure, Option.some.injEq, Prod.mk.injEq] at h
    obtain ⟨rfl, rfl⟩ := h
    exact .nothing (by decide) (by decide)
  obtain ⟨D, rfl, hD, hlt⟩ := cd_pos hcd hd
  have hreg : regOf D = D := regOf_of_lt (by omega)
  have hneg : ¬ (D : Int) < 0 := by omega
  cases hn : db.selectUserFile ord (.named D fileName) with
  | cons sameName rest =>
    cases hf : db.selectFile ord (.byId (regOf (intOf sameName.fileId))) with
    | nil => simp [hneg, hD.ne', handler, hreg, hn, hf, Os.crash] at h
    | cons sameNameFile rest' =>
      obtain ⟨x, hx, hname, rfl⟩ := selectUserFile_cons hn
      obtain ⟨f, hfmem, hid, rfl⟩ := selectFile_cons hf
      simp [hneg, hD.ne', handler, hreg, hn, hf] at h
      obtain ⟨rfl, rfl⟩ := h
      simp only [UserFileQuery.holds, Bool.and_eq_true, beq_iff_eq] at hname
      split
      · next heq => exact .known hcd hD hx hname.1 hname.2 hfmem (beq_iff_eq.1 hid) heq.symm
      · exact .nothing (by decide) (by decide)
  | nil =>
    have hfree := selectUserFile_named_eq_nil.1 hn
    cases hh : db.selectFile ord (.byHash hash) with
    | nil =>
      simp [hneg, hD.ne', handler, hreg, hn, hh] at h
      obtain ⟨rfl, rfl⟩ := h
      exact .new hcd hD hfree (selectFile_byHash_eq_nil.1 hh)
    | cons fileInfo rest =>
      obtain ⟨f, hf, hhash, rfl⟩ := selectFile_cons hh
      simp [hneg, hD.ne', handler, hreg, hn, hh] at h
      obtain ⟨rfl, rfl⟩ := h
      exact .link hcd hD hfree hf (by simpa [FileQuery.holds] using hhash)

theorem queryPuts_effect {fileName hash : CStr} {ret : Int} {db' : Db}
    (h : (queryPuts path fileName hash u).run (handler ord) db = some (ret, db')) :
    Effect db ord (.queryPuts path fileName hash u) db' := by
  cases queryPuts_cases h with
  | nothing => exact .same _
  | known => exact .same _
  | new hcd hD hfree hnew => exact .putsNew hcd hD (cd_lt hcd) hfree hnew
  | link hcd hD hfree hf hhash => exact .putsLink _ hcd hD (cd_lt hcd) hfree hf hhash

theorem queryUpdate_effect {hash : CStr} {ret : Int} {db' : Db}
    (h : (queryUpdate hash).run (handler ord) db = some (ret, db')) :
    Effect db ord (.queryUpdate hash) db' := by
  simp [queryUpdate, handler] at h
  obtain ⟨-, rfl⟩ := h
  exact .update

theorem selectUserFile_childrenOf_eq_nil {p : Nat} :
    db.selectUserFile ord (.childrenOf p) = [] ↔ ∀ x ∈ db.userFile, x.parentId ≠ some p := by
  rw [selectUserFile, List.map_eq_nil_iff, List.eq_nil_iff_forall_not_mem]
  simp [mem_userFileRows, UserFileQuery.holds]

theorem selectFile_byId_eq_nil {id : Nat} :
    db.selectFile ord (.byId id) = [] ↔ ∀ f ∈ db.file, f.id ≠ id := by
  rw [selectFile, List.map_eq_nil_iff, List.eq_nil_iff_forall_not_mem]
  simp [mem_fileRows, FileQuery.holds]

/-- What `query_remove` does in the directory `D`: it goes by the first row of its select. -/
theorem queryRemove_cases {D : Nat} (fileName : CStr) (hcd : db.cd ord path u = some (D : Int)) (hD : 0 < D) :
    let run := (queryRemove path fileName u).run (handler ord) db
    (db.userFileRows ord (.likeIn u D fileName) = [] ∧ run = some (1, db)) ∨
    ∃ r rs, db.userFileRows ord (.likeIn u D fileName) = r :: rs ∧
      (((∀ f ∈ db.file, f.id ≠ r.fileId) ∧ run = none) ∨
      ∃ f ∈ db.file, f.id = r.fileId ∧
        (db.Occupied f ∧ run = some (2, db) ∨
        ¬ db.Occupied f ∧ run = some (0, db.exec (.deleteUserFile r.fileId u)))) := by
  have hreg : regOf D = D := regOf_of_lt (by have := cd_lt hcd; omega)
  rw [queryRemove, Prog.bind_eq, queryCd_bind_run, hcd]
  cases hrows : db.userFileRows ord (.likeIn u D fileName) with
  | nil =>
    have hsel : db.selectUserFile ord (.likeIn u D fileName) = [] := by rw [selectUserFile, hrows]; rfl
    exact .inl ⟨rfl, by simp [hD.ne', handler, hreg, hsel]⟩
  | cons r rs =>
    have hsel : db.selectUserFile ord (.likeIn u D fileName) = convertToUserfile r :: rs.map convertToUserfile := by
      rw [selectUserFile, hrows]; rfl
    refine .inr ⟨r, rs, rfl, ?_⟩
    cases hfile : db.selectFile ord (.byId r.fileId) with
    | nil =>
      refine .inl ⟨selectFile_byId_eq_nil.1 hfile, ?_⟩
      simp [hD.ne', handler, hreg, hsel, convertToUserfile, hfile, Os.crash]
    | cons f' fs =>
      obtain ⟨f, hf, hid, rfl⟩ := selectFile_cons hfile
      have hid : f.id = r.fileId := by simpa [FileQuery.holds] using hid
      refine .inr ⟨f, hf, hid, ?_⟩
      cases htype : f.type with
      | file =>
        refine .inr ⟨fun hocc => absurd (htype.symm.trans hocc.1) nofun, ?_⟩
        simp [hD.ne', handler, hreg, hsel, convertToUserfile, hfile, convertToFile, htype]
      | dir =>
        cases hchild : db.selectUserFile ord (.childrenOf r.fileId) with
        | nil =>
          have hnone := selectUserFile_childrenOf_eq_nil.1 hchild
          refine .inr ⟨fun hocc => hocc.2.elim fun y hy => hnone y hy.1 (hid ▸ hy.2), ?_⟩
          simp [hD.ne', handler, hreg, hsel, convertToUserfile, hfile, convertToFile, htype, hchild]
        | cons y ys =>
          obtain ⟨y, hy, hparent, rfl⟩ := selectUserFile_cons hchild
          refine .inl ⟨⟨htype, y, hy, by simpa [UserFileQuery.holds, hid] using hparent⟩, ?_⟩
          simp [hD.ne', handler, hreg, hsel, convertToUserfile, hfile, convertToFile, htype, hchild]

theorem mem_likeIn {p : Nat} {pattern : CStr} {r : UserFile}
    (hr : r ∈ db.userFileRows ord (.likeIn u p pattern)) :
    r ∈ db.userFile ∧ ∃ x ∈ db.userFile, x.fileId = r.fileId ∧ x.userId = u ∧ x.parentId = some p := by
  obtain ⟨hr, hlike⟩ := (mem_userFileRows db ord).1 hr
  simp only [UserFileQuery.holds, Bool.and_eq_true, List.any_eq_true, beq_iff_eq] at hlike
  obtain ⟨⟨x, hx, ⟨hfile, hu⟩, hp⟩, -⟩ := hlike
  exact ⟨hr, x, hx, hfile, hu, hp⟩

theorem queryRemove_effect {fileName : CStr} {ret : Int} {db' : Db}
    (h : (queryRemove path fileName u).run (handler ord) db = some (ret, db')) :
    Effect db ord (.queryRemove path fileName u) db' := by
  rcases resolved (fun d hd => ⟨d, by simp [hd]⟩) h with rfl | ⟨D, hcd, hD, hlt, -⟩
  · exact .same _
  obtain ⟨-, hrun⟩ | ⟨r, rs, hrows, ⟨-, hrun⟩ | ⟨f, hf, hid, ⟨-, hrun⟩ | ⟨hocc, hrun⟩⟩⟩ :=
    queryRemove_cases fileName hcd hD
  · obtain ⟨-, rfl⟩ := Prod.mk.inj (Option.some.inj (hrun.symm.trans h))
    exact .same _
  · cases hrun.symm.trans h
  · obtain ⟨-, rfl⟩ := Prod.mk.inj (Option.some.inj (hrun.symm.trans h))
    exact .same _
  · obtain ⟨-, rfl⟩ := Prod.mk.inj (Option.some.inj (hrun.symm.trans h))
    obtain ⟨hr, hx⟩ := mem_likeIn (hrows ▸ List.mem_cons_self)
    exact .remove r f hcd hD hlt hr hx hf hid hocc

/-- Every completed call has one of these effects. -/
theorem Step.effect {C : Crypt} {call : Call} {db' : Db} (h : Step C db (ord, call) db') :
    Effect db ord call db' := by
  obtain ⟨⟨ret, db'⟩, hrun, rfl⟩ := Option.map_eq_some_iff.1 h
  cases call with
  | userRegister rand account password => exact userRegister_effect hrun
  | queryMkdir path dirName u => exact queryMkdir_effect hrun
  | queryPuts path fileName hash u => exact queryPuts_effect hrun
  | queryUpdate hash => exact queryUpdate_effect hrun
  | queryRemove path fileName u => exact queryRemove_effect hrun

end Db
end Netdisk

import Netdisk.Db.Tree
import Netdisk.FileNoChange

/-!
# `ll` line by line

`show_dir_detail` takes names from one result set and sizes and types from another, by position. The
second set has one row for each file, the first one for each entry: `showsEach_iff_linkedOnce` says
that the two fit exactly where no two entries of the directory are links to one file, as long as no
name is too long for its array.
-/

namespace Netdisk
open Runs

/-- What `show_dir_detail` is called with, and what it finds; `orders i` is the order in which the
`i`-th select delivers its rows. -/
structure Listing where
  jwt : Jwt
  cwd : CStr
  db : Db
  orders : Nat → RowOrder
  sizes : CStr → Option Int
  now : Nat
  clientFd : Int
  argument : CStr
  token : TokenInfo

namespace Listing

/-- The selects so far, and the frames that have been sent. -/
structure Shown where
  selects : Nat := 0
  frames : List TransFile := []
deriving DecidableEq

variable (W : Listing)

/-- What the operations of `show_dir_detail` do, with no other request in between. -/
def handler : (o : Op) → Shown → Option (Resp o × Shown)
  | .getConnection, s => some (some (0 : Nat), s)
  | .releaseConnection _, s => some ((), s)
  | .selectUserFile _ q, s =>
    some (W.db.selectUserFile (W.orders s.selects) q, { s with selects := s.selects + 1 })
  | .selectFile _ q, s => some (W.db.selectFile (W.orders s.selects) q, { s with selects := s.selects + 1 })
  | .stat path, s => some (W.sizes path, s)
  | .time, s => some (W.now, s)
  | .send _ train, s => some ((), { s with frames := s.frames ++ [train] })
  | _, _ => none

/-- The request: what `show_dir_detail` returns, and what it has sent. -/
def response : Option (Int × Shown) :=
  (showDirDetail W.jwt W.cwd W.clientFd W.argument W.token).run W.handler {}

/-- The detail lines; the frame behind them has the flag down. -/
def lines (s : Shown) : List CStr := (s.frames.filter (·.flag)).map (·.data)

def storedPath (realPath : CStr) : CStr := W.cwd ++ "/data".toList ++ "/".toList ++ realPath

/-- Name, size and type as `ll` shows them. -/
def text (name : CStr) (size : Int) (type : FileType) : CStr :=
  name ++ [' '] ++ pad4 size ++ [' '] ++ if type = .dir then "dir".toList else "file".toList

/-- The line of an entry, with the size and the type of the file that it links to. -/
def lineOf (x : UserFile) : Option CStr := do
  let f ← W.db.file.find? (·.id == x.fileId)
  let size ← W.sizes (W.storedPath (f.realPath.getD []))
  return text x.name size f.type

/-- One line for each row of `ls`, with the row's own data. -/
def ShowsEach (D : Nat) : Prop :=
  ∃ s, W.response = some (0, s) ∧
    ∀ ord, ((lines s).map some).Perm ((W.db.userFileRows ord (.lsOf D)).map W.lineOf)

/-- No two entries of the directory link to the same complete file. -/
def LinkedOnce (db : Db) (D : Nat) : Prop :=
  ∀ x ∈ db.userFile, ∀ y ∈ db.userFile, x.parentId = some D → y.parentId = some D → x.fileId = y.fileId →
    (∃ f ∈ db.file, f.id = x.fileId ∧ f.complete = true) → x = y

/-- The names of the complete entries of the directory fit `name` of `user_file_t`. -/
def NamesFit (db : Db) (D : Nat) : Prop :=
  ∀ x ∈ db.userFile, x.parentId = some D → (∃ f ∈ db.file, f.id = x.fileId ∧ f.complete = true) → x.name.length < nameSize

/-- The path resolves to `D` both times that it is looked up, and there is a file at every path that
the table has. -/
structure Finds (D : Nat) : Prop where
  path : ∃ userPath, getUserPath W.argument W.token = some userPath ∧
    W.db.cd (W.orders 0) userPath W.token.userId = some (D : Int) ∧
    W.db.cd (W.orders 2) userPath W.token.userId = some (D : Int)
  pos : 0 < D
  stats : ∀ f ∈ W.db.file, (W.sizes (W.storedPath (f.realPath.getD []))).isSome

variable {W} {D : Nat}

/-! ### The request -/

theorem queryCd_run {path : CStr} {u : Nat} (s : Shown) :
    (queryCd path u).run W.handler s =
      (W.db.cd (W.orders s.selects) path u).map fun d => (d, { s with selects := s.selects + 1 }) := by
  cases hrows : W.db.selectUserFile (W.orders s.selects) (.ofUser u) with
  | nil => simp [queryCd, Db.cd, handler, hrows]
  | cons file files =>
    cases hnames : spliteFileName path with
    | none => simp [queryCd, Db.cd, Os.crash, handler, hrows, hnames]
    | some names => simp [queryCd, Db.cd, handler, hrows, hnames]

theorem queryLl_run {path : CStr} {u : Nat} (hD : 0 < D) (s : Shown)
    (hcd : W.db.cd (W.orders s.selects) path u = some (D : Int)) :
    (queryLl path u).run W.handler s =
      some (some (W.db.selectFile (W.orders (s.selects + 1)) (.llOf D)), { s with selects := s.selects + 2 }) := by
  have hreg : regOf D = D := regOf_of_lt (by have := Db.cd_lt hcd; omega)
  rw [queryLl, Prog.bind_eq, Prog.run_bind, queryCd_run, hcd]
  simp [hD.ne', handler, hreg]

theorem queryLs_run {path : CStr} {u : Nat} (hD : 0 < D) (s : Shown)
    (hcd : W.db.cd (W.orders s.selects) path u = some (D : Int)) :
    (queryLs path u).run W.handler s =
      some (some (W.db.selectUserFile (W.orders (s.selects + 1)) (.lsOf D)), { s with selects := s.selects + 2 }) := by
  have hreg : regOf D = D := regOf_of_lt (by have := Db.cd_lt hcd; omega)
  rw [queryLs, Prog.bind_eq, Prog.run_bind, queryCd_run, hcd]
  simp [hD.ne', handler, hreg]

variable (W) in
/-- The frame of a text. -/
def frame (data : CStr) (flag : Bool) : TransFile := messageFrame W.jwt W.now data flag W.token

theorem sendMessage_run (data : CStr) (flag : Bool) (s : Shown) :
    (sendMessage W.jwt W.clientFd data flag W.token).run W.handler s =
      some ((), { s with frames := s.frames ++ [W.frame data flag] }) :=
  Netdisk.sendMessage_run rfl rfl

variable (W) in
/-- The line that the loop makes of a file and of the name in the same position. -/
def lineAt (f : File) (x : UserFile) : CStr :=
  text x.heldName ((W.sizes (W.storedPath (f.realPath.getD []))).getD 0) f.type

theorem detailLoop_run {files : List File} {rows : List UserFile} (hlen : files.length ≤ rows.length)
    (hstats : ∀ f ∈ files, (W.sizes (W.storedPath (f.realPath.getD []))).isSome) (s : Shown) :
    (detailLoop W.jwt W.cwd W.clientFd W.token (files.map convertToFile) (rows.map convertToUserfile)).run W.handler s =
      some ((), { s with frames := s.frames ++ (List.zipWith W.lineAt files rows).map (W.frame · true) }) := by
  induction files generalizing rows s with
  | nil => simp [detailLoop]
  | cons f files ih =>
    obtain ⟨hf, hstats⟩ := List.forall_mem_cons.1 hstats
    obtain ⟨size, hsize⟩ := Option.isSome_iff_exists.1 hf
    cases rows with
    | nil => exact absurd hlen (Nat.not_succ_le_zero _)
    | cons x rows =>
      have hkind : (if (convertToFile f).type = 0 then "dir".toList else "file".toList) =
          if f.type = .dir then "dir".toList else "file".toList := by
        cases hty : f.type <;> simp [convertToFile, hty]
      have hline : (convertToUserfile x).name ++ [' '] ++ pad4 size ++ [' '] ++
          (if (convertToFile f).type = 0 then "dir".toList else "file".toList) = W.lineAt f x := by
        rw [hkind, lineAt, hsize]
        rfl
      have hstat : W.handler (.stat (W.cwd ++ "/data".toList ++ "/".toList ++ (convertToFile f).realPath)) s =
          some (some size, s) := congrArg (fun r => some (r, s)) hsize
      rw [List.map_cons, List.map_cons, detailLoop, Prog.bind_eq, Os.stat_bind, Prog.run_op, hstat]
      simp only [Option.bind_some, List.head?_cons, hline, Prog.bind_eq, Prog.run_bind, sendMessage_run, List.tail_cons]
      rw [ih (Nat.le_of_succ_le_succ hlen) hstats]
      simp

theorem Finds.response_eq (h : W.Finds D)
    (hlen : (W.db.fileRows (W.orders 1) (.llOf D)).length ≤ (W.db.userFileRows (W.orders 3) (.lsOf D)).length) :
    ∃ s, W.response = some (0, s) ∧
      lines s = List.zipWith W.lineAt (W.db.fileRows (W.orders 1) (.llOf D)) (W.db.userFileRows (W.orders 3) (.lsOf D)) := by
  obtain ⟨userPath, hpath, hcd, hcd'⟩ := h.path
  have hstats : ∀ f ∈ W.db.fileRows (W.orders 1) (.llOf D), (W.sizes (W.storedPath (f.realPath.getD []))).isSome :=
    fun f hf => h.stats f ((Db.mem_fileRows _ _).1 hf).1
  have hll := queryLl_run h.pos {} hcd
  have hls := queryLs_run h.pos { selects := 2 } hcd'
  have hloop := detailLoop_run hlen hstats { selects := 4 }
  generalize List.zipWith W.lineAt (W.db.fileRows (W.orders 1) (.llOf D)) (W.db.userFileRows (W.orders 3) (.lsOf D)) =
    texts at hloop ⊢
  refine ⟨{ selects := 4, frames := texts.map (W.frame · true) ++ [W.frame (utf8 "查询完成") false] }, ?_, ?_⟩
  · rw [response, showDirDetail, hpath]
    simp only [Prog.bind_eq, Prog.run_bind, Prog.pure_eq]
    rw [hll]
    simp only [Option.bind_some, Prog.run_bind]
    rw [hls]
    simp only [Option.bind_some, Prog.run_bind]
    rw [Db.selectFile, Db.selectUserFile, hloop, Option.bind_some, sendMessage_run]
    rfl
  · have hfilter : (texts.map (W.frame · true)).filter (·.flag) = texts.map (W.frame · true) := by
      refine List.filter_eq_self.2 fun t ht => ?_
      obtain ⟨text, -, rfl⟩ := List.mem_map.1 ht
      rfl
    have hlast : [W.frame (utf8 "查询完成") false].filter (·.flag) = [] := rfl
    rw [lines, List.filter_append, hfilter, hlast, List.append_nil, List.map_map]
    exact List.map_id texts

/-! ### Side by side -/

section Rows
variable {db : Db} {ord ord' : RowOrder}

/-- The keys, with no row of `file` stored twice. -/
structure FileKeys (db : Db) : Prop extends db.Keys where
  files : (db.file.map (·.id)).Nodup

theorem FileKeys.effect {call : Db.Call} {db' : Db} (h : FileKeys db) (he : db.Effect ord call db') : FileKeys db' := by
  have hadd : ∀ g : File, g.id = db.nextFile → ((db.file ++ [g]).map (·.id)).Nodup := by
    intro g hg
    rw [List.map_append, List.map_singleton]
    refine List.nodup_append.2 ⟨h.files, List.nodup_singleton _, ?_⟩
    rintro id hid id' hid' rfl
    obtain ⟨f, hf, rfl⟩ := List.mem_map.1 hid
    have hlt := (h.fileLt f hf).2
    have heq := List.mem_singleton.1 hid'
    omega
  refine ⟨h.toKeys.effect he, ?_⟩
  cases he with
  | same => exact h.files
  | register => exact hadd _ rfl
  | mkdir => exact hadd _ rfl
  | putsNew => exact hadd _ rfl
  | putsLink => exact h.files
  | @update hash =>
    have hids : (db.exec (.updateComplete hash)).file.map (·.id) = db.file.map (·.id) := by
      refine List.map_map.trans (List.map_congr_left fun f _ => ?_)
      dsimp only [Function.comp]
      split <;> rfl
    exact hids ▸ h.files
  | remove => exact h.files

theorem FileKeys.of_reaches {C : Crypt} (h : Reaches (Db.Step C) {} db) : FileKeys db :=
  h.inv (I := FileKeys) (fun _ _ _ hk hst => hk.effect (Db.Step.effect hst)) ⟨Db.keys_empty, .nil⟩

theorem FileKeys.files_strict (h : FileKeys db) (D : Nat) :
    (db.fileRows ord (.llOf D)).Pairwise fun f g => f.id < g.id := by
  refine Sorted.strict_of_nodup (db.fileRows_sorted ord rfl) ?_
  have hperm := (db.fileRows_perm ord (.llOf D)).map (·.id)
  exact hperm.nodup_iff.2 (h.files.sublist (List.filter_sublist.map _))

/-- Both result sets are about the same files. -/
theorem mem_ids {D k : Nat} :
    k ∈ (db.fileRows ord (.llOf D)).map (·.id) ↔ k ∈ (db.userFileRows ord' (.lsOf D)).map (·.fileId) := by
  simp only [List.mem_map, Db.mem_fileRows, Db.mem_userFileRows, Db.FileQuery.holds, Db.UserFileQuery.holds,
    Bool.and_eq_true, List.any_eq_true, beq_iff_eq]
  constructor
  · rintro ⟨f, ⟨hf, ⟨x, hx, hid, hp⟩, hc⟩, rfl⟩
    exact ⟨x, ⟨hx, ⟨f, hf, hid.symm, hc⟩, hp⟩, hid⟩
  · rintro ⟨x, ⟨hx, ⟨f, hf, hid, hc⟩, hp⟩, rfl⟩
    exact ⟨f, ⟨hf, ⟨x, hx, hid.symm, hp⟩, hc⟩, hid⟩

theorem linkedOnce_iff (h : db.Keys) {D : Nat} :
    LinkedOnce db D ↔ ((db.userFileRows ord (.lsOf D)).map (·.fileId)).Nodup := by
  have hmem : ∀ x, x ∈ db.userFileRows ord (.lsOf D) ↔ x ∈ db.userFile ∧ x.parentId = some D ∧
      ∃ f ∈ db.file, f.id = x.fileId ∧ f.complete = true := by
    intro x
    simp only [Db.mem_userFileRows, Db.UserFileQuery.holds, Bool.and_eq_true, List.any_eq_true, beq_iff_eq]
    exact and_congr_right fun _ => and_comm
  have hnodup : (db.userFileRows ord (.lsOf D)).Nodup :=
    (db.userFileRows_perm ord _).nodup_iff.2 (h.rowIds.of_map.filter _)
  constructor
  · intro honce
    refine hnodup.map_on fun x hx y hy hxy => ?_
    obtain ⟨hx, hxp, hfile⟩ := (hmem x).1 hx
    obtain ⟨hy, hyp, -⟩ := (hmem y).1 hy
    exact honce x hx y hy hxp hyp hxy hfile
  · intro hids x hx y hy hxp hyp hxy hfile
    exact List.inj_on_of_nodup_map hids ((hmem x).2 ⟨hx, hxp, hfile⟩) ((hmem y).2 ⟨hy, hyp, hxy ▸ hfile⟩) hxy

end Rows

theorem lineOf_eq (hk : W.db.Keys) {x : UserFile} {f : File} (hf : f ∈ W.db.file) (hid : f.id = x.fileId)
    (hstat : (W.sizes (W.storedPath (f.realPath.getD []))).isSome) (hfits : x.name.length < nameSize) :
    W.lineOf x = some (W.lineAt f x) := by
  have hfind : W.db.file.find? (·.id == x.fileId) = some f := by
    cases hfound : W.db.file.find? (·.id == x.fileId) with
    | none => exact absurd (beq_iff_eq.2 hid) (List.find?_eq_none.1 hfound f hf)
    | some g =>
      have hgid : g.id = x.fileId := beq_iff_eq.1 (List.find?_some (p := fun g : File => g.id == x.fileId) hfound)
      rw [hk.fileIds g (List.mem_of_find?_eq_some hfound) f hf (hgid.trans hid.symm)]
  obtain ⟨size, hsize⟩ := Option.isSome_iff_exists.1 hstat
  rw [lineOf, hfind, lineAt, hsize, UserFile.heldName_of_lt hfits]
  show (W.sizes (W.storedPath (f.realPath.getD []))).bind _ = _
  rw [hsize]
  rfl

theorem lines_of_aligned (hk : W.db.Keys)
    (hstats : ∀ f ∈ W.db.file, (W.sizes (W.storedPath (f.realPath.getD []))).isSome) {files : List File}
    {rows : List UserFile} (h : List.Forall₂ (fun f x => f.id = x.fileId) files rows) (hfiles : files ⊆ W.db.file)
    (hfits : ∀ x ∈ rows, x.name.length < nameSize) : (List.zipWith W.lineAt files rows).map some = rows.map W.lineOf := by
  induction h with
  | nil => rfl
  | cons hid _ ih =>
    obtain ⟨hf, hfiles⟩ := List.cons_subset.1 hfiles
    obtain ⟨hx, hfits⟩ := List.forall_mem_cons.1 hfits
    rw [List.zipWith_cons_cons, List.map_cons, List.map_cons, ih hfiles hfits, lineOf_eq hk hf hid (hstats _ hf) hx]

/-- Names and data fit exactly if there are as many files as entries. -/
theorem Finds.showsEach_iff (h : W.Finds D) (hk : FileKeys W.db) (hnames : NamesFit W.db D) :
    W.ShowsEach D ↔ LinkedOnce W.db D := by
  have hfiles : (W.db.fileRows (W.orders 1) (.llOf D)).Pairwise fun f g => f.id < g.id := hk.files_strict D
  have hids : ((W.db.fileRows (W.orders 1) (.llOf D)).map (·.id)).Nodup :=
    List.pairwise_map.2 (hfiles.imp fun hlt => hlt.ne)
  have hsub : (W.db.fileRows (W.orders 1) (.llOf D)).map (·.id) ⊆
      (W.db.userFileRows (W.orders 3) (.lsOf D)).map (·.fileId) := fun k hk => mem_ids.1 hk
  obtain ⟨s, hresponse, hlines⟩ := h.response_eq (Sorted.length_le_of_keys hids hsub)
  constructor
  · rintro ⟨s', hresponse', hperm⟩
    obtain rfl : s = s' := (Prod.mk.inj (Option.some.inj (hresponse.symm.trans hresponse'))).2
    refine (linkedOnce_iff hk.toKeys).2 (Sorted.nodup_of_length_le hids hsub ?_)
    have hlen := (hperm (W.orders 3)).length_eq
    rw [List.length_map, List.length_map, hlines, List.length_zipWith] at hlen
    omega
  · intro honce
    have hrows : (W.db.userFileRows (W.orders 3) (.lsOf D)).Pairwise fun x y => x.fileId < y.fileId :=
      Sorted.strict_of_nodup (W.db.userFileRows_sorted _ rfl) ((linkedOnce_iff hk.toKeys).1 honce)
    have haligned := Sorted.forall₂_of_keys hfiles hrows fun k => mem_ids
    have hfits : ∀ x ∈ W.db.userFileRows (W.orders 3) (.lsOf D), x.name.length < nameSize := by
      intro x hx
      obtain ⟨hx, hholds⟩ := (Db.mem_userFileRows _ _).1 hx
      simp only [Db.UserFileQuery.holds, Bool.and_eq_true, List.any_eq_true, beq_iff_eq] at hholds
      exact hnames x hx hholds.2 hholds.1
    refine ⟨s, hresponse, fun ord => ?_⟩
    rw [hlines, lines_of_aligned hk.toKeys h.stats haligned (fun f hf => ((Db.mem_fileRows _ _).1 hf).1) hfits]
    exact ((W.db.userFileRows_perm _ _).trans (W.db.userFileRows_perm ord _).symm).map _

/-- `show_dir_detail` shows every entry with its own data exactly where no two entries of the
directory are links to one complete file, if their names fit. -/
theorem showsEach_iff_linkedOnce (C : Crypt) (W : Listing) (hdb : Reaches (Db.Step C) {} W.db) (D : Nat)
    (h : W.Finds D) (hnames : NamesFit W.db D) : W.ShowsEach D ↔ LinkedOnce W.db D :=
  h.showsEach_iff (.of_reaches hdb) hnames

/-- `ll` of `a` in her root, after these calls. -/
def ofCalls (calls : List (RowOrder × Db.Call)) : Listing where
  jwt := .unary
  cwd := []
  db := final {} (trace (Db.call .plain) {} calls)
  orders _ := .stored
  sizes path := some path.length
  now := 0
  clientFd := 5
  argument := []
  token := { userId := 1, workpath := ['/', 'a'] }

theorem ofCalls_finds {calls : List (RowOrder × Db.Call)}
    (hcd : (ofCalls calls).db.cd .stored ['/', 'a'] 1 = some ((1 : Nat) : Int)) : (ofCalls calls).Finds 1 where
  path := ⟨['/', 'a'], rfl, hcd, hcd⟩
  pos := Nat.one_pos
  stats _ _ := rfl

/-- A directory and a file in the root of `a`. -/
theorem showsEach_iff_linkedOnce_one :
    (ofCalls [(.stored, .userRegister [] ['a'] ['p']), (.stored, .queryMkdir ['/', 'a'] ['d'] 1),
      (.stored, .queryPuts ['/', 'a'] ['f'] ['H'] 1), (.stored, .queryUpdate ['H'])]).ShowsEach 1 := by
  let calls : List (RowOrder × Db.Call) :=
    [(.stored, .userRegister [] ['a'] ['p']), (.stored, .queryMkdir ['/', 'a'] ['d'] 1),
      (.stored, .queryPuts ['/', 'a'] ['f'] ['H'] 1), (.stored, .queryUpdate ['H'])]
  have honce : ∀ x ∈ (ofCalls calls).db.userFile, ∀ y ∈ (ofCalls calls).db.userFile, x.fileId = y.fileId → x = y := by
    decide +kernel
  have hnames : ∀ x ∈ (ofCalls calls).db.userFile, x.name.length < nameSize := by decide +kernel
  exact (showsEach_iff_linkedOnce .plain _ (.of_trace (Db.call .plain) {} _) 1 (ofCalls_finds (by decide +kernel))
    fun x hx _ _ => hnames x hx).2 fun x hx y hy _ _ hxy _ => honce x hx y hy hxy

/-- The same content under two names in one directory is one line. -/
theorem second_name_lost :
    ¬ ∀ C (W : Listing) (D : Nat), Reaches (Db.Step C) {} W.db → W.Finds D → W.ShowsEach D := by
  intro h
  let calls : List (RowOrder × Db.Call) :=
    [(.stored, .userRegister [] ['a'] ['p']), (.stored, .queryPuts ['/', 'a'] ['f'] ['H'] 1),
      (.stored, .queryPuts ['/', 'a'] ['g'] ['H'] 1), (.stored, .queryUpdate ['H'])]
  have hreaches : Reaches (Db.Step .plain) {} (ofCalls calls).db := .of_trace (Db.call .plain) {} _
  have hfinds : (ofCalls calls).Finds 1 := ofCalls_finds (by decide +kernel)
  have hnames : ∀ x ∈ (ofCalls calls).db.userFile, x.name.length < nameSize := by decide +kernel
  have honce : LinkedOnce (ofCalls calls).db 1 :=
    (hfinds.showsEach_iff (.of_reaches hreaches) fun x hx _ _ => hnames x hx).1 (h .plain _ 1 hreaches hfinds)
  have hf : (⟨2, ['f'], 1, 2, some 1⟩ : UserFile) ∈ (ofCalls calls).db.userFile := by decide +kernel
  have hg : (⟨3, ['g'], 1, 2, some 1⟩ : UserFile) ∈ (ofCalls calls).db.userFile := by decide +kernel
  have hfile : ∃ f ∈ (ofCalls calls).db.file, f.id = 2 ∧ f.complete = true := by decide +kernel
  exact absurd (honce _ hf _ hg rfl rfl rfl hfile) (by decide)

end Listing
end Netdisk

import Netdisk.FileSystem.Calls

/-!
# Runs and what is read

`refines`: along every run of proper calls the tables stand for the trees that the calls lead to.
`reads_by`: the queries answer by these trees. `gets_of_puts` follows, on the trees alone.
-/

namespace Netdisk
namespace Db
open Runs

variable {db db' : Db} {ord : RowOrder} {s : Trees} {u v D : Nat} {p q names : List CStr} {path name hash : CStr}
  {x y d : UserFile} {f : File} {n : FileTrees.Node CStr}

/-! ### What is read -/

section Reads

/-- The queries answer by the trees: `query_cd` finds directories and nothing where there is nothing,
`query_gets` delivers the digest of a whole file, `query_ls` lists what the directory shows, each name once. -/
structure ReadsBy (db : Db) (s : Trees) : Prop where
  cd : ∀ ord path u, path ≠ [] → s.node u (namesOn path) = some .dir →
    ∃ D : Nat, 0 < D ∧ (queryCd path u).run (handler ord) db = some ((D : Int), db)
  cdNothing : ∀ ord path u, path ≠ [] → s.node u (namesOn path) = none →
    ∃ k ≤ 0, (queryCd path u).run (handler ord) db = some (k, db)
  gets : ∀ ord path name u hash, path ≠ [] →
    ((queryGets path name u).run (handler ord) db = some ((1, hash), db) ↔ s.get u (namesOn path) name = some hash)
  ls : ∀ ord path u, path ≠ [] → s.node u (namesOn path) = some .dir →
    ∃ rows, (queryLs path u).run (handler ord) db = some (some rows, db) ∧ (rows.map (·.name)).Nodup ∧
      ∀ name, name ∈ rows.map (·.name) ↔ s.Listed u (namesOn path) name

theorem queryGets_nonpos {k : Int} (name : CStr) (hcd : db.cd ord path u = some k) (hk : k ≤ 0) :
    (queryGets path name u).run (handler ord) db = some (if k < 0 then (-1, []) else (0, []), db) := by
  rw [queryGets, Prog.bind_eq, queryCd_bind_run, hcd]
  rcases hk.lt_or_eq with hk | rfl
  · simp [hk]
  · simp

theorem queryGets_unlinked (hcd : db.cd ord path u = some (D : Int)) (hD : 0 < D)
    (hrows : db.fileRows ord (.linked u D name) = []) :
    (queryGets path name u).run (handler ord) db = some ((0, []), db) := by
  have hreg : regOf D = D := regOf_of_lt (by have := cd_lt hcd; omega)
  have hneg : ¬ (D : Int) < 0 := by omega
  have hsel : db.selectFile ord (.linked u D name) = [] := by rw [selectFile, hrows, List.map_nil]
  rw [queryGets, Prog.bind_eq, queryCd_bind_run, hcd]
  simp [hneg, hD.ne', handler, hreg, hsel]

theorem queryLs_found (hcd : db.cd ord path u = some (D : Int)) (hD : 0 < D) :
    (queryLs path u).run (handler ord) db = some (some (db.selectUserFile ord (.lsOf D)), db) := by
  have hreg : regOf D = D := regOf_of_lt (by have := cd_lt hcd; omega)
  rw [queryLs, Prog.bind_eq, queryCd_bind_run, hcd]
  simp [hD.ne', handler, hreg]

/-- The entries of a user for plain files are the places of files. -/
theorem Sound.node_file_iff (h : Sound db) (hs : Represents db s) (hd : db.At u p d) :
    s.node u (p ++ [name]) = some (.file hash) ↔ ∃ x f, Entry db u d.fileId name hash x f := by
  rw [hs.node]
  constructor
  · rintro ⟨x, hx, f, hf, hid, hn⟩
    obtain ⟨e, he, hp, hname⟩ := hx.snoc hd.ne_nil
    obtain rfl := h.at_unique hd he
    have hhash := nodeOf_eq_file.1 hn
    have htype : f.type = .file := by
      cases htype : f.type with
      | file => rfl
      | dir =>
        rw [h.dirHash f hf htype] at hhash
        cases hhash
    exact ⟨x, f, hx.mem.1, hx.mem.2, hp, hname, hf, hid, htype, hhash⟩
  · rintro ⟨x, f, hx⟩
    exact ⟨x, hx.name ▸ .entry hd hx.row hx.userId hx.parentId, f, hx.file, hx.fileId, nodeOf_eq_file.2 hx.hash_eq⟩

theorem Represents.content_of_entry (hs : Represents db s) {k : CStr} (hx : Entry db u D name k x f) :
    s.content k = some f.complete := hs.content_of_hash hx.file hx.hash_eq

theorem Catalogue.heldHash_of_entry (h : Catalogue db) {k : CStr} (hx : Entry db u D name k x f) : f.heldHash = k := by
  rw [(File.heldHash_eq_iff (h.digestFits f hx.file)).2 rfl, hx.hash_eq, Option.getD_some]

theorem Represents.gets_iff (hs : Represents db s) (h : Sound db) (hpath : path ≠ []) :
    (queryGets path name u).run (handler ord) db = some ((1, hash), db) ↔ s.get u (namesOn path) name = some hash := by
  rw [FileTrees.State.get_eq_some]
  have hrefused : ∀ {k : Int}, k ≠ 1 → s.node u (namesOn path) ≠ some .dir →
      (queryGets path name u).run (handler ord) db = some ((k, []), db) →
      ((queryGets path name u).run (handler ord) db = some ((1, hash), db) ↔
        s.node u (namesOn path ++ [name]) = some (.file hash) ∧ s.content hash = some true) := by
    intro k hk hno hrun
    rw [hrun]
    constructor
    · intro heq
      simp only [Option.some.injEq, Prod.mk.injEq] at heq
      exact absurd heq.1.1 hk
    · rintro ⟨hnode, -⟩
      obtain ⟨names, hnames⟩ := Option.ne_none_iff_exists'.1 (spliteFileName_eq_none.not.2 hpath)
      refine absurd (s.above ?_ (hnode ▸ Option.some_ne_none _)) hno
      rw [namesOn, hnames, Option.getD_some]
      exact spliteFileName_ne_nil hnames
  rcases hs.cd_cases h ord u hpath with ⟨d, hd, hdir, hnode, hcd, hpos⟩ | ⟨hno, k, hcd, hk | ⟨D, rfl, hD, hnotdir⟩⟩
  · rw [h.node_file_iff hs hd]
    by_cases hentry : ∃ k x f, Entry db u d.fileId name k x f
    · obtain ⟨k, x, f, hx⟩ := hentry
      have hrun := h.toKeys.queryGets_run hx hpos hcd
      rw [h.heldHash_of_entry hx] at hrun
      rw [hrun]
      have hcontent := hs.content_of_entry hx
      constructor
      · intro heq
        cases hc : f.complete with
        | false =>
          rw [hc] at heq
          cases heq
        | true =>
          rw [hc, if_pos rfl] at heq
          simp only [Option.some.injEq, Prod.mk.injEq, true_and, and_true] at heq
          subst heq
          exact ⟨⟨x, f, hx⟩, hcontent.trans (congrArg some hc)⟩
      · rintro ⟨⟨y, g, hy⟩, hwhole⟩
        obtain rfl := h.names x hx.row y hy.row _ hx.parentId hy.parentId (hx.name.trans hy.name.symm)
        obtain rfl := h.fileIds f hx.file g hy.file (hx.fileId.trans hy.fileId.symm)
        obtain rfl : k = hash := Option.some.inj (hx.hash_eq.symm.trans hy.hash_eq)
        rw [Option.some.inj (hcontent.symm.trans hwhole), if_pos rfl]
    · have hrows : db.fileRows ord (.linked u d.fileId name) = [] := by
        refine List.eq_nil_iff_forall_not_mem.2 fun g hg => ?_
        obtain ⟨hg, hholds⟩ := (mem_fileRows db ord).1 hg
        simp only [FileQuery.holds, Bool.and_eq_true, List.any_eq_true, beq_iff_eq] at hholds
        obtain ⟨⟨y, hy, ⟨⟨hid, hyu⟩, hyp⟩, hyn⟩, htype⟩ := hholds
        cases hk : g.hash with
        | none =>
          rw [h.digest g hg hk] at htype
          cases htype
        | some k => exact hentry ⟨k, y, g, hy, hyu, hyp, hyn, hg, hid.symm, htype, hk⟩
      rw [queryGets_unlinked hcd hpos hrows]
      refine iff_of_false (fun heq => ?_) ?_
      · cases heq
      · rintro ⟨⟨x, f, hx⟩, -⟩
        exact hentry ⟨hash, x, f, hx⟩
  · have hrun := queryGets_nonpos name hcd hk
    rcases lt_or_ge k 0 with hneg | hneg
    · rw [if_pos hneg] at hrun
      exact hrefused (by decide) hno hrun
    · rw [if_neg hneg.not_gt] at hrun
      exact hrefused (by decide) hno hrun
  · refine hrefused (by decide) hno (queryGets_unlinked hcd hD ?_)
    refine List.eq_nil_iff_forall_not_mem.2 fun g hg => ?_
    obtain ⟨-, hholds⟩ := (mem_fileRows db ord).1 hg
    simp only [FileQuery.holds, Bool.and_eq_true, List.any_eq_true, beq_iff_eq] at hholds
    obtain ⟨⟨y, hy, ⟨-, hyp⟩, -⟩, -⟩ := hholds
    exact hnotdir (h.isDir_of_parent hy hyp)

/-- The names are shown as they are stored. -/
theorem Grounded.map_name (h : Grounded db) (ord : RowOrder) (q : UserFileQuery) :
    (db.selectUserFile ord q).map (·.name) = (db.userFileRows ord q).map (·.name) := by
  rw [selectUserFile, List.map_map]
  exact List.map_congr_left fun x hx => UserFile.heldName_of_lt (h.nameFits x ((mem_userFileRows db ord).1 hx).1)

/-- The names in a directory are different. -/
theorem Grounded.names_nodup (h : Grounded db) (ord : RowOrder) (D : Nat) :
    ((db.selectUserFile ord (.lsOf D)).map (·.name)).Nodup := by
  have hrows : (db.userFileRows ord (.lsOf D)).Nodup :=
    (userFileRows_perm db ord _).nodup_iff.2 ((List.Nodup.of_map _ h.rowIds).filter _)
  have hparent : ∀ x ∈ db.userFileRows ord (.lsOf D), x ∈ db.userFile ∧ x.parentId = some D := by
    intro x hx
    obtain ⟨hx, hholds⟩ := (mem_userFileRows db ord).1 hx
    simp only [UserFileQuery.holds, Bool.and_eq_true, beq_iff_eq] at hholds
    exact ⟨hx, hholds.2⟩
  rw [h.map_name]
  refine hrows.map_on fun x hx y hy hxy => ?_
  exact h.names x (hparent x hx).1 y (hparent y hy).1 D (hparent x hx).2 (hparent y hy).2 hxy

theorem Represents.mem_ls (hs : Represents db s) (h : Sound db) (ord : RowOrder) (hd : db.At u p d) (hdir : db.IsDir d.fileId) :
    name ∈ (db.selectUserFile ord (.lsOf d.fileId)).map (·.name) ↔ s.Listed u p name := by
  rw [h.map_name, List.mem_map]
  constructor
  · rintro ⟨x, hx, rfl⟩
    obtain ⟨hx, hholds⟩ := (mem_userFileRows db ord).1 hx
    simp only [UserFileQuery.holds, Bool.and_eq_true, List.any_eq_true, beq_iff_eq] at hholds
    obtain ⟨⟨f, hf, hid, hwhole⟩, hp⟩ := hholds
    obtain ⟨t, ht, htu, htid, -⟩ := h.wellFormed x hx _ hp
    obtain rfl := h.dirOnce d hd.mem.1 t ht hdir htid.symm
    have hnode := hs.node_of_at (.entry hd hx (htu.symm.trans hd.mem.2) hp) ⟨f, hf, hid, rfl⟩
    cases hh : f.hash with
    | none =>
      rw [nodeOf, hh] at hnode
      exact .inl hnode
    | some k =>
      rw [nodeOf_eq_file.2 hh] at hnode
      exact .inr ⟨k, hnode, (hs.content_of_hash hf hh).trans (congrArg some hwhole)⟩
  · have hshown : ∀ {x : UserFile} {f : File}, db.At u (p ++ [name]) x → f ∈ db.file → f.id = x.fileId →
        f.complete = true → ∃ x ∈ db.userFileRows ord (.lsOf d.fileId), x.name = name := by
      intro x f hx hf hid hwhole
      obtain ⟨e, he, hp, hname⟩ := hx.snoc hd.ne_nil
      obtain rfl := h.at_unique hd he
      refine ⟨x, (mem_userFileRows db ord).2 ⟨hx.mem.1, ?_⟩, hname⟩
      simp only [UserFileQuery.holds, Bool.and_eq_true, List.any_eq_true, beq_iff_eq]
      exact ⟨⟨f, hf, hid, hwhole⟩, hp⟩
    rintro (hnode | ⟨k, hnode, hwhole⟩)
    · obtain ⟨x, hx, f, hf, hid, hn⟩ := (hs.node u _ _).1 hnode
      exact hshown hx hf hid (h.whole f hf ((h.nodeOf_eq_dir hf).1 hn))
    · obtain ⟨x, hx, f, hf, hid, hn⟩ := (hs.node u _ _).1 hnode
      have hcontent := hs.content_of_hash hf (nodeOf_eq_file.1 hn)
      exact hshown hx hf hid (Option.some.inj (hcontent.symm.trans hwhole))

theorem Represents.readsBy (hs : Represents db s) (h : Sound db) : ReadsBy db s where
  cd ord path u hpath hnode := by
    rcases hs.cd_cases h ord u hpath with ⟨d, -, -, -, hcd, hpos⟩ | ⟨hno, -⟩
    · refine ⟨d.fileId, hpos, ?_⟩
      rw [queryCd_run, hcd]
      rfl
    · exact absurd hnode hno
  cdNothing ord path u hpath hnode := by
    obtain ⟨names, hnames⟩ := Option.ne_none_iff_exists'.1 (spliteFileName_eq_none.not.2 hpath)
    obtain ⟨k, hcd⟩ := exists_cd db ord u hnames
    refine ⟨k, not_lt.1 fun hk => ?_, by rw [queryCd_run, hcd]; rfl⟩
    obtain ⟨D, rfl, hD, -⟩ := cd_pos hcd hk
    obtain ⟨⟨names', rows, x, hnames', hsp, -⟩, -⟩ := h.found_iff.1 ⟨hcd, hD⟩
    rw [namesOn, hnames'] at hnode
    exact (hs.node_eq_none h.toTree).1 hnode x (at_of_spells hsp)
  gets ord path name u hash hpath := hs.gets_iff h hpath
  ls ord path u hpath hnode := by
    rcases hs.cd_cases h ord u hpath with ⟨d, hd, hdir, -, hcd, hpos⟩ | ⟨hno, -⟩
    · exact ⟨_, queryLs_found hcd hpos, h.names_nodup ord _, fun name => hs.mem_ls h ord hd hdir⟩
    · exact absurd hnode hno

end Reads

/-! ### Runs -/

section Runs
variable {C : Crypt} {r : List ((RowOrder × Call × Int) × Db)}

/-- The calls of the run are proper. -/
abbrev ProperRun (db : Db) (r : List ((RowOrder × Call × Int) × Db)) : Prop :=
  Meets (fun db i => db.Proper (i.1, i.2.1)) db r

/-- What a step of the trees has to do with one of the tables. -/
def Matches (i : RowOrder × Call × Int) (k : FileTrees.Call Nat CStr CStr × FileTrees.Answer Nat) : Prop :=
  k.1 = i.2.1.meaning ∧ Says i.2.1 k.2 i.2.2

theorem Represents.run (hs : Represents db s) (h : Sound db) (hr : IsRun (Returns C) db r) (hi : ProperRun db r) :
    ∃ r', IsRun FileTrees.Step s r' ∧
      List.Forall₂ (fun x y => Matches x.1 y.1 ∧ Sound x.2 ∧ Represents x.2 y.2) r r' := by
  refine hr.simulated (R := fun db s => Sound db ∧ Represents db s) (L := Matches) ?_ ⟨h, hs⟩ hi
  rintro db ⟨ord, call, ret⟩ db' s ⟨h, hs⟩ hi hret
  obtain ⟨a, s', hstep, hsays, h', hs'⟩ := hs.step h hi hret
  exact ⟨(call.meaning, a), s', hstep, ⟨rfl, hsays⟩, h', hs'⟩

/-- Every state of such a run stands for trees. -/
theorem always_represents (hr : IsRun (Returns C) {} r) (hi : ProperRun {} r) :
    Always (fun db => Sound db ∧ ∃ s, Represents db s) {} r := by
  refine hr.always ?_ ⟨sound_empty, _, represents_empty⟩ hi
  rintro db ⟨ord, call, ret⟩ db' ⟨h, s, hs⟩ hi hret
  obtain ⟨a, s', -, -, h', hs'⟩ := hs.step h hi hret
  exact ⟨h', s', hs'⟩

/-- Along every run of proper calls from the empty tables, the tables stand for the trees that the same calls
lead to, the codes returned are the answers given there, and every proper call returns. -/
theorem refines (C : Crypt) (r : List ((RowOrder × Call × Int) × Db)) (hr : IsRun (Returns C) {} r)
    (hi : ProperRun {} r) :
    (∃ r', IsRun FileTrees.Step .empty r' ∧ List.Forall₂ (fun x y => Matches x.1 y.1 ∧ Represents x.2 y.2) r r') ∧
      Always (fun db => ∀ ord call, db.Proper (ord, call) → ∃ ret db', Returns C db (ord, call, ret) db') {} r := by
  constructor
  · obtain ⟨r', hr', hall⟩ := represents_empty.run sound_empty hr hi
    exact ⟨r', hr', hall.imp fun x y hxy => ⟨hxy.1, hxy.2.2⟩⟩
  · refine (always_represents hr hi).mono ?_
    rintro db ⟨h, s, hs⟩ ord call hi
    obtain ⟨ret, db', -, -, hret, -⟩ := hs.simulated (C := C) h hi
    exact ⟨ret, db', hret⟩

/-- In every state of such a run, whatever trees the tables stand for, the queries answer by them. -/
theorem reads_by (C : Crypt) (r : List ((RowOrder × Call × Int) × Db)) (hr : IsRun (Returns C) {} r)
    (hi : ProperRun {} r) : Always (fun db => ∀ s, Represents db s → ReadsBy db s) {} r :=
  (always_represents hr hi).mono fun _ h _ hs => hs.readsBy h.1

theorem represents_final (hs : Represents db s) (h : Sound db) (hr : IsRun (Returns C) db r) (hi : ProperRun db r) :
    ∃ r', IsRun FileTrees.Step s r' ∧ List.Forall₂ (fun x y => Matches x.1 y.1) r r' ∧
      Sound (final db r) ∧ Represents (final db r) (final s r') := by
  obtain ⟨r', hr', hall⟩ := hs.run h hr hi
  obtain ⟨h', hs'⟩ := final_of_forall₂ (R := fun db s => Sound db ∧ Represents db s) hall ⟨h, hs⟩
  exact ⟨r', hr', hall.imp fun _ _ hxy => hxy.1, h', hs'⟩

/-- A file that `query_puts` has accepted is delivered by `query_gets` from the time that its content is
complete until a `query_remove` of it succeeds. -/
theorem gets_of_puts (C : Crypt) (before after : List ((RowOrder × Call × Int) × Db)) (ord : RowOrder)
    (path name hash : CStr) (u : Nat) (ret : Int) (db : Db)
    (hr : IsRun (Returns C) {} (before ++ ((ord, .queryPuts path name hash u, ret), db) :: after))
    (hi : ProperRun {} (before ++ ((ord, .queryPuts path name hash u, ret), db) :: after))
    (hret : ret = 1 ∨ ret = 2) (hwhole : ret = 1 → ∃ x ∈ after, x.1.2.1 = .queryUpdate hash)
    (hkept : ∀ x ∈ after, ∀ way, namesOn way = namesOn path → x.1.2 ≠ (.queryRemove way name u, 0))
    (ord' : RowOrder) : (queryGets path name u).run (handler ord') (final db after) = some ((1, hash), final db after) := by
  obtain ⟨hr₁, hret₂, hr₂⟩ := isRun_append.1 hr
  obtain ⟨hi₁, hi₂, hi₃⟩ := meets_append.1 hi
  obtain ⟨r₁, -, -, h₁, hs₁⟩ := represents_final represents_empty sound_empty hr₁ hi₁
  obtain ⟨a, t, hstep, hsays, h₂, hs₂⟩ := hs₁.step h₁ hi₂ hret₂
  obtain ⟨r', hr', hall, h₃, hs₃⟩ := represents_final hs₂ h₂ hr₂ hi₃
  have ha : a = .whole ∨ a = .pending := by
    cases hsays with
    | whole => exact .inl rfl
    | pending => exact .inr rfl
    | fileTaken => rcases hret with hret | hret <;> cases hret
    | fileNowhere hneg => omega
  obtain ⟨hnode, hsent⟩ := hstep.node_of_put ha
  rw [hs₃.gets_iff h₃ hi₂.orderly.1]
  refine FileTrees.get_of_run hr' hnode ?_ ?_
  · rcases ha with rfl | rfl
    · exact .inl (hsent rfl)
    · cases hsays with
      | pending =>
        obtain ⟨⟨⟨ord'', call, k⟩, db'⟩, hx, rfl⟩ := hwhole rfl
        obtain ⟨⟨⟨call, b⟩, t'⟩, hy, hmeaning, hsays'⟩ := exists_of_forall₂ hall hx
        obtain rfl : call = .finish hash := hmeaning
        cases hsays'
        exact .inr (List.mem_map_of_mem hy)
  · intro hmem
    obtain ⟨⟨k, t'⟩, hy, rfl⟩ := List.mem_map.1 hmem
    obtain ⟨⟨⟨ord'', call, k⟩, db'⟩, hx, hmeaning, hsays'⟩ := exists_of_forall₂ hall.flip hy
    cases call with
    | queryRemove way name' u' =>
      obtain ⟨rfl, hway, rfl⟩ := FileTrees.Call.remove.inj hmeaning
      cases hsays'
      exact hkept _ hx way hway.symm rfl
    | _ => cases hmeaning

instance (C : Crypt) (db : Db) (i : RowOrder × Call × Int) (db' : Db) : Decidable (Returns C db i db') :=
  inferInstanceAs (Decidable (_ = some (i.2.2, db')))

theorem Proper.storing {ord : RowOrder} (hb : db.nextFile < 2 ^ 31) (hcd : db.cd ord path u = some (D : Int))
    (hdir : db.IsDir D) :
    db.nextFile < 2 ^ 32 ∧ ∀ E : Nat, db.cd ord path u = some (E : Int) → 0 < E → db.Free E name → db.IsDir E := by
  refine ⟨hb.trans (by omega), fun E hE _ _ => ?_⟩
  obtain rfl : D = E := Int.ofNat.inj (Option.some.inj (hcd.symm.trans hE))
  exact hdir

/-- `a` has registered, made a directory and uploaded a file into it. -/
def oneFile (whole : Bool) : Db where
  user := [⟨1, ['a'], ['p']⟩]
  file := [{ id := 1, type := .dir, complete := true }, { id := 2, type := .dir, complete := true },
    { id := 3, type := .file, realPath := some ['H'], hash := some ['H'], complete := whole }]
  userFile := [⟨1, ['a'], 1, 1, none⟩, ⟨2, ['d'], 1, 2, some 1⟩, ⟨3, ['f'], 1, 3, some 2⟩]
  nextUser := 2
  nextFile := 4
  nextUserFile := 4

def oneDir : Db :=
  { oneFile false with
    file := (oneFile false).file.take 2
    userFile := (oneFile false).userFile.take 2
    nextFile := 3
    nextUserFile := 3 }

def oneHome : Db :=
  { oneDir with
    file := oneDir.file.take 1
    userFile := oneDir.userFile.take 1
    nextFile := 2
    nextUserFile := 2 }

def toDir : List ((RowOrder × Call × Int) × Db) :=
  [((.stored, .userRegister [] ['a'] ['p'], 1), oneHome), ((.stored, .queryMkdir ['/', 'a'] ['d'] 1, 2), oneDir)]

def toWhole : List ((RowOrder × Call × Int) × Db) := [((.stored, .queryUpdate ['H'], 0), oneFile true)]

def toFile : List ((RowOrder × Call × Int) × Db) :=
  toDir ++ ((.stored, .queryPuts ['/', 'a', '/', 'd'] ['f'] ['H'] 1, 1), oneFile false) :: toWhole

theorem isRun_toFile : IsRun (Returns .plain) {} toFile := by decide +kernel

theorem properRun_toFile : ProperRun {} toFile := by
  have hcd₁ : oneHome.cd .stored ['/', 'a'] 1 = some ((1 : Nat) : Int) := by decide +kernel
  have hcd₂ : oneDir.cd .stored ['/', 'a', '/', 'd'] 1 = some ((2 : Nat) : Int) := by decide +kernel
  have hdir₁ : oneHome.IsDir 1 := ⟨⟨1, .dir, none, none, true, 1⟩, by decide, rfl, rfl⟩
  have hdir₂ : oneDir.IsDir 2 := ⟨⟨2, .dir, none, none, true, 1⟩, by decide, rfl, rfl⟩
  have hregister : Db.Proper {} (.stored, .userRegister [] ['a'] ['p']) :=
    ⟨by decide, Nat.one_lt_two_pow (by decide)⟩
  have hmkdir : oneHome.Proper (.stored, .queryMkdir ['/', 'a'] ['d'] 1) :=
    ⟨by decide, by decide, by decide, Proper.storing (by decide) hcd₁ hdir₁⟩
  have hputs : oneDir.Proper (.stored, .queryPuts ['/', 'a', '/', 'd'] ['f'] ['H'] 1) := by
    refine ⟨by decide, by decide, by decide, by decide, Proper.storing (by decide) hcd₂ hdir₂, ?_⟩
    intro D hD hpos hfree f hf hhash
    have hnone : ∀ f ∈ oneDir.file, f.hash = none := by decide
    rw [hnone f hf] at hhash
    cases hhash
  exact ⟨hregister, hmkdir, hputs, ⟨by decide, trivial⟩, trivial⟩

theorem refines_toFile :
    (∃ r', IsRun FileTrees.Step .empty r' ∧ List.Forall₂ (fun x y => Matches x.1 y.1 ∧ Represents x.2 y.2) toFile r') ∧
      Always (fun db => ∀ ord call, db.Proper (ord, call) → ∃ ret db', Returns .plain db (ord, call, ret) db') {} toFile :=
  refines .plain _ isRun_toFile properRun_toFile

theorem reads_by_toFile : Always (fun db => ∀ s, Represents db s → ReadsBy db s) {} toFile :=
  reads_by .plain _ isRun_toFile properRun_toFile

theorem gets_of_puts_toFile :
    (queryGets ['/', 'a', '/', 'd'] ['f'] 1).run (handler .stored) (oneFile true) = some ((1, ['H']), oneFile true) := by
  refine gets_of_puts .plain toDir toWhole .stored ['/', 'a', '/', 'd'] ['f'] ['H'] 1 1 (oneFile false) isRun_toFile
    properRun_toFile (.inl rfl) (fun _ => ⟨_, List.mem_cons_self, rfl⟩) ?_ .stored
  intro x hx way hway heq
  obtain rfl := List.mem_singleton.1 hx
  cases heq

end Runs

end Db
end Netdisk

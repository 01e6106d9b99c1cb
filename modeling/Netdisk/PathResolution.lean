import Netdisk.Db.Tree

/-!
# Path resolution

A path is meant to be a way down the directory tree: `Spells` says which rows of a user lie on it.
`query_cd` makes one pass over the rows instead, in the order of their file ids, and takes the
parent of the first of them for the parent of the root. `resolvesTree_iff_linksForward`: as long as
no name is too long for its array, the two agree along a run exactly as long as no upload links a
file that is older than the user's root.
-/

namespace Netdisk
namespace Db
open Runs

/-- The row stored under `parentId` with that name. -/
def stored (parentId : Option Nat) (name : CStr) (x : UserFile) : Bool :=
  x.parentId == parentId && x.name == name

/-- The rows of `u` that the path `/n₁/…/nₖ` leads over, from a root downwards. -/
def Spells (db : Db) (u : Nat) (names : List CStr) (rows : List UserFile) : Prop :=
  (∀ x ∈ rows, x ∈ db.userFile ∧ x.userId = u) ∧
    Greedy.Chain stored (fun x => some x.fileId) none names rows

/-- `query_cd` agrees with the tree: it finds the end of every chain of directories, and nothing
where there is no chain of rows. -/
def ResolvesTree (db : Db) : Prop :=
  ∀ (ord : RowOrder) (u : Nat) (names : List CStr), names ≠ [] → (∀ n ∈ names, n ≠ [] ∧ '/' ∉ n) →
    (∀ rows r, db.Spells u names (rows ++ [r]) → (∀ x ∈ rows ++ [r], db.IsDir x.fileId) →
      (queryCd (joinPath names) u).run (handler ord) db = some ((r.fileId : Int), db)) ∧
    ((∀ rows, ¬ db.Spells u names rows) →
      ∃ d ≤ 0, (queryCd (joinPath names) u).run (handler ord) db = some (d, db))

/-- The names a call stores are path components. -/
def Call.Named : Call → Prop
  | .userRegister _ name _ | .queryMkdir _ name _ | .queryPuts _ name _ _ => name ≠ [] ∧ '/' ∉ name
  | _ => True

instance : DecidablePred Call.Named
  | .userRegister _ name _ | .queryMkdir _ name _ | .queryPuts _ name _ _ =>
    inferInstanceAs (Decidable (name ≠ [] ∧ '/' ∉ name))
  | .queryUpdate _ | .queryRemove .. => isTrue trivial

/-- A completed call, with names that are path components and file ids below `2³¹`. -/
def NamedStep (C : Crypt) (db : Db) (i : RowOrder × Call) (db' : Db) : Prop :=
  i.2.Named ∧ db'.nextFile ≤ 2 ^ 31 ∧ Step C db i db'

instance (C : Crypt) (db : Db) (i : RowOrder × Call) (db' : Db) : Decidable (NamedStep C db i db') :=
  inferInstanceAs (Decidable (_ ∧ _ ∧ _))

/-- The name that a call stores fits `name` of `user_file_t`. -/
def Call.NameFits : Call → Prop
  | .userRegister _ name _ | .queryMkdir _ name _ | .queryPuts _ name _ _ => name.length < nameSize
  | _ => True

instance : DecidablePred Call.NameFits
  | .userRegister _ name _ | .queryMkdir _ name _ | .queryPuts _ name _ _ =>
    inferInstanceAs (Decidable (name.length < nameSize))
  | .queryUpdate _ | .queryRemove .. => isTrue trivial

/-- A `query_puts` that finds its directory, and its name free there, does not link a file older
than the user's root. -/
def LinksForward (db : Db) : RowOrder × Call → Prop
  | (ord, .queryPuts path fileName hash u) =>
    ∀ D : Nat, db.cd ord path u = some (D : Int) → 0 < D → db.Free D fileName →
    ∀ f ∈ db.file, f.hash = some hash →
    ∀ r ∈ db.userFile, r.userId = u → r.parentId = none → r.fileId < f.id
  | _ => True

/-- The tree, with the root of each user in front of the user's other rows. -/
structure Rooted (db : Db) : Prop extends Tree db where
  bound : db.nextFile ≤ 2 ^ 31
  rootFirst : ∀ r ∈ db.userFile, r.parentId = none → ∀ x ∈ db.userFile, x.userId = r.userId →
    r.fileId ≤ x.fileId
  nameFits : ∀ x ∈ db.userFile, x.name.length < nameSize
  rootName : ∀ r ∈ db.userFile, r.parentId = none → r.name ≠ [] ∧ '/' ∉ r.name

/-- `Rooted` without what the names of the roots are. -/
structure Grounded (db : Db) : Prop extends IntTree db where
  rootFirst : ∀ r ∈ db.userFile, r.parentId = none → ∀ x ∈ db.userFile, x.userId = r.userId →
    r.fileId ≤ x.fileId
  nameFits : ∀ x ∈ db.userFile, x.name.length < nameSize

variable {db : Db} {ord : RowOrder} {u : Nat}

theorem Rooted.grounded (h : Rooted db) : Grounded db := ⟨⟨h.toTree, h.bound⟩, h.rootFirst, h.nameFits⟩

/-! ### The rows of a user -/

theorem mem_rows {x : UserFile} :
    x ∈ db.userFileRows ord (.ofUser u) ↔ x ∈ db.userFile ∧ x.userId = u := by
  simp [mem_userFileRows, UserFileQuery.holds]

theorem rows_sorted (db : Db) (ord : RowOrder) (u : Nat) :
    (db.userFileRows ord (.ofUser u)).Pairwise fun x y => x.fileId ≤ y.fileId :=
  db.userFileRows_sorted ord rfl

/-- The first row has the smallest file id. -/
theorem first_row {r : UserFile} {rs : List UserFile} (hrows : db.userFileRows ord (.ofUser u) = r :: rs) :
    (r ∈ db.userFile ∧ r.userId = u) ∧ ∀ x ∈ db.userFile, x.userId = u → r.fileId ≤ x.fileId := by
  refine ⟨mem_rows.1 (hrows ▸ List.mem_cons_self), fun x hx hu => ?_⟩
  rcases List.mem_cons.1 (hrows ▸ mem_rows.2 ⟨hx, hu⟩) with rfl | hx
  · exact le_rfl
  · exact (List.pairwise_cons.1 (hrows ▸ rows_sorted db ord u)).1 x hx

theorem cd_joinPath {names : List CStr} {r : UserFile} {rs : List UserFile} (hne : names ≠ [])
    (hnames : ∀ n ∈ names, '/' ∉ n) (hrows : db.userFileRows ord (.ofUser u) = r :: rs) :
    (queryCd (joinPath names) u).run (handler ord) db =
      let (left, parentId) := Greedy.walk accepts (fun r => intOf r.fileId) (r :: rs) names (intOf (r.parentId.getD 0))
      some (if left = [] then parentId else 0, db) := by
  rw [queryCd_run, cd_eq hrows (spliteFileName_joinPath hne hnames)]
  rfl

theorem cd_noRows {path : CStr} (hrows : db.userFileRows ord (.ofUser u) = []) : db.cd ord path u = some (-1) := by
  rw [cd, selectUserFile, hrows]
  rfl

variable (db ord u) in
theorem exists_cd {path : CStr} {names : List CStr} (hnames : spliteFileName path = some names) :
    ∃ d, db.cd ord path u = some d := by
  cases hrows : db.userFileRows ord (.ofUser u) with
  | nil => exact ⟨_, cd_noRows hrows⟩
  | cons r rs => exact ⟨_, cd_eq hrows hnames⟩

/-! ### The walk against the tree -/

theorem IntTree.fileId_pos (h : IntTree db) {x : UserFile} (hx : x ∈ db.userFile) : 0 < x.fileId := by
  obtain ⟨f, hf, hid⟩ := h.fileOf x hx
  exact hid ▸ (h.fileLt f hf).1

/-- Parents as `query_cd` holds them; `NULL` reads as 0, which is no file id. -/
theorem IntTree.stored_eq (h : IntTree db) {p : Option Nat} (hp : ∀ q, p = some q → 0 < q ∧ q < 2 ^ 31)
    (name : CStr) {x : UserFile} (hx : x ∈ db.userFile) (hfits : x.name.length < nameSize) :
    stored p name x = accepts (intOf (p.getD 0)) name x := by
  have hparent : x.parentId = p ↔ ulongOf (intOf (p.getD 0)) = x.parentId.getD 0 := by
    have hx0 : ∀ q, x.parentId = some q → 0 < q := fun q hq => (h.parentLt x hx q hq).1
    have hval : ulongOf (intOf (p.getD 0)) = p.getD 0 := by
      cases p with
      | none => rfl
      | some q => rw [Option.getD_some, intOf_of_lt (hp q rfl).2, ulongOf_of_lt (by have := (hp q rfl).2; omega)]
    rw [hval]
    cases hxp : x.parentId with
    | none =>
      cases p with
      | none => simp
      | some q => simpa using (hp q rfl).1.ne'
    | some q =>
      cases p with
      | none => simpa using (hx0 q hxp).ne
      | some q' => simp [eq_comm]
  rw [Bool.eq_iff_iff]
  simp only [stored, accepts, UserFile.heldName_of_lt hfits, Bool.and_eq_true, beq_iff_eq, hparent]
  exact and_comm

theorem IntTree.chain_iff (h : IntTree db) {names : List CStr} {rows : List UserFile}
    (hrows : ∀ x ∈ rows, x ∈ db.userFile) (hfits : ∀ x ∈ rows, x.name.length < nameSize) :
    Greedy.Chain stored (fun x => some x.fileId) none names rows ↔
      Greedy.Chain accepts (fun x => intOf x.fileId) 0 names rows :=
  Greedy.Chain.iff_map (fun p : Option Nat => intOf (p.getD 0)) (fun p => ∀ q, p = some q → 0 < q ∧ q < 2 ^ 31)
    (fun x hx _ hq => Option.some.inj hq ▸ ⟨h.fileId_pos (hrows x hx), h.fileId_lt (hrows x hx)⟩)
    (fun _ hp n x hx => h.stored_eq hp n (hrows x hx) (hfits x hx)) nofun

/-- If no row of a user has a smaller file id than the root, the first row is the root. -/
theorem Tree.head_root (h : Tree db) (hfirst : ∀ r ∈ db.userFile, r.parentId = none → ∀ x ∈ db.userFile,
    x.userId = r.userId → r.fileId ≤ x.fileId) {r : UserFile} {rs : List UserFile}
    (hrows : db.userFileRows ord (.ofUser u) = r :: rs) : r.parentId = none := by
  obtain ⟨⟨hr, hru⟩, hle⟩ := first_row hrows
  obtain ⟨root, hroot, hrootu, hp⟩ := h.hasRoot r hr
  have hid : root.fileId = r.fileId :=
    le_antisymm (hfirst root hroot hp r hr hrootu.symm) (hle root hroot (hrootu.trans hru))
  exact h.dirOnce root hroot r hr (h.rootDir root hroot hp) hid ▸ hp

theorem Grounded.head_root (h : Grounded db) {r : UserFile} {rs : List UserFile}
    (hrows : db.userFileRows ord (.ofUser u) = r :: rs) : r.parentId = none :=
  h.toTree.head_root h.rootFirst hrows

/-- The ids of the directories on a path grow. -/
theorem IntTree.chain_sorted (h : IntTree db) {p : Option Nat} {names : List CStr} {rows : List UserFile}
    (hrows : ∀ x ∈ rows, x ∈ db.userFile) (hdir : ∀ x ∈ rows, db.IsDir x.fileId)
    (hch : Greedy.Chain stored (fun x => some x.fileId) p names rows) :
    rows.Pairwise fun x y => x.fileId < y.fileId := by
  refine List.isChain_iff_pairwise.1 ?_
  induction rows generalizing p names with
  | nil => exact .nil
  | cons x rows ih =>
    match names, hch with
    | n :: names, hch =>
      have hrest := ih (fun y hy => hrows y (List.mem_cons_of_mem _ hy))
        (fun y hy => hdir y (List.mem_cons_of_mem _ hy)) hch.2
      match rows, names, hch.2 with
      | [], _, _ => exact .singleton x
      | y :: rows, m :: names, hy =>
        have hmem : y ∈ x :: y :: rows := List.mem_cons_of_mem _ List.mem_cons_self
        have hparent : y.parentId = some x.fileId := by
          have := hy.1
          simp only [stored, Bool.and_eq_true, beq_iff_eq] at this
          exact this.1
        exact List.isChain_cons_cons.2 ⟨h.dirAbove y (hrows y hmem) _ (hdir y hmem) hparent, hrest⟩

/-- The walk finds the end of a chain that lies in the order of the rows. -/
theorem Grounded.cd_of_spells (h : Grounded db) {path : CStr} {names : List CStr} {rows : List UserFile} {r : UserFile}
    (hnames : spliteFileName path = some names) (hsp : db.Spells u names (rows ++ [r]))
    (hsub : (rows ++ [r]).Sublist (db.userFileRows ord (.ofUser u))) : db.cd ord path u = some (r.fileId : Int) := by
  obtain ⟨hmem, hch⟩ := hsp
  have hr : r ∈ rows ++ [r] := List.mem_append_right _ (List.mem_singleton_self r)
  have hin : ∀ x ∈ rows ++ [r], x ∈ db.userFile := fun x hx => (hmem x hx).1
  cases hrows : db.userFileRows ord (.ofUser u) with
  | nil => exact absurd (hrows ▸ hsub.subset hr) List.not_mem_nil
  | cons r0 rs =>
    have hseed : intOf (r0.parentId.getD 0) = 0 := by rw [h.head_root hrows]; rfl
    have hfits : ∀ x ∈ rows ++ [r], x.name.length < nameSize := fun x hx => h.nameFits x (hin x hx)
    have hwalk := Greedy.walk_of_chain ((h.chain_iff hin hfits).1 hch) (hrows ▸ hsub) fun k n x hx y hy hax hay => by
      obtain ⟨hy, hyu⟩ := mem_rows.1 (hrows ▸ hy)
      exact h.accepts_unique (hin x hx) hy ((hmem x hx).2.trans hyu.symm) (hfits x hx) hax hay
    rw [cd_eq hrows hnames, hseed, hwalk, Greedy.last_append_singleton, intOf_of_lt (h.fileId_lt (hin r hr))]
    rfl

/-- What it finds is the end of such a chain. -/
theorem Grounded.spells_of_cd (h : Grounded db) {path : CStr} {d : Int} (hcd : db.cd ord path u = some d) (hd : 0 < d) :
    ∃ names rows r, spliteFileName path = some names ∧ db.Spells u names (rows ++ [r]) ∧
      (rows ++ [r]).Sublist (db.userFileRows ord (.ofUser u)) ∧ d = r.fileId := by
  obtain ⟨names, r0, rs, rows, r, hnames, hrows, hsub, hch, hlast⟩ := chain_of_cd hcd hd
  rw [h.head_root hrows, Option.getD_none] at hch
  have hmem : ∀ x ∈ rows ++ [r], x ∈ db.userFile ∧ x.userId = u := fun x hx => mem_rows.1 (hrows ▸ hsub.subset hx)
  have hchain := (h.chain_iff (fun x hx => (hmem x hx).1) fun x hx => h.nameFits x (hmem x hx).1).2 hch
  have hr : r ∈ db.userFile := (hmem r (List.mem_append_right _ (List.mem_singleton_self r))).1
  refine ⟨names, rows, r, hnames, ⟨hmem, hchain⟩, hrows ▸ hsub, ?_⟩
  rw [← hlast, intOf_of_lt (h.fileId_lt hr)]

theorem Grounded.resolvesTree (h : Grounded db) : ResolvesTree db := by
  intro ord u names hne hnames
  have hslash : ∀ n ∈ names, '/' ∉ n := fun n hn => (hnames n hn).2
  have hpath := spliteFileName_joinPath hne hslash
  rw [queryCd_run]
  constructor
  · intro rows r hsp hdir
    have hin : ∀ x ∈ rows ++ [r], x ∈ db.userFile := fun x hx => (hsp.1 x hx).1
    have hsub : rows ++ [r] ⊆ db.userFileRows ord (.ofUser u) := fun x hx => mem_rows.2 (hsp.1 x hx)
    have hsorted := Sorted.sublist_of_sorted (rows_sorted db ord u) (h.chain_sorted hin hdir hsp.2) hsub
    rw [h.cd_of_spells hpath hsp hsorted]
    rfl
  · intro hnone
    obtain ⟨d, hcd⟩ := exists_cd db ord u hpath
    refine ⟨d, not_lt.1 fun hd => ?_, by rw [hcd]; rfl⟩
    obtain ⟨names', rows, r, hnames', hsp, -⟩ := h.spells_of_cd hcd hd
    rw [hpath] at hnames'
    exact hnone _ (Option.some.inj hnames' ▸ hsp)

/-! ### Steps -/

/-- At most one row is new, and it comes after the root of its user or is that root. -/
theorem Grounded.insert (h : Grounded db) {db' : Db} (ht : IntTree db') {row : UserFile}
    (hrows : ∀ x ∈ db'.userFile, x ∈ db.userFile ∨ x = row)
    (hroot : row.parentId = none → ∀ x ∈ db.userFile, x.userId ≠ row.userId)
    (hafter : ∀ r ∈ db.userFile, r.userId = row.userId → r.parentId = none → r.fileId ≤ row.fileId)
    (hfits : row.name.length < nameSize) : Grounded db' where
  toIntTree := ht
  nameFits := fun x hx => by
    rcases hrows x hx with hx | rfl
    · exact h.nameFits x hx
    · exact hfits
  rootFirst := fun r hr hp x hx hu => by
    rcases hrows r hr with hr' | rfl <;> rcases hrows x hx with hx' | rfl
    · exact h.rootFirst r hr' hp x hx' hu
    · exact hafter r hr' hu.symm hp
    · exact absurd hu (hroot hp x hx')
    · exact le_rfl

theorem Grounded.step {C : Crypt} {i : RowOrder × Call} {db' : Db} (h : Grounded db) (hfits : i.2.NameFits)
    (hfwd : LinksForward db i) (hst : IdStep C db i db') : Grounded db' := by
  obtain ⟨ord, call⟩ := i
  have ht := h.toIntTree.step hst
  have he := hst.2.effect
  have hnew : ∀ r ∈ db.userFile, r.fileId ≤ db.nextFile := fun r hr => (h.toTree.fileId_lt hr).le
  cases he with
  | same => exact h
  | register word hacc =>
    exact h.insert ht (fun _ => mem_added) (fun _ x hx => (h.userLt x hx).ne) (fun r hr _ _ => hnew r hr) hfits
  | mkdir hcd hD hlt hfree =>
    rw [h.regOf_nextFile] at ht ⊢
    exact h.insert ht (fun _ => mem_added) nofun (fun r hr _ _ => hnew r hr) hfits
  | putsNew hcd hD hlt hfree hhash => exact h.insert ht (fun _ => mem_added) nofun (fun r hr _ _ => hnew r hr) hfits
  | @putsLink path fileName hash u D f hcd hD hlt hfree hf hhash =>
    exact h.insert ht (fun _ => mem_added) nofun (fun r hr hu hp => (hfwd D hcd hD hfree f hf hhash r hr hu hp).le) hfits
  | update => exact ⟨ht, h.rootFirst, h.nameFits⟩
  | remove =>
    exact ⟨ht, fun r hr hp x hx => h.rootFirst r (mem_unlink.1 hr).1 hp x (mem_unlink.1 hx).1,
      fun x hx => h.nameFits x (mem_unlink.1 hx).1⟩

/-- A call makes no root but that of the account it registers. -/
theorem Effect.root {call : Call} {db' : Db} (he : Effect db ord call db') {r : UserFile} (hr : r ∈ db'.userFile)
    (hp : r.parentId = none) :
    r ∈ db.userFile ∨ ∃ rand password, call = .userRegister rand r.name password := by
  cases he with
  | same => exact .inl hr
  | @register rand account password word hacc =>
    rcases mem_added hr with hr | rfl
    · exact .inl hr
    · exact .inr ⟨rand, password, rfl⟩
  | mkdir | putsNew | putsLink =>
    rcases mem_added hr with hr | rfl
    · exact .inl hr
    · cases hp
  | update => exact .inl hr
  | remove => exact .inl (mem_unlink.1 hr).1

theorem Rooted.step {C : Crypt} {i : RowOrder × Call} {db' : Db} (h : Rooted db) (hfits : i.2.NameFits)
    (hfwd : LinksForward db i) (hst : NamedStep C db i db') : Rooted db' := by
  obtain ⟨hnamed, hb, hstep⟩ := hst
  have hgrounded := h.grounded.step hfits hfwd ⟨hb, hstep⟩
  refine ⟨hgrounded.toTree, hb, hgrounded.rootFirst, hgrounded.nameFits, fun r hr hp => ?_⟩
  rcases (Step.effect hstep).root hr hp with hr' | ⟨rand, password, hcall⟩
  · exact h.rootName r hr' hp
  · rw [hcall] at hnamed
    exact hnamed

theorem Tree.queryPuts_link {path fileName hash : CStr} {D : Nat} {f : File} (h : Tree db)
    (hcd : db.cd ord path u = some (D : Int)) (hD : 0 < D) (hfree : db.Free D fileName)
    (hf : f ∈ db.file) (hhash : f.hash = some hash) :
    (queryPuts path fileName hash u).run (handler ord) db =
      some (if f.complete then 2 else 1, db.exec (.insertUserFile fileName u f.id (some D))) := by
  have hreg : regOf D = D := regOf_of_lt (by have := cd_lt hcd; omega)
  have hneg : ¬ (D : Int) < 0 := by omega
  have hn : db.selectUserFile ord (.named D fileName) = [] := selectUserFile_named_eq_nil.2 hfree
  rw [queryPuts, Prog.bind_eq, queryCd_bind_run, hcd]
  cases hsel : db.selectFile ord (.byHash hash) with
  | nil => exact absurd hhash (selectFile_byHash_eq_nil.1 hsel f hf)
  | cons e es =>
    obtain ⟨g, hg, hghash, rfl⟩ := selectFile_cons hsel
    obtain rfl := h.hashes g hg f hf hash (by simpa [FileQuery.holds] using hghash) hhash
    simp [hneg, hD.ne', handler, hreg, hn, hsel, convertToFile]

/-- With an entry in front of it, the root is not where the walk starts. -/
theorem Tree.root_hidden (ht : Tree db) (hb : db.nextFile ≤ 2 ^ 31) {r w : UserFile} (hr : r ∈ db.userFile)
    (hp : r.parentId = none) (hname : r.name ≠ [] ∧ '/' ∉ r.name) (hw : w ∈ db.userFile)
    (hwu : w.userId = r.userId) (hwp : w.parentId ≠ none)
    (hfirst : ∀ x ∈ db.userFile, x.userId = r.userId → x ≠ w → w.fileId < x.fileId) : ¬ ResolvesTree db := by
  intro hres
  have hrun := (hres .stored r.userId [r.name] (by simp) (by simpa using hname)).1 [] r
    ⟨by simp [hr], by simp [Greedy.Chain, stored, hp]⟩ (by simpa using ht.rootDir r hr hp)
  cases hrows : db.userFileRows .stored (.ofUser r.userId) with
  | nil => exact absurd (hrows ▸ mem_rows.2 ⟨hr, rfl⟩) List.not_mem_nil
  | cons r0 rs =>
    have hhead : r0 = w := by
      by_contra hne
      obtain ⟨⟨hr0, hr0u⟩, hle⟩ := first_row hrows
      exact absurd (hle w hw hwu) (Nat.not_le.2 (hfirst r0 hr0 hr0u hne))
    obtain ⟨p, hwp⟩ := Option.ne_none_iff_exists'.1 hwp
    have hpos := (ht.parentLt w hw p hwp).1
    have hseed : ulongOf (intOf p) = p := by
      have := (ht.parentLt w hw p hwp).2
      rw [intOf_of_lt (by omega), ulongOf_of_lt (by omega)]
    rw [hhead] at hrows
    rw [cd_joinPath (by simp) (by simpa using hname.2) hrows, hwp, Option.getD_some] at hrun
    cases hwalk : Greedy.walk accepts (fun r => intOf r.fileId) (w :: rs) [r.name] (intOf p) with
    | mk left d =>
      rw [hwalk] at hrun
      have hd : (if left = [] then d else 0) = (r.fileId : Int) := (Prod.mk.inj (Option.some.inj hrun)).1
      obtain ⟨f, hf, hid⟩ := ht.fileOf r hr
      have hfile := ht.fileLt f hf
      split at hd
      · next hleft =>
        -- the row found has the root's file id, but it is stored under `p`
        subst hleft
        obtain ⟨as, hsub, hch, hlast⟩ := Greedy.exists_chain_of_walk hwalk
        obtain ⟨a, rfl, hacc⟩ := hch.exists_singleton
        obtain ⟨ha, -⟩ := mem_rows.1 (hrows ▸ hsub.subset List.mem_cons_self)
        simp only [accepts, Bool.and_eq_true, beq_iff_eq, hseed] at hacc
        rw [Greedy.last, Greedy.last, hd] at hlast
        have halt := ht.fileId_lt ha
        have hafile : a.fileId = r.fileId := eq_of_intOf (by omega) hlast (by omega)
        obtain rfl := ht.dirOnce r hr a ha (ht.rootDir r hr hp) hafile.symm
        rw [hp, Option.getD_none] at hacc
        omega
      · omega

/-- An older file in front of the root hides it: the user's home is no longer found. -/
theorem Rooted.lose {C : Crypt} {i : RowOrder × Call} {db' : Db} (h : Rooted db) (hfwd : ¬ LinksForward db i)
    (hst : NamedStep C db i db') : ¬ ResolvesTree db' := by
  obtain ⟨ord, call⟩ := i
  obtain ⟨-, hb, hstep⟩ := hst
  have ht := h.toTree.effect (h.bound.trans_lt (by omega)) hstep.effect
  obtain ⟨⟨ret, db'⟩, hrun, rfl⟩ := Option.map_eq_some_iff.1 hstep
  cases call with
  | queryPuts path fileName hash u =>
    simp only [LinksForward, not_forall] at hfwd
    obtain ⟨D, hcd, hD, hfree, f, hf, hhash, r, hr, hru, hp, hlt⟩ := hfwd
    obtain ⟨rfl, rfl⟩ := Prod.mk.inj (Option.some.inj ((h.toTree.queryPuts_link hcd hD hfree hf hhash).symm.trans hrun))
    have hne : f.id ≠ r.fileId := by
      intro hid
      obtain ⟨g, hg, hgid, htype⟩ := h.rootDir r hr hp
      obtain rfl := h.fileIds g hg f hf (hgid.trans hid.symm)
      exact absurd (h.dirHash g hg htype) (hhash ▸ nofun)
    refine ht.root_hidden hb (List.mem_append_left _ hr) hp (h.rootName r hr hp)
      (List.mem_append_right _ (List.mem_singleton_self _)) hru.symm nofun fun x hx hxu hxw => ?_
    rcases List.mem_append.1 hx with hx | hx
    · have hle := h.rootFirst r hr hp x hx hxu
      change f.id < x.fileId
      omega
    · exact absurd (List.mem_singleton.1 hx) hxw
  | _ => exact absurd trivial hfwd

theorem rooted_empty : Rooted {} where
  toTree := tree_empty
  bound := by decide
  rootFirst := nofun
  nameFits := nofun
  rootName := nofun

/-- From the empty database, in a run whose names fit, `query_cd` agrees with the tree in every state
exactly when no call links a file older than the root of the user it is linked for. -/
theorem resolvesTree_iff_linksForward (C : Crypt) (r : List ((RowOrder × Call) × Db))
    (hr : IsRun (NamedStep C) {} r) (hfits : Meets (fun _ i => i.2.NameFits) {} r) :
    Always ResolvesTree {} r ↔ Meets LinksForward {} r :=
  (hr.and_meets hfits).always_iff (I := Rooted) (fun _ h => h.grounded.resolvesTree)
    (fun _ _ _ h hC hst => h.step hst.1 hC hst.2) (fun _ _ _ h hC hst => h.lose hC hst.2) rooted_empty

theorem linksForward_of_behind {path fileName hash : CStr} (h : ∀ f ∈ db.file, f.hash = some hash →
    ∀ r ∈ db.userFile, r.userId = u → r.parentId = none → r.fileId < f.id) :
    LinksForward db (ord, .queryPuts path fileName hash u) := fun _ _ _ _ => h

/-- Both have registered before `a` uploads a file and `b` uploads it too. -/
theorem resolvesTree_iff_linksForward_two :
    let r := trace (call .plain) {}
      [(.stored, .userRegister [] ['a'] ['p']), (.stored, .userRegister [] ['b'] ['p']),
        (.stored, .queryPuts ['/', 'a'] ['f'] ['H'] 1), (.stored, .queryPuts ['/', 'b'] ['g'] ['H'] 2)]
    Always ResolvesTree {} r := by
  intro r
  have hr : IsRun (NamedStep .plain) {} r := by decide +kernel
  have hfits : Meets (fun _ i => i.2.NameFits) {} r := meets_trace (Q := fun i : RowOrder × Call => i.2.NameFits) (by decide) _
  refine (resolvesTree_iff_linksForward .plain r hr hfits).2 ⟨trivial, trivial, ?_, ?_, trivial⟩
  · exact linksForward_of_behind (by decide +kernel)
  · exact linksForward_of_behind (by decide +kernel)

/-- `a` uploads a file, `b` registers and uploads it too: `b`'s home does not resolve any more. -/
theorem home_hidden : ¬ ∀ C db, Reaches (NamedStep C) {} db → ResolvesTree db := by
  intro h
  let r := trace (call .plain) {}
    [(.stored, .userRegister [] ['a'] ['p']), (.stored, .queryPuts ['/', 'a'] ['f'] ['H'] 1),
      (.stored, .userRegister [] ['b'] ['p']), (.stored, .queryPuts ['/', 'b'] ['g'] ['H'] 2)]
  have hres := h .plain (final {} r) ⟨r, by decide, rfl⟩
  have hroot := (hres .stored 2 [['b']] (by decide) (by decide)).1 [] ⟨3, ['b'], 2, 3, none⟩
    ⟨by decide, rfl, trivial⟩ (by unfold IsDir; decide)
  exact absurd hroot (by decide)

end Db
end Netdisk

import Mathlib.Data.List.Induction
import Netdisk.FoundPaths
import Netdisk.Lib.FileTrees
import Netdisk.Parents
import Netdisk.PutsGets
import Netdisk.Remove

/-!
# The tables as trees of files

What the operations of `deal_sql.c` are for is `FileTrees.Step`, on the trees of the users. `Represents` says
which trees the tables stand for, `Says` what a code returned means there, and `Proper` keeps a call
clear of what is known to go wrong.
-/

namespace Netdisk
namespace Db

/-- User ids, names and digests. -/
abbrev Trees := FileTrees.State Nat CStr CStr

/-- What a row of `file` is. -/
def nodeOf (f : File) : FileTrees.Node CStr :=
  match f.hash with
  | none => .dir
  | some hash => .file hash

/-- The row of `u` that the path leads to. -/
inductive At (db : Db) (u : Nat) : List CStr → UserFile → Prop
  | home {x} : x ∈ db.userFile → x.userId = u → x.parentId = none → At db u [x.name] x
  | entry {p d x} : At db u p d → x ∈ db.userFile → x.userId = u → x.parentId = some d.fileId →
    At db u (p ++ [x.name]) x

def Is (db : Db) (x : UserFile) (n : FileTrees.Node CStr) : Prop := ∃ f ∈ db.file, f.id = x.fileId ∧ nodeOf f = n

/-- The tables stand for these trees. -/
structure Represents (db : Db) (s : Trees) : Prop where
  node : ∀ u p n, s.node u p = some n ↔ ∃ x, db.At u p x ∧ db.Is x n
  content : ∀ hash whole, s.content hash = some whole ↔ ∃ f ∈ db.file, f.hash = some hash ∧ f.complete = whole

/-- The names on a path. -/
def namesOn (path : CStr) : List CStr := (spliteFileName path).getD []

/-- What a call asks for. -/
def Call.meaning : Call → FileTrees.Call Nat CStr CStr
  | .userRegister _ account _ => .register account
  | .queryMkdir path dirName userId => .mkdir userId (namesOn path) dirName
  | .queryPuts path fileName hashValue userId => .put userId (namesOn path) fileName hashValue
  | .queryUpdate hashValue => .finish hashValue
  | .queryRemove path fileName userId => .remove userId (namesOn path) fileName

/-- What a code that a call returns says. A `query_remove` that succeeds and one whose directory is not found
both return 0. -/
inductive Says : Call → FileTrees.Answer Nat → Int → Prop
  | registered {rand account password u} : Says (.userRegister rand account password) (.user u) (intOf u)
  | accountTaken {rand account password} : Says (.userRegister rand account password) .taken 0
  | made {path dirName u} : Says (.queryMkdir path dirName u) .done 2
  | dirTaken {path dirName u} : Says (.queryMkdir path dirName u) .taken 1
  | dirNowhere {path dirName u ret} : ret ≤ 0 → Says (.queryMkdir path dirName u) .nowhere ret
  | whole {path fileName hash u} : Says (.queryPuts path fileName hash u) .whole 2
  | pending {path fileName hash u} : Says (.queryPuts path fileName hash u) .pending 1
  | fileTaken {path fileName hash u} : Says (.queryPuts path fileName hash u) .taken 0
  | fileNowhere {path fileName hash u ret} : ret < 0 → Says (.queryPuts path fileName hash u) .nowhere ret
  | updated {hash} : Says (.queryUpdate hash) .done 0
  | removed {path fileName u} : Says (.queryRemove path fileName u) .done 0
  | missing {path fileName u ret} : ret ≤ 1 → Says (.queryRemove path fileName u) .missing ret
  | full {path fileName u} : Says (.queryRemove path fileName u) .full 2

/-- A name that `like` takes literally. -/
def Literal (name : CStr) : Prop := ∀ c ∈ name, c ≠ '%' ∧ c ≠ '_' ∧ c ≠ '\\'

instance (name : CStr) : Decidable (Literal name) := inferInstanceAs (Decidable (∀ c ∈ name, _))

/-- A call that stores in directories, links no file older than the home of the user, removes by a name that
stands for itself and whose file the user has nowhere else, and draws ids that fit an `int`. -/
def Orderly (db : Db) : RowOrder × Call → Prop
  | (_, .userRegister ..) => db.nextFile < 2 ^ 31
  | (ord, .queryMkdir path name u) =>
    path ≠ [] ∧ db.nextFile < 2 ^ 31 ∧ db.StoresInDirs (ord, .queryMkdir path name u)
  | (ord, .queryPuts path name hash u) =>
    path ≠ [] ∧ hash ≠ [] ∧ db.nextFile < 2 ^ 31 ∧ db.StoresInDirs (ord, .queryPuts path name hash u) ∧
      db.LinksForward (ord, .queryPuts path name hash u)
  | (_, .queryUpdate _) => True
  | (ord, .queryRemove path name u) =>
    path ≠ [] ∧ Literal name ∧ ∀ D : Nat, db.cd ord path u = some (D : Int) → 0 < D → db.FindsOnly ord name u D

/-- A call that keeps to what the tables, and the records they are read into, can do. -/
structure Proper (db : Db) (i : RowOrder × Call) : Prop where
  fits : i.2.Fits
  orderly : db.Orderly i

/-- A completed call, with the code that it returns. -/
def Returns (C : Crypt) (db : Db) (i : RowOrder × Call × Int) (db' : Db) : Prop :=
  (i.2.1.prog C).run (handler i.1) db = some (i.2.2, db')

/-- Directories have entries of their user only, and every account has its home. -/
structure Sound (db : Db) : Prop extends Catalogue db where
  wellFormed : db.WellFormed
  accounts : ∀ x ∈ db.user, ∀ y ∈ db.user, x.name = y.name → x = y
  home : ∀ x ∈ db.user, ∃ r ∈ db.userFile, r.userId = x.id ∧ r.parentId = none ∧ r.name = x.name
  account : ∀ r ∈ db.userFile, r.parentId = none → ∃ x ∈ db.user, x.id = r.userId ∧ x.name = r.name

variable {db db' : Db} {ord : RowOrder} {s : Trees} {u v D : Nat} {p q names : List CStr} {path name hash : CStr}
  {x y d : UserFile} {f : File} {n : FileTrees.Node CStr}

/-! ### Places -/

theorem At.mem (h : db.At u p x) : x ∈ db.userFile ∧ x.userId = u := by
  cases h with
  | home hx hu _ => exact ⟨hx, hu⟩
  | entry _ hx hu _ => exact ⟨hx, hu⟩

theorem At.ne_nil (h : db.At u p x) : p ≠ [] := by
  cases h with
  | home => exact List.cons_ne_nil _ _
  | entry => exact List.append_ne_nil_of_right_ne_nil _ (List.cons_ne_nil _ _)

/-- An entry lies in the directory that the path before it leads to. -/
theorem At.snoc (h : db.At u (p ++ [name]) x) (hp : p ≠ []) :
    ∃ d, db.At u p d ∧ x.parentId = some d.fileId ∧ x.name = name := by
  generalize hq : p ++ [name] = q at h
  cases h with
  | home =>
    obtain ⟨rfl, -⟩ := List.append_inj' (hq.trans (List.nil_append _).symm) rfl
    exact absurd rfl hp
  | @entry p' d x hd hx hu hpar =>
    obtain ⟨rfl, hn⟩ := List.append_inj' hq rfl
    exact ⟨d, hd, hpar, (List.singleton_inj.1 hn).symm⟩

theorem At.single (h : db.At u [name] x) : x.parentId = none ∧ x.name = name := by
  generalize hq : [name] = q at h
  cases h with
  | home hx hu hp => exact ⟨hp, (List.singleton_inj.1 hq).symm⟩
  | @entry p' d x hd hx hu hpar =>
    obtain ⟨hnil, -⟩ := List.append_inj' ((List.nil_append _).trans hq) rfl
    exact absurd hnil.symm hd.ne_nil

theorem Tree.at_unique (h : Tree db) (hx : db.At u p x) (hy : db.At u p y) : x = y := by
  induction hx generalizing y with
  | home hx hu hp =>
    exact h.roots _ hx _ hy.mem.1 (hu.trans hy.mem.2.symm) hp hy.single.1
  | entry hd hx hu hp ih =>
    obtain ⟨e, he, hep, hen⟩ := hy.snoc hd.ne_nil
    obtain rfl := ih he
    exact h.names _ hx _ hy.mem.1 _ hp hep hen.symm

theorem Sound.isDir_of_parent (h : Sound db) (hx : x ∈ db.userFile) (hp : x.parentId = some D) : db.IsDir D := by
  obtain ⟨-, -, -, -, hdir⟩ := h.wellFormed x hx D hp
  exact hdir

/-- A row lies in one place only. -/
theorem Sound.place_unique (h : Sound db) (hp : db.At u p x) (hq : db.At u q x) : p = q := by
  induction hp generalizing q with
  | @home x hx hu hp =>
    cases hq with
    | home => rfl
    | entry _ _ _ hpar =>
      rw [hp] at hpar
      cases hpar
  | @entry p d x hd hx hu hp ih =>
    cases hq with
    | home _ _ hpar =>
      rw [hp] at hpar
      cases hpar
    | @entry q e _ he _ _ hpar =>
      have hsame : d.fileId = e.fileId := Option.some.inj (hp.symm.trans hpar)
      obtain rfl := h.dirOnce d hd.mem.1 e he.mem.1 (h.isDir_of_parent hx hp) hsame
      rw [ih he]

/-- The rows on the way are those of directories. -/
theorem Sound.spells_of_at (h : Sound db) (hx : db.At u p x) :
    ∃ rows, db.Spells u p (rows ++ [x]) ∧ ∀ y ∈ rows, db.IsDir y.fileId := by
  induction hx with
  | @home x hx hu hp =>
    refine ⟨[], ⟨?_, ?_⟩, by simp⟩
    · simpa using ⟨hx, hu⟩
    · exact ⟨by simp [stored, hp], trivial⟩
  | @entry p d x hd hx hu hp ih =>
    obtain ⟨rows, ⟨hmem, hch⟩, hdirs⟩ := ih
    refine ⟨rows ++ [d], ⟨?_, ?_⟩, ?_⟩
    · intro y hy
      rcases List.mem_append.1 hy with hy | hy
      · exact hmem y hy
      · obtain rfl := List.mem_singleton.1 hy
        exact ⟨hx, hu⟩
    · rw [Greedy.chain_concat, Greedy.last_append_singleton]
      exact ⟨hch, by simp [stored, hp]⟩
    · intro y hy
      rcases List.mem_append.1 hy with hy | hy
      · exact hdirs y hy
      · obtain rfl := List.mem_singleton.1 hy
        exact h.isDir_of_parent hx hp

theorem at_of_spells {rows : List UserFile} (h : db.Spells u p (rows ++ [x])) : db.At u p x := by
  induction rows using List.reverseRecOn generalizing p x with
  | nil =>
    obtain ⟨hmem, hch⟩ := h
    obtain ⟨hx, hu⟩ := hmem x (by simp)
    rcases List.eq_nil_or_concat p with rfl | ⟨p, m, rfl⟩
    · exact hch.elim
    · rw [List.concat_eq_append] at hch ⊢
      obtain ⟨hnil, hacc⟩ := Greedy.chain_concat.1 hch
      obtain rfl := List.length_eq_zero_iff.1 hnil.length_eq.symm
      simp only [Greedy.last, stored, Bool.and_eq_true, beq_iff_eq] at hacc
      exact hacc.2 ▸ .home hx hu hacc.1
  | append_singleton rows d ih =>
    obtain ⟨hmem, hch⟩ := h
    obtain ⟨hx, hu⟩ := hmem x (by simp)
    rcases List.eq_nil_or_concat p with rfl | ⟨p, m, rfl⟩
    · have hlen := hch.length_eq
      simp at hlen
    · rw [List.concat_eq_append] at hch ⊢
      obtain ⟨hrest, hacc⟩ := Greedy.chain_concat.1 hch
      rw [Greedy.last_append_singleton] at hacc
      simp only [stored, Bool.and_eq_true, beq_iff_eq] at hacc
      have hd : db.At u p d := ih ⟨fun y hy => hmem y (List.mem_append_left _ hy), hrest⟩
      exact hacc.2 ▸ .entry hd hx hu hacc.1

/-! ### What a row is -/

theorem Catalogue.nodeOf_eq_dir (h : Catalogue db) (hf : f ∈ db.file) : nodeOf f = .dir ↔ f.type = .dir := by
  rw [nodeOf]
  cases hh : f.hash with
  | none => exact iff_of_true rfl (h.digest f hf hh)
  | some hash =>
    refine iff_of_false nofun fun hdir => ?_
    rw [h.dirHash f hf hdir] at hh
    cases hh

theorem nodeOf_eq_file : nodeOf f = .file hash ↔ f.hash = some hash := by
  rw [nodeOf]
  cases f.hash with
  | none => exact iff_of_false nofun nofun
  | some k => exact ⟨fun h => congrArg some (FileTrees.Node.file.inj h), fun h => congrArg _ (Option.some.inj h)⟩

theorem Catalogue.is_dir_iff (h : Catalogue db) : db.Is x .dir ↔ db.IsDir x.fileId := by
  constructor
  · rintro ⟨f, hf, hid, hnode⟩
    exact ⟨f, hf, hid, (h.nodeOf_eq_dir hf).1 hnode⟩
  · rintro ⟨f, hf, hid, hdir⟩
    exact ⟨f, hf, hid, (h.nodeOf_eq_dir hf).2 hdir⟩

theorem Tree.exists_is (h : Tree db) (hx : x ∈ db.userFile) : ∃ n, db.Is x n := by
  obtain ⟨f, hf, hid⟩ := h.fileOf x hx
  exact ⟨_, f, hf, hid, rfl⟩

theorem Keys.is_unique (h : Keys db) {m : FileTrees.Node CStr} (hn : db.Is x n) (hm : db.Is x m) : n = m := by
  obtain ⟨f, hf, hid, rfl⟩ := hn
  obtain ⟨g, hg, hgid, rfl⟩ := hm
  rw [h.fileIds f hf g hg (hid.trans hgid.symm)]

section Represents

theorem Represents.node_ne_none (hs : Represents db s) (h : Tree db) : s.node u p ≠ none ↔ ∃ x, db.At u p x := by
  rw [Option.ne_none_iff_exists']
  constructor
  · rintro ⟨n, hn⟩
    obtain ⟨x, hx, -⟩ := (hs.node u p n).1 hn
    exact ⟨x, hx⟩
  · rintro ⟨x, hx⟩
    obtain ⟨n, hn⟩ := h.exists_is hx.mem.1
    exact ⟨n, (hs.node u p n).2 ⟨x, hx, hn⟩⟩

theorem Represents.node_eq_none (hs : Represents db s) (h : Tree db) : s.node u p = none ↔ ∀ x, ¬ db.At u p x := by
  rw [← not_exists, ← hs.node_ne_none h, not_not]

theorem Represents.node_of_at (hs : Represents db s) (hx : db.At u p x) (hn : db.Is x n) :
    s.node u p = some n := (hs.node u p n).2 ⟨x, hx, hn⟩

theorem Represents.content_eq_none (hs : Represents db s) :
    s.content hash = none ↔ ∀ f ∈ db.file, f.hash ≠ some hash := by
  rw [Option.eq_none_iff_forall_ne_some]
  constructor
  · intro h f hf hh
    exact h f.complete ((hs.content hash _).2 ⟨f, hf, hh, rfl⟩)
  · intro h whole hw
    obtain ⟨f, hf, hh, -⟩ := (hs.content hash whole).1 hw
    exact h f hf hh

theorem represents_empty : Represents {} .empty where
  node u p n := by
    refine iff_of_false nofun ?_
    rintro ⟨x, hx, -⟩
    exact absurd hx.mem.1 List.not_mem_nil
  content hash whole := by
    refine iff_of_false nofun ?_
    rintro ⟨f, hf, -⟩
    exact absurd hf List.not_mem_nil

/-- Nothing of the name is stored in a directory exactly if the path with the name leads nowhere. -/
theorem Represents.free_iff (hs : Represents db s) (h : Sound db) (hd : db.At u p d) (hdir : db.IsDir d.fileId) :
    db.Free d.fileId name ↔ s.node u (p ++ [name]) = none := by
  rw [hs.node_eq_none h.toTree]
  constructor
  · intro hfree x hx
    obtain ⟨e, he, hpar, hname⟩ := hx.snoc hd.ne_nil
    obtain rfl := h.at_unique hd he
    exact hfree x hx.mem.1 hpar hname
  · rintro hnone x hx hpar rfl
    obtain ⟨t, ht, htu, hid, -⟩ := h.wellFormed x hx _ hpar
    obtain rfl := h.dirOnce d hd.mem.1 t ht hdir hid.symm
    exact hnone x (.entry hd hx (htu.symm.trans hd.mem.2) hpar)

/-- What `query_cd` finds is a directory of the trees, or no directory at all. -/
theorem Represents.cd_cases (hs : Represents db s) (h : Sound db) (ord : RowOrder) (u : Nat) (hpath : path ≠ []) :
    (∃ d, db.At u (namesOn path) d ∧ db.IsDir d.fileId ∧ s.node u (namesOn path) = some .dir ∧
      db.cd ord path u = some (d.fileId : Int) ∧ 0 < d.fileId) ∨
    s.node u (namesOn path) ≠ some .dir ∧ ∃ k, db.cd ord path u = some k ∧
      (k ≤ 0 ∨ ∃ D : Nat, k = D ∧ 0 < D ∧ ¬ db.IsDir D) := by
  obtain ⟨names, hnames⟩ := Option.ne_none_iff_exists'.1 (spliteFileName_eq_none.not.2 hpath)
  have hon : namesOn path = names := by rw [namesOn, hnames, Option.getD_some]
  obtain ⟨k, hcd⟩ := exists_cd db ord u hnames
  rw [hon]
  by_cases hnode : s.node u names = some .dir
  · obtain ⟨d, hd, hdir⟩ := (hs.node u names _).1 hnode
    have hdir := h.is_dir_iff.1 hdir
    obtain ⟨rows, hsp, hdirs⟩ := h.spells_of_at hd
    have hin : ∀ x ∈ rows ++ [d], x ∈ db.userFile := fun x hx => (hsp.1 x hx).1
    have hall : ∀ x ∈ rows ++ [d], db.IsDir x.fileId := by
      intro x hx
      rcases List.mem_append.1 hx with hx | hx
      · exact hdirs x hx
      · obtain rfl := List.mem_singleton.1 hx
        exact hdir
    have hsub := Sorted.sublist_of_sorted (rows_sorted db ord u) (h.chain_sorted hin hall hsp.2) fun x hx =>
      mem_rows.2 (hsp.1 x hx)
    exact .inl ⟨d, hd, hdir, hnode, h.cd_of_spells hnames hsp hsub, h.fileId_pos hd.mem.1⟩
  · refine .inr ⟨hnode, k, hcd, ?_⟩
    by_contra hpos
    rw [not_or, not_le] at hpos
    obtain ⟨D, rfl, hD, -⟩ := cd_pos hcd hpos.1
    have hdir : db.IsDir D := by
      by_contra hno
      exact hpos.2 ⟨D, rfl, hD, hno⟩
    obtain ⟨⟨names', rows, r, hnames', hsp, rfl⟩, -⟩ := h.found_iff.1 ⟨hcd, hD⟩
    obtain rfl := Option.some.inj (hnames.symm.trans hnames')
    exact hnode (hs.node_of_at (at_of_spells hsp) (h.is_dir_iff.2 hdir))

end Represents


end Db
end Netdisk

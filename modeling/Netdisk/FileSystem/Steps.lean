import Netdisk.FileSystem.Trees

/-!
# What a call does to the places

Proper calls keep `Sound`, and a row more or less in the tables is an entry more or less in the trees.
-/

namespace Netdisk
namespace Db

variable {db db' : Db} {ord : RowOrder} {s : Trees} {u v D : Nat} {p q names : List CStr} {path name hash : CStr}
  {x y d : UserFile} {f : File} {n : FileTrees.Node CStr}

/-! ### What a call keeps -/

theorem sound_empty : Sound {} where
  toCatalogue := catalogue_empty
  wellFormed := nofun
  accounts := nofun
  home := nofun
  account := nofun

theorem Sound.nested (h : Sound db) : Nested db := ⟨h.toTree, h.bound.trans (by omega), h.wellFormed⟩

/-- Homes are not removed. -/
theorem Sound.home_kept (h : Sound db) {r : UserFile} (hr : r ∈ db.userFile) (hp : r.parentId = none) {fileId : Nat}
    (hx : ∃ x ∈ db.userFile, x.fileId = fileId ∧ x.userId = u ∧ x.parentId = some D) :
    r ∈ (db.exec (.deleteUserFile fileId u)).userFile := by
  refine mem_unlink.2 ⟨hr, ?_⟩
  rintro ⟨hid, -⟩
  obtain ⟨x, hx, hxid, -, hxp⟩ := hx
  obtain rfl := h.dirOnce r hr x hx (h.rootDir r hr hp) (hid.trans hxid.symm)
  rw [hp] at hxp
  cases hxp

theorem Sound.effect {call : Call} (h : Sound db) (hc : Catalogue db') (hn : Nested db') (he : Effect db ord call db') :
    Sound db' := by
  -- a row that is no home changes nothing about the accounts
  have hadd : ∀ {row : UserFile}, row.parentId ≠ none → db'.user = db.user → db'.userFile = db.userFile ++ [row] →
      Sound db' := by
    intro row hp huser hrows
    refine ⟨hc, hn.wellFormed, ?_, ?_, ?_⟩
    · rw [huser]
      exact h.accounts
    · rw [huser, hrows]
      intro x hx
      obtain ⟨r, hr, hrest⟩ := h.home x hx
      exact ⟨r, List.mem_append_left _ hr, hrest⟩
    · rw [huser, hrows]
      intro r hr hrp
      rcases mem_added hr with hr | rfl
      · exact h.account r hr hrp
      · exact absurd hrp hp
  cases he with
  | same => exact h
  | @register rand account password word hnew =>
    refine ⟨hc, hn.wellFormed, ?_, ?_, ?_⟩
    · intro x hx y hy hxy
      rcases mem_added hx with hx | rfl <;> rcases mem_added hy with hy | rfl
      · exact h.accounts x hx y hy hxy
      · exact absurd hxy (hnew x hx)
      · exact absurd hxy.symm (hnew y hy)
      · rfl
    · intro x hx
      rcases mem_added hx with hx | rfl
      · obtain ⟨r, hr, hrest⟩ := h.home x hx
        exact ⟨r, List.mem_append_left _ hr, hrest⟩
      · exact ⟨_, List.mem_append_right _ (List.mem_singleton_self _), rfl, rfl, rfl⟩
    · intro r hr hp
      rcases mem_added hr with hr | rfl
      · obtain ⟨x, hx, hrest⟩ := h.account r hr hp
        exact ⟨x, List.mem_append_left _ hx, hrest⟩
      · exact ⟨_, List.mem_append_right _ (List.mem_singleton_self _), rfl, rfl⟩
  | mkdir => exact hadd (Option.some_ne_none _) rfl rfl
  | putsNew => exact hadd (Option.some_ne_none _) rfl rfl
  | putsLink => exact hadd (Option.some_ne_none _) rfl rfl
  | update => exact ⟨hc, hn.wellFormed, h.accounts, h.home, h.account⟩
  | remove r f hcd hD hlt hr hx =>
    refine ⟨hc, hn.wellFormed, h.accounts, ?_, fun r hr => h.account r (mem_unlink.1 hr).1⟩
    intro x hx'
    obtain ⟨r, hr, hu, hp, hname⟩ := h.home x hx'
    exact ⟨r, h.home_kept hr hp hx, hu, hp, hname⟩

theorem Proper.storesInDirs {i : RowOrder × Call} (hb : db.nextFile ≤ 2 ^ 31) (hi : db.Proper i) : db.StoresInDirs i := by
  obtain ⟨ord, call⟩ := i
  cases call with
  | userRegister => exact lt_of_le_of_lt hb (by omega)
  | queryMkdir => exact hi.orderly.2.2
  | queryPuts => exact hi.orderly.2.2.2.1
  | queryUpdate => trivial
  | queryRemove => trivial

theorem Proper.linksForward {i : RowOrder × Call} (hi : db.Proper i) : db.LinksForward i := by
  obtain ⟨ord, call⟩ := i
  cases call with
  | queryPuts => exact hi.orderly.2.2.2.2
  | _ => trivial

theorem Proper.bound {call : Call} (hb : db.nextFile ≤ 2 ^ 31) (hi : db.Proper (ord, call)) (he : Effect db ord call db') :
    db'.nextFile ≤ 2 ^ 31 := by
  have hle := he.nextFile_le
  cases he with
  | same => exact hb
  | register =>
    have hlt : db.nextFile < 2 ^ 31 := hi.orderly
    omega
  | mkdir =>
    have hlt := hi.orderly.2.1
    omega
  | putsNew =>
    have hlt := hi.orderly.2.2.1
    omega
  | putsLink => exact hb
  | update => exact hb
  | remove => exact hb

theorem Sound.step {C : Crypt} {call : Call} (h : Sound db) (hi : db.Proper (ord, call)) (hst : Step C db (ord, call) db') :
    Sound db' := by
  have he := hst.effect
  have hb := hi.bound h.bound he
  have hg : Grounded db' := h.toGrounded.step hi.fits.1 hi.linksForward ⟨hb, hst⟩
  exact h.effect (h.toCatalogue.effect hg hi.fits.2 he) (h.nested.step (hi.storesInDirs h.bound) hst) he

/-! ### One row more or less -/

section Rows
variable {row : UserFile} {r : List CStr} {m : FileTrees.Node CStr}

theorem At.mono (hrows : db.userFile ⊆ db'.userFile) (h : db.At u p x) : db'.At u p x := by
  induction h with
  | home hx hu hp => exact .home (hrows hx) hu hp
  | entry _ hx hu hp ih => exact .entry ih (hrows hx) hu hp

/-- A row that nothing is stored under changes the places by its own. -/
theorem Sound.at_insert (h' : Sound db') (hrows : db'.userFile = db.userFile ++ [row])
    (hbelow : ∀ x ∈ db'.userFile, x.parentId ≠ some row.fileId) (hrow : db'.At u r row) (v : Nat) (q : List CStr)
    (y : UserFile) : db'.At v q y ↔ db.At v q y ∨ v = u ∧ q = r ∧ y = row := by
  have hplace : ∀ v q, db'.At v q row → v = u ∧ q = r := by
    intro v q h
    obtain rfl : v = u := h.mem.2.symm.trans hrow.mem.2
    exact ⟨rfl, h'.place_unique h hrow⟩
  constructor
  · intro h
    induction h with
    | @home y hy hu hp =>
      rcases mem_added (hrows ▸ hy) with hold | rfl
      · exact .inl (.home hold hu hp)
      · obtain ⟨hv, hq⟩ := hplace v _ (.home hy hu hp)
        exact .inr ⟨hv, hq, rfl⟩
    | @entry q d y hd hy hu hp ih =>
      rcases mem_added (hrows ▸ hy) with hold | rfl
      · rcases ih with ih | ⟨-, -, rfl⟩
        · exact .inl (.entry ih hold hu hp)
        · exact absurd hp (hbelow y hy)
      · obtain ⟨hv, hq⟩ := hplace v _ (.entry hd hy hu hp)
        exact .inr ⟨hv, hq, rfl⟩
  · rintro (h | ⟨rfl, rfl, rfl⟩)
    · exact h.mono (hrows ▸ List.subset_append_left _ _)
    · exact hrow

theorem at_remove (hrows : ∀ y, y ∈ db'.userFile ↔ y ∈ db.userFile ∧ y ≠ row)
    (hbelow : ∀ y ∈ db.userFile, y.userId = row.userId → y.parentId ≠ some row.fileId) (v : Nat) (q : List CStr)
    (y : UserFile) : db'.At v q y ↔ db.At v q y ∧ y ≠ row := by
  constructor
  · intro h
    exact ⟨h.mono fun z hz => ((hrows z).1 hz).1, ((hrows y).1 h.mem.1).2⟩
  · rintro ⟨h, hy⟩
    induction h with
    | home hx hu hp => exact .home ((hrows _).2 ⟨hx, hy⟩) hu hp
    | @entry q d x hd hx hu hp ih =>
      refine .entry (ih ?_) ((hrows _).2 ⟨hx, hy⟩) hu hp
      rintro rfl
      exact hbelow x hx (hu.trans hd.mem.2.symm) hp

theorem is_append {files : List File} (h : Tree db) (hfile : db'.file = db.file ++ files)
    (hnew : ∀ f ∈ files, db.nextFile ≤ f.id) (hx : x ∈ db.userFile) : db'.Is x n ↔ db.Is x n := by
  constructor
  · rintro ⟨f, hf, hid, hn⟩
    rcases List.mem_append.1 (hfile ▸ hf) with hf | hf
    · exact ⟨f, hf, hid, hn⟩
    · have hlt := h.fileId_lt hx
      have hle := hnew f hf
      omega
  · rintro ⟨f, hf, hid, hn⟩
    exact ⟨f, hfile ▸ List.mem_append_left _ hf, hid, hn⟩

variable {node : Nat → List CStr → Option (FileTrees.Node CStr)}

theorem setNode_insert (hnode : ∀ v q n, node v q = some n ↔ ∃ x, db.At v q x ∧ db.Is x n) (h' : Keys db')
    (hat : ∀ v q y, db'.At v q y ↔ db.At v q y ∨ v = u ∧ q = r ∧ y = row) (hfree : ∀ x, ¬ db.At u r x)
    (his : ∀ x ∈ db.userFile, ∀ n, db'.Is x n ↔ db.Is x n) (hrow : db'.Is row m) (v : Nat) (q : List CStr)
    (n : FileTrees.Node CStr) :
    FileTrees.setNode node u r (some m) v q = some n ↔ ∃ x, db'.At v q x ∧ db'.Is x n := by
  by_cases hq : v = u ∧ q = r
  · obtain ⟨rfl, rfl⟩ := hq
    rw [FileTrees.setNode_self]
    constructor
    · intro heq
      obtain rfl := Option.some.inj heq
      exact ⟨row, (hat v q row).2 (.inr ⟨rfl, rfl, rfl⟩), hrow⟩
    · rintro ⟨x, hx, hn⟩
      rcases (hat v q x).1 hx with hx | ⟨-, -, rfl⟩
      · exact absurd hx (hfree x)
      · rw [h'.is_unique hrow hn]
  · rw [FileTrees.setNode_of_ne hq, hnode]
    refine exists_congr fun x => ?_
    constructor
    · rintro ⟨hx, hn⟩
      exact ⟨(hat v q x).2 (.inl hx), (his x hx.mem.1 n).2 hn⟩
    · rintro ⟨hx, hn⟩
      rcases (hat v q x).1 hx with hx | ⟨hv, hq', -⟩
      · exact ⟨hx, (his x hx.mem.1 n).1 hn⟩
      · exact absurd ⟨hv, hq'⟩ hq

theorem setNode_remove (hnode : ∀ v q n, node v q = some n ↔ ∃ x, db.At v q x ∧ db.Is x n) (h : Sound db)
    (hat : ∀ v q y, db'.At v q y ↔ db.At v q y ∧ y ≠ row) (hrow : db.At u r row) (hfile : db'.file = db.file) (v : Nat)
    (q : List CStr) (n : FileTrees.Node CStr) :
    FileTrees.setNode node u r none v q = some n ↔ ∃ x, db'.At v q x ∧ db'.Is x n := by
  have his : ∀ x, db'.Is x n ↔ db.Is x n := by
    intro x
    rw [Is, hfile, Is]
  by_cases hq : v = u ∧ q = r
  · obtain ⟨rfl, rfl⟩ := hq
    rw [FileTrees.setNode_self]
    refine iff_of_false nofun ?_
    rintro ⟨x, hx, -⟩
    obtain ⟨hx, hne⟩ := (hat v q x).1 hx
    exact hne (h.at_unique hx hrow)
  · rw [FileTrees.setNode_of_ne hq, hnode]
    refine exists_congr fun x => ?_
    rw [his, hat]
    constructor
    · rintro ⟨hx, hn⟩
      refine ⟨⟨hx, ?_⟩, hn⟩
      rintro rfl
      exact hq ⟨hx.mem.2.symm.trans hrow.mem.2, h.place_unique (hx.mem.2.symm.trans hrow.mem.2 ▸ hx) hrow⟩
    · rintro ⟨⟨hx, -⟩, hn⟩
      exact ⟨hx, hn⟩

theorem at_congr (hrows : db'.userFile = db.userFile) : db'.At u p x ↔ db.At u p x :=
  ⟨At.mono (by rw [hrows]; exact List.Subset.refl _), At.mono (by rw [hrows]; exact List.Subset.refl _)⟩

end Rows

end Db
end Netdisk

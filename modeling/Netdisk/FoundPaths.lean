import Netdisk.PathResolution

/-!
# Paths that are there

`LeadsTo` is what it means that a path exists for a user. `query_cd` finds it exactly if the rows it
leads over come in the order of the path (`Catalogue.found_iff`), and the operations that start with
`query_cd` go by that.
-/

namespace Netdisk
namespace Db
open Runs

/-- The rows of `u` that the path leads over end with one for the file `D`. -/
def LeadsTo (db : Db) (u : Nat) (path : CStr) (D : Nat) : Prop :=
  ∃ names rows r, spliteFileName path = some names ∧ db.Spells u names (rows ++ [r]) ∧ r.fileId = D

/-- The rows of `u` are delivered in such an order that those the path leads over come one after the other. -/
def InOrder (db : Db) (ord : RowOrder) (u : Nat) (path : CStr) : Prop :=
  ∀ names rows, spliteFileName path = some names → db.Spells u names rows →
    rows.Sublist (db.userFileRows ord (.ofUser u))

/-- The digest that a call stores fits `hash_value` of `file_t`. -/
def Call.DigestFits : Call → Prop
  | .queryPuts _ _ hash _ => hash.length < hashSize
  | _ => True

instance : DecidablePred Call.DigestFits
  | .queryPuts _ _ hash _ => inferInstanceAs (Decidable (hash.length < hashSize))
  | .userRegister .. | .queryMkdir .. | .queryUpdate _ | .queryRemove .. => isTrue trivial

/-- What a call stores fits the arrays it is read into. -/
def Call.Fits (call : Call) : Prop := call.NameFits ∧ call.DigestFits

instance : DecidablePred Call.Fits := fun call => inferInstanceAs (Decidable (call.NameFits ∧ call.DigestFits))

/-- A directory is a complete file without a digest, and nothing else has none. -/
structure Catalogue (db : Db) : Prop extends Grounded db where
  digest : ∀ f ∈ db.file, f.hash = none → f.type = .dir
  whole : ∀ f ∈ db.file, f.type = .dir → f.complete = true
  digestFits : ∀ f ∈ db.file, (f.hash.getD []).length < hashSize

variable {db db' : Db} {ord : RowOrder} {u D : Nat} {path name : CStr}

/-! ### Runs -/

theorem catalogue_empty : Catalogue {} where
  toGrounded := rooted_empty.grounded
  digest := nofun
  whole := nofun
  digestFits := nofun

theorem Effect.nextFile_le {call : Call} (he : Effect db ord call db') : db'.nextFile ≤ db.nextFile + 1 := by
  cases he <;> first | exact le_rfl | exact Nat.le_succ _

theorem Catalogue.effect {call : Call} (h : Catalogue db) (hg : Grounded db') (hfits : call.DigestFits)
    (he : Effect db ord call db') : Catalogue db' := by
  refine ⟨hg, ?_, ?_, ?_⟩
  · intro f hf hhash
    cases he with
    | same | putsLink | remove => exact h.digest f hf hhash
    | register | mkdir =>
      rcases mem_added hf with hf | rfl
      · exact h.digest f hf hhash
      · rfl
    | putsNew =>
      rcases mem_added hf with hf | rfl
      · exact h.digest f hf hhash
      · cases hhash
    | update =>
      obtain ⟨e, he, -, htype, hsame, -⟩ := mem_complete hf
      exact htype.trans (h.digest e he (hsame.symm.trans hhash))
  · intro f hf hdir
    cases he with
    | same | putsLink | remove => exact h.whole f hf hdir
    | register | mkdir =>
      rcases mem_added hf with hf | rfl
      · exact h.whole f hf hdir
      · rfl
    | putsNew =>
      rcases mem_added hf with hf | rfl
      · exact h.whole f hf hdir
      · cases hdir
    | update =>
      obtain ⟨e, he, -, htype, -, rfl⟩ := mem_complete hf
      have hwhole := h.whole e he (htype.symm.trans hdir)
      split
      · rfl
      · exact hwhole
  · intro f hf
    cases he with
    | same | putsLink | remove => exact h.digestFits f hf
    | register | mkdir =>
      rcases mem_added hf with hf | rfl
      · exact h.digestFits f hf
      · exact Nat.succ_pos _
    | putsNew =>
      rcases mem_added hf with hf | rfl
      · exact h.digestFits f hf
      · exact hfits
    | update =>
      obtain ⟨e, he, -, -, hsame, -⟩ := mem_complete hf
      exact hsame ▸ h.digestFits e he

/-- What a call must meet in the state before it for the catalogue to stay in order. -/
def InBounds (db : Db) (i : RowOrder × Call) : Prop := i.2.Fits ∧ db.nextFile < 2 ^ 31 ∧ LinksForward db i

theorem Catalogue.step {C : Crypt} {i : RowOrder × Call} (h : Catalogue db) (hi : InBounds db i)
    (hst : Step C db i db') : Catalogue db' := by
  obtain ⟨ord, call⟩ := i
  obtain ⟨⟨hname, hdigest⟩, hnext, hfwd⟩ := hi
  have he := hst.effect
  exact h.effect (h.toGrounded.step hname hfwd ⟨he.nextFile_le.trans hnext, hst⟩) hdigest he

/-! ### One way at most -/

theorem Tree.spells_unique (h : Tree db) {names : List CStr} {rows rows' : List UserFile} (hsp : db.Spells u names rows)
    (hsp' : db.Spells u names rows') : rows' = rows := by
  refine hsp.2.unique hsp'.2 fun p n x hx y hy hp hp' => ?_
  obtain ⟨hx, hxu⟩ := hsp.1 x hx
  obtain ⟨hy, hyu⟩ := hsp'.1 y hy
  simp only [stored, Bool.and_eq_true, beq_iff_eq] at hp hp'
  cases p with
  | none => exact h.roots y hy x hx (hyu.trans hxu.symm) hp'.1 hp.1
  | some q => exact h.names y hy x hx q hp'.1 hp.1 (hp'.2.trans hp.2.symm)

theorem Tree.leadsTo_unique (h : Tree db) {D' : Nat} (hD : db.LeadsTo u path D) (hD' : db.LeadsTo u path D') : D' = D := by
  obtain ⟨names, rows, r, hnames, hsp, rfl⟩ := hD
  obtain ⟨names', rows', r', hnames', hsp', rfl⟩ := hD'
  obtain rfl := Option.some.inj (hnames.symm.trans hnames')
  have hlast := congrArg List.getLast? (h.spells_unique hsp hsp')
  simp only [List.getLast?_concat, Option.some.injEq] at hlast
  rw [hlast]

/-- More rows leave the ways that there are. -/
theorem LeadsTo.mono (hrows : ∀ x ∈ db.userFile, x ∈ db'.userFile) (h : db.LeadsTo u path D) : db'.LeadsTo u path D := by
  obtain ⟨names, rows, r, hnames, ⟨hmem, hch⟩, hr⟩ := h
  exact ⟨names, rows, r, hnames, ⟨fun x hx => ⟨hrows x (hmem x hx).1, (hmem x hx).2⟩, hch⟩, hr⟩

/-! ### `query_cd` -/

theorem spliteFileName_of_cd_none (hcd : db.cd ord path u = none) : spliteFileName path = none := by
  cases hnames : spliteFileName path with
  | none => rfl
  | some names =>
    obtain ⟨d, hd⟩ := exists_cd db ord u hnames
    exact absurd (hcd.symm.trans hd) nofun

theorem not_leadsTo_of_cd_none (hcd : db.cd ord path u = none) : ¬ db.LeadsTo u path D := by
  rintro ⟨names, rows, r, hnames, -⟩
  exact absurd (hnames.symm.trans (spliteFileName_of_cd_none hcd)) nofun

/-- `query_cd` finds the paths that exist and lie in order. -/
theorem Grounded.found_iff (h : Grounded db) :
    db.cd ord path u = some (D : Int) ∧ 0 < D ↔ db.LeadsTo u path D ∧ db.InOrder ord u path := by
  constructor
  · rintro ⟨hcd, hD⟩
    obtain ⟨names, rows, r, hnames, hsp, hsub, hr⟩ := h.spells_of_cd hcd (by omega)
    refine ⟨⟨names, rows, r, hnames, hsp, by omega⟩, fun names' rows' hnames' hsp' => ?_⟩
    obtain rfl := Option.some.inj (hnames.symm.trans hnames')
    rw [h.spells_unique hsp hsp']
    exact hsub
  · rintro ⟨⟨names, rows, r, hnames, hsp, rfl⟩, horder⟩
    have hr : r ∈ db.userFile := (hsp.1 r (List.mem_append_right _ (List.mem_singleton_self r))).1
    exact ⟨h.cd_of_spells hnames hsp (horder names _ hnames hsp), h.fileId_pos hr⟩

theorem Grounded.cd_pos_iff (h : Grounded db) {d : Int} (hcd : db.cd ord path u = some d) :
    0 < d ↔ (∃ D, db.LeadsTo u path D) ∧ db.InOrder ord u path := by
  constructor
  · intro hd
    obtain ⟨D, rfl, hD, -⟩ := cd_pos hcd hd
    obtain ⟨hleads, horder⟩ := h.found_iff.1 ⟨hcd, hD⟩
    exact ⟨⟨D, hleads⟩, horder⟩
  · rintro ⟨⟨D, hleads⟩, horder⟩
    obtain ⟨hD, hpos⟩ := h.found_iff.2 ⟨hleads, horder⟩
    obtain rfl := Option.some.inj (hcd.symm.trans hD)
    omega

theorem inOrder_of_not_exists (hnone : ¬ ∃ D, db.LeadsTo u path D) : db.InOrder ord u path := by
  intro names rows hnames hsp
  rcases List.eq_nil_or_concat rows with rfl | ⟨rows, r, rfl⟩
  · exact List.nil_sublist _
  · rw [List.concat_eq_append] at hsp
    exact absurd ⟨r.fileId, names, rows, r, hnames, hsp, rfl⟩ hnone

/-- What `query_cd` returns otherwise: -1 if the user has no rows, and 0. -/
theorem Grounded.cd_nonpos (h : Grounded db) {d : Int} (hcd : db.cd ord path u = some d) (hd : d ≤ 0) :
    d = -1 ∧ (∀ x ∈ db.userFile, x.userId ≠ u) ∨ d = 0 ∧ (∃ x ∈ db.userFile, x.userId = u) ∧ spliteFileName path ≠ none := by
  cases hrows : db.userFileRows ord (.ofUser u) with
  | nil =>
    obtain rfl := Option.some.inj (hcd.symm.trans (cd_noRows hrows))
    exact .inl ⟨rfl, fun x hx hxu => absurd (hrows ▸ mem_rows.2 ⟨hx, hxu⟩) List.not_mem_nil⟩
  | cons r rs =>
    have hr := mem_rows.1 (hrows ▸ List.mem_cons_self)
    cases hnames : spliteFileName path with
    | none =>
      rw [cd, selectUserFile, hrows, List.map_cons, hnames] at hcd
      cases hcd
    | some names =>
      refine .inr ⟨?_, ⟨r, hr⟩, Option.some_ne_none names⟩
      rw [cd_eq hrows hnames] at hcd
      rcases hwalk : Greedy.walk accepts (fun r => intOf r.fileId) (r :: rs) names (intOf (r.parentId.getD 0)) with ⟨left, p⟩
      rw [hwalk] at hcd
      have hret : (if left = [] then p else 0) = d := Option.some.inj hcd
      split at hret
      · next hleft =>
        -- the chain has an end, which is the row of a file
        subst hleft hret
        obtain ⟨as, t, hsub, -, hlast⟩ := Greedy.exists_concat_of_walk (spliteFileName_ne_nil hnames) hwalk
        have ht : t ∈ as ++ [t] := List.mem_append_right _ (List.mem_singleton_self t)
        have hmem := (mem_rows.1 (hrows ▸ hsub.subset ht)).1
        rw [intOf_of_lt (h.fileId_lt hmem)] at hlast
        have hpos := h.fileId_pos hmem
        omega
      · exact hret.symm

/-! ### The operations after it -/

section Operations
variable {hash : CStr} {d : Int}

theorem queryMkdir_nonpos (hcd : db.cd ord path u = some d) (hd : d ≤ 0) :
    (queryMkdir path name u).run (handler ord) db = some (d, db) := by
  rw [queryMkdir, Prog.bind_eq, queryCd_bind_run, hcd]
  simp [hd]

theorem queryMkdir_taken (hcd : db.cd ord path u = some (D : Int)) (hD : 0 < D) (hfree : ¬ db.Free D name) :
    (queryMkdir path name u).run (handler ord) db = some (1, db) := by
  have hreg : regOf D = D := regOf_of_lt (by have := cd_lt hcd; omega)
  have hn : db.selectUserFile ord (.named D name) ≠ [] := selectUserFile_named_eq_nil.not.2 hfree
  rw [queryMkdir, Prog.bind_eq, queryCd_bind_run, hcd]
  simp [hD.ne', handler, hreg, hn]

theorem queryRemove_nonpos (hcd : db.cd ord path u = some d) (hd : d ≤ 0) :
    (queryRemove path name u).run (handler ord) db = some (d, db) := by
  rw [queryRemove, Prog.bind_eq, queryCd_bind_run, hcd]
  simp [hd]

theorem queryPuts_nonpos (hcd : db.cd ord path u = some d) (hd : d ≤ 0) :
    (queryPuts path name hash u).run (handler ord) db = some (if d < 0 then -2 else -1, db) := by
  rw [queryPuts, Prog.bind_eq, queryCd_bind_run, hcd]
  rcases hd.lt_or_eq with hd | rfl
  · simp [hd]
  · simp

theorem queryPuts_recorded (hcd : db.cd ord path u = some (D : Int)) (hD : 0 < D) (hfree : db.Free D name)
    (hnew : ∀ f ∈ db.file, f.hash ≠ some hash) :
    (queryPuts path name hash u).run (handler ord) db =
      some (1, (db.exec (.insertFile hash hash)).exec (.insertUserFile name u db.nextFile (some D))) := by
  have hreg : regOf D = D := regOf_of_lt (by have := cd_lt hcd; omega)
  have hneg : ¬ (D : Int) < 0 := by omega
  have hn : db.selectUserFile ord (.named D name) = [] := selectUserFile_named_eq_nil.2 hfree
  have hh : db.selectFile ord (.byHash hash) = [] := selectFile_byHash_eq_nil.2 hnew
  rw [queryPuts, Prog.bind_eq, queryCd_bind_run, hcd]
  simp [hneg, hD.ne', handler, hreg, hn, hh]
  rfl

/-- The name is taken, by an entry for a file that exists. -/
theorem Catalogue.queryPuts_known (h : Catalogue db) (hcd : db.cd ord path u = some (D : Int)) (hD : 0 < D)
    {x : UserFile} (hx : x ∈ db.userFile) (hp : x.parentId = some D) (hname : x.name = name)
    {f : File} (hf : f ∈ db.file) (hid : f.id = x.fileId) :
    (queryPuts path name hash u).run (handler ord) db =
      some (if hash = f.hash.getD [] then (if f.complete then 2 else 1) else 0, db) := by
  have hreg : regOf D = D := regOf_of_lt (by have := cd_lt hcd; omega)
  have hneg : ¬ (D : Int) < 0 := by omega
  have hrow : regOf (intOf x.fileId) = x.fileId := regOf_intOf ((h.fileId_lt hx).trans (by omega))
  rw [queryPuts, Prog.bind_eq, queryCd_bind_run, hcd]
  cases hn : db.selectUserFile ord (.named D name) with
  | nil => exact absurd hname (selectUserFile_named_eq_nil.1 hn x hx hp)
  | cons y ys =>
    obtain ⟨y, hy, hholds, rfl⟩ := selectUserFile_cons hn
    simp only [UserFileQuery.holds, Bool.and_eq_true, beq_iff_eq] at hholds
    obtain rfl := h.names y hy x hx D hholds.1 hp (hholds.2.trans hname.symm)
    cases hsel : db.selectFile ord (.byId y.fileId) with
    | nil => exact absurd hid (selectFile_byId_eq_nil.1 hsel f hf)
    | cons g gs =>
      obtain ⟨g, hg, hgid, rfl⟩ := selectFile_cons hsel
      obtain rfl := h.fileIds g hg f hf ((beq_iff_eq.1 hgid).trans hid.symm)
      have hheld : g.heldHash = g.hash.getD [] := (File.heldHash_eq_iff (h.digestFits g hg)).2 rfl
      simp [hneg, hD.ne', handler, hreg, hn, hsel, hrow, convertToUserfile, convertToFile, hheld]

end Operations

end Db
end Netdisk

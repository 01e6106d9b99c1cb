import Netdisk.FoundPaths

/-!
# What `puts` records, `gets` finds

`query_puts` looks for a row by parent and name, `query_gets` for a file by user, parent, name and
type. In a directory the two mean the same, since it has one row and one owner. The digest is copied
to `hash_value` though, which holds 255 bytes. `getsFollowsPuts_iff`: whatever `query_puts` found or
added, `query_gets` delivers the hash once the file is complete, exactly for the hashes that `hash_value`
gives back as they are.
-/

namespace Netdisk
namespace Db
open Runs

/-- After a `query_puts` of `hash` into a directory that still resolves, `query_gets` finds the file: at once
if it is complete, and after `query_update` otherwise. A `query_puts` that refuses changes nothing. -/
def GetsFollowsPuts (hash : CStr) (db : Db) : Prop :=
  ∀ (ord : RowOrder) (path fileName : CStr) (u : Nat) (ret : Int) (db' : Db), hash ≠ [] →
    db'.nextFile ≤ 2 ^ 31 → (queryPuts path fileName hash u).run (handler ord) db = some (ret, db') →
    (ret ≠ 1 → ret ≠ 2 → db' = db) ∧
    ∀ D : Nat, 0 < D → db.IsDir D → (queryCd path u).run (handler ord) db = some ((D : Int), db) →
    ∀ ord', (queryCd path u).run (handler ord') db' = some ((D : Int), db') →
      (ret = 2 → (queryGets path fileName u).run (handler ord') db' = some ((1, hash), db')) ∧
      (ret = 1 → (queryGets path fileName u).run (handler ord') db' = some ((0, []), db') ∧
        ∀ (ord'' : RowOrder) (done : Int) (db'' : Db),
          (queryUpdate hash).run (handler ord'') db' = some (done, db'') →
          (queryGets path fileName u).run (handler ord') db'' = some ((1, hash), db''))

/-- A hash that fits `hash_value`, or runs over into `complete` and `quote` with what they hold for a
complete file. -/
def ReadsBack (hash : CStr) : Prop := hash.length < hashSize ∨ hash.drop hashSize = ['\x01', '\x01']

/-- The tree, with all entries of a directory in the hands of its owner, and no file quoted twice. -/
structure Owned (db : Db) : Prop extends IntTree db where
  quote : ∀ f ∈ db.file, f.quote = 1
  owner : ∀ x ∈ db.userFile, ∀ t ∈ db.userFile, db.IsDir t.fileId → x.parentId = some t.fileId → x.userId = t.userId

variable {db db' : Db} {ord : RowOrder} {path fileName hash : CStr} {u D : Nat}

theorem owned_empty : Owned {} where
  toTree := tree_empty
  bound := by decide
  quote := nofun
  owner := nofun

/-! ### The hash in `hash_value` -/

section Held
variable {f : File}

theorem heldHash_of_long (hfh : f.hash = some hash) (hlong : hashSize ≤ hash.length) :
    f.heldHash = hash.take hashSize ++
      (bytesOf 1 f.complete.toNat ++ bytesOf 4 f.quote ++ hash.drop 260).takeWhile (· ≠ '\x00') := by
  simp [File.heldHash, hfh, fieldOf, Nat.not_lt.2 hlong]

theorem heldHash_eq_hash_iff (hfh : f.hash = some hash) (hc : f.complete = true) (hq : f.quote = 1) :
    f.heldHash = hash ↔ ReadsBack hash := by
  rcases Nat.lt_or_ge hash.length hashSize with hlen | hlen
  · refine iff_of_true ((File.heldHash_eq_iff hlen).2 ?_) (.inl hlen)
    rw [hfh, Option.getD_some]
  · have hbehind : (bytesOf 1 f.complete.toNat ++ bytesOf 4 f.quote ++ hash.drop 260).takeWhile (· ≠ '\x00') =
        ['\x01', '\x01'] := by
      have hone : bytesOf 1 f.complete.toNat ++ bytesOf 4 f.quote = ['\x01', '\x01', '\x00', '\x00', '\x00'] := by
        rw [hc, hq]
        decide
      simp [hone]
    have hback : ReadsBack hash ↔ hash.drop hashSize = ['\x01', '\x01'] := or_iff_right (Nat.not_lt.2 hlen)
    rw [heldHash_of_long hfh hlen, hbehind, hback]
    conv_lhs => rhs; rw [← List.take_append_drop hashSize hash]
    rw [List.append_cancel_left_eq, eq_comm]

/-- What reads as the hash before the file is complete is the hash. -/
theorem ReadsBack.stored (h : ReadsBack hash) (hne : hash ≠ []) (hheld : f.heldHash = hash) (hc : f.complete = false) :
    f.hash = some hash := by
  rcases h with hlen | hdrop
  · have hfh := (File.heldHash_eq_iff hlen).1 hheld
    cases hopt : f.hash with
    | none => exact absurd (by simpa [hopt] using hfh) hne.symm
    | some k => simpa [hopt] using hfh
  · -- `complete` ends the string
    have hlen : f.heldHash.length ≤ hashSize := by
      unfold File.heldHash fieldOf
      dsimp only
      split
      · omega
      · simp [hc, bytesOf]
    have hlong := congrArg List.length hdrop
    simp [← hheld] at hlong
    omega

end Held

/-! ### The owner of a directory -/

theorem Tree.isDir_of_append (h : Tree db) {files : List File} (hfile : db'.file = db.file ++ files)
    (hnew : ∀ f ∈ files, db.nextFile ≤ f.id) {x : UserFile} (hx : x ∈ db.userFile) (hdir : db'.IsDir x.fileId) :
    db.IsDir x.fileId := by
  obtain ⟨f, hf, hid, htype⟩ := hdir
  rcases List.mem_append.1 (hfile ▸ hf) with hf | hf
  · exact ⟨f, hf, hid, htype⟩
  · have hlt := h.fileId_lt hx
    have hle := hnew f hf
    omega

/-- A row more, for a new file or for a plain one; its parent resolved for the user. -/
theorem Owned.insert (h : Owned db) (ht : IntTree db') {row : UserFile} {files : List File}
    (hrows : ∀ x ∈ db'.userFile, x ∈ db.userFile ∨ x = row) (hfile : db'.file = db.file ++ files)
    (hnew : ∀ f ∈ files, db.nextFile ≤ f.id ∧ f.quote = 1)
    (hparent : ∀ p, row.parentId = some p → ∃ t ∈ db.userFile, t.userId = row.userId ∧ t.fileId = p)
    (hdir : db'.IsDir row.fileId → db.nextFile ≤ row.fileId) : Owned db' where
  toIntTree := ht
  quote := by
    intro f hf
    rcases List.mem_append.1 (hfile ▸ hf) with hf | hf
    · exact h.quote f hf
    · exact (hnew f hf).2
  owner := by
    intro x hx t htm htdir hp
    rcases hrows t htm with htm | rfl
    · have hwas := h.toTree.isDir_of_append hfile (fun f hf => (hnew f hf).1) htm htdir
      rcases hrows x hx with hx | rfl
      · exact h.owner x hx t htm hwas hp
      · obtain ⟨s, hs, hsu, hsid⟩ := hparent _ hp
        obtain rfl := h.dirOnce t htm s hs hwas hsid.symm
        exact hsu.symm
    · have hle := hdir htdir
      rcases hrows x hx with hx | rfl
      · have hlt := (h.parentLt x hx _ hp).2
        omega
      · rfl

theorem Owned.step {C : Crypt} {i : RowOrder × Call} (h : Owned db) (hst : IdStep C db i db') : Owned db' := by
  obtain ⟨ord, call⟩ := i
  have ht := h.toIntTree.step hst
  have htarget : ∀ {path : CStr} {u D : Nat}, db.cd ord path u = some (D : Int) → 0 < D →
      ∀ p, some D = some p → ∃ t ∈ db.userFile, t.userId = u ∧ t.fileId = p := by
    intro path u D hcd hD p hp
    exact Option.some.inj hp ▸ h.target hcd hD
  have hfresh : ∀ f : File, f.id = db.nextFile → f.quote = 1 → ∀ g ∈ [f], db.nextFile ≤ g.id ∧ g.quote = 1 := by
    intro f hf hq g hg
    obtain rfl := List.mem_singleton.1 hg
    exact ⟨hf.ge, hq⟩
  cases Step.effect hst.2 with
  | same => exact h
  | register word hnew => exact h.insert ht (fun _ => mem_added) rfl (hfresh _ rfl rfl) nofun fun _ => le_rfl
  | mkdir hcd hD hlt hfree =>
    rw [h.regOf_nextFile] at ht ⊢
    exact h.insert ht (fun _ => mem_added) rfl (hfresh _ rfl rfl) (htarget hcd hD) fun _ => le_rfl
  | putsNew hcd hD hlt hfree hnew =>
    exact h.insert ht (fun _ => mem_added) rfl (hfresh _ rfl rfl) (htarget hcd hD) fun _ => le_rfl
  | putsLink f hcd hD hlt hfree hf hhash =>
    refine h.insert ht (fun _ => mem_added) (List.append_nil _).symm (by simp) (htarget hcd hD) ?_
    rintro ⟨g, hg, hid, htype⟩
    obtain rfl := h.fileIds g hg f hf hid
    exact absurd (h.dirHash g hg htype) (hhash ▸ nofun)
  | update =>
    refine ⟨ht, fun f hf => ?_, fun x hx t htm hdir => h.owner x hx t htm (isDir_complete.1 hdir)⟩
    obtain ⟨e, he, rfl⟩ := List.mem_map.1 hf
    split
    · exact h.quote e he
    · exact h.quote e he
  | remove r =>
    exact ⟨ht, h.quote, fun x hx t htm => h.owner x (mem_unlink.1 hx).1 t (mem_unlink.1 htm).1⟩

/-! ### `query_gets` -/

/-- The file that `u` has under a name in `D`, with its row. -/
structure Entry (db : Db) (u D : Nat) (fileName hash : CStr) (x : UserFile) (f : File) : Prop where
  row : x ∈ db.userFile
  userId : x.userId = u
  parentId : x.parentId = some D
  name : x.name = fileName
  file : f ∈ db.file
  fileId : f.id = x.fileId
  type : f.type = .file
  hash_eq : f.hash = some hash

/-- `query_gets` selects the file that is stored, and no other, and delivers its hash as `hash_value` holds it. -/
theorem Keys.queryGets_run (h : Keys db) {x : UserFile} {f : File} (hs : Entry db u D fileName hash x f) (hD : 0 < D)
    (hcd : db.cd ord path u = some (D : Int)) :
    (queryGets path fileName u).run (handler ord) db = some (if f.complete then (1, f.heldHash) else (0, []), db) := by
  have hreg : regOf D = D := regOf_of_lt (by have := cd_lt hcd; omega)
  have hneg : ¬ (D : Int) < 0 := by omega
  have hfound : f ∈ db.fileRows ord (.linked u D fileName) := by
    refine (mem_fileRows db ord).2 ⟨hs.file, ?_⟩
    simp only [FileQuery.holds, Bool.and_eq_true, List.any_eq_true, beq_iff_eq]
    exact ⟨⟨x, hs.row, ⟨⟨hs.fileId.symm, hs.userId⟩, hs.parentId⟩, hs.name⟩, hs.type⟩
  have honly : ∀ g ∈ db.fileRows ord (.linked u D fileName), g = f := by
    intro g hg
    obtain ⟨hg, hholds⟩ := (mem_fileRows db ord).1 hg
    simp only [FileQuery.holds, Bool.and_eq_true, List.any_eq_true, beq_iff_eq] at hholds
    obtain ⟨⟨y, hy, ⟨⟨hid, -⟩, hp⟩, hname⟩, -⟩ := hholds
    obtain rfl := h.names y hy x hs.row D hp hs.parentId (hname.trans hs.name.symm)
    exact h.fileIds g hg f hs.file (hid.symm.trans hs.fileId.symm)
  obtain ⟨g, gs, hrows⟩ := List.exists_cons_of_ne_nil (List.ne_nil_of_mem hfound)
  obtain rfl := honly g (hrows ▸ List.mem_cons_self)
  have hsel : db.selectFile ord (.linked u D fileName) = convertToFile g :: gs.map convertToFile := by
    rw [selectFile, hrows]
    rfl
  rw [queryGets, Prog.bind_eq, queryCd_bind_run, hcd]
  cases hc : g.complete <;> simp [hneg, hD.ne', handler, hreg, hsel, convertToFile, hc]

/-- The entry of a `query_puts` for a new file. -/
theorem entry_new : Entry ((db.exec (.insertFile hash hash)).exec (.insertUserFile fileName u db.nextFile (some D)))
    u D fileName hash ⟨db.nextUserFile, fileName, u, db.nextFile, some D⟩
    { id := db.nextFile, type := .file, realPath := hash, hash := hash, complete := false } where
  row := List.mem_append_right _ (List.mem_singleton_self _)
  userId := rfl
  parentId := rfl
  name := rfl
  file := List.mem_append_right _ (List.mem_singleton_self _)
  fileId := rfl
  type := rfl
  hash_eq := rfl

/-- What a `query_puts` that takes the file leaves stored: the hash, or one that reads like it. -/
theorem Owned.entry_of_puts (h : Owned db) {ret : Int} (hhash : hash ≠ []) (hD : 0 < D)
    (hdir : db.IsDir D) (hcd : db.cd ord path u = some (D : Int)) (hputs : Puts db ord path u fileName hash ret db')
    (hret : ret = 1 ∨ ret = 2) :
    ∃ k x f, Entry db' u D fileName k x f ∧ f.quote = 1 ∧ (k = hash ∨ f.heldHash = hash) ∧
      ret = if f.complete then 2 else 1 := by
  have hplain : ∀ f ∈ db.file, f.hash ≠ none → f.type = .file := by
    intro f hf hfh
    cases htype : f.type with
    | file => rfl
    | dir => exact absurd (h.dirHash f hf htype) hfh
  cases hputs with
  | nothing h1 h2 => exact (hret.elim h1 h2).elim
  | @known E x f hcd' hE hx hp hname hf hid hfh =>
    obtain rfl : D = E := Int.ofNat.inj (Option.some.inj (hcd.symm.trans hcd'))
    obtain ⟨t, ht, htu, rfl⟩ := h.target hcd hD
    rw [regOf_intOf (by have := h.fileId_lt hx; omega)] at hid
    obtain ⟨k, hk⟩ : ∃ k, f.hash = some k := by
      refine Option.ne_none_iff_exists'.1 fun hnone => hhash ?_
      rw [← hfh, (File.heldHash_eq_iff (t := []) (by decide)).2 (by rw [hnone]; rfl)]
    have htype := hplain f hf (hk ▸ Option.some_ne_none k)
    exact ⟨k, x, f, ⟨hx, (h.owner x hx t ht hdir hp).trans htu, hp, hname, hf, hid, htype, hk⟩, h.quote f hf, .inr hfh, rfl⟩
  | @new E hcd' hE hfree hfresh =>
    obtain rfl : D = E := Int.ofNat.inj (Option.some.inj (hcd.symm.trans hcd'))
    exact ⟨hash, _, _, entry_new, rfl, .inl rfl, rfl⟩
  | @link E f hcd' hE hfree hf hfh =>
    obtain rfl : D = E := Int.ofNat.inj (Option.some.inj (hcd.symm.trans hcd'))
    have htype := hplain f hf (hfh ▸ Option.some_ne_none hash)
    exact ⟨hash, ⟨db.nextUserFile, fileName, u, f.id, some D⟩, f,
      ⟨List.mem_append_right _ (List.mem_singleton_self _), rfl, rfl, rfl, hf, rfl, htype, hfh⟩, h.quote f hf, .inl rfl, rfl⟩

theorem Entry.complete {x : UserFile} {f : File} (hs : Entry db u D fileName hash x f) :
    Entry (db.exec (.updateComplete hash)) u D fileName hash x { f with complete := true } where
  row := hs.row
  userId := hs.userId
  parentId := hs.parentId
  name := hs.name
  file := List.mem_map.2 ⟨f, hs.file, if_pos hs.hash_eq⟩
  fileId := hs.fileId
  type := hs.type
  hash_eq := hs.hash_eq

theorem cd_complete : (db.exec (.updateComplete hash)).cd ord path u = db.cd ord path u := rfl

theorem Owned.gets_follows (h : Owned db) (hback : ReadsBack hash) : GetsFollowsPuts hash db := by
  intro ord path fileName u ret db' hhash hb hrun
  have hputs := queryPuts_cases hrun
  have hkeys : Keys db' := h.toKeys.effect (queryPuts_effect hrun)
  constructor
  · intro h1 h2
    cases hputs with
    | nothing => rfl
    | known => rfl
    | new => exact absurd rfl h1
    | @link D f => cases hc : f.complete <;> simp [hc] at h1 h2
  intro D hD hdir hcd ord' hcd'
  obtain ⟨_, hcd, heq⟩ := Option.map_eq_some_iff.1 ((queryCd_run db ord path u).symm.trans hcd)
  obtain rfl := (Prod.mk.inj heq).1
  obtain ⟨_, hcd', heq⟩ := Option.map_eq_some_iff.1 ((queryCd_run db' ord' path u).symm.trans hcd')
  obtain rfl := (Prod.mk.inj heq).1
  constructor
  · rintro rfl
    obtain ⟨k, x, f, hs, hq, hheld, hret⟩ := h.entry_of_puts hhash hD hdir hcd hputs (.inr rfl)
    cases hc : f.complete with
    | false => simp [hc] at hret
    | true =>
      have hheld : f.heldHash = hash := by
        rcases hheld with rfl | hheld
        · exact (heldHash_eq_hash_iff hs.hash_eq hc hq).2 hback
        · exact hheld
      rw [hkeys.queryGets_run hs hD hcd', hc, if_pos rfl, hheld]
  · rintro rfl
    obtain ⟨k, x, f, hs, hq, hheld, hret⟩ := h.entry_of_puts hhash hD hdir hcd hputs (.inl rfl)
    cases hc : f.complete with
    | true => simp [hc] at hret
    | false =>
      refine ⟨by rw [hkeys.queryGets_run hs hD hcd', hc, if_neg Bool.false_ne_true], fun ord'' done db'' hupdate => ?_⟩
      simp [queryUpdate, handler] at hupdate
      obtain ⟨-, rfl⟩ := hupdate
      obtain rfl : k = hash := by
        rcases hheld with rfl | hheld
        · rfl
        · exact Option.some.inj (hs.hash_eq.symm.trans (hback.stored hhash hheld hc))
      have hcomplete := hs.complete
      rw [(hkeys.complete k).queryGets_run hcomplete hD (cd_complete.trans hcd'), if_pos rfl,
        (heldHash_eq_hash_iff hcomplete.hash_eq rfl hq).2 hback]

/-! ### A hash that does not come back -/

/-- The tables when `a` has registered. -/
def firstAccount (C : Crypt) : Db where
  user := [⟨1, ['a'], encryptPassword C [] ['p']⟩]
  file := [{ id := 1, type := .dir, complete := true }]
  userFile := [⟨1, ['a'], 1, 1, none⟩]
  nextUser := 2
  nextFile := 2
  nextUserFile := 2

theorem reaches_firstAccount (C : Crypt) : Reaches (IdStep C) {} (firstAccount C) :=
  Reaches.refl.snoc (i := (.stored, .userRegister [] ['a'] ['p'])) ⟨show 2 ≤ 2 ^ 31 by decide, rfl⟩

theorem owned_of_reaches {C : Crypt} (hdb : Reaches (IdStep C) {} db) : Owned db :=
  hdb.inv (I := Owned) (fun _ _ _ h hst => h.step hst) owned_empty

/-- `a` uploads a file with the hash to the end and gets it. -/
theorem readsBack_of_firstAccount {C : Crypt} (hgets : GetsFollowsPuts hash (firstAccount C)) : ReadsBack hash := by
  by_contra hback
  have hne : hash ≠ [] := fun hnil => hback (.inl (by rw [hnil]; decide))
  have hcd : (firstAccount C).cd .stored ['/', 'a'] 1 = some ((1 : Nat) : Int) := by
    change (firstAccount .plain).cd .stored ['/', 'a'] 1 = some ((1 : Nat) : Int)
    decide
  have hfree : (firstAccount C).Free 1 ['f'] := by simp [Free, firstAccount]
  have hrun := queryPuts_recorded (u := 1) hcd (by decide) hfree
    (show ∀ f ∈ (firstAccount C).file, f.hash ≠ some hash by simp [firstAccount])
  let db' := ((firstAccount C).exec (.insertFile hash hash)).exec (.insertUserFile ['f'] 1 2 (some 1))
  have hcd' : db'.cd .stored ['/', 'a'] 1 = some ((1 : Nat) : Int) := by
    change ((firstAccount .plain).exec (.insertUserFile ['f'] 1 2 (some 1))).cd .stored ['/', 'a'] 1 = some ((1 : Nat) : Int)
    decide
  obtain ⟨-, hafter⟩ := (hgets .stored ['/', 'a'] ['f'] 1 1 db' hne (show 3 ≤ 2 ^ 31 by decide) hrun).2 1 (by decide)
    ⟨_, List.mem_singleton_self _, rfl, rfl⟩ (by rw [queryCd_run, hcd]; rfl) .stored (by rw [queryCd_run, hcd']; rfl)
  have hgot := (hafter rfl).2 .stored 0 (db'.exec (.updateComplete hash)) (by simp [queryUpdate, handler])
  have hkeys : Keys db' := (owned_of_reaches (reaches_firstAccount C)).toKeys.effect (queryPuts_effect hrun)
  have hs : Entry (db'.exec (.updateComplete hash)) 1 1 ['f'] hash _ _ := entry_new.complete
  rw [(hkeys.complete hash).queryGets_run hs (by decide) (cd_complete.trans hcd'), if_pos rfl] at hgot
  have hheld := congrArg Prod.snd (congrArg Prod.fst (Option.some.inj hgot))
  exact hback ((heldHash_eq_hash_iff hs.hash_eq rfl rfl).1 hheld)

/-- In every reachable state `query_gets` finds what `query_puts` has recorded, exactly for the hashes that read
back. -/
theorem getsFollowsPuts_iff (C : Crypt) (hash : CStr) :
    (∀ db, Reaches (IdStep C) {} db → GetsFollowsPuts hash db) ↔ ReadsBack hash := by
  constructor
  · exact fun h => readsBack_of_firstAccount (h _ (reaches_firstAccount C))
  · exact fun hback db hdb => (owned_of_reaches hdb).gets_follows hback

/-- `a` uploads a file with a digest of 255 bytes. -/
theorem long_digest_grows : ¬ ∀ C db hash, Reaches (IdStep C) {} db → GetsFollowsPuts hash db := by
  intro h
  have hback := readsBack_of_firstAccount (h .plain _ (List.replicate 255 'd') (reaches_firstAccount .plain))
  rcases hback with hlen | hdrop
  · rw [List.length_replicate] at hlen
    exact absurd hlen (Nat.lt_irrefl hashSize)
  · rw [List.drop_replicate] at hdrop
    exact absurd hdrop nofun

end Db
end Netdisk

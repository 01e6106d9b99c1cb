import Netdisk.Lib.Tally
import Netdisk.Pool
import Netdisk.UploadSession
import Mathlib.Data.Finset.Basic
import Mathlib.Data.Multiset.Filter

/-!
# Once each (`deal_sql.c`)

An account, a content and a name in a directory are to be there once, and no index sees to it: a call
looks first and inserts when it has found nothing. The calls are run side by side on the pool, one
statement at a time. A call that has looked without finding holds a reservation (`lookupProtocol`);
the rows and the reservations together hold every key at most once (`Reserved`), as long as no call
looks for a key that another one is about to insert (`unique_of_looksAlone`).
-/

namespace Netdisk
open Runs Tally

/-! ### Keys -/

/-- What is to be there once: an account, a content, a name in a directory. -/
inductive Key
  | user (name : CStr)
  | file (hash : CStr)
  | entry (parentId : Nat) (name : CStr)
deriving DecidableEq

namespace Db

/-- The keys of the rows. -/
def keys (db : Db) : List Key :=
  db.user.map (fun x => .user x.name) ++ db.file.filterMap (fun f => f.hash.map .file) ++
    db.userFile.filterMap fun r => r.parentId.map (.entry · r.name)

/-- The key of the row that comes in. -/
def Change.key : Change → Option Key
  | .addUser x => some (.user x.name)
  | .addFile f => f.hash.map .file
  | .addUserFile r => r.parentId.map (.entry · r.name)
  | _ => none

def Stmt.key : Stmt → Option Key
  | .insertUser name _ => some (.user name)
  | .insertFile _ hash => some (.file hash)
  | .insertUserFile name _ _ parentId => parentId.map (.entry · name)
  | _ => none

/-- No two users have one name, no two files one hash, no two entries of a directory one name. -/
structure Unique (db : Db) : Prop where
  user : db.user.Pairwise fun x y => x.name ≠ y.name
  file : db.file.Pairwise fun f g => ∀ h, f.hash = some h → g.hash ≠ some h
  userFile : db.userFile.Pairwise fun r s => ∀ p, r.parentId = some p → s.parentId = some p → r.name ≠ s.name

variable {db : Db}

theorem key_change (st : Stmt) : (db.change st).1.key = st.key := by cases st <;> rfl

theorem unique_iff_nodup_keys : Unique db ↔ db.keys.Nodup := by
  have hu : (db.user.map fun x => Key.user x.name).Nodup ↔ db.user.Pairwise fun x y => x.name ≠ y.name := by
    simp [List.Nodup, List.pairwise_map]
  have hf : (db.file.filterMap fun f => f.hash.map Key.file).Nodup ↔
      db.file.Pairwise fun f g => ∀ h, f.hash = some h → g.hash ≠ some h := by
    rw [List.Nodup, List.pairwise_filterMap]
    refine List.Pairwise.iff fun f g => ⟨fun h e hf hg => ?_, fun h k hk k' hk' heq => ?_⟩
    · exact h (.file e) (by rw [hf]; rfl) (.file e) (by rw [hg]; rfl) rfl
    · obtain ⟨e, he, rfl⟩ := Option.map_eq_some_iff.1 hk
      obtain ⟨e', he', rfl⟩ := Option.map_eq_some_iff.1 hk'
      obtain rfl := Key.file.inj heq
      exact h e he he'
  have hr : (db.userFile.filterMap fun r => r.parentId.map (Key.entry · r.name)).Nodup ↔
      db.userFile.Pairwise fun r s => ∀ p, r.parentId = some p → s.parentId = some p → r.name ≠ s.name := by
    rw [List.Nodup, List.pairwise_filterMap]
    refine List.Pairwise.iff fun r s => ⟨fun h p hr hs hname => ?_, fun h k hk k' hk' heq => ?_⟩
    · exact h (.entry p r.name) (by rw [hr]; rfl) (.entry p s.name) (by rw [hs]; rfl) (by rw [hname])
    · obtain ⟨p, hp, rfl⟩ := Option.map_eq_some_iff.1 hk
      obtain ⟨p', hp', rfl⟩ := Option.map_eq_some_iff.1 hk'
      obtain ⟨rfl, hname⟩ := Key.entry.inj heq
      exact h p hp hp' hname
  constructor
  · intro h
    rw [keys, List.nodup_append, List.nodup_append]
    refine ⟨⟨hu.2 h.user, hf.2 h.file, fun a ha b hb => ?_⟩, hr.2 h.userFile, fun a ha b hb => ?_⟩
    · obtain ⟨x, -, rfl⟩ := List.mem_map.1 ha
      obtain ⟨f, -, hf⟩ := List.mem_filterMap.1 hb
      obtain ⟨e, -, rfl⟩ := Option.map_eq_some_iff.1 hf
      nofun
    · obtain ⟨r, -, hr⟩ := List.mem_filterMap.1 hb
      obtain ⟨p, -, rfl⟩ := Option.map_eq_some_iff.1 hr
      rcases List.mem_append.1 ha with ha | ha
      · obtain ⟨x, -, rfl⟩ := List.mem_map.1 ha
        nofun
      · obtain ⟨f, -, hf⟩ := List.mem_filterMap.1 ha
        obtain ⟨e, -, rfl⟩ := Option.map_eq_some_iff.1 hf
        nofun
  · intro h
    rw [keys, List.nodup_append, List.nodup_append] at h
    exact ⟨hu.1 h.1.1, hf.1 h.1.2.1, hr.1 h.2.1⟩

theorem keys_apply {ch : Change} (h : ∀ f u, ch ≠ .unlink f u) :
    ((db.apply ch).keys : Multiset Key) = db.keys + ch.key.toList := by
  cases ch with
  | addUser x =>
    simp only [keys, apply, Change.key, List.map_append, ← Multiset.coe_add]
    have hx : ([x].map fun x => Key.user x.name) = (some (Key.user x.name)).toList := rfl
    rw [hx]
    ac_rfl
  | addFile f =>
    have hf : ([f].filterMap fun f => f.hash.map Key.file) = (f.hash.map Key.file).toList := by
      cases hh : f.hash <;> simp [hh]
    simp only [keys, apply, Change.key, List.filterMap_append, ← Multiset.coe_add, hf, ← add_assoc]
    exact add_right_comm _ _ _
  | addUserFile r =>
    have hr : ([r].filterMap fun r => r.parentId.map (Key.entry · r.name)) =
        (r.parentId.map (Key.entry · r.name)).toList := by
      cases hp : r.parentId <;> simp [hp]
    simp only [keys, apply, Change.key, List.filterMap_append, ← Multiset.coe_add, hr, add_assoc]
  | complete e =>
    have hhash : ∀ f : File, (if f.hash = some e then { f with complete := true } else f).hash = f.hash := fun f => by
      split <;> rfl
    simp [keys, apply, Change.key, List.filterMap_map, hhash]
  | unlink f u => exact absurd rfl (h f u)

end Db

/-! ### What the pool holds -/

/-- The keys of the rows that some changes bring in. -/
def keysOf (changes : Multiset (Nat × Db.Change)) : Multiset Key := changes.filterMap fun ch => ch.2.key

@[simp] theorem keysOf_add (s t : Multiset (Nat × Db.Change)) : keysOf (s + t) = keysOf s + keysOf t :=
  Multiset.filterMap_add _ s t

theorem keysOf_single (i : Nat) (ch : Db.Change) : keysOf ([(i, ch)] : List _) = ch.key.toList := by
  cases h : ch.key with
  | none => exact Multiset.filterMap_cons_none (i, ch) 0 h
  | some k => exact Multiset.filterMap_cons_some _ (i, ch) 0 h

theorem mem_keysOf {changes : Multiset (Nat × Db.Change)} {k : Key} :
    k ∈ keysOf changes ↔ ∃ ch ∈ changes, ch.2.key = some k := by simp [keysOf]

namespace Mysql
variable {m m' : Mysql} {c : Conn} {x : Slot}

/-- The changes that wait for a commit. -/
def pendings (m : Mysql) : Multiset (Nat × Db.Change) := tally (fun x => x.pending) m.connects

/-- Whatever was executed is visible or pending, and once. -/
def Accounted (m : Mysql) : Prop := (m.published : Multiset (Nat × Db.Change)) + m.pendings = m.executed

theorem keys_replay {db : Db} {changes : List (Nat × Db.Change)} (h : ∀ ch ∈ changes, ∀ f u, ch.2 ≠ .unlink f u) :
    ((replay db changes).keys : Multiset Key) = db.keys + keysOf changes := by
  induction changes generalizing db with
  | nil => simp [replay, keysOf]
  | cons ch changes ih =>
    obtain ⟨hch, hrest⟩ := List.forall_mem_cons.1 h
    have hcons : keysOf (ch :: changes : List _) = (ch.2.key.toList : Multiset Key) + keysOf changes :=
      (keysOf_add [ch] changes).trans (congrArg (· + _) (keysOf_single ch.1 ch.2))
    calc ((replay db (ch :: changes)).keys : Multiset Key)
        = (db.apply ch.2).keys + keysOf changes := ih hrest
      _ = db.keys + keysOf (ch :: changes : List _) := by rw [Db.keys_apply hch, hcons, add_assoc]

theorem slot_of_ge (h : m.connects.length ≤ c) : m.slot c = {} := by
  rw [slot, List.getD_eq_getElem?_getD, List.getElem?_eq_none h]
  rfl

theorem pendings_setSlot (h : m.connects.length ≤ c → x.pending = []) :
    (m.setSlot c x).pendings + (m.slot c).pending = m.pendings + x.pending := by
  rcases Nat.lt_or_ge c m.connects.length with hlt | hge
  · exact tally_set (slot_of_lt hlt) x
  · have hset : (m.setSlot c x).connects = m.connects := List.set_eq_of_length_le hge
    rw [pendings, hset, slot_of_ge hge, h hge]
    rfl

theorem pendings_setSlot_same (h : x.pending = (m.slot c).pending) : (m.setSlot c x).pendings = m.pendings := by
  have hset := pendings_setSlot (m := m) (c := c) (x := x) fun hge => by rw [h, slot_of_ge hge]
  rw [h] at hset
  exact add_right_cancel hset

theorem Accounted.commit (h : m.Accounted) (c : Conn) : (m.commit c).Accounted := by
  have hset : (m.setSlot c { m.slot c with pending := [] }).pendings + (m.slot c).pending = m.pendings :=
    (pendings_setSlot fun _ => rfl).trans (add_zero _)
  show ((m.published ++ (m.slot c).pending : List _) : Multiset (Nat × Db.Change)) + (m.setSlot c _).pendings =
    m.executed
  rw [← Multiset.coe_add, add_assoc, add_comm (_ : Multiset (Nat × Db.Change)) (Mysql.pendings _), hset]
  exact h

theorem Accounted.setSlot (h : m.Accounted) (hx : x.pending = (m.slot c).pending) : (m.setSlot c x).Accounted := by
  show (m.published : Multiset (Nat × Db.Change)) + (m.setSlot c x).pendings = m.executed
  rw [pendings_setSlot_same hx]
  exact h

theorem exec_of_ge (hge : m.connects.length ≤ c) (i : Nat) (st : Db.Stmt) :
    m.exec i c st = { m with
      base := m.base.draw st
      executed := m.executed ++ [(i, (m.base.change st).1)]
      published := m.published ++ [(i, (m.base.change st).1)] } := by
  simp [exec, slot, List.getElem?_eq_none hge]

theorem Accounted.exec (h : m.Accounted) (i : Nat) (c : Conn) (st : Db.Stmt) : (m.exec i c st).Accounted := by
  have hpublished : ((m.published ++ [(i, (m.base.change st).1)] : List _) : Multiset (Nat × Db.Change)) + m.pendings =
      (m.executed ++ [(i, (m.base.change st).1)] : List _) := by
    rw [← Multiset.coe_add, ← Multiset.coe_add, add_right_comm, h]
  rcases Nat.lt_or_ge c m.connects.length with hlt | hge
  · have hx := slot_of_lt hlt
    cases hauto : (m.slot c).autocommit with
    | true =>
      rw [exec_auto hx hauto]
      exact hpublished
    | false =>
      have hset := pendings_setSlot (m := m) (c := c)
        (x := { m.slot c with pending := (m.slot c).pending ++ [(i, (m.base.change st).1)] })
        fun hge => absurd hge (Nat.not_le.2 hlt)
      rw [← Multiset.coe_add, ← add_assoc, add_right_comm, add_left_inj] at hset
      rw [exec_manual hx hauto]
      show (m.published : Multiset (Nat × Db.Change)) + (m.setSlot c _).pendings = (m.executed ++ [_] : List _)
      rw [hset, ← Multiset.coe_add, ← add_assoc, h]
  · rw [exec_of_ge hge]
    exact hpublished

theorem Accounted.step {i : Nat} {ord : RowOrder} {o : Op} {r : Resp o} (h : m.Accounted)
    (hH : handler i ord o m = some (r, m')) : m'.Accounted := by
  cases o with
  | getConnection =>
    change m.getConnection = some (r, m') at hH
    unfold getConnection at hH
    split at hH
    · cases hH
    split at hH
    · obtain ⟨-, rfl⟩ := Prod.mk.inj (Option.some.inj hH)
      exact h.setSlot rfl
    · obtain ⟨-, rfl⟩ := Prod.mk.inj (Option.some.inj hH)
      exact h
  | releaseConnection c =>
    obtain ⟨-, rfl⟩ := Prod.mk.inj (Option.some.inj hH)
    unfold releaseConnection
    split
    · exact h.setSlot rfl
    · exact h
  | autocommit c mode =>
    obtain ⟨-, rfl⟩ := Prod.mk.inj (Option.some.inj hH)
    cases mode with
    | false => exact h.setSlot rfl
    | true => exact (h.commit c).setSlot rfl
  | commit c =>
    obtain ⟨-, rfl⟩ := Prod.mk.inj (Option.some.inj hH)
    exact h.commit c
  | exec c st =>
    obtain ⟨-, rfl⟩ := Prod.mk.inj (Option.some.inj hH)
    exact h.exec i c st
  | selectUser | selectUserFile | selectFile =>
    obtain ⟨-, rfl⟩ := Prod.mk.inj (Option.some.inj hH)
    exact h
  | _ => cases hH

theorem keys_base {i : Nat} {ord : RowOrder} {o : Op} {r : Resp o} (hH : handler i ord o m = some (r, m')) :
    m'.base.keys = m.base.keys := by
  obtain ⟨hu, hf, hr⟩ := handler_base hH
  rw [Db.keys, hu, hf, hr, Db.keys]

end Mysql

/-! ### Looking and inserting -/

/-- The key that a lookup is for. -/
def Op.lookup : Op → Option Key
  | .selectUser _ name => some (.user name)
  | .selectUserFile _ (.named parentId name) => some (.entry parentId name)
  | .selectFile _ (.byHash hash) => some (.file hash)
  | _ => none

/-- The key of the row that the operation adds. -/
def Op.insert : Op → Option Key
  | .exec _ st => st.key
  | _ => none

/-- The answer has no row. -/
def Op.empty : (o : Op) → Resp o → Bool
  | .selectUser .., rows => rows.isEmpty
  | .selectUserFile .., rows => rows.isEmpty
  | .selectFile .., rows => rows.isEmpty
  | _, _ => false

/-- A row is added only for a key that the call has looked for, last without finding it, and once. -/
def lookupProtocol : Prog.Protocol osSig (Finset Key) where
  ok l o := (∀ k, o.insert = some k → k ∈ l) ∧ ∀ c fileId userId, o ≠ .exec c (.deleteUserFile fileId userId)
  resp _ _ _ := True
  next l o r := match o.lookup, o.insert with
    | some k, _ => if o.empty r then Insert.insert k l else l.erase k
    | none, some k => l.erase k
    | none, none => l

/-- The calls that add rows, and `query_update`. -/
inductive AddCall
  | userRegister (rand account password : CStr)
  | queryMkdir (path dirName : CStr) (userId : Nat)
  | queryPuts (path fileName hashValue : CStr) (userId : Nat)
  | queryUpdate (hashValue : CStr)
deriving DecidableEq

def AddCall.call : AddCall → SqlCall
  | .userRegister rand account password => .userRegister rand account password
  | .queryMkdir path dirName userId => .queryMkdir path dirName userId
  | .queryPuts path fileName hash userId => .queryPuts path fileName hash userId
  | .queryUpdate hash => .queryUpdate hash

def AddCall.prog (C : Crypt) (a : AddCall) : Os Unit := a.call.prog C

section Wp

/-- The call inserts what it has looked for. -/
abbrev LooksFirst {α : Type} (p : Os α) : Prop := p.wp lookupProtocol (fun _ _ => True) ∅

/-- Neither an insert nor a delete. -/
def Op.isOther : Op → Bool
  | .exec .. => false
  | _ => true

theorem looks_ok {l : Finset Key} {o : Op} (h : o.isOther = true) : lookupProtocol.ok l o := by
  cases o with
  | exec => cases h
  | _ =>
    constructor
    · rintro k ⟨⟩
    · rintro c fileId userId ⟨⟩

theorem looks_crash {α : Type} {post : Finset Key → α → Prop} {l : Finset Key} :
    (Os.crash : Os α).wp lookupProtocol post l :=
  ⟨looks_ok rfl, fun e => nomatch (e : Empty)⟩

theorem queryCd_looksFirst (path : CStr) (u : Nat) : (queryCd path u).wp lookupProtocol (fun l _ => l = ∅) ∅ := by
  simp only [queryCd, Os.getConnection_bind, Prog.bind_eq, Prog.wp_op]
  refine ⟨looks_ok rfl, fun r _ => ?_⟩
  cases r with
  | none => rfl
  | some c =>
    simp only [Os.selectUserFile_bind, Prog.wp_op]
    refine ⟨looks_ok rfl, fun rows _ => ?_⟩
    cases rows with
    | nil => exact ⟨looks_ok rfl, fun _ _ => rfl⟩
    | cons file files =>
      cases spliteFileName path with
      | none => exact looks_crash
      | some names => exact ⟨looks_ok rfl, fun _ _ => rfl⟩

theorem LooksFirst.behindCd {α : Type} {path : CStr} {u : Nat} {k : Int → Os α} (hk : ∀ d, LooksFirst (k d)) :
    LooksFirst ((queryCd path u).bind k) := by
  rw [LooksFirst]
  exact (queryCd_looksFirst path u).bind fun l d hl => hl ▸ hk d

theorem userRegister_looksFirst (C : Crypt) (rand account password : CStr) :
    LooksFirst (userRegister C rand account password) := by
  simp only [LooksFirst, userRegister, Os.getConnection_bind, Prog.bind_eq, Prog.wp_op]
  refine ⟨looks_ok rfl, fun r _ => ?_⟩
  cases r with
  | none => trivial
  | some c =>
    simp only [Os.autocommit_bind, Os.selectUser_bind, Prog.wp_op]
    refine ⟨looks_ok rfl, fun _ _ => ⟨looks_ok rfl, fun rows _ => ?_⟩⟩
    cases rows with
    | cons user users => simp [lookupProtocol, Op.insert]
    | nil => simp [lookupProtocol, Op.insert, Op.lookup, Op.empty, Db.Stmt.key]

theorem queryMkdir_looksFirst (path dirName : CStr) (u : Nat) : LooksFirst (queryMkdir path dirName u) := by
  refine LooksFirst.behindCd fun d => ?_
  split
  · trivial
  · simp only [Os.getConnection_bind, Prog.bind_eq, Prog.wp_op]
    refine ⟨looks_ok rfl, fun r _ => ?_⟩
    cases r with
    | none => exact looks_crash
    | some c =>
      simp only [Os.selectUserFile_bind, Prog.wp_op]
      refine ⟨looks_ok rfl, fun rows _ => ?_⟩
      cases rows with
      | cons row rows => simp [lookupProtocol, Op.insert]
      | nil => simp [lookupProtocol, Op.insert, Op.lookup, Op.empty, Db.Stmt.key]

theorem queryPuts_looksFirst (path fileName hash : CStr) (u : Nat) : LooksFirst (queryPuts path fileName hash u) := by
  refine LooksFirst.behindCd fun d => ?_
  split
  · trivial
  split
  · trivial
  · simp only [Os.getConnection_bind, Prog.bind_eq, Prog.wp_op]
    refine ⟨looks_ok rfl, fun r _ => ?_⟩
    cases r with
    | none => exact looks_crash
    | some c =>
      simp only [Os.selectUserFile_bind, Prog.wp_op]
      refine ⟨looks_ok rfl, fun rows _ => ?_⟩
      cases rows with
      | cons sameName rest =>
        simp only [Os.selectFile_bind, Prog.wp_op]
        refine ⟨looks_ok rfl, fun files _ => ?_⟩
        cases files with
        | nil => exact looks_crash
        | cons file files => simp [lookupProtocol, Op.insert]
      | nil =>
        simp only [Os.selectFile_bind, Prog.wp_op]
        refine ⟨looks_ok rfl, fun files _ => ?_⟩
        cases files with
        | nil => simp [lookupProtocol, Op.insert, Op.lookup, Op.empty, Db.Stmt.key]
        | cons file files => simp [lookupProtocol, Op.insert, Op.lookup, Op.empty, Db.Stmt.key]

theorem queryUpdate_looksFirst (hash : CStr) : LooksFirst (queryUpdate hash) := by
  simp only [LooksFirst, queryUpdate, Os.getConnection_bind, Prog.bind_eq, Prog.wp_op]
  refine ⟨looks_ok rfl, fun r _ => ?_⟩
  cases r with
  | none => trivial
  | some c => simp [lookupProtocol, Op.insert, Db.Stmt.key]

theorem AddCall.looksFirst (C : Crypt) (a : AddCall) : LooksFirst (a.prog C) := by
  have hdrop : ∀ {α : Type} {p : Os α}, LooksFirst p → LooksFirst (p.bind fun _ => .pure ()) := fun {_ p} h => by
    rw [LooksFirst]
    exact h.bind fun _ _ _ => trivial
  cases a with
  | userRegister rand account password => exact hdrop (userRegister_looksFirst C rand account password)
  | queryMkdir path dirName u => exact hdrop (queryMkdir_looksFirst path dirName u)
  | queryPuts path fileName hash u => exact hdrop (queryPuts_looksFirst path fileName hash u)
  | queryUpdate hash => exact hdrop (queryUpdate_looksFirst hash)

end Wp

/-- A call that looks for a key again before it inserts it needs no reservation until then. -/
theorem wp_erase {p : Os Unit} {l : Finset Key} {k : Key} (h : p.wp lookupProtocol (fun _ _ => True) l)
    (hp : ¬ p.MayDo (fun o : Op => o.insert = some k) (fun o : Op => o.lookup = some k)) :
    p.wp lookupProtocol (fun _ _ => True) (l.erase k) := by
  refine h.retire (R := fun l m => m = l.erase k) ?_ ?_ (fun _ _ _ _ _ => trivial) rfl hp
  · rintro l _ (o : Op) rfl ⟨hok, hdelete⟩ ho
    refine ⟨fun k' hk' => Finset.mem_erase.2 ⟨?_, hok k' hk'⟩, hdelete⟩
    rintro rfl
    exact ho hk'
  · rintro l _ (o : Op) r rfl - ho -
    refine ⟨trivial, ?_⟩
    simp only [lookupProtocol]
    cases hlook : o.lookup with
    | some k' =>
      by_cases hk : k' = k
      · subst hk
        refine .inl ?_
        dsimp only
        split
        · exact Finset.ext fun x => by by_cases hx : x = k' <;> simp [hx]
        · exact Finset.erase_idem
      · refine .inr ⟨fun heq => hk (Option.some.inj heq), ?_⟩
        dsimp only
        split
        · exact (Finset.erase_insert_of_ne hk).symm
        · exact Finset.erase_right_comm
    | none =>
      refine .inr ⟨nofun, ?_⟩
      cases hins : o.insert with
      | some k' => exact Finset.erase_right_comm
      | none => rfl

/-! ### The invariant -/

/-- The rows and what the calls may still insert hold every key once. -/
structure Reserved (m : Mysql) (ls : List (Finset Key)) : Prop where
  accounted : m.Accounted
  keeps : ∀ ch ∈ m.executed, ∀ f u, ch.2 ≠ .unlink f u
  single : ((m.base.keys : Multiset Key) + keysOf m.executed + tally Finset.val ls).Nodup

section Reserved
variable {m m' : Mysql} {ls : List (Finset Key)} {i : Nat} {l : Finset Key} {k : Key} {c : Conn} {ord : RowOrder}
  {o : Op} {r : Resp o}

theorem reserved_init {db : Db} (h : db.Unique) : Reserved { base := db } [] where
  accounted := by
    have hpending : Mysql.pendings { base := db } = 0 := rfl
    rw [Mysql.Accounted, hpending, add_zero]
  keeps := nofun
  single := by simpa [keysOf] using Db.unique_iff_nodup_keys.1 h

theorem Reserved.start (h : Reserved m ls) : Reserved m (ls ++ [∅]) :=
  ⟨h.accounted, h.keeps, by simpa [tally_snoc] using h.single⟩

theorem Reserved.erase (h : Reserved m ls) (k : Key) : Reserved m (ls.map (·.erase k)) :=
  ⟨h.accounted, h.keeps, Multiset.nodup_of_le (add_le_add_right (tally_map_le fun l => Multiset.erase_le k l.val) _)
    h.single⟩

theorem Reserved.keeps_published (h : Reserved m ls) : ∀ ch ∈ m.published, ∀ f u, ch.2 ≠ .unlink f u := fun ch hch =>
  h.keeps ch <| by
    have hmem : ch ∈ (m.published : Multiset (Nat × Db.Change)) + m.pendings := Multiset.mem_add.2 (.inl hch)
    rwa [h.accounted] at hmem

/-- All keys are those of the rows that everyone sees and of the rows that wait. -/
theorem Reserved.keys (h : Reserved m ls) : (m.base.keys : Multiset Key) + keysOf m.executed =
    (m.committed.keys : Multiset Key) + keysOf m.pendings := by
  rw [Mysql.committed, Mysql.keys_replay h.keeps_published, add_assoc, ← keysOf_add, h.accounted]

theorem Reserved.unique (h : Reserved m ls) : m.committed.Unique := by
  have hkeys := h.single
  rw [h.keys] at hkeys
  exact Db.unique_iff_nodup_keys.2 (Multiset.coe_nodup.1
    (Multiset.nodup_of_le ((Multiset.le_add_right _ _).trans (Multiset.le_add_right _ _)) hkeys))

theorem Reserved.keeps_pending (h : Reserved m ls) (c : Conn) : ∀ ch ∈ (m.slot c).pending, ∀ f u, ch.2 ≠ .unlink f u :=
  fun ch hch => h.keeps ch <| by
    obtain ⟨x, hx, hmem⟩ := Mysql.mem_slot_pending hch
    have hpending : ch ∈ (m.published : Multiset (Nat × Db.Change)) + m.pendings :=
      Multiset.mem_add.2 (.inr (mem_tally.2 ⟨x, List.mem_of_getElem? hx, hmem⟩))
    rwa [h.accounted] at hpending

/-- A key that a connection does not see, and that no row waiting for a commit has, is that of no row. -/
theorem Reserved.fresh (h : Reserved m ls) (hview : k ∉ (m.view c).keys)
    (hpending : ∀ x ∈ m.connects, ∀ ch ∈ x.pending, ch.2.key ≠ some k) :
    k ∉ (m.base.keys : Multiset Key) + keysOf m.executed := by
  have hkeys : ((m.view c).keys : Multiset Key) = (m.committed.keys : Multiset Key) + keysOf (m.slot c).pending :=
    Mysql.keys_replay (h.keeps_pending c)
  rw [h.keys, Multiset.mem_add, not_or]
  constructor
  · intro hk
    have hmem : k ∈ ((m.view c).keys : Multiset Key) := by
      rw [hkeys]
      exact Multiset.mem_add.2 (.inl hk)
    exact hview (Multiset.mem_coe.1 hmem)
  · intro hk
    obtain ⟨ch, hch, hkey⟩ := mem_keysOf.1 hk
    obtain ⟨x, hx, hmem⟩ := mem_tally.1 hch
    exact hpending x hx ch hmem hkey

/-- A lookup finds nothing when the connection sees no row with the key. -/
theorem lookup_handler (hk : o.lookup = some k) (hc : o.conn = some c) (hH : Mysql.handler i ord o m = some (r, m')) :
    m' = m ∧ (o.empty r = true ↔ k ∉ (m.view c).keys) := by
  cases o with
  | selectUser c' name =>
    obtain rfl := Option.some.inj hk
    obtain rfl := Option.some.inj hc
    obtain ⟨rfl, rfl⟩ := Prod.mk.inj (Option.some.inj hH)
    refine ⟨rfl, ?_⟩
    simp [Op.empty, Db.keys, Db.selectUser_eq_nil]
  | selectUserFile c' q =>
    cases q with
    | named p name =>
      obtain rfl := Option.some.inj hk
      obtain rfl := Option.some.inj hc
      obtain ⟨rfl, rfl⟩ := Prod.mk.inj (Option.some.inj hH)
      refine ⟨rfl, ?_⟩
      rw [Op.empty, List.isEmpty_iff, Db.selectUserFile, List.map_eq_nil_iff, List.eq_nil_iff_forall_not_mem]
      simp [Db.mem_userFileRows, Db.UserFileQuery.holds, Db.keys]
    | _ => cases hk
  | selectFile c' q =>
    cases q with
    | byHash hash =>
      obtain rfl := Option.some.inj hk
      obtain rfl := Option.some.inj hc
      obtain ⟨rfl, rfl⟩ := Prod.mk.inj (Option.some.inj hH)
      refine ⟨rfl, ?_⟩
      rw [Op.empty, List.isEmpty_iff, Db.selectFile, List.map_eq_nil_iff, List.eq_nil_iff_forall_not_mem]
      simp [Db.mem_fileRows, Db.FileQuery.holds, Db.keys]
    | _ => cases hk
  | _ => cases hk

/-- The steps of a call; one that looks for a key without finding it looks alone. -/
theorem Reserved.step (h : Reserved m ls) (hi : ls[i]? = some l) (hok : lookupProtocol.ok l o)
    (hH : Mysql.handler i ord o m = some (r, m'))
    (hfresh : ∀ k, o.lookup = some k → o.empty r = true →
      k ∉ (m.base.keys : Multiset Key) + keysOf m.executed ∧ ∀ l ∈ ls, k ∉ l) :
    Reserved m' (ls.set i (lookupProtocol.next l o r)) := by
  have haccounted := h.accounted.step hH
  rcases Mysql.handler_executed hH with heq | ⟨c, st, rfl, heq⟩
  · refine ⟨haccounted, by rw [heq]; exact h.keeps, ?_⟩
    rw [heq, Mysql.keys_base hH]
    by_cases hempty : ∃ k, o.lookup = some k ∧ o.empty r = true
    · -- the key is reserved
      obtain ⟨k, hk, hr⟩ := hempty
      obtain ⟨hrow, hother⟩ := hfresh k hk hr
      have hnext : lookupProtocol.next l o r = Insert.insert k l := by simp [lookupProtocol, hk, hr]
      have hl : k ∉ l := hother l (List.mem_of_getElem? hi)
      have htally : tally Finset.val (ls.set i (Insert.insert k l)) = k ::ₘ tally Finset.val ls := by
        refine add_right_cancel (b := l.val) ?_
        rw [tally_set hi, Finset.insert_val_of_notMem hl, Multiset.add_cons, Multiset.cons_add]
      rw [hnext, htally, Multiset.add_cons, Multiset.nodup_cons]
      refine ⟨fun hmem => ?_, h.single⟩
      rcases Multiset.mem_add.1 hmem with hmem | hmem
      · exact hrow hmem
      · obtain ⟨l', hl', hkl⟩ := mem_tally.1 hmem
        exact hother l' hl' hkl
    · have hnext : lookupProtocol.next l o r ⊆ l := by
        simp only [lookupProtocol]
        cases hk : o.lookup with
        | some k =>
          dsimp only
          rw [if_neg fun hr => hempty ⟨k, hk, hr⟩]
          exact Finset.erase_subset k l
        | none =>
          cases o.insert with
          | some k => exact Finset.erase_subset k l
          | none => exact Finset.Subset.refl l
      exact Multiset.nodup_of_le (add_tally_set_le hi (add_le_add_right (Finset.val_le_iff.2 hnext) _)) h.single
  · have hkey : (m.base.change st).1.key = st.key := Db.key_change st
    have hnext : (st.key.toList : Multiset Key) + (lookupProtocol.next l (.exec c st) r).val ≤ l.val := by
      cases hk : st.key with
      | none => simp [lookupProtocol, Op.lookup, Op.insert, hk]
      | some k =>
        have hmem : k ∈ l := hok.1 k hk
        have hval : k ::ₘ (l.erase k).val = l.val := by
          rw [Finset.erase_val]
          exact Multiset.cons_erase hmem
        have hstep : lookupProtocol.next l (.exec c st) r = l.erase k := by
          simp [lookupProtocol, Op.lookup, Op.insert, hk]
        rw [hstep, ← hval]
        exact le_rfl
    refine ⟨haccounted, fun ch hch => ?_, ?_⟩
    · rw [heq] at hch
      rcases List.mem_append.1 hch with hch | hch
      · exact h.keeps ch hch
      · obtain rfl := List.mem_singleton.1 hch
        intro f u hunlink
        cases st with
        | deleteUserFile => exact hok.2 c _ _ rfl
        | _ => cases hunlink
    · rw [heq, Mysql.keys_base hH, ← Multiset.coe_add, keysOf_add, keysOf_single, hkey, ← add_assoc]
      refine Multiset.nodup_of_le (add_tally_set_le hi ?_) h.single
      rw [add_assoc]
      exact add_le_add_right hnext _

end Reserved

/-! ### Runs -/

abbrev AddState := Threads osSig AddCall Mysql

abbrev AddAct := Threads.Act AddCall RowOrder

/-- Calls are started and take steps in any order. -/
abbrev AddStep (C : Crypt) : AddState → AddAct → AddState → Prop := Threads.Step (AddCall.prog C) Mysql.handler

/-- All connections free, and no call started. -/
def addInit (db : Db) : AddState := { shared := { base := db } }

/-- If the step looks for a key and its connection sees no row with it, then no call is to insert
that key before it looks for it again, and no such row waits for a commit. -/
def LooksAlone (s : AddState) : AddAct → Prop
  | .start _ => True
  | .exec i _ => ∀ call o next k c, s.threads[i]? = some ⟨call, .op o next⟩ → o.lookup = some k → o.conn = some c →
      k ∉ (s.shared.view c).keys →
      (∀ t ∈ s.threads, ¬ t.rest.MayDo (fun o : Op => o.insert = some k) (fun o : Op => o.lookup = some k)) ∧
        ∀ x ∈ s.shared.connects, ∀ ch ∈ x.pending, ch.2.key ≠ some k

/-- Every call inserts what it holds a reservation for. -/
abbrev AddInv : AddState → Prop := Threads.Guided lookupProtocol (fun _ _ => True) Reserved

theorem AddInv.unique {s : AddState} (h : AddInv s) : s.shared.committed.Unique := by
  obtain ⟨ls, -, -, hres⟩ := h
  exact hres.unique

theorem AddInv.step {C : Crypt} {s t : AddState} {a : AddAct} (h : AddInv s) (hC : LooksAlone s a)
    (hst : AddStep C s a t) : AddInv t := by
  cases a with
  | start call => exact h.start hst (call.looksFirst C) fun ls hres => hres.start
  | exec i ord =>
    obtain ⟨call, o, next, -, -, hi, -, -⟩ := Threads.step_exec hst
    by_cases hfind : ∃ k c, o.lookup = some k ∧ o.conn = some c ∧ k ∉ (s.shared.view c).keys
    · obtain ⟨k, c, hk, hc, hview⟩ := hfind
      obtain ⟨hothers, hpending⟩ := hC call o next k c hi hk hc hview
      -- nobody relies on an earlier look for this key, so the reservations for it can go
      have hrelabel : Threads.Guided lookupProtocol (fun _ _ => True)
          (fun m ls => Reserved m ls ∧ ∀ l ∈ ls, k ∉ l) s := by
        refine h.relabel (·.erase k) (fun ls j t l _ ht _ hwp => ?_) fun ls hres => ⟨hres.erase k, fun l hl => ?_⟩
        · exact wp_erase hwp (hothers t (List.mem_of_getElem? ht))
        · obtain ⟨l', -, rfl⟩ := List.mem_map.1 hl
          exact Finset.notMem_erase k l'
      refine hrelabel.exec hst fun ls call' o' next' l r sh ⟨hres, hfree⟩ hl hi' hok hH => ?_
      cases hi.symm.trans hi'
      refine ⟨trivial, hres.step hl hok hH fun k' hk' _ => ?_⟩
      obtain rfl := Option.some.inj (hk.symm.trans hk')
      exact ⟨hres.fresh hview hpending, hfree⟩
    · refine h.exec hst fun ls call' o' next' l r sh hres hl hi' hok hH => ?_
      cases hi.symm.trans hi'
      refine ⟨trivial, hres.step hl hok hH fun k hk hempty => ?_⟩
      obtain ⟨c, hc⟩ : ∃ c, o.conn = some c := by
        cases o <;> first | exact ⟨_, rfl⟩ | cases hk
      exact absurd ⟨k, c, hk, hc, (lookup_handler hk hc hH).2.1 hempty⟩ hfind

/-- From tables without a duplicate, no run makes one in which nobody looks for what another call is
about to insert. -/
theorem unique_of_looksAlone (C : Crypt) (db : Db) (hdb : db.Unique) (r : List (AddAct × AddState))
    (hr : IsRun (AddStep C) (addInit db) r) (hC : Meets LooksAlone (addInit db) r) :
    Always (fun s => s.shared.committed.Unique) (addInit db) r :=
  (hr.always (I := AddInv) (fun _ _ _ h hC hst => h.step hC hst) (Threads.guided_init (reserved_init hdb)) hC).mono
    fun _ => AddInv.unique

/-- The step looks for no key. -/
def LooksForNothing (s : AddState) : AddAct → Prop
  | .start _ => True
  | .exec i _ => s.Next i fun _ o => Op.lookup o = none

instance (s : AddState) : DecidablePred (LooksForNothing s)
  | .start _ => isTrue trivial
  | .exec i _ => inferInstanceAs (Decidable (s.Next i fun _ o => Op.lookup o = none))

theorem LooksForNothing.looksAlone {s : AddState} {a : AddAct} (h : LooksForNothing s a) : LooksAlone s a := by
  cases a with
  | start call => trivial
  | exec i ord =>
    intro call o next k c hi hk
    have hnext : s.Next i fun _ o => Op.lookup o = none := h
    exact absurd ((Threads.next_iff.1 hnext call o next hi).symm.trans hk) nofun

/-- A registration adds its account and nothing else that is there once. -/
theorem userRegister_adds (C : Crypt) {rand account password : CStr} {k : Key} (hk : k ≠ .user account) :
    (AddCall.prog C (.userRegister rand account password)).Only (S := osSig) fun o : Op => ¬ o.insert = some k := by
  have hcall : (userRegister C rand account password).Only (S := osSig) fun o : Op => ¬ o.insert = some k := by
    simp only [userRegister, Os.getConnection_bind, Prog.bind_eq, Prog.only_op]
    refine ⟨nofun, fun r => ?_⟩
    cases r with
    | none => trivial
    | some c =>
      simp only [Os.autocommit_bind, Os.selectUser_bind, Prog.only_op]
      refine ⟨nofun, fun _ => ⟨nofun, fun rows => ?_⟩⟩
      cases rows with
      | cons user users => simp [Op.insert]
      | nil => simp [Op.insert, Db.Stmt.key, hk.symm]
  exact hcall.bind fun _ => trivial

abbrev addTrace (s : AddState) (acts : List AddAct) : List (AddAct × AddState) :=
  trace (Threads.step (AddCall.prog .plain) Mysql.handler) s acts

/-- Two registrations, up to their lookups. -/
def toLookups : List AddAct :=
  [.start (.userRegister [] ['a'] ['p']), .start (.userRegister [] ['b'] ['q'])] ++
    (List.replicate 2 [.exec 0 .stored, .exec 1 .stored]).flatten

def atLookups : AddState := final (addInit {}) (addTrace (addInit {}) toLookups)

/-- Both look, the first and then the second. -/
def lookups : List AddAct := [.exec 0 .stored, .exec 1 .stored]

def atInserts : AddState := final atLookups (addTrace atLookups lookups)

/-- The six operations each of them has left. -/
def toEnds : List AddAct := (List.replicate 6 [.exec 0 .stored, .exec 1 .stored]).flatten

/-- No other call of the state is to insert the account that call `i` looks for, and nothing is pending. -/
theorem looksAlone_of_others {s : AddState} {i : Nat} {ord : RowOrder} {call : AddCall} {c : Conn} {name : CStr}
    {next : List User → Os Unit} (hi : s.threads[i]? = some ⟨call, .op (S := osSig) (.selectUser c name) next⟩)
    (hothers : ∀ t ∈ s.threads, t = ⟨call, .op (S := osSig) (.selectUser c name) next⟩ ∨
      t.rest.Only (S := osSig) fun o : Op => ¬ o.insert = some (.user name))
    (hpending : ∀ x ∈ s.shared.connects, x.pending = []) : LooksAlone s (.exec i ord) := by
  intro call' o next' k c' hi' hk hc hview
  cases hi.symm.trans hi'
  obtain rfl := Option.some.inj hk
  refine ⟨fun t ht => ?_, fun x hx ch hch => ?_⟩
  · rcases hothers t ht with rfl | honly
    · rintro (hinsert | ⟨hstop, -⟩)
      · cases hinsert
      · exact hstop rfl
    · exact honly.not_mayDo
  · rw [hpending x hx] at hch
    cases hch

theorem looksAlone_lookups : Meets LooksAlone atLookups (addTrace atLookups lookups) := by
  have hnone : ∀ x ∈ atLookups.shared.connects, Slot.pending x = [] := by decide +kernel
  refine meets_trace_cons (looksAlone_of_others rfl (fun t ht => ?_) hnone) fun s hs => ?_
  · rcases List.mem_cons.1 ht with rfl | ht
    · exact .inl rfl
    · obtain rfl := List.mem_singleton.1 ht
      exact .inr (((userRegister_adds .plain (by decide)).2 (some 1)).2 ())
  · obtain rfl := Option.some.inj hs
    refine meets_trace_cons (looksAlone_of_others rfl (fun t ht => ?_) hnone) fun _ _ => trivial
    rcases List.mem_cons.1 ht with rfl | ht
    · exact .inr ((((userRegister_adds .plain (by decide)).2 (some 0)).2 ()).2 [])
    · obtain rfl := List.mem_singleton.1 ht
      exact .inl rfl

theorem unique_of_looksAlone_two :
    let r := addTrace (addInit {}) toLookups ++ (addTrace atLookups lookups ++ addTrace atInserts toEnds)
    Always (fun s => s.shared.committed.Unique) (addInit {}) r ∧
      (final (addInit {}) r).threads.map (·.rest.head) = [none, none] ∧
      (final (addInit {}) r).shared.committed.user.map User.name = [['a'], ['b']] := by
  have hbefore : Meets LooksForNothing (addInit {}) (addTrace (addInit {}) toLookups) := by decide +kernel
  have hbehind : Meets LooksForNothing atInserts (addTrace atInserts toEnds) := by decide +kernel
  refine ⟨unique_of_looksAlone .plain {} ⟨.nil, .nil, .nil⟩ _ ?_ ?_, by decide +kernel, by decide +kernel⟩
  · exact (isRun_trace ..).append ((isRun_trace ..).append (isRun_trace ..))
  · exact meets_append.2 ⟨hbefore.mono fun _ _ h => h.looksAlone,
      meets_append.2 ⟨looksAlone_lookups, hbehind.mono fun _ _ h => h.looksAlone⟩⟩

/-- Two threads register one account: both look before either has inserted. -/
theorem registered_twice : ¬ ∀ C s, Reaches (AddStep C) (addInit {}) s → s.shared.committed.Unique := by
  intro h
  let acts : List AddAct := [.start (.userRegister [] ['a'] ['p']), .start (.userRegister [] ['a'] ['q'])] ++
    List.replicate 3 (.exec 0 .stored) ++ List.replicate 3 (.exec 1 .stored) ++
    List.replicate 6 (.exec 0 .stored) ++ List.replicate 6 (.exec 1 .stored)
  have hunique := (h .plain _ (.of_trace (Threads.step (AddCall.prog .plain) Mysql.handler) (addInit {}) acts)).user
  have hrows : ((final (addInit {}) (trace (Threads.step (AddCall.prog .plain) Mysql.handler) (addInit {})
      acts)).shared.committed.user.map User.name) = [['a'], ['a']] := by decide +kernel
  have hnodup := List.pairwise_map.2 hunique
  rw [hrows] at hnodup
  exact absurd hnodup (by decide)

end Netdisk

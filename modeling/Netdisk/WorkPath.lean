import Netdisk.PathResolution
import Netdisk.SimplifyPath
import Netdisk.Worker

/-!
# The working directory of a session (`file_no_change.c`, `login.c`)

`get_user_path` lets `..` climb out of the home directory; it is `query_cd` that has to refuse what
comes of it. It does so as long as the root of the user is the first of the user's rows (`Homes`):
every token handed out then carries a canonical path below the account's name
(`atHome_of_homeFirst`).
-/

namespace Netdisk
open Runs

namespace Db

/-- The database, a socket that takes every reply, and a clock that stands at `now`. -/
def reply (ord : RowOrder) (now : Nat) : (o : Op) → Db → Option (Resp o × Db)
  | .send .., db => some ((), db)
  | .time, db => some (now, db)
  | o, db => handler ord o db

end Db

/-! ### Requests -/

/-- The tables, and the tokens handed out so far with the accounts they were given for. -/
structure Served where
  db : Db := {}
  tokens : List (CStr × TokenInfo) := []

inductive Request
  /-- a call of the database operations, by anyone -/
  | call (call : Db.Call)
  /-- a registration or a login -/
  | login (rand : CStr) (frame : TransFile)
  /-- `cd` with a token that was handed out -/
  | cd (token : Nat) (argument : CStr)

section Step
variable (J : Jwt) (C : Crypt) (clientFd : Int)

/-- A request that comes to its end; the rows are delivered in the order given with it, and the
clock shows the time given with it. -/
def request (s : Served) : RowOrder × Nat × Request → Option Served
  | (ord, _, .call call) => (Db.call C s.db (ord, call)).map fun db => { s with db }
  | (ord, now, .login rand frame) =>
    if frame.commandNo = 0 ∨ frame.commandNo = 1 then
      ((checkUserLogin J C rand clientFd frame {}).run (Db.reply ord now) s.db).map fun x : (Int × TokenInfo) × Db =>
        { db := x.2, tokens := if x.1.1 = 0 then s.tokens ++ [(account frame, x.1.2)] else s.tokens }
    else none
  | (ord, now, .cd k argument) => s.tokens[k]?.bind fun token =>
    ((changeDir J clientFd argument token.2).run (Db.reply ord now) s.db).map fun x =>
      { db := x.2, tokens := s.tokens ++ [(token.1, x.1.2)] }

abbrev RequestStep (s : Served) (i : RowOrder × Nat × Request) (t : Served) : Prop :=
  request J C clientFd s i = some t

end Step

/-- An absolute path below `account` that has nothing to simplify. -/
def AtHome (account path : CStr) : Prop := ∃ ns, path = joinPath (account :: ns) ∧ ∀ n ∈ account :: ns, IsName n

/-- Every token given for an account that is a name is at home. -/
def TokensAtHome (s : Served) : Prop := ∀ x ∈ s.tokens, IsName x.1 → AtHome x.1 x.2.workpath

/-- The call stores what it stores behind the root of its user: no upload links a file older than
that, and the ids that are drawn fit. -/
def HomeFirst (s : Served) : RowOrder × Nat × Request → Prop
  | (ord, _, .call call) => s.db.nextFile < 2 ^ 32 ∧ s.db.LinksForward (ord, call)
  | (_, _, .login _ frame) => frame.commandNo = 0 → s.db.nextFile < 2 ^ 32 ∧ s.db.nextUser < 2 ^ 32
  | _ => True

/-! ### The root comes first -/

namespace Db

/-- The tree, with the root of each user in front of the user's other rows and named like the
account. -/
structure Homes (db : Db) : Prop extends Tree db where
  bound : db.nextFile ≤ 2 ^ 32
  rootFirst : ∀ r ∈ db.userFile, r.parentId = none → ∀ x ∈ db.userFile, x.userId = r.userId →
    x = r ∨ r.fileId < x.fileId
  userIds : ∀ x ∈ db.user, x.id < db.nextUser
  rootName : ∀ x ∈ db.user, ∀ r ∈ db.userFile, r.userId = x.id → r.parentId = none → r.name = x.name

variable {db db' : Db} {ord : RowOrder} {now u : Nat}

theorem homes_empty : Homes {} where
  toTree := tree_empty
  bound := by decide
  rootFirst := nofun
  userIds := nofun
  rootName := nofun

theorem Homes.head_root (h : Homes db) {r : UserFile} {rs : List UserFile}
    (hrows : db.userFileRows ord (.ofUser u) = r :: rs) : r.parentId = none := by
  refine h.toTree.head_root (fun root hroot hp x hx hxu => ?_) hrows
  rcases h.rootFirst root hroot hp x hx hxu with rfl | hlt
  · exact le_rfl
  · exact hlt.le

/-- The first name of a path that resolves is that of the root. -/
theorem Homes.first (h : Homes db) {path n : CStr} {ns : List CStr} {d : Int} (hcd : db.cd ord path u = some d)
    (hd : 0 < d) (hnames : spliteFileName path = some (n :: ns)) :
    ∃ r ∈ db.userFile, r.userId = u ∧ r.parentId = none ∧ r.heldName = n := by
  obtain ⟨names, r, rs, hsplit, hrows, hwalk⟩ := (cd_eq_some_iff hd).1 hcd
  obtain rfl := Option.some.inj (hnames.symm.trans hsplit)
  have hseed : intOf (r.parentId.getD 0) = 0 := by rw [h.head_root hrows]; rfl
  rw [hseed] at hwalk
  obtain ⟨as, hsub, hch, -⟩ := Greedy.exists_chain_of_walk hwalk
  cases as with
  | nil => exact hch.elim
  | cons a as =>
    obtain ⟨ha, hau⟩ := mem_rows.1 (hrows ▸ hsub.subset List.mem_cons_self)
    have hacc := hch.1
    simp only [accepts, Bool.and_eq_true, beq_iff_eq] at hacc
    refine ⟨a, ha, hau, ?_, hacc.1⟩
    cases hp : a.parentId with
    | none => rfl
    | some p =>
      have hpos := (h.parentLt a ha p hp).1
      have hzero : ulongOf 0 = 0 := rfl
      rw [hzero, hp, Option.getD_some] at hacc
      omega

/-- At most one row is new, and it is an entry behind the root of its user. -/
theorem Homes.insert (h : Homes db) (ht : Tree db') (hb : db'.nextFile ≤ 2 ^ 32) {row : UserFile}
    (huser : db'.user = db.user) (hnext : db'.nextUser = db.nextUser)
    (hrows : ∀ x ∈ db'.userFile, x ∈ db.userFile ∨ x = row) (hp : row.parentId ≠ none)
    (hafter : ∀ r ∈ db.userFile, r.userId = row.userId → r.parentId = none → r.fileId < row.fileId) : Homes db' where
  toTree := ht
  bound := hb
  rootFirst := fun r hr hrp x hx hu => by
    rcases hrows r hr with hr' | rfl
    · rcases hrows x hx with hx' | rfl
      · exact h.rootFirst r hr' hrp x hx' hu
      · exact .inr (hafter r hr' hu.symm hrp)
    · exact absurd hrp hp
  userIds := by
    rw [huser, hnext]
    exact h.userIds
  rootName := fun x hx r hr hru hrp => by
    rcases hrows r hr with hr' | rfl
    · exact h.rootName x (huser ▸ hx) r hr' hru hrp
    · exact absurd hrp hp

/-- A new user, with the root that is made for it. -/
theorem Homes.register (h : Homes db) (hb : db.nextFile < 2 ^ 32) {account : CStr} (word : CStr) :
    Homes (((db.exec (.insertUser account word)).exec .insertDir).exec
      (.insertUserFile account db.nextUser db.nextFile none)) := by
  let root : UserFile := ⟨db.nextUserFile, account, db.nextUser, db.nextFile, none⟩
  have hrows : ∀ x ∈ db.userFile ++ [root], x ∈ db.userFile ∨ x = root := fun x => mem_added
  have hold : ∀ x ∈ db.userFile, x.userId ≠ db.nextUser := fun x hx => (h.userLt x hx).ne
  exact
    { toTree := (h.toTree.addUser account word).addDir (Nat.lt_succ_self _) nofun nofun fun _ => hold
      bound := hb
      rootFirst := fun r hr hrp x hx hu => by
        rcases hrows r hr with hr' | rfl <;> rcases hrows x hx with hx' | rfl
        · exact h.rootFirst r hr' hrp x hx' hu
        · exact absurd hu.symm (hold r hr')
        · exact absurd hu (hold x hx')
        · exact .inl rfl
      userIds := fun x hx => by
        rcases List.mem_append.1 hx with hx | hx
        · exact Nat.lt_succ_of_lt (h.userIds x hx)
        · obtain rfl := List.mem_singleton.1 hx
          exact Nat.lt_succ_self _
      rootName := fun x hx r hr hru hrp => by
        rcases List.mem_append.1 hx with hx | hx <;> rcases hrows r hr with hr' | rfl
        · exact h.rootName x hx r hr' hru hrp
        · exact absurd hru (h.userIds x hx).ne'
        · obtain rfl := List.mem_singleton.1 hx
          exact absurd hru (hold r hr')
        · obtain rfl := List.mem_singleton.1 hx
          rfl }

theorem Homes.effect {call : Call} (h : Homes db) (hb : db.nextFile < 2 ^ 32) (hfwd : db.LinksForward (ord, call))
    (he : Effect db ord call db') : Homes db' ∧ db.user ⊆ db'.user := by
  have ht := h.toTree.effect hb he
  have hnew : ∀ r ∈ db.userFile, r.fileId < db.nextFile := fun r hr => h.toTree.fileId_lt hr
  cases he with
  | same => exact ⟨h, List.Subset.refl _⟩
  | register word hacc => exact ⟨h.register hb word, List.subset_append_left _ _⟩
  | mkdir hcd hD hlt hfree =>
    rw [regOf_intOf hb] at ht ⊢
    exact ⟨h.insert ht hb rfl rfl (fun _ => mem_added) nofun fun r hr _ _ => hnew r hr, List.Subset.refl _⟩
  | putsNew hcd hD hlt hfree hhash =>
    exact ⟨h.insert ht hb rfl rfl (fun _ => mem_added) nofun fun r hr _ _ => hnew r hr, List.Subset.refl _⟩
  | putsLink f hcd hD hlt hfree hf hhash =>
    refine ⟨h.insert ht hb.le rfl rfl (fun _ => mem_added) nofun fun r hr hu hp => ?_, List.Subset.refl _⟩
    exact hfwd _ hcd hD hfree f hf hhash r hr hu hp
  | update => exact ⟨⟨ht, h.bound, h.rootFirst, h.userIds, h.rootName⟩, List.Subset.refl _⟩
  | remove r f =>
    refine ⟨⟨ht, h.bound, fun r hr hp x hx hu => ?_, h.userIds, fun x hx r hr hu hp => ?_⟩, List.Subset.refl _⟩
    · exact h.rootFirst r (mem_unlink.1 hr).1 hp x (mem_unlink.1 hx).1 hu
    · exact h.rootName x hx r (mem_unlink.1 hr).1 hu hp

end Db

/-! ### What the requests do -/

section Requests
variable {J : Jwt} {C : Crypt} {fd : Int} {db db' : Db} {ord : RowOrder} {now u : Nat}

theorem run_reply {α : Type} {p : Os α} (h : SqlOnly p) (db : Db) : p.run (Db.reply ord now) db = p.run (Db.handler ord) db :=
  h.run_congr (fun (o : Op) ho db => by cases o <;> first | rfl | exact absurd ho (by simp [Op.isSql])) db

theorem sendMessage_reply (msg : CStr) (flag : Bool) (info : TokenInfo) (db : Db) :
    (sendMessage J fd msg flag info).run (Db.reply ord now) db = some ((), db) := by
  unfold sendMessage
  split <;> rfl

theorem queryCd_reply (path : CStr) (u : Nat) (db : Db) :
    (queryCd path u).run (Db.reply ord now) db = (db.cd ord path u).map fun d => (d, db) := by
  rw [run_reply queryCd_only.sql]
  exact Db.queryCd_run db ord path u

/-- `cd` leaves the tables as they are, and moves to a path only when `query_cd` finds it. -/
theorem changeDir_reply {argument : CStr} {token token' : TokenInfo} {ret : Int}
    (h : (changeDir J fd argument token).run (Db.reply ord now) db = some ((ret, token'), db')) :
    db' = db ∧ (token' = token ∨ ∃ path d, getUserPath argument token = some path ∧
      db.cd ord path token.userId = some d ∧ 0 < d ∧ token' = { token with workpath := path }) := by
  unfold changeDir at h
  cases hpath : getUserPath argument token with
  | none =>
    rw [hpath] at h
    cases h
  | some path =>
    rw [hpath] at h
    simp only [Prog.bind_eq, Prog.run_bind, queryCd_reply] at h
    cases hcd : db.cd ord path token.userId with
    | none =>
      rw [hcd] at h
      cases h
    | some d =>
      simp only [hcd, Option.map_some, Option.bind_some] at h
      split at h
      · simp [Prog.run_bind, sendMessage_reply] at h
        exact ⟨h.2.symm, .inl h.1.2.symm⟩
      split at h
      · simp [Prog.run_bind, sendMessage_reply] at h
        exact ⟨h.2.symm, .inl h.1.2.symm⟩
      · simp [Prog.run_bind, sendMessage_reply] at h
        exact ⟨h.2.symm, .inr ⟨path, d, rfl, hcd, by omega, h.1.2.symm⟩⟩

theorem userRegister_reply (rand account password : CStr) :
    ((∃ x ∈ db.user, x.name = account) ∧
      (userRegister C rand account password).run (Db.reply ord now) db = some (0, db)) ∨
    ((∀ x ∈ db.user, x.name ≠ account) ∧
      (userRegister C rand account password).run (Db.reply ord now) db = some (intOf db.nextUser,
        ((db.exec (.insertUser account (encryptPassword C rand password))).exec .insertDir).exec
          (.insertUserFile account db.nextUser db.nextFile none))) := by
  by_cases hu : db.selectUser ord account = []
  · refine .inr ⟨Db.selectUser_eq_nil.1 hu, ?_⟩
    have huser : ∀ word, (db.change (.insertUser account word)).2 = db.nextUser := fun _ => rfl
    have hfile : ∀ word, ((db.exec (.insertUser account word)).change .insertDir).2 = db.nextFile := fun _ => rfl
    simp [userRegister, Db.reply, Db.handler, hu, huser, hfile]
  · refine .inl ⟨?_, by simp [userRegister, Db.reply, Db.handler, hu]⟩
    rw [Db.selectUser_eq_nil] at hu
    push Not at hu
    exact hu

theorem getUser_reply {name : CStr} {rows : Option (List User)}
    (h : (getUser name).run (Db.reply ord now) db = some (rows, db')) :
    db' = db ∧ ∀ users, rows = some users → ∀ x ∈ users, x ∈ db.user ∧ x.name = name := by
  by_cases hu : db.selectUser ord name = []
  · simp [getUser, Db.reply, Db.handler, hu] at h
    obtain ⟨rfl, rfl⟩ := h
    refine ⟨rfl, ?_⟩
    rintro users ⟨⟩
  · simp [getUser, Db.reply, Db.handler, hu] at h
    obtain ⟨rfl, rfl⟩ := h
    refine ⟨rfl, fun users husers x hx => ?_⟩
    obtain rfl := Option.some.inj husers
    simpa [Db.selectUser] using hx

/-- A registration or a login: a token is given for a user of that name, which fits `user_name`, and only a
registration changes the tables. -/
theorem checkUserLogin_reply {rand : CStr} {frame : TransFile} {token : TokenInfo} {ret : Int}
    (hno : frame.commandNo = 0 ∨ frame.commandNo = 1)
    (h : (checkUserLogin J C rand fd frame {}).run (Db.reply ord now) db = some ((ret, token), db')) :
    (db' = db ∨ frame.commandNo = 0 ∧ ∃ word, db' = ((db.exec (.insertUser (account frame) word)).exec .insertDir).exec
      (.insertUserFile (account frame) db.nextUser db.nextFile none)) ∧
    (ret = 0 → token.workpath = '/' :: account frame ∧ (account frame).length < 100 ∧ ∃ x ∈ db'.user, x.name = account frame ∧
      (x.id = token.userId ∨ frame.commandNo = 0 ∧ x.id = db.nextUser ∧ 0 < intOf db.nextUser ∧
        token.userId = ulongOf (intOf db.nextUser))) := by
  unfold checkUserLogin at h
  cases hwords : loginWords frame.data with
  | none =>
    rw [hwords] at h
    cases h
  | some args =>
    obtain ⟨userName, userPwd⟩ := args
    obtain ⟨hargs, hshort, -⟩ := loginWords_eq_some.1 hwords
    have haccount : account frame = userName := by simp [account, parseRequest, hargs]
    rw [hwords] at h
    rw [haccount]
    simp only [Prog.bind_eq] at h
    rcases hno with hno | hno
    · rw [if_pos hno, Prog.run_bind] at h
      rcases @userRegister_reply C db ord now rand userName userPwd with ⟨-, hrun⟩ | ⟨-, hrun⟩
      · rw [hrun] at h
        simp [Prog.run_bind, sendMessage_reply] at h
        obtain ⟨⟨rfl, -⟩, rfl⟩ := h
        exact ⟨.inl rfl, nofun⟩
      · rw [hrun, Option.bind_some] at h
        dsimp only at h
        split at h
        · have hret : ret = 1 ∧ db' = (((db.exec (.insertUser userName (encryptPassword C rand userPwd))).exec
              .insertDir).exec (.insertUserFile userName db.nextUser db.nextFile none)) := by
            split at h
            · simp [Prog.run_bind, sendMessage_reply] at h
              exact ⟨h.1.1.symm, h.2.symm⟩
            split at h
            · simp [Prog.run_bind, sendMessage_reply] at h
              exact ⟨h.1.1.symm, h.2.symm⟩
            · simp at h
              exact ⟨h.1.1.symm, h.2.symm⟩
          obtain ⟨rfl, rfl⟩ := hret
          exact ⟨.inr ⟨hno, _, rfl⟩, nofun⟩
        · next hpos =>
          simp [Prog.run_bind, sendMessage_reply] at h
          obtain ⟨⟨rfl, rfl⟩, rfl⟩ := h
          have hnew : (⟨db.nextUser, userName, encryptPassword C rand userPwd⟩ : User) ∈
              (((db.exec (.insertUser userName (encryptPassword C rand userPwd))).exec .insertDir).exec
                (.insertUserFile userName db.nextUser db.nextFile none)).user :=
            List.mem_append_right _ (List.mem_singleton_self _)
          refine ⟨.inr ⟨hno, _, rfl⟩, fun _ => ⟨rfl, hshort, _, hnew, rfl, .inr ⟨hno, rfl, ?_, ?_⟩⟩⟩
          · omega
          · dsimp only
    · have hone : frame.commandNo ≠ 0 := by rw [hno]; decide
      rw [if_neg hone, if_pos hno, Prog.run_bind] at h
      obtain ⟨⟨rows, db''⟩, hrun, h⟩ := Option.bind_eq_some_iff.1 h
      obtain ⟨rfl, hrows⟩ := getUser_reply hrun
      match rows, hrows with
      | none, _ =>
        simp [Prog.run_bind, sendMessage_reply] at h
        obtain ⟨⟨rfl, -⟩, rfl⟩ := h
        exact ⟨.inl rfl, nofun⟩
      | some [], _ => cases h
      | some (user :: users), hrows =>
        obtain ⟨huser, hname⟩ := hrows _ rfl user List.mem_cons_self
        dsimp only at h
        split at h
        · simp [Prog.run_bind, sendMessage_reply] at h
          obtain ⟨⟨rfl, -⟩, rfl⟩ := h
          exact ⟨.inl rfl, nofun⟩
        · simp [Prog.run_bind, sendMessage_reply] at h
          obtain ⟨⟨rfl, rfl⟩, rfl⟩ := h
          exact ⟨.inl rfl, fun _ => ⟨rfl, hshort, user, huser, hname, .inl rfl⟩⟩

end Requests

/-! ### The invariant -/

/-- The account that a token is given for, with a user who has it. -/
def Owner (db : Db) (x : CStr × TokenInfo) : Prop := x.1.length < 100 ∧ ∃ y ∈ db.user, y.id = x.2.userId ∧ y.name = x.1

theorem Owner.mono {db db' : Db} {x : CStr × TokenInfo} (huser : db.user ⊆ db'.user) (h : Owner db x) : Owner db' x := by
  obtain ⟨hshort, y, hy, hyx⟩ := h
  exact ⟨hshort, y, huser hy, hyx⟩

/-- The root comes first, and every token was given for a user of its account and is at home. -/
structure Housed (s : Served) : Prop where
  homes : s.db.Homes
  owner : ∀ x ∈ s.tokens, Owner s.db x
  atHome : TokensAtHome s

section Housed
variable {J : Jwt} {C : Crypt} {fd : Int} {s t : Served} {i : RowOrder × Nat × Request}

theorem housed_init : Housed {} := ⟨Db.homes_empty, nofun, nofun⟩

theorem atHome_root {a : CStr} (h : IsName a) : AtHome a ('/' :: a) :=
  ⟨[], by simp [joinPath], by simpa using h⟩

/-- A new path is the old one or one that has been simplified. -/
theorem getUserPath_cases {a argument path : CStr} {token : TokenInfo} (h : AtHome a token.workpath)
    (hpath : getUserPath argument token = some path) :
    path = token.workpath ∨ ∃ rest, path = simplifyPath ('/' :: rest) := by
  obtain ⟨ns, hns, -⟩ := h
  have habs : token.workpath = '/' :: (a ++ joinPath ns) := hns
  cases argument with
  | nil => exact .inl (Option.some.inj hpath).symm
  | cons c argument =>
    obtain ⟨res, -, heq⟩ := Option.bind_eq_some_iff.1 hpath
    obtain rfl := Option.some.inj heq
    split
    · exact .inr ⟨_, rfl⟩
    · rw [habs]
      exact .inr ⟨_, rfl⟩

theorem Db.Homes.atHome {db : Db} {ord : RowOrder} (h : db.Homes) {a argument path : CStr} {token : TokenInfo} {d : Int}
    (ha : IsName a) (howner : Owner db (a, token)) (hhome : AtHome a token.workpath)
    (hpath : getUserPath argument token = some path) (hcd : db.cd ord path token.userId = some d) (hd : 0 < d) :
    AtHome a path := by
  obtain ⟨hshort, y, hy, hid, hname⟩ := howner
  -- a path that resolves starts with the name of the account
  have hfirst : ∀ n ns, spliteFileName path = some (n :: ns) → n = a := by
    intro n ns hnames
    obtain ⟨r, hr, hru, hrp, hrn⟩ := h.first hcd hd hnames
    have hrname : r.name = a := (h.rootName y hy r hr (hru.trans hid.symm) hrp).trans hname
    have hfits : r.name.length < nameSize := hrname ▸ hshort.trans (by decide)
    rw [← hrn, UserFile.heldName_of_lt hfits, hrname]
  rcases getUserPath_cases hhome hpath with rfl | ⟨rest, rfl⟩
  · exact hhome
  · have hresolve := isName_resolve rest
    rw [simplifyPath_eq] at hfirst ⊢
    cases hns : resolve rest with
    | nil =>
      rw [hns, if_pos rfl] at hfirst
      exact absurd (hfirst [] [] rfl).symm ha.1
    | cons n ns =>
      rw [hns] at hresolve hfirst
      rw [if_neg (List.cons_ne_nil n ns)] at hfirst ⊢
      obtain rfl := hfirst n ns (spliteFileName_joinPath (List.cons_ne_nil n ns) fun m hm => (hresolve m hm).2.1)
      exact ⟨ns, rfl, hresolve⟩

theorem Housed.snoc (h : Housed s) {db : Db} (hdb : db.Homes) (huser : s.db.user ⊆ db.user) {x : CStr × TokenInfo}
    (howner : Owner db x) (hx : IsName x.1 → AtHome x.1 x.2.workpath) :
    Housed { db, tokens := s.tokens ++ [x] } where
  homes := hdb
  owner := fun x' hx' => by
    rcases List.mem_append.1 hx' with hx' | hx'
    · exact (h.owner x' hx').mono huser
    · exact List.mem_singleton.1 hx' ▸ howner
  atHome := fun x' hx' => by
    rcases List.mem_append.1 hx' with hx' | hx'
    · exact h.atHome x' hx'
    · exact List.mem_singleton.1 hx' ▸ hx

theorem Housed.step (h : Housed s) (hC : HomeFirst s i) (hst : RequestStep J C fd s i t) : Housed t := by
  obtain ⟨ord, now, req⟩ := i
  cases req with
  | call call =>
    obtain ⟨db, hcall, rfl⟩ := Option.map_eq_some_iff.1 hst
    obtain ⟨hdb, huser⟩ := h.homes.effect hC.1 hC.2 (Db.Step.effect hcall)
    exact ⟨hdb, fun x hx => (h.owner x hx).mono huser, h.atHome⟩
  | login rand frame =>
    obtain ⟨hno, hst⟩ := Option.ite_none_right_eq_some.1 hst
    obtain ⟨⟨⟨ret, token⟩, db⟩, hrun, rfl⟩ := Option.map_eq_some_iff.1 hst
    obtain ⟨hdb, htoken⟩ := checkUserLogin_reply hno hrun
    have hhomes : db.Homes ∧ s.db.user ⊆ db.user := by
      rcases hdb with rfl | ⟨hzero, word, rfl⟩
      · exact ⟨h.homes, List.Subset.refl _⟩
      · exact ⟨h.homes.register (hC hzero).1 word, List.subset_append_left _ _⟩
    by_cases hret : ret = 0
    · obtain ⟨hpath, hshort, y, hy, hname, hid⟩ := htoken hret
      have hyid : y.id = token.userId := by
        rcases hid with hid | ⟨hzero, hyid, hpos, hid⟩
        · exact hid
        · -- the id that fits an `int` comes through it unchanged
          have hlt := intOf_lt (s.db.nextUser : Int)
          have hnat : intOf s.db.nextUser = ((intOf s.db.nextUser).toNat : Int) := by omega
          have hsame := eq_of_intOf (hC hzero).2 hnat (by omega)
          rw [hyid, hid, hnat, ulongOf_of_lt (by omega), ← hsame]
      simp only [hret, ↓reduceIte]
      refine h.snoc hhomes.1 hhomes.2 ⟨hshort, y, hy, hyid, hname⟩ fun ha => ?_
      show AtHome _ token.workpath
      rw [hpath]
      exact atHome_root ha
    · simp only [hret, ↓reduceIte]
      exact ⟨hhomes.1, fun x hx => (h.owner x hx).mono hhomes.2, h.atHome⟩
  | cd k argument =>
    obtain ⟨x, hx, hst⟩ := Option.bind_eq_some_iff.1 hst
    obtain ⟨⟨⟨ret, token⟩, db⟩, hrun, rfl⟩ := Option.map_eq_some_iff.1 hst
    have hmem := List.mem_of_getElem? hx
    obtain ⟨rfl, rfl | ⟨path, d, hpath, hcd, hd, rfl⟩⟩ := changeDir_reply hrun
    · exact h.snoc h.homes (List.Subset.refl _) (h.owner x hmem) (h.atHome x hmem)
    · exact h.snoc h.homes (List.Subset.refl _) (h.owner x hmem) fun ha =>
        h.homes.atHome ha (h.owner x hmem) (h.atHome x hmem ha) hpath hcd hd

/-- Every token is at home, in every state of a run that stores nothing in front of a root. -/
theorem atHome_of_homeFirst (J : Jwt) (C : Crypt) (clientFd : Int) (r : List ((RowOrder × Nat × Request) × Served))
    (hr : IsRun (RequestStep J C clientFd) {} r) (hC : Meets HomeFirst {} r) : Always TokensAtHome {} r :=
  (hr.always (I := Housed) (fun _ _ _ h hC hst => h.step hC hst) housed_init hC).mono fun _ h => h.atHome

end Housed

/-- A user registers and changes to the home directory on a detour. -/
theorem atHome_of_homeFirst_one :
    Always TokensAtHome {} (trace (request .unary .plain 5) {}
      [(.stored, 0, .login [] { data := "a p".toList }), (.stored, 1, .cd 0 "../a/./".toList)]) := by
  refine atHome_of_homeFirst .unary .plain 5 _ (isRun_trace ..) ?_
  exact ⟨fun _ => by decide, trivial, trivial⟩

/-- `b`'s upload links a file that is older than `b`'s root, and `cd` takes that file's name for a
directory beside it. -/
theorem climbs_out : ¬ ∀ J C fd s, Reaches (RequestStep J C fd) {} s → TokensAtHome s := by
  intro h
  let acts : List (RowOrder × Nat × Request) := [(.stored, 0, .login [] { data := "a p".toList }),
    (.stored, 0, .call (.queryPuts "/a".toList "f".toList "H".toList 1)),
    (.stored, 0, .login [] { data := "b p".toList }),
    (.stored, 0, .call (.queryPuts "/b".toList "g".toList "H".toList 2)), (.stored, 0, .cd 1 "/../g".toList)]
  have htokens := h .unary .plain 5 _ (.of_trace (request .unary .plain 5) {} acts)
  have hmem : ("b".toList, (⟨2, "/g".toList⟩ : TokenInfo)) ∈
      (final {} (trace (request .unary .plain 5) {} acts)).tokens := by decide +kernel
  obtain ⟨ns, hns, -⟩ := htokens _ hmem (by decide)
  cases hns

end Netdisk

import Netdisk.Db.Sequential

/-!
# Inserts that fail

One call with its transaction, where any of its inserts may fail: nothing is added then and
`mysql_insert_id` gives 0. No operation looks at what `query` returns, so what did succeed is
committed. `atomic_iff` says for which patterns of failures a call still stores all of its rows or
none.
-/

namespace Netdisk
namespace Db

/-- The tables as everybody sees them and as the connection of the call does, the mode of the
connection, and the number of statements that the call has made to change them. -/
structure Session where
  committed : Db
  own : Db
  manual : Bool := false
  made : Nat := 0

/-- A call that has not begun. -/
def Session.init (db : Db) : Session := { committed := db, own := db }

/-- The database under a single call, whose statement number `n` fails if `fails n`. -/
def Session.handler (fails : Nat → Bool) (ord : RowOrder) : (o : Op) → Session → Option (Resp o × Session)
  | .getConnection, s => some (some (0 : Nat), s)
  | .releaseConnection _, s => some ((), s)
  | .autocommit _ false, s => some ((), { s with manual := true })
  | .autocommit _ true, s => some ((), { s with manual := false, committed := s.own })
  | .commit _, s => some ((), { s with committed := s.own })
  | .selectUser _ name, s => some (s.own.selectUser ord name, s)
  | .selectUserFile _ q, s => some (s.own.selectUserFile ord q, s)
  | .selectFile _ q, s => some (s.own.selectFile ord q, s)
  | .exec _ st, s =>
    if fails s.made then some (0, { s with made := s.made + 1 })
    else some ((s.own.change st).2, { s with
      own := s.own.exec st
      committed := if s.manual then s.committed else s.own.exec st
      made := s.made + 1 })
  | _, _ => none

/-- The three tables are the same. -/
def SameTables (db db' : Db) : Prop :=
  db'.user = db.user ∧ db'.file = db.file ∧ db'.userFile = db.userFile

/-- One row for each insert, with matching ids. -/
inductive Stored (db : Db) (ord : RowOrder) : Call → Int → Db → Prop
  | register {rand account password word : CStr} {userId fileId rowId : Nat} {db' : Db} :
    db'.user = db.user ++ [⟨userId, account, word⟩] →
    db'.file = db.file ++ [{ id := fileId, type := .dir, complete := true }] →
    db'.userFile = db.userFile ++ [⟨rowId, account, userId, fileId, none⟩] →
    Stored db ord (.userRegister rand account password) userId db'
  | mkdir {path dirName : CStr} {u fileId rowId D : Nat} {db' : Db} :
    db.cd ord path u = some (D : Int) → db'.user = db.user →
    db'.file = db.file ++ [{ id := fileId, type := .dir, complete := true }] →
    db'.userFile = db.userFile ++ [⟨rowId, dirName, u, fileId, some D⟩] →
    Stored db ord (.queryMkdir path dirName u) 2 db'
  | puts {path fileName hash : CStr} {u fileId rowId D : Nat} {db' : Db} :
    db.cd ord path u = some (D : Int) → db'.user = db.user →
    db'.file = db.file ++ [{ id := fileId, type := .file, realPath := hash, hash, complete := false }] →
    db'.userFile = db.userFile ++ [⟨rowId, fileName, u, fileId, some D⟩] →
    Stored db ord (.queryPuts path fileName hash u) 1 db'

/-- The code that reports success. -/
def Call.Succeeds : Call → Int → Prop
  | .userRegister .., ret => 0 < ret
  | .queryMkdir .., ret => ret = 2
  | .queryPuts .., ret => ret = 1
  | _, _ => False

/-- The call stores all of its rows and says so, or leaves the tables as they were. -/
def Atomic (C : Crypt) (db : Db) (ord : RowOrder) (fails : Nat → Bool) (call : Call) : Prop :=
  ∀ ret s, (call.prog C).run (Session.handler fails ord) (.init db) = some (ret, s) →
    (call.Succeeds ret → Stored db ord call ret s.committed) ∧ (¬ call.Succeeds ret → SameTables db s.committed)

/-- The path resolves to the directory `D`, and the name is free there. -/
def FreeIn (db : Db) (ord : RowOrder) (path name : CStr) (u D : Nat) : Prop :=
  db.cd ord path u = some (D : Int) ∧ 0 < D ∧ db.Free D name

/-- The calls with dependent inserts: `user_register`, `query_mkdir`, and a `query_puts` that is to
store a new file. -/
def Inserts (db : Db) (ord : RowOrder) : Call → Prop
  | .userRegister .. | .queryMkdir .. => True
  | .queryPuts path fileName hash u => (∃ D, FreeIn db ord path fileName u D) ∧ ∀ f ∈ db.file, f.hash ≠ some hash
  | _ => False

/-- If the call comes to its inserts, none of them fails and the new id fits the `int` it is kept in;
or all three inserts of `user_register` fail. -/
def AllOrNone (db : Db) (ord : RowOrder) (fails : Nat → Bool) : Call → Prop
  | .userRegister _ account _ => (∀ x ∈ db.user, x.name ≠ account) →
    (fails 0 = false ∧ fails 1 = false ∧ fails 2 = false ∧ 0 < db.nextUser ∧ db.nextUser < 2 ^ 31) ∨
      (fails 0 = true ∧ fails 1 = true ∧ fails 2 = true)
  | .queryMkdir path dirName u => (∃ D, FreeIn db ord path dirName u D) →
    fails 0 = false ∧ fails 1 = false ∧ db.nextFile < 2 ^ 32
  | .queryPuts .. => fails 0 = false ∧ fails 1 = false
  | _ => True

variable {C : Crypt} {db : Db} {ord : RowOrder} {fails : Nat → Bool} {path name hash : CStr} {u : Nat}

/-! ### What the calls come to -/

/-- A row that is added unless its insert fails. -/
def added {α : Type} (fails : Bool) (a : α) : List α := if fails then [] else [a]

theorem append_added_eq {α : Type} {l : List α} {b : Bool} {a : α} : l ++ added b a = l ↔ b = true := by
  cases b <;> simp [added]

theorem append_added {α : Type} {l : List α} {b : Bool} {a a' : α} : l ++ added b a = l ++ [a'] ↔ b = false ∧ a = a' := by
  cases b <;> simp [added]

/-- What `mysql_insert_id` gives. -/
def insertId (fails : Bool) (id : Nat) : Nat := if fails then 0 else id

theorem intOf_insertId_true (id : Nat) : intOf (insertId true id) = 0 := intOf_of_lt (n := 0) (by decide)

variable (C ord fails) in
theorem userRegister_taken (rand password : CStr) {account : CStr} (h : ¬ ∀ x ∈ db.user, x.name ≠ account) :
    ∃ s, (userRegister C rand account password).run (Session.handler fails ord) (.init db) = some (0, s) ∧
      s.committed = db := by
  have hsel : db.selectUser ord account ≠ [] := fun hnil => h (selectUser_eq_nil.1 hnil)
  simp [userRegister, Session.handler, Session.init, hsel]

variable (C ord fails) in
theorem userRegister_new (rand password : CStr) {account : CStr} (h : ∀ x ∈ db.user, x.name ≠ account) :
    ∃ s, (userRegister C rand account password).run (Session.handler fails ord) (.init db) =
        some (intOf (insertId (fails 0) db.nextUser), s) ∧
      s.committed.user = db.user ++ added (fails 0) ⟨db.nextUser, account, encryptPassword C rand password⟩ ∧
      s.committed.file = db.file ++ added (fails 1) { id := db.nextFile, type := .dir, complete := true } ∧
      s.committed.userFile = db.userFile ++ added (fails 2)
        ⟨db.nextUserFile, account, insertId (fails 0) db.nextUser, insertId (fails 1) db.nextFile, none⟩ := by
  have hsel : db.selectUser ord account = [] := selectUser_eq_nil.2 h
  cases h₀ : fails 0 <;> cases h₁ : fails 1 <;> cases h₂ : fails 2 <;>
    simp [userRegister, Session.handler, Session.init, hsel, h₀, h₁, h₂, exec, apply, change, draw, added, insertId]

theorem session_queryCd (s : Session) :
    (queryCd path u).run (Session.handler fails ord) s = (s.own.cd ord path u).map fun d => (d, s) := by
  cases hrows : s.own.selectUserFile ord (.ofUser u) with
  | nil => simp [queryCd, cd, Session.handler, hrows]
  | cons file files =>
    cases hnames : spliteFileName path with
    | none => simp [queryCd, cd, Os.crash, Session.handler, hrows, hnames]
    | some names => simp [queryCd, cd, Session.handler, hrows, hnames]

theorem session_queryCd_bind {α : Type} (k : Int → Os α) (s : Session) :
    ((queryCd path u).bind k).run (Session.handler fails ord) s =
      (s.own.cd ord path u).bind fun d => (k d).run (Session.handler fails ord) s := by
  rw [Prog.run_bind, session_queryCd]
  cases s.own.cd ord path u <;> rfl

variable (fails) in
theorem queryMkdir_new {D : Nat} (h : FreeIn db ord path name u D) :
    ∃ s, (queryMkdir path name u).run (Session.handler fails ord) (.init db) = some (2, s) ∧
      s.committed.user = db.user ∧
      s.committed.file = db.file ++ added (fails 0) { id := db.nextFile, type := .dir, complete := true } ∧
      s.committed.userFile = db.userFile ++ added (fails 1)
        ⟨db.nextUserFile, name, u, regOf (intOf (insertId (fails 0) db.nextFile)), some D⟩ := by
  obtain ⟨hcd, hD, hfree⟩ := h
  have hreg : regOf D = D := regOf_of_lt (by have := cd_lt hcd; omega)
  have hsel : db.selectUserFile ord (.named D name) = [] := selectUserFile_named_eq_nil.2 hfree
  rw [queryMkdir, Prog.bind_eq, session_queryCd_bind]
  cases h₀ : fails 0 <;> cases h₁ : fails 1 <;>
    simp [Session.init, hcd, hD.ne', Session.handler, hreg, hsel, h₀, h₁, exec, apply, change, draw, added, insertId]

/-- A `query_mkdir` that does not come to its inserts. -/
theorem queryMkdir_refused (h : ¬ ∃ D, FreeIn db ord path name u D) {ret : Int} {s : Session}
    (hrun : (queryMkdir path name u).run (Session.handler fails ord) (.init db) = some (ret, s)) :
    ret ≠ 2 ∧ s.committed = db := by
  rw [queryMkdir, Prog.bind_eq, session_queryCd_bind] at hrun
  obtain ⟨d, hcd, hrun⟩ := Option.bind_eq_some_iff.1 hrun
  by_cases hd : d ≤ 0
  · simp only [hd, if_true, Prog.pure_eq, Prog.run_pure, Option.some.injEq, Prod.mk.injEq] at hrun
    obtain ⟨rfl, rfl⟩ := hrun
    exact ⟨by omega, rfl⟩
  · obtain ⟨D, rfl, hD, hlt⟩ := cd_pos hcd (by omega)
    have hreg : regOf D = D := regOf_of_lt (by omega)
    have hsel : db.selectUserFile ord (.named D name) ≠ [] := fun hnil =>
      h ⟨D, hcd, hD, selectUserFile_named_eq_nil.1 hnil⟩
    simp [Session.init, hD.ne', Session.handler, hreg, hsel] at hrun
    obtain ⟨rfl, rfl⟩ := hrun
    exact ⟨by decide, rfl⟩

variable (fails) in
theorem queryPuts_new {D : Nat} (h : FreeIn db ord path name u D) (hnew : ∀ f ∈ db.file, f.hash ≠ some hash) :
    ∃ s, (queryPuts path name hash u).run (Session.handler fails ord) (.init db) = some (1, s) ∧
      s.committed.user = db.user ∧
      s.committed.file = db.file ++ added (fails 0)
        { id := db.nextFile, type := .file, realPath := hash, hash, complete := false } ∧
      s.committed.userFile = db.userFile ++ added (fails 1)
        ⟨db.nextUserFile, name, u, insertId (fails 0) db.nextFile, some D⟩ := by
  obtain ⟨hcd, hD, hfree⟩ := h
  have hreg : regOf D = D := regOf_of_lt (by have := cd_lt hcd; omega)
  have hneg : ¬ (D : Int) < 0 := by omega
  have hsel : db.selectUserFile ord (.named D name) = [] := selectUserFile_named_eq_nil.2 hfree
  have hfile : db.selectFile ord (.byHash hash) = [] := selectFile_byHash_eq_nil.2 hnew
  rw [queryPuts, Prog.bind_eq, session_queryCd_bind]
  cases h₀ : fails 0 <;> cases h₁ : fails 1 <;>
    simp [Session.init, hcd, hneg, hD.ne', Session.handler, hreg, hsel, hfile, h₀, h₁, exec, apply, change, draw, added,
      insertId]

/-! ### Atomicity -/

theorem Stored.of_register {rand account password : CStr} {ret : Int} {db' : Db}
    (h : Stored db ord (.userRegister rand account password) ret db') : ∃ (userId fileId rowId : Nat) (word : CStr), ret = (userId : Int) ∧
      db'.user = db.user ++ [⟨userId, account, word⟩] ∧
      db'.file = db.file ++ [{ id := fileId, type := .dir, complete := true }] ∧
      db'.userFile = db.userFile ++ [⟨rowId, account, userId, fileId, none⟩] := by
  cases h with
  | register huser hfile hrow => exact ⟨_, _, _, _, rfl, huser, hfile, hrow⟩

theorem Stored.of_mkdir {ret : Int} {db' : Db} (h : Stored db ord (.queryMkdir path name u) ret db') :
    ∃ fileId rowId D, db'.file = db.file ++ [{ id := fileId, type := .dir, complete := true }] ∧
      db'.userFile = db.userFile ++ [⟨rowId, name, u, fileId, some D⟩] := by
  cases h with
  | mkdir hcd huser hfile hrow => exact ⟨_, _, _, hfile, hrow⟩

theorem Stored.of_puts {ret : Int} {db' : Db} (h : Stored db ord (.queryPuts path name hash u) ret db') :
    ∃ fileId rowId D, db'.file =
        db.file ++ [{ id := fileId, type := .file, realPath := hash, hash, complete := false }] ∧
      db'.userFile = db.userFile ++ [⟨rowId, name, u, fileId, some D⟩] := by
  cases h with
  | puts hcd huser hfile hrow => exact ⟨_, _, _, hfile, hrow⟩

/-- With one outcome, there is one thing to check. -/
theorem atomic_of_run (call : Call) {ret : Int} {s : Session}
    (hrun : (call.prog C).run (Session.handler fails ord) (.init db) = some (ret, s)) :
    Atomic C db ord fails call ↔
      (call.Succeeds ret → Stored db ord call ret s.committed) ∧ (¬ call.Succeeds ret → SameTables db s.committed) := by
  refine ⟨fun h => h ret s hrun, fun h ret' s' hrun' => ?_⟩
  obtain ⟨rfl, rfl⟩ := Prod.mk.inj (Option.some.inj (hrun.symm.trans hrun'))
  exact h

theorem atomic_register {rand account password : CStr} :
    Atomic C db ord fails (.userRegister rand account password) ↔
      AllOrNone db ord fails (.userRegister rand account password) := by
  by_cases hnew : ∀ x ∈ db.user, x.name ≠ account
  · obtain ⟨s, hrun, huser, hfile, hrow⟩ := userRegister_new C ord fails rand password hnew
    rw [atomic_of_run (.userRegister rand account password) hrun]
    constructor
    · rintro ⟨hstored, hsame⟩ -
      cases h₀ : fails 0 with
      | true =>
        -- the call returns 0
        rw [h₀, intOf_insertId_true] at hsame
        obtain ⟨-, hfile', hrow'⟩ := hsame (Int.lt_irrefl 0)
        exact .inr ⟨rfl, append_added_eq.1 (hfile.symm.trans hfile'), append_added_eq.1 (hrow.symm.trans hrow')⟩
      | false =>
        rw [h₀] at hstored hsame huser
        by_cases hret : 0 < intOf (insertId false db.nextUser)
        · obtain ⟨userId, fileId, rowId, word, hid, huser', hfile', hrow'⟩ := (hstored hret).of_register
          obtain ⟨-, hrow₀⟩ := append_added.1 (huser.symm.trans huser')
          obtain rfl : db.nextUser = userId := congrArg User.id hrow₀
          have hpos : (0 : Int) < (db.nextUser : Int) := hid ▸ hret
          have hlt : (db.nextUser : Int) < 2 ^ 31 := hid ▸ intOf_lt _
          exact .inl ⟨rfl, (append_added.1 (hfile.symm.trans hfile')).1, (append_added.1 (hrow.symm.trans hrow')).1,
            by omega, by omega⟩
        · exact absurd (append_added_eq.1 (huser.symm.trans (hsame hret).1)) nofun
    · intro hcond
      rcases hcond hnew with ⟨h₀, h₁, h₂, hpos, hlt⟩ | ⟨h₀, h₁, h₂⟩
      · rw [h₀] at huser hrow
        rw [h₁] at hfile hrow
        rw [h₂] at hrow
        have hid : intOf (insertId (fails 0) db.nextUser) = (db.nextUser : Int) := by
          rw [h₀]
          exact intOf_of_lt hlt
        rw [hid]
        exact ⟨fun _ => .register huser hfile hrow, fun hret => absurd (Int.natCast_pos.2 hpos) hret⟩
      · rw [h₀] at huser
        rw [h₁] at hfile
        rw [h₂] at hrow
        rw [h₀, intOf_insertId_true]
        exact ⟨fun hret => absurd hret (Int.lt_irrefl 0),
          fun _ => ⟨huser.trans (append_added_eq.2 rfl), hfile.trans (append_added_eq.2 rfl), hrow.trans (append_added_eq.2 rfl)⟩⟩
  · obtain ⟨s, hrun, hsame⟩ := userRegister_taken C ord fails rand password hnew
    rw [atomic_of_run (.userRegister rand account password) hrun, hsame]
    exact iff_of_true ⟨fun hret => absurd hret (Int.lt_irrefl 0), fun _ => ⟨rfl, rfl, rfl⟩⟩
      fun h => absurd h hnew

theorem atomic_mkdir :
    Atomic C db ord fails (.queryMkdir path name u) ↔ AllOrNone db ord fails (.queryMkdir path name u) := by
  by_cases hfree : ∃ D, FreeIn db ord path name u D
  · obtain ⟨D, hD⟩ := hfree
    obtain ⟨s, hrun, huser, hfile, hrow⟩ := queryMkdir_new fails hD
    rw [atomic_of_run (.queryMkdir path name u) hrun]
    constructor
    · rintro ⟨hstored, -⟩ -
      obtain ⟨fileId, rowId, D', hfile', hrow'⟩ := (hstored rfl).of_mkdir
      obtain ⟨h₀, hdir⟩ := append_added.1 (hfile.symm.trans hfile')
      obtain ⟨h₁, hrow₀⟩ := append_added.1 (hrow.symm.trans hrow')
      obtain rfl : db.nextFile = fileId := congrArg File.id hdir
      have hid := congrArg UserFile.fileId hrow₀
      dsimp only at hid
      have hlt : regOf (intOf (insertId (fails 0) db.nextFile)) < 2 ^ 32 := by
        unfold regOf
        omega
      exact ⟨h₀, h₁, hid ▸ hlt⟩
    · intro hcond
      obtain ⟨h₀, h₁, hlt⟩ := hcond ⟨D, hD⟩
      have hid : regOf (intOf (insertId (fails 0) db.nextFile)) = db.nextFile := by
        rw [h₀]
        exact regOf_intOf hlt
      rw [hid, h₁] at hrow
      rw [h₀] at hfile
      exact ⟨fun _ => .mkdir hD.1 huser hfile hrow, fun hret => absurd rfl hret⟩
  · refine iff_of_true (fun ret s hrun => ?_) fun h => absurd h hfree
    obtain ⟨hret, hsame⟩ := queryMkdir_refused hfree hrun
    rw [hsame]
    exact ⟨fun h => absurd h hret, fun _ => ⟨rfl, rfl, rfl⟩⟩

theorem atomic_puts (hins : Inserts db ord (.queryPuts path name hash u)) :
    Atomic C db ord fails (.queryPuts path name hash u) ↔ AllOrNone db ord fails (.queryPuts path name hash u) := by
  obtain ⟨⟨D, hD⟩, hnew⟩ := hins
  obtain ⟨s, hrun, huser, hfile, hrow⟩ := queryPuts_new fails hD hnew
  rw [atomic_of_run (.queryPuts path name hash u) hrun]
  constructor
  · rintro ⟨hstored, -⟩
    obtain ⟨fileId, rowId, D', hfile', hrow'⟩ := (hstored rfl).of_puts
    exact ⟨(append_added.1 (hfile.symm.trans hfile')).1, (append_added.1 (hrow.symm.trans hrow')).1⟩
  · rintro ⟨h₀, h₁⟩
    rw [h₀] at hfile hrow
    rw [h₁] at hrow
    exact ⟨fun _ => .puts hD.1 huser hfile hrow, fun hret => absurd rfl hret⟩

/-- On any tables and under any failures, a call with dependent inserts stores all of its rows or
none, and tells which, exactly if none of its inserts fails, or all of `user_register`. -/
theorem atomic_iff (C : Crypt) (db : Db) (ord : RowOrder) (fails : Nat → Bool) (call : Call)
    (hins : Inserts db ord call) : Atomic C db ord fails call ↔ AllOrNone db ord fails call := by
  cases call with
  | userRegister rand account password => exact atomic_register
  | queryMkdir path name u => exact atomic_mkdir
  | queryPuts path name hash u => exact atomic_puts hins
  | queryUpdate | queryRemove => exact hins.elim

/-- User 1 has a home, and nothing is in it. -/
def emptyHome : Db where
  user := [⟨1, ['a'], ['p']⟩]
  file := [{ id := 1, type := .dir, complete := true }]
  userFile := [⟨1, ['a'], 1, 1, none⟩]
  nextUser := 2
  nextFile := 2
  nextUserFile := 2

/-- A new file is put into the home: without its second insert it is in no directory, with both it is stored. -/
theorem atomic_iff_puts :
    ¬ Atomic .plain emptyHome .stored (fun n => n == 1) (.queryPuts ['/', 'a'] ['f'] ['H'] 1) ∧
      Atomic .plain emptyHome .stored (fun _ => false) (.queryPuts ['/', 'a'] ['f'] ['H'] 1) := by
  have hcd : emptyHome.cd .stored ['/', 'a'] 1 = some ((1 : Nat) : Int) := by decide +kernel
  have hins : Inserts emptyHome .stored (.queryPuts ['/', 'a'] ['f'] ['H'] 1) :=
    ⟨⟨1, hcd, by decide, by simp [Free, emptyHome]⟩, by simp [emptyHome]⟩
  constructor
  · intro h
    exact absurd ((atomic_iff .plain emptyHome .stored (fun n => n == 1) _ hins).1 h).2 (by decide)
  · exact (atomic_iff .plain emptyHome .stored (fun _ => false) _ hins).2 ⟨rfl, rfl⟩

/-- The user is stored, the root directory is not, and the call reports success. -/
theorem half_registered : ¬ ∀ C db ord fails call, Inserts db ord call → Atomic C db ord fails call := by
  intro h
  have hnew : ∀ x ∈ (({} : Db)).user, x.name ≠ ['a'] := nofun
  obtain ⟨s, hrun, -, hfile, -⟩ := userRegister_new .plain .stored (fun n => n == 1) [] ['p'] hnew
  obtain ⟨hstored, -⟩ := h .plain {} .stored (fun n => n == 1) (.userRegister [] ['a'] ['p']) trivial _ _ hrun
  have hret : intOf (1 : Nat) = (1 : Nat) := intOf_of_lt (by decide)
  have hpos : (0 : Int) < intOf (1 : Nat) := by
    rw [hret]
    decide
  obtain ⟨userId, fileId, rowId, word, -, -, hfile', -⟩ := (hstored hpos).of_register
  exact absurd (append_added.1 (hfile.symm.trans hfile')).1 (by decide)

end Db
end Netdisk

import Netdisk.Wire
import Mathlib.Data.List.Sort

/-!
# The tables and what the statements mean (`entity.h`, `convert_entity.c`)

A statement is taken at its intended meaning: a literal denotes the string it was formatted from,
`=` on strings is equality. Without `order by` the server may deliver rows in any order, and with it
rows of equal keys in any order; `RowOrder` stands for its choice.
-/

namespace Netdisk

/-- A row of `user`; `user_t` after `convert_to_user`. -/
structure User where
  id : Nat
  name : CStr
  password : CStr
deriving DecidableEq

/-- The `type` column. -/
inductive FileType
  | dir
  | file
deriving DecidableEq

/-- A row of `file`. -/
structure File where
  id : Nat
  type : FileType
  realPath : Option CStr := none
  hash : Option CStr := none
  complete : Bool
  quote : Nat := 1
deriving DecidableEq

/-- A row of `user_file`. -/
structure UserFile where
  id : Nat
  name : CStr
  userId : Nat
  fileId : Nat
  parentId : Option Nat := none
deriving DecidableEq

/-- `file_t`. -/
structure FileT where
  id : Nat
  type : Int
  realPath : CStr
  hashValue : CStr
  complete : Bool
  quote : Nat
deriving DecidableEq

/-- `user_file_t`. -/
structure UserFileT where
  id : Nat
  name : CStr
  userId : Nat
  fileId : Nat
  parentId : Nat
deriving DecidableEq

/-- The bytes of an unsigned number of `size` bytes, the lowest first. -/
def bytesOf (size n : Nat) : CStr := (List.range size).map fun i => Char.ofNat (n / 256 ^ i % 256)

/-- What is read as a string from an array of `size` bytes that `s` was copied to by `strcpy`, with the bytes
`behind` in memory after the array: a string that is too long runs into them. -/
def fieldOf (size : Nat) (s behind : CStr) : CStr :=
  if s.length < size then s else s.take size ++ behind.takeWhile (· ≠ '\x00')

/-- `sizeof(((file_t *)0)->hash_value)` -/
def hashSize : Nat := 255

/-- `sizeof(((user_file_t *)0)->name)` -/
def nameSize : Nat := 128

/-- What `hash_value` holds. Behind it are `complete`, `quote`, and what the copy left in `delete_time` and after
it; a `NULL` is not copied. -/
def File.heldHash (row : File) : CStr :=
  let hash := row.hash.getD []
  fieldOf hashSize hash (bytesOf 1 row.complete.toNat ++ bytesOf 4 row.quote ++ hash.drop 260)

/-- What `name` holds. Behind it are `user_id`, `file_id`, `parent_id`, and what the copy left in `delete_time` and
after it. -/
def UserFile.heldName (row : UserFile) : CStr :=
  fieldOf nameSize row.name
    (bytesOf 8 row.userId ++ bytesOf 8 row.fileId ++ bytesOf 8 (row.parentId.getD 0) ++ row.name.drop 152)

/-- `convert_to_file`. A statement has 1023 bytes at most, and so never a `real_path` that fills its 1024. -/
def convertToFile (row : File) : FileT where
  id := row.id
  type := if row.type = .dir then 0 else 1
  realPath := row.realPath.getD []
  hashValue := row.heldHash
  complete := row.complete
  quote := row.quote

/-- `convert_to_userfile`. -/
def convertToUserfile (row : UserFile) : UserFileT where
  id := row.id
  name := row.heldName
  userId := row.userId
  fileId := row.fileId
  parentId := row.parentId.getD 0

section Fields
variable {size : Nat} {s t behind : CStr}

theorem fieldOf_of_lt (h : s.length < size) : fieldOf size s behind = s := if_pos h

/-- What reads as a string that fits is that string. -/
theorem fieldOf_eq_iff (ht : t.length < size) : fieldOf size s behind = t ↔ s = t := by
  unfold fieldOf
  split
  · exact Iff.rfl
  · next hs =>
    refine iff_of_false ?_ ?_
    · rintro rfl
      simp at ht
      omega
    · rintro rfl
      exact hs ht

theorem UserFile.heldName_of_lt {x : UserFile} (h : x.name.length < nameSize) : x.heldName = x.name := fieldOf_of_lt h

theorem UserFile.heldName_eq_iff {x : UserFile} (ht : t.length < nameSize) : x.heldName = t ↔ x.name = t :=
  fieldOf_eq_iff ht

theorem File.heldHash_eq_iff {f : File} (ht : t.length < hashSize) : f.heldHash = t ↔ f.hash.getD [] = t :=
  fieldOf_eq_iff ht

end Fields

/-- The tables, with the next value of each `auto_increment` column. -/
structure Db where
  user : List User := []
  file : List File := []
  userFile : List UserFile := []
  nextUser : Nat := 1
  nextFile : Nat := 1
  nextUserFile : Nat := 1
deriving DecidableEq

/-- The order in which the database delivers rows when the statement leaves it open. -/
structure RowOrder where
  order : {α : Type} → List α → List α
  perm : ∀ {α : Type} (l : List α), (order l).Perm l

/-- Rows as they were inserted. -/
def RowOrder.stored : RowOrder := ⟨id, fun l => .refl l⟩

/-- The last inserted first. -/
def RowOrder.reversed : RowOrder := ⟨List.reverse, List.reverse_perm⟩

@[simp] theorem RowOrder.mem_order (ord : RowOrder) {α : Type} {l : List α} {a : α} :
    a ∈ ord.order l ↔ a ∈ l := (ord.perm l).mem_iff

/-- A byte that continues a character of UTF-8, which the connection and the tables use. -/
def continues (c : Char) : Bool := 128 ≤ c.toNat && c.toNat < 192

/-- SQL `like`: `%` stands for any string, `_` for any character, `\` escapes the next one. A character begins with a
byte that does not continue one, and has those that do behind it. -/
def like : CStr → CStr → Bool
  | [], s => s.isEmpty
  | '%' :: p, s => s.tails.any fun t => !t.head?.any continues && like p t
  | '_' :: p, s => match s with
    | _ :: s => like p (s.dropWhile continues)
    | [] => false
  | '\\' :: d :: p, s => match s with
    | c :: s => c == d && like p s
    | [] => false
  | d :: p, s => match s with
    | c :: s => c == d && like p s
    | [] => false

example : like "a%_c".toList "abbc".toList = true ∧ like "_".toList (utf8 "文") = true ∧
    like "%__".toList (utf8 "文") = false := by decide

namespace Db

/-! ### Selects -/

/-- The statements that select from `user_file`. -/
inductive UserFileQuery
  /-- `where user_id = %ld order by file_id` -/
  | ofUser (userId : Nat)
  /-- `where file_id in (select id from file where complete = '1') and parent_id = %ld order by file_id` -/
  | lsOf (parentId : Nat)
  /-- `where parent_id = %lu and name = '%s'` -/
  | named (parentId : Nat) (name : CStr)
  /-- `where file_id in (select file_id from user_file where user_id = %lu and parent_id = %lu) and
  name like '%s'` -/
  | likeIn (userId parentId : Nat) (pattern : CStr)
  /-- `where parent_id = %lu` -/
  | childrenOf (parentId : Nat)
deriving DecidableEq

/-- The statements that select from `file`. -/
inductive FileQuery
  /-- `where id in (select file_id from user_file where parent_id = %ld) and complete = '1' order by id` -/
  | llOf (parentId : Nat)
  /-- `where id = %ld` -/
  | byId (id : Nat)
  /-- `where hash = '%s'` -/
  | byHash (hash : CStr)
  /-- `where id in (select file_id from user_file where user_id = %lu and parent_id = %lu and
  name = '%s') and type = 'file'` -/
  | linked (userId parentId : Nat) (name : CStr)
deriving DecidableEq

variable (db : Db)

def UserFileQuery.holds : UserFileQuery → UserFile → Bool
  | .ofUser userId, r => r.userId == userId
  | .lsOf parentId, r => (db.file.any fun f => f.id == r.fileId && f.complete) && r.parentId == some parentId
  | .named parentId name, r => r.parentId == some parentId && r.name == name
  | .likeIn userId parentId pattern, r =>
    (db.userFile.any fun x => x.fileId == r.fileId && x.userId == userId && x.parentId == some parentId) &&
      like pattern r.name
  | .childrenOf parentId, r => r.parentId == some parentId

def UserFileQuery.ordered : UserFileQuery → Bool
  | .ofUser _ | .lsOf _ => true
  | _ => false

def FileQuery.holds : FileQuery → File → Bool
  | .llOf parentId, f =>
    (db.userFile.any fun x => x.fileId == f.id && x.parentId == some parentId) && f.complete
  | .byId id, f => f.id == id
  | .byHash hash, f => f.hash == some hash
  | .linked userId parentId name, f =>
    (db.userFile.any fun x =>
      x.fileId == f.id && x.userId == userId && x.parentId == some parentId && x.name == name) &&
      f.type == .file

def FileQuery.ordered : FileQuery → Bool
  | .llOf _ => true
  | _ => false

variable (ord : RowOrder)

/-- `select * from user where name = '%s'`, converted. -/
def selectUser (name : CStr) : List User := ord.order (db.user.filter (·.name == name))

/-- The rows that a `user_file` query delivers. -/
def userFileRows (q : UserFileQuery) : List UserFile :=
  let hits := ord.order (db.userFile.filter (q.holds db))
  if q.ordered then hits.insertionSort fun a b => a.fileId ≤ b.fileId else hits

def fileRows (q : FileQuery) : List File :=
  let hits := ord.order (db.file.filter (q.holds db))
  if q.ordered then hits.insertionSort fun a b => a.id ≤ b.id else hits

def selectUserFile (q : UserFileQuery) : List UserFileT := (db.userFileRows ord q).map convertToUserfile

def selectFile (q : FileQuery) : List FileT := (db.fileRows ord q).map convertToFile

theorem userFileRows_perm (q : UserFileQuery) : (db.userFileRows ord q).Perm (db.userFile.filter (q.holds db)) := by
  unfold userFileRows
  split
  · exact (List.perm_insertionSort _ _).trans (ord.perm _)
  · exact ord.perm _

theorem fileRows_perm (q : FileQuery) : (db.fileRows ord q).Perm (db.file.filter (q.holds db)) := by
  unfold fileRows
  split
  · exact (List.perm_insertionSort _ _).trans (ord.perm _)
  · exact ord.perm _

theorem mem_userFileRows {q : UserFileQuery} {r : UserFile} :
    r ∈ db.userFileRows ord q ↔ r ∈ db.userFile ∧ q.holds db r = true :=
  (db.userFileRows_perm ord q).mem_iff.trans List.mem_filter

theorem mem_fileRows {q : FileQuery} {f : File} :
    f ∈ db.fileRows ord q ↔ f ∈ db.file ∧ q.holds db f = true :=
  (db.fileRows_perm ord q).mem_iff.trans List.mem_filter

theorem userFileRows_sorted {q : UserFileQuery} (hq : q.ordered = true) :
    (db.userFileRows ord q).Pairwise fun x y => x.fileId ≤ y.fileId := by
  have htotal : Std.Total fun x y : UserFile => x.fileId ≤ y.fileId := ⟨fun x y => Nat.le_total _ _⟩
  have htrans : IsTrans UserFile fun x y => x.fileId ≤ y.fileId := ⟨fun _ _ _ => Nat.le_trans⟩
  unfold userFileRows
  rw [if_pos hq]
  exact List.pairwise_insertionSort _ _

theorem fileRows_sorted {q : FileQuery} (hq : q.ordered = true) :
    (db.fileRows ord q).Pairwise fun f g => f.id ≤ g.id := by
  have htotal : Std.Total fun f g : File => f.id ≤ g.id := ⟨fun f g => Nat.le_total _ _⟩
  have htrans : IsTrans File fun f g => f.id ≤ g.id := ⟨fun _ _ _ => Nat.le_trans⟩
  unfold fileRows
  rw [if_pos hq]
  exact List.pairwise_insertionSort _ _

theorem selectUser_eq_nil {db : Db} {ord : RowOrder} {name : CStr} :
    db.selectUser ord name = [] ↔ ∀ x ∈ db.user, x.name ≠ name := by
  simp [selectUser, List.eq_nil_iff_forall_not_mem]

/-! ### Changes -/

/-- The statements that change a table. -/
inductive Stmt
  /-- `insert into user (name,password) values ('%s', '%s')` -/
  | insertUser (name password : CStr)
  /-- `insert into file (type,complete,quote) values ('dir','1',1)` -/
  | insertDir
  /-- `insert into file (type,real_path,hash,complete,quote) values ('file','%s','%s','0',1)` -/
  | insertFile (realPath hash : CStr)
  /-- `insert into user_file (name,user_id,file_id[,parent_id]) values (...)` -/
  | insertUserFile (name : CStr) (userId fileId : Nat) (parentId : Option Nat)
  /-- `update file set complete = '1' where hash = '%s'` -/
  | updateComplete (hash : CStr)
  /-- `delete from user_file where file_id = %lu and user_id = %lu` -/
  | deleteUserFile (fileId userId : Nat)
deriving DecidableEq

/-- A change of the tables by one statement, its `auto_increment` value drawn. -/
inductive Change
  | addUser (r : User)
  | addFile (f : File)
  | addUserFile (r : UserFile)
  | complete (hash : CStr)
  | unlink (fileId userId : Nat)
deriving DecidableEq

def apply : Change → Db
  | .addUser r => { db with user := db.user ++ [r] }
  | .addFile f => { db with file := db.file ++ [f] }
  | .addUserFile r => { db with userFile := db.userFile ++ [r] }
  | .complete hash => { db with
      file := db.file.map fun f => if f.hash = some hash then { f with complete := true } else f }
  | .unlink fileId userId => { db with
      userFile := db.userFile.filter fun r => !(r.fileId == fileId && r.userId == userId) }

variable {db} in
theorem apply_file {db' : Db} (h : db'.file = db.file) (ch : Change) : (db'.apply ch).file = (db.apply ch).file := by
  cases ch <;> simp [apply, h]

variable {db} in
/-- Nothing takes a complete row away. -/
theorem complete_apply {h : CStr} (hc : ∃ f ∈ db.file, f.hash = some h ∧ f.complete = true) (ch : Change) :
    ∃ f ∈ (db.apply ch).file, f.hash = some h ∧ f.complete = true := by
  obtain ⟨f, hf, hfh, hfc⟩ := hc
  cases ch with
  | addFile g => exact ⟨f, List.mem_append_left _ hf, hfh, hfc⟩
  | complete e =>
    refine ⟨_, List.mem_map_of_mem hf, ?_⟩
    split
    · exact ⟨hfh, rfl⟩
    · exact ⟨hfh, hfc⟩
  | addUser | addUserFile | unlink => exact ⟨f, hf, hfh, hfc⟩

/-- What a statement changes, and what `mysql_insert_id` returns after it. -/
def change : Stmt → Change × Nat
  | .insertUser name password => (.addUser ⟨db.nextUser, name, password⟩, db.nextUser)
  | .insertDir => (.addFile { id := db.nextFile, type := .dir, complete := true }, db.nextFile)
  | .insertFile realPath hash =>
    (.addFile { id := db.nextFile, type := .file, realPath, hash, complete := false }, db.nextFile)
  | .insertUserFile name userId fileId parentId =>
    (.addUserFile ⟨db.nextUserFile, name, userId, fileId, parentId⟩, db.nextUserFile)
  | .updateComplete hash => (.complete hash, 0)
  | .deleteUserFile fileId userId => (.unlink fileId userId, 0)

/-- Drawing the `auto_increment` value of a statement. -/
def draw : Stmt → Db
  | .insertUser .. => { db with nextUser := db.nextUser + 1 }
  | .insertDir | .insertFile .. => { db with nextFile := db.nextFile + 1 }
  | .insertUserFile .. => { db with nextUserFile := db.nextUserFile + 1 }
  | _ => db

/-- A statement that takes effect at once. -/
def exec (st : Stmt) : Db := (db.draw st).apply (db.change st).1

end Db

end Netdisk

import Netdisk.DealSql
import Netdisk.Lib.Templates

/-!
# Strings inside of statements (`query` in `database.c`)

The statements of `deal_sql.c` that have a string between quotes, as the texts that `query` formats and
passes on. `staysData_iff`: such a statement arrives whole and is read as it is meant exactly if its strings
are plain (`Literals.Plain`) and everything that is filled in has room in the buffer.
-/

namespace Netdisk
open Os Literals

/-- The calls of `query` that have a string among their arguments. -/
inductive Query
  /-- In `get_user` and in `user_register`. -/
  | findUser (account : CStr)
  | insertUser (account hashWord : CStr)
  | insertHome (account : CStr) (userId fileId : Nat)
  /-- In `query_mkdir` and in `query_puts`. -/
  | findName (curDirId : Nat) (name : CStr)
  | insertDir (dirName : CStr) (userId dirId curDirId : Nat)
  | findHash (hashValue : CStr)
  | insertFile (hashValue : CStr)
  /-- Twice in `query_puts`. -/
  | insertLink (fileName : CStr) (userId fileId curDirId : Nat)
  | findLinked (userId curDirId : Nat) (fileName : CStr)
  | complete (hashValue : CStr)
  | findLike (userId curDirId : Nat) (fileName : CStr)

namespace Query

def format : Query → CStr
  | findUser .. => "select * from user where name = '%s' ".toList
  | insertUser .. => "insert into user (name,password) values ('%s', '%s') ".toList
  | insertHome .. => "insert into user_file (name,user_id,file_id) values ('%s',%lu,%lu) ".toList
  | findName .. => "select * from user_file where parent_id = %lu and name = '%s' ".toList
  | insertDir .. => "insert into user_file(name,user_id,file_id,parent_id) values ('%s',%lu,%lu,%lu) ".toList
  | findHash .. => "select * from file where hash = '%s'".toList
  | insertFile .. =>
    "insert into file(type,real_path,hash,complete,quote) values ('file','%s','%s','0',1) ".toList
  | insertLink .. => "insert into user_file (name,user_id,file_id,parent_id) values ('%s',%lu,%lu,%lu)".toList
  | findLinked .. =>
    "select * from file where id in (select file_id from user_file where user_id = %lu and parent_id = %lu and name = '%s' ) and type = 'file'".toList
  | complete .. => "update file set complete = '1' where hash = '%s' ".toList
  | findLike .. =>
    "select * from user_file where file_id in (select file_id from user_file where user_id = %lu and parent_id = %lu ) and name like '%s' ".toList

def args : Query → List Arg
  | findUser account => [.str account]
  | insertUser account hashWord => [.str account, .str hashWord]
  | insertHome account userId fileId => [.str account, .long userId, .long fileId]
  | findName curDirId name => [.long curDirId, .str name]
  | insertDir dirName userId dirId curDirId => [.str dirName, .long userId, .long dirId, .long curDirId]
  | findHash hashValue => [.str hashValue]
  | insertFile hashValue => [.str hashValue, .str hashValue]
  | insertLink fileName userId fileId curDirId => [.str fileName, .long userId, .long fileId, .long curDirId]
  | findLinked userId curDirId fileName => [.long userId, .long curDirId, .str fileName]
  | complete hashValue => [.str hashValue]
  | findLike userId curDirId fileName => [.long userId, .long curDirId, .str fileName]

/-- The whole statement. -/
def text (q : Query) : CStr := vsprintf q.format q.args

/-- What `query` passes to `mysql_query`: what `vsnprintf(query, 1024, format, args)` leaves. -/
def passed (q : Query) : CStr := q.text.take 1023

/-- The operation that stands for the statement. -/
def op (connect : Conn) : Query → Op
  | findUser account => .selectUser connect account
  | insertUser account hashWord => .exec connect (.insertUser account hashWord)
  | insertHome account userId fileId => .exec connect (.insertUserFile account userId fileId none)
  | findName curDirId name => .selectUserFile connect (.named curDirId name)
  | insertDir dirName userId dirId curDirId => .exec connect (.insertUserFile dirName userId dirId (some curDirId))
  | findHash hashValue => .selectFile connect (.byHash hashValue)
  | insertFile hashValue => .exec connect (.insertFile hashValue hashValue)
  | insertLink fileName userId fileId curDirId =>
    .exec connect (.insertUserFile fileName userId fileId (some curDirId))
  | findLinked userId curDirId fileName => .selectFile connect (.linked userId curDirId fileName)
  | complete hashValue => .exec connect (.updateComplete hashValue)
  | findLike userId curDirId fileName => .selectUserFile connect (.likeIn userId curDirId fileName)

/-- The strings among the arguments. -/
def strings (q : Query) : List CStr :=
  q.args.filterMap fun
    | .str s => some s
    | .long _ => none

/-- The number of bytes that are filled in. -/
def filled (q : Query) : Nat := (q.args.map fun a => a.text.length).sum

/-- The statement arrives whole, and the database reads what was meant. -/
def StaysData (q : Query) : Prop := q.passed = q.text ∧ scan none q.passed = some (meaning q.format q.args)

set_option maxRecDepth 2000 in
theorem fits_format (q : Query) : fits q.format q.args = true := by
  cases q <;> exact fits_ofList rfl

theorem mem_strings {q : Query} {s : CStr} : s ∈ q.strings ↔ .str s ∈ q.args := by
  unfold strings
  rw [List.mem_filterMap]
  constructor
  · rintro ⟨_ | _, ha, hs⟩
    · cases hs
      exact ha
    · nomatch hs
  · exact fun h => ⟨.str s, h, rfl⟩

end Query

/-! ### The statements of the programs -/

/-- The operation is a statement with a string between quotes. -/
def Op.hasString : Op → Bool
  | .selectUser .. | .selectUserFile _ (.named ..) | .selectUserFile _ (.likeIn ..) | .selectFile _ (.byHash _)
  | .selectFile _ (.linked ..) | .exec _ (.insertUser ..) | .exec _ (.insertFile ..) | .exec _ (.insertUserFile ..)
  | .exec _ (.updateComplete _) => true
  | _ => false

/-- The operation is not a statement with strings, or one that `query` formats, with strings among `allowed`. -/
def Op.Formats (allowed : List CStr) (o : Op) : Prop :=
  o.hasString = true → ∃ q connect, Query.op connect q = o ∧ ∀ s ∈ q.strings, s ∈ allowed

/-- All statements with strings are ones that `query` formats, with strings among `allowed`. -/
abbrev Formats {α : Type} (allowed : List CStr) (p : Os α) : Prop := Prog.Only (S := osSig) (Op.Formats allowed) p

section Formats
variable {α β : Type} {allowed : List CStr} {path name hash : CStr} {u : Nat}

/-- Anything but a statement with strings. -/
theorem Op.Formats.other {o : Op} (h : o.hasString = false) : o.Formats allowed := fun ho => by
  rw [h] at ho
  nomatch ho

/-- A statement with strings. -/
theorem Op.Formats.query (q : Query) (connect : Conn) (h : ∀ s ∈ q.strings, s ∈ allowed) :
    (q.op connect).Formats allowed := fun _ => ⟨q, connect, rfl, h⟩

theorem crash_formats : Formats allowed (Os.crash : Os α) := ⟨.other rfl, fun e => nomatch (e : Empty)⟩

theorem released_formats {connect : Conn} (a : α) : Formats allowed ((releaseConnection connect).bind fun _ => .pure a) :=
  ⟨.other rfl, fun _ => trivial⟩

/-- A call that gives up without a connection. -/
theorem connected_formats {k : Option Conn → Os α} (hnone : Formats allowed (k none))
    (hsome : ∀ c, Formats allowed (k (some c))) : Formats allowed (getConnection.bind k) :=
  ⟨.other rfl, fun
    | none => hnone
    | some c => hsome c⟩

/-- The end of a transaction. -/
theorem committed_formats {connect : Conn} (a : α) :
    Formats allowed ((commit connect).bind fun _ => (autocommit connect true).bind fun _ =>
      (releaseConnection connect).bind fun _ => .pure a) :=
  ⟨.other rfl, fun _ => ⟨.other rfl, fun _ => released_formats a⟩⟩

theorem getUser_formats : Formats [name] (getUser name) := by
  refine connected_formats trivial fun c => ⟨.query (.findUser name) c (by simp [Query.strings, Query.args]), ?_⟩
  intro (rows : List User)
  show Formats [name] (if rows = [] then _ else _)
  split <;> exact released_formats _

theorem userRegister_formats (C : Crypt) (rand account password : CStr) :
    Formats [account, encryptPassword C rand password] (userRegister C rand account password) := by
  refine connected_formats trivial fun c => ⟨.other rfl, fun _ => ?_⟩
  refine ⟨.query (.findUser account) c (by simp [Query.strings, Query.args]), ?_⟩
  intro (rows : List User)
  show Formats _ (if rows ≠ [] then _ else _)
  split
  · exact released_formats _
  refine ⟨.query (.insertUser account _) c (by simp [Query.strings, Query.args]), fun (userId : Nat) => ?_⟩
  refine ⟨.other rfl, fun (fileId : Nat) => ?_⟩
  exact ⟨.query (.insertHome account userId fileId) c (by simp [Query.strings, Query.args]), fun _ => committed_formats _⟩

theorem queryCd_formats : Formats allowed (queryCd path u) := by
  refine connected_formats trivial fun c => ⟨.other rfl, fun (rows : List UserFileT) => ?_⟩
  cases rows with
  | nil => exact released_formats _
  | cons file files =>
    cases spliteFileName path with
    | none => exact crash_formats
    | some names => exact released_formats _

theorem queryMkdir_formats : Formats [name] (queryMkdir path name u) := by
  refine queryCd_formats.bind fun d => ?_
  split
  · trivial
  refine connected_formats crash_formats fun c => ?_
  refine ⟨.query (.findName (regOf d) name) c (by simp [Query.strings, Query.args]), ?_⟩
  intro (rows : List UserFileT)
  show Formats _ (if rows ≠ [] then _ else _)
  split
  · exact released_formats _
  refine ⟨.other rfl, fun _ => ⟨.other rfl, fun (insertId : Nat) => ?_⟩⟩
  exact ⟨.query (.insertDir name u (regOf (intOf insertId)) (regOf d)) c (by simp [Query.strings, Query.args]),
    fun _ => committed_formats _⟩

theorem queryPuts_formats : Formats [name, hash] (queryPuts path name hash u) := by
  refine queryCd_formats.bind fun d => ?_
  split
  · trivial
  split
  · trivial
  refine connected_formats crash_formats fun c => ?_
  refine ⟨.query (.findName (regOf d) name) c (by simp [Query.strings, Query.args]), ?_⟩
  intro (rows : List UserFileT)
  cases rows with
  | cons sameName rest =>
    refine ⟨.other rfl, fun (files : List FileT) => ?_⟩
    cases files with
    | nil => exact crash_formats
    | cons file files => exact released_formats _
  | nil =>
    refine ⟨.query (.findHash hash) c (by simp [Query.strings, Query.args]), fun (files : List FileT) => ?_⟩
    cases files with
    | nil =>
      refine ⟨.other rfl, fun _ => ?_⟩
      refine ⟨.query (.insertFile hash) c (by simp [Query.strings, Query.args]), fun (fileId : Nat) => ?_⟩
      exact ⟨.query (.insertLink name u fileId (regOf d)) c (by simp [Query.strings, Query.args]),
        fun _ => committed_formats _⟩
    | cons file files =>
      exact ⟨.query (.insertLink name u file.id (regOf d)) c (by simp [Query.strings, Query.args]),
        fun _ => released_formats _⟩

theorem queryGets_formats : Formats [name] (queryGets path name u) := by
  refine queryCd_formats.bind fun d => ?_
  split
  · trivial
  split
  · trivial
  refine connected_formats crash_formats fun c => ?_
  refine ⟨.query (.findLinked u (regOf d) name) c (by simp [Query.strings, Query.args]), ?_⟩
  intro (files : List FileT)
  cases files with
  | nil => exact released_formats _
  | cons file files =>
    show Formats _ (if file.complete = false then _ else _)
    split <;> exact released_formats _

theorem queryUpdate_formats : Formats [hash] (queryUpdate hash) :=
  connected_formats trivial fun c =>
    ⟨.query (.complete hash) c (by simp [Query.strings, Query.args]), fun _ => released_formats _⟩

theorem queryRemove_formats : Formats [name] (queryRemove path name u) := by
  refine queryCd_formats.bind fun d => ?_
  split
  · trivial
  refine connected_formats crash_formats fun c => ?_
  refine ⟨.query (.findLike u (regOf d) name) c (by simp [Query.strings, Query.args]), ?_⟩
  intro (rows : List UserFileT)
  cases rows with
  | nil => exact released_formats _
  | cons row rows =>
    refine ⟨.other rfl, fun (files : List FileT) => ?_⟩
    cases files with
    | nil => exact crash_formats
    | cons file files =>
      show Formats _ (if file.type = 1 then _ else _)
      split
      · exact ⟨.other rfl, fun _ => released_formats _⟩
      split
      · refine ⟨.other rfl, fun (children : List UserFileT) => ?_⟩
        show Formats _ (if children ≠ [] then _ else _)
        split
        · exact released_formats _
        · exact ⟨.other rfl, fun _ => released_formats _⟩
      · exact released_formats _

end Formats

/-- User strings stay data exactly if they are plain and everything that is filled in has room in the buffer. -/
theorem staysData_iff (q : Query) :
    q.StaysData ↔ (∀ s ∈ q.strings, Plain s) ∧ width (partsOf q.format) + q.filled ≤ 1023 := by
  have hwhole : q.passed = q.text ↔ width (partsOf q.format) + q.filled ≤ 1023 := by
    rw [Query.passed, Query.filled, ← length_vsprintf q.fits_format]
    constructor
    · intro h
      exact (congrArg List.length h).symm.le.trans (List.length_take_le _ _)
    · exact List.take_of_length_le
  rw [Query.StaysData, ← hwhole, and_comm]
  refine and_congr_left fun h => ?_
  rw [h, Query.text, scan_vsprintf_iff q.fits_format]
  simp only [Query.mem_strings]

/-- `o'brien` registers. -/
theorem quoted_account :
    spliteArgument (removeSpace "o'brien secret".toList) = some ("o'brien".toList, "secret".toList) ∧
      ¬ (Query.findUser "o'brien".toList).StaysData := by
  refine ⟨by decide, ?_⟩
  rintro ⟨-, hread⟩
  exact absurd hread (by decide)

end Netdisk

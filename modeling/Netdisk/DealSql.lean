import Netdisk.Os
import Netdisk.Tools

/-!
# The database operations (`deal_sql.c`)

Each function as the program it is: connections are taken and given back where the source does,
`mysql_autocommit` and `mysql_commit` are calls like the others. Reading a row of an empty result
set is a `crash`.
-/

namespace Netdisk
open Os

/-- `crypt_gensalt_rn` and `crypt_r` of the bundled bcrypt, at the arguments `hash.c` uses. -/
structure Crypt where
  gensalt : CStr → CStr
  crypt : (phrase setting : CStr) → CStr

/-- Passwords kept as they are. -/
def Crypt.plain : Crypt := ⟨id, fun phrase _ => phrase⟩

/-- `encrypt_password`; `rand` is the random string drawn by it. -/
def encryptPassword (C : Crypt) (rand password : CStr) : CStr := C.crypt password (C.gensalt rand)

/-- `match_password`. -/
def matchPassword (C : Crypt) (password encrypted : CStr) : Bool := C.crypt password encrypted == encrypted

/-- `get_user`. -/
def getUser (userName : CStr) : Os (Option (List User)) := do
  let some connect ← getConnection | return none
  let resultSet ← selectUser connect userName
  if resultSet = [] then
    releaseConnection connect
    return none
  releaseConnection connect
  return some resultSet

/-- `user_register`. -/
def userRegister (C : Crypt) (rand account password : CStr) : Os Int := do
  let some connect ← getConnection | return -1
  autocommit connect false
  let resultSet ← selectUser connect account
  if resultSet ≠ [] then
    releaseConnection connect
    return 0
  let hashWord := encryptPassword C rand password
  let userId ← exec connect (.insertUser account hashWord)
  let fileId ← exec connect .insertDir
  let _ ← exec connect (.insertUserFile account userId fileId none)
  commit connect
  autocommit connect true
  releaseConnection connect
  return intOf userId

/-- The walk of `query_cd` over the user's rows: the names still to match and `parent_id`. -/
def cdLoop : List UserFileT → List CStr → Int → List CStr × Int
  | [], pathName, parentId => (pathName, parentId)
  | _, [], parentId => ([], parentId)
  | file :: files, n :: pathName, parentId =>
    if file.name = n ∧ ulongOf parentId = file.parentId then cdLoop files pathName (intOf file.fileId)
    else cdLoop files (n :: pathName) parentId

/-- `query_cd`. -/
def queryCd (path : CStr) (userId : Nat) : Os Int := do
  let some connect ← getConnection | return -1
  let fileSet ← selectUserFile connect (.ofUser userId)
  match fileSet with
  | [] =>
    releaseConnection connect
    return -1
  | file :: _ =>
    match spliteFileName path with
    | none => crash
    | some pathName =>
      let (pathLeft, parentId) := cdLoop fileSet pathName (intOf file.parentId)
      releaseConnection connect
      return if pathLeft = [] then parentId else 0

/-- `query_ls`. -/
def queryLs (path : CStr) (userId : Nat) : Os (Option (List UserFileT)) := do
  let curDirId ← queryCd path userId
  if curDirId ≤ 0 then return none
  let some connect ← getConnection | return none
  let resultSet ← selectUserFile connect (.lsOf (regOf curDirId))
  releaseConnection connect
  return some resultSet

/-- `query_ll`. -/
def queryLl (path : CStr) (userId : Nat) : Os (Option (List FileT)) := do
  let curDirId ← queryCd path userId
  if curDirId ≤ 0 then return none
  let some connect ← getConnection | return none
  let resultSet ← selectFile connect (.llOf (regOf curDirId))
  releaseConnection connect
  return some resultSet

/-- `query_mkdir`. -/
def queryMkdir (path dirName : CStr) (userId : Nat) : Os Int := do
  let curDirId ← queryCd path userId
  if curDirId ≤ 0 then return curDirId
  let some connect ← getConnection | crash
  let queryRes ← selectUserFile connect (.named (regOf curDirId) dirName)
  if queryRes ≠ [] then
    releaseConnection connect
    return 1
  autocommit connect false
  let insertId ← exec connect .insertDir
  let dirId := intOf insertId
  let _ ← exec connect (.insertUserFile dirName userId (regOf dirId) (some (regOf curDirId)))
  commit connect
  autocommit connect true
  releaseConnection connect
  return 2

/-- `query_puts`. -/
def queryPuts (path fileName hashValue : CStr) (userId : Nat) : Os Int := do
  let curDirId ← queryCd path userId
  if curDirId < 0 then return -2
  if curDirId = 0 then return -1
  let some connect ← getConnection | crash
  match ← selectUserFile connect (.named (regOf curDirId) fileName) with
  | sameName :: _ =>
    let sameNameId := intOf sameName.fileId
    match ← selectFile connect (.byId (regOf sameNameId)) with
    | [] => crash
    | sameNameFile :: _ =>
      let ret : Int :=
        if hashValue = sameNameFile.hashValue then (if sameNameFile.complete then 2 else 1) else 0
      releaseConnection connect
      return ret
  | [] =>
    match ← selectFile connect (.byHash hashValue) with
    | [] =>
      autocommit connect false
      let fileId ← exec connect (.insertFile hashValue hashValue)
      let _ ← exec connect (.insertUserFile fileName userId fileId (some (regOf curDirId)))
      commit connect
      autocommit connect true
      releaseConnection connect
      return 1
    | fileInfo :: _ =>
      let _ ← exec connect (.insertUserFile fileName userId fileInfo.id (some (regOf curDirId)))
      releaseConnection connect
      return if fileInfo.complete then 2 else 1

/-- `query_gets`: the code and what it leaves in `hash_value`, which is empty before. -/
def queryGets (path fileName : CStr) (userId : Nat) : Os (Int × CStr) := do
  let curDirId ← queryCd path userId
  if curDirId < 0 then return (-1, [])
  if curDirId = 0 then return (0, [])
  let some connect ← getConnection | crash
  match ← selectFile connect (.linked userId (regOf curDirId) fileName) with
  | [] =>
    releaseConnection connect
    return (0, [])
  | fileInfo :: _ =>
    if fileInfo.complete = false then
      releaseConnection connect
      return (0, [])
    releaseConnection connect
    return (1, fileInfo.hashValue)

/-- `query_update`. -/
def queryUpdate (hashValue : CStr) : Os Int := do
  let some connect ← getConnection | return 1
  let _ ← exec connect (.updateComplete hashValue)
  releaseConnection connect
  return 0

/-- `query_remove`. -/
def queryRemove (path fileName : CStr) (userId : Nat) : Os Int := do
  let curDirId ← queryCd path userId
  if curDirId ≤ 0 then return curDirId
  let some connect ← getConnection | crash
  match ← selectUserFile connect (.likeIn userId (regOf curDirId) fileName) with
  | [] =>
    releaseConnection connect
    return 1
  | userFileInfo :: _ =>
    let fileId := userFileInfo.fileId
    match ← selectFile connect (.byId fileId) with
    | [] => crash
    | fileInfo :: _ =>
      if fileInfo.type = 1 then
        let _ ← exec connect (.deleteUserFile fileId userId)
      else if fileInfo.type = 0 then
        let resChildFile ← selectUserFile connect (.childrenOf fileId)
        if resChildFile ≠ [] then
          releaseConnection connect
          return 2
        let _ ← exec connect (.deleteUserFile fileId userId)
      releaseConnection connect
      return 0

/-! ### They call the database only -/

section QueryOnly
variable {α β : Type} {path name hash : CStr} {u : Nat}

theorem crash_only : QueryOnly (Os.crash : Os α) := ⟨.inr rfl, fun e => nomatch (e : Empty)⟩

/-- A call that gives up without a connection, and gives it back in the end. -/
theorem connected_only {k : Option Conn → Os α} (hnone : QueryOnly (k none)) (hsome : ∀ c, QueryOnly (k (some c))) :
    QueryOnly (getConnection.bind k) :=
  ⟨.inl rfl, fun
    | none => hnone
    | some c => hsome c⟩

theorem released_only {connect : Conn} (a : α) : QueryOnly ((releaseConnection connect).bind fun _ => .pure a) :=
  ⟨.inl rfl, fun _ => trivial⟩

theorem getUser_only : QueryOnly (getUser name) := by
  refine connected_only trivial fun c => ⟨.inl rfl, fun (rows : List User) => ?_⟩
  show QueryOnly (if rows = [] then _ else _)
  split <;> exact released_only _

theorem userRegister_sql (C : Crypt) (rand account password : CStr) : SqlOnly (userRegister C rand account password) := by
  refine ⟨.inl rfl, fun (connect : Option Conn) => ?_⟩
  cases connect with
  | none => trivial
  | some connect =>
    refine ⟨.inl rfl, fun _ => ⟨.inl rfl, fun (rows : List User) => ?_⟩⟩
    show SqlOnly (if rows ≠ [] then _ else _)
    split
    · exact (released_only _).sql
    · exact ⟨.inl rfl, fun _ => ⟨.inl rfl, fun _ => ⟨.inl rfl, fun _ => ⟨.inl rfl, fun _ => ⟨.inl rfl, fun _ =>
        (released_only _).sql⟩⟩⟩⟩⟩

theorem queryCd_only : QueryOnly (queryCd path u) := by
  refine connected_only trivial fun c => ⟨.inl rfl, fun (rows : List UserFileT) => ?_⟩
  cases rows with
  | nil => exact released_only _
  | cons file files =>
    cases spliteFileName path with
    | none => exact crash_only
    | some names => exact released_only _

theorem queryLs_only : QueryOnly (queryLs path u) := by
  refine queryCd_only.bind fun d => ?_
  split
  · trivial
  · exact connected_only trivial fun c => ⟨.inl rfl, fun _ => released_only _⟩

theorem queryLl_only : QueryOnly (queryLl path u) := by
  refine queryCd_only.bind fun d => ?_
  split
  · trivial
  · exact connected_only trivial fun c => ⟨.inl rfl, fun _ => released_only _⟩

theorem queryMkdir_only : QueryOnly (queryMkdir path name u) := by
  refine queryCd_only.bind fun d => ?_
  split
  · trivial
  · refine connected_only crash_only fun c => ⟨.inl rfl, fun (rows : List UserFileT) => ?_⟩
    show QueryOnly (if rows ≠ [] then _ else _)
    split
    · exact released_only _
    · exact ⟨.inl rfl, fun _ => ⟨.inl rfl, fun _ => ⟨.inl rfl, fun _ => ⟨.inl rfl, fun _ => ⟨.inl rfl, fun _ =>
        released_only _⟩⟩⟩⟩⟩

theorem queryPuts_only : QueryOnly (queryPuts path name hash u) := by
  refine queryCd_only.bind fun d => ?_
  split
  · trivial
  split
  · trivial
  · refine connected_only crash_only fun c => ⟨.inl rfl, fun (rows : List UserFileT) => ?_⟩
    cases rows with
    | cons sameName rest =>
      refine ⟨.inl rfl, fun (files : List FileT) => ?_⟩
      cases files with
      | nil => exact crash_only
      | cons file files => exact released_only _
    | nil =>
      refine ⟨.inl rfl, fun (files : List FileT) => ?_⟩
      cases files with
      | nil =>
        exact ⟨.inl rfl, fun _ => ⟨.inl rfl, fun _ => ⟨.inl rfl, fun _ => ⟨.inl rfl, fun _ => ⟨.inl rfl, fun _ =>
          released_only _⟩⟩⟩⟩⟩
      | cons file files => exact ⟨.inl rfl, fun _ => released_only _⟩

theorem queryGets_only : QueryOnly (queryGets path name u) := by
  refine queryCd_only.bind fun d => ?_
  split
  · trivial
  split
  · trivial
  · refine connected_only crash_only fun c => ⟨.inl rfl, fun (files : List FileT) => ?_⟩
    cases files with
    | nil => exact released_only _
    | cons file files =>
      show QueryOnly (if file.complete = false then _ else _)
      split <;> exact released_only _

theorem queryUpdate_only : QueryOnly (queryUpdate hash) :=
  connected_only trivial fun _ => ⟨.inl rfl, fun _ => released_only _⟩

theorem queryRemove_only : QueryOnly (queryRemove path name u) := by
  refine queryCd_only.bind fun d => ?_
  split
  · trivial
  · refine connected_only crash_only fun c => ⟨.inl rfl, fun (rows : List UserFileT) => ?_⟩
    cases rows with
    | nil => exact released_only _
    | cons row rows =>
      refine ⟨.inl rfl, fun (files : List FileT) => ?_⟩
      cases files with
      | nil => exact crash_only
      | cons file files =>
        show QueryOnly (if file.type = 1 then _ else _)
        split
        · exact ⟨.inl rfl, fun _ => released_only _⟩
        split
        · refine ⟨.inl rfl, fun (children : List UserFileT) => ?_⟩
          show QueryOnly (if children ≠ [] then _ else _)
          split
          · exact released_only _
          · exact ⟨.inl rfl, fun _ => released_only _⟩
        · exact released_only _

end QueryOnly

end Netdisk

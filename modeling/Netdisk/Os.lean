import Netdisk.Db.Tables
import Netdisk.Lib.Prog

/-!
# The calls that leave the program

Everything the server does to the database, the sockets and the file system, as one interface. A
`select` stands for `query` followed by `get_result_set`; `exec` stands for `query` of a statement
that changes a table, and returns what `mysql_insert_id` gives afterwards.
-/

namespace Netdisk

/-- A pooled `MYSQL *`: the index of its slot in `pool->connects`. -/
abbrev Conn := Nat

inductive Op
  /-- `get_connection()` -/
  | getConnection
  | releaseConnection (connect : Conn)
  | autocommit (connect : Conn) (mode : Bool)
  | commit (connect : Conn)
  | selectUser (connect : Conn) (name : CStr)
  | selectUserFile (connect : Conn) (q : Db.UserFileQuery)
  | selectFile (connect : Conn) (q : Db.FileQuery)
  | exec (connect : Conn) (st : Db.Stmt)
  /-- `send(fd, &trans, sizeof(TransFile), MSG_NOSIGNAL)` -/
  | send (fd : Int) (train : TransFile)
  /-- `recv(fd, &trans, sizeof(TransFile), MSG_WAITALL)` into a zeroed frame: what the frame holds
  then, zero where nothing arrived. -/
  | recv (fd : Int)
  /-- `recv(fd, buf, sizeof(buf), 0)`: the bytes received, none at the end or on an error. -/
  | recvBuf (fd : Int)
  | close (fd : Int)
  /-- `open(path, O_RDWR)`, with `O_CREAT` if `creat`: negative on failure. -/
  | openFile (path : CStr) (creat : Bool)
  /-- `lseek(fd, 0, SEEK_END)` -/
  | lseekEnd (fd : Int)
  | ftruncate (fd length : Int)
  /-- `mmap` of `bytes.length` bytes at `offset`, `memcpy` of `bytes` to it, `munmap`: false if the
  mapping failed. -/
  | mmapWrite (fd offset : Int) (bytes : CStr)
  /-- `stat(path, &buf)`: `st_size`, or nothing on failure. -/
  | stat (path : CStr)
  /-- `sendfile(out, fd, 0, count)` from `offset` on -/
  | sendfile (out fd offset count : Int)
  /-- `l8w8jwt_time(NULL)` -/
  | time
  /-- An access through `NULL`, or outside every object: the process is gone. -/
  | crash
deriving DecidableEq

/-- The calls of `database.c` and the MySQL library. -/
def Op.isSql : Op → Bool
  | .getConnection | .releaseConnection _ | .autocommit .. | .commit _ | .selectUser .. | .selectUserFile ..
  | .selectFile .. | .exec .. => true
  | _ => false

/-- The calls of the database that register nobody. -/
def Op.isQuery : Op → Bool
  | .exec _ (.insertUser ..) => false
  | o => o.isSql

/-- The calls of the loop that receives a file. -/
def Op.isReceive : Op → Bool
  | .recvBuf _ | .mmapWrite .. => true
  | _ => false

/-- The connection that a call of the MySQL library goes to. -/
def Op.conn : Op → Option Conn
  | .releaseConnection c | .autocommit c _ | .commit c | .selectUser c _ | .selectUserFile c _ | .selectFile c _
  | .exec c _ => some c
  | _ => none

@[reducible] def Resp : Op → Type
  | .getConnection => Option Conn
  | .selectUser .. => List User
  | .selectUserFile .. => List UserFileT
  | .selectFile .. => List FileT
  | .exec .. => Nat
  | .recv _ => TransFile
  | .recvBuf _ => CStr
  | .openFile .. => Int
  | .lseekEnd _ => Int
  | .mmapWrite .. => Bool
  | .stat _ => Option Int
  | .time => Nat
  | .crash => Empty
  | _ => Unit

/-- The interface of the server to its environment. -/
abbrev osSig : Sig := ⟨Op, Resp⟩

instance : DecidableEq osSig.Op := inferInstanceAs (DecidableEq Op)

abbrev Os := Prog osSig

/-- What a program does: the calls with their results. -/
abbrev Log := List (Prog.Event osSig)

/-! ### Transcripts -/

namespace Log

/-- The frames that are sent. -/
def sent (log : Log) : List TransFile :=
  log.filterMap fun
    | ⟨.send _ train, _⟩ => some train
    | _ => none

/-- The frames that are received. -/
def received (log : Log) : List TransFile :=
  log.filterMap fun
    | ⟨.recv _, train⟩ => some train
    | _ => none

/-- What the clock shows. -/
def times (log : Log) : List Nat :=
  log.filterMap fun
    | ⟨.time, now⟩ => some now
    | _ => none

/-- The ids of the users that are inserted. -/
def registered (log : Log) : List Nat :=
  log.filterMap fun
    | ⟨.exec _ (.insertUser ..), id⟩ => some id
    | _ => none

/-- The users that are looked up, as the select delivers them. -/
def lookedUp (log : Log) : List (List User) :=
  log.filterMap fun
    | ⟨.selectUser .., rows⟩ => some rows
    | _ => none

/-- The connection is closed. -/
def closed (fd : Int) (log : Log) : Bool := log.any fun e => (e.op : Op) = .close fd

/-- The data file of an upload is opened. -/
def begun (log : Log) : Bool :=
  log.any fun
    | ⟨.openFile _ true, fd⟩ => 0 ≤ fd
    | _ => false

section Append
variable {l₁ l₂ : Log}

@[simp] theorem sent_append : sent (l₁ ++ l₂) = l₁.sent ++ l₂.sent := List.filterMap_append

@[simp] theorem received_append : received (l₁ ++ l₂) = l₁.received ++ l₂.received := List.filterMap_append

@[simp] theorem times_append : times (l₁ ++ l₂) = l₁.times ++ l₂.times := List.filterMap_append

@[simp] theorem registered_append : registered (l₁ ++ l₂) = l₁.registered ++ l₂.registered := List.filterMap_append

@[simp] theorem lookedUp_append : lookedUp (l₁ ++ l₂) = l₁.lookedUp ++ l₂.lookedUp := List.filterMap_append

end Append

end Log

/-- Nothing but calls of the database. -/
abbrev SqlOnly {α : Type} (p : Os α) : Prop := Prog.Only (S := osSig) (fun o : Op => o.isSql = true ∨ o = .crash) p

/-- Nothing but calls of the database that register nobody. -/
abbrev QueryOnly {α : Type} (p : Os α) : Prop := Prog.Only (S := osSig) (fun o : Op => o.isQuery = true ∨ o = .crash) p

theorem Op.isSql_of_isQuery {o : Op} (h : o.isQuery = true) : o.isSql = true := by
  cases o <;> first | rfl | cases h

theorem QueryOnly.sql {α : Type} {p : Os α} (h : QueryOnly p) : SqlOnly p :=
  h.mono fun (_ : Op) ho => ho.imp_left Op.isSql_of_isQuery

namespace Os

def getConnection : Os (Option Conn) := .perform (S := osSig) .getConnection
def releaseConnection (connect : Conn) : Os Unit := .perform (S := osSig) (.releaseConnection connect)
def autocommit (connect : Conn) (mode : Bool) : Os Unit := .perform (S := osSig) (.autocommit connect mode)
def commit (connect : Conn) : Os Unit := .perform (S := osSig) (.commit connect)
def selectUser (connect : Conn) (name : CStr) : Os (List User) := .perform (S := osSig) (.selectUser connect name)
def selectUserFile (connect : Conn) (q : Db.UserFileQuery) : Os (List UserFileT) :=
  .perform (S := osSig) (.selectUserFile connect q)
def selectFile (connect : Conn) (q : Db.FileQuery) : Os (List FileT) := .perform (S := osSig) (.selectFile connect q)
def exec (connect : Conn) (st : Db.Stmt) : Os Nat := .perform (S := osSig) (.exec connect st)
def send (fd : Int) (train : TransFile) : Os Unit := .perform (S := osSig) (.send fd train)
def recv (fd : Int) : Os TransFile := .perform (S := osSig) (.recv fd)
def recvBuf (fd : Int) : Os CStr := .perform (S := osSig) (.recvBuf fd)
def close (fd : Int) : Os Unit := .perform (S := osSig) (.close fd)
def openFile (path : CStr) (creat : Bool) : Os Int := .perform (S := osSig) (.openFile path creat)
def lseekEnd (fd : Int) : Os Int := .perform (S := osSig) (.lseekEnd fd)
def ftruncate (fd length : Int) : Os Unit := .perform (S := osSig) (.ftruncate fd length)
def mmapWrite (fd offset : Int) (bytes : CStr) : Os Bool := .perform (S := osSig) (.mmapWrite fd offset bytes)
def stat (path : CStr) : Os (Option Int) := .perform (S := osSig) (.stat path)
def sendfile (out fd offset count : Int) : Os Unit := .perform (S := osSig) (.sendfile out fd offset count)
def time : Os Nat := .perform (S := osSig) .time
def crash {α : Type} : Os α := .op (S := osSig) .crash fun e => nomatch (e : Empty)

/-! ### Sequencing -/

section Bind
variable {α : Type} (connect : Conn) (fd : Int)

@[simp] theorem getConnection_bind (f : Option Conn → Os α) :
    getConnection.bind f = .op (S := osSig) .getConnection f := rfl
@[simp] theorem releaseConnection_bind (f : Unit → Os α) :
    (releaseConnection connect).bind f = .op (S := osSig) (.releaseConnection connect) f := rfl
@[simp] theorem autocommit_bind (mode : Bool) (f : Unit → Os α) :
    (autocommit connect mode).bind f = .op (S := osSig) (.autocommit connect mode) f := rfl
@[simp] theorem commit_bind (f : Unit → Os α) :
    (commit connect).bind f = .op (S := osSig) (.commit connect) f := rfl
@[simp] theorem selectUser_bind (name : CStr) (f : List User → Os α) :
    (selectUser connect name).bind f = .op (S := osSig) (.selectUser connect name) f := rfl
@[simp] theorem selectUserFile_bind (q : Db.UserFileQuery) (f : List UserFileT → Os α) :
    (selectUserFile connect q).bind f = .op (S := osSig) (.selectUserFile connect q) f := rfl
@[simp] theorem selectFile_bind (q : Db.FileQuery) (f : List FileT → Os α) :
    (selectFile connect q).bind f = .op (S := osSig) (.selectFile connect q) f := rfl
@[simp] theorem exec_bind (st : Db.Stmt) (f : Nat → Os α) :
    (exec connect st).bind f = .op (S := osSig) (.exec connect st) f := rfl
@[simp] theorem send_bind (train : TransFile) (f : Unit → Os α) :
    (send fd train).bind f = .op (S := osSig) (.send fd train) f := rfl
@[simp] theorem recv_bind (f : TransFile → Os α) : (recv fd).bind f = .op (S := osSig) (.recv fd) f := rfl
@[simp] theorem recvBuf_bind (f : CStr → Os α) : (recvBuf fd).bind f = .op (S := osSig) (.recvBuf fd) f := rfl
@[simp] theorem close_bind (f : Unit → Os α) : (close fd).bind f = .op (S := osSig) (.close fd) f := rfl
@[simp] theorem openFile_bind (path : CStr) (creat : Bool) (f : Int → Os α) :
    (openFile path creat).bind f = .op (S := osSig) (.openFile path creat) f := rfl
@[simp] theorem lseekEnd_bind (f : Int → Os α) :
    (lseekEnd fd).bind f = .op (S := osSig) (.lseekEnd fd) f := rfl
@[simp] theorem ftruncate_bind (length : Int) (f : Unit → Os α) :
    (ftruncate fd length).bind f = .op (S := osSig) (.ftruncate fd length) f := rfl
@[simp] theorem mmapWrite_bind (offset : Int) (bytes : CStr) (f : Bool → Os α) :
    (mmapWrite fd offset bytes).bind f = .op (S := osSig) (.mmapWrite fd offset bytes) f := rfl
@[simp] theorem stat_bind (path : CStr) (f : Option Int → Os α) :
    (stat path).bind f = .op (S := osSig) (.stat path) f := rfl
@[simp] theorem sendfile_bind (out offset count : Int) (f : Unit → Os α) :
    (sendfile out fd offset count).bind f = .op (S := osSig) (.sendfile out fd offset count) f := rfl
@[simp] theorem time_bind (f : Nat → Os α) : time.bind f = .op (S := osSig) .time f := rfl
@[simp] theorem crash_bind {β : Type} (f : β → Os α) : (crash : Os β).bind f = crash :=
  congrArg (Prog.op (S := osSig) .crash) (funext fun e => nomatch (e : Empty))

end Bind

end Os

end Netdisk

import Netdisk.DealSql
import Netdisk.Hash

/-!
# Commands that change files (`file_change.c`)
-/

namespace Netdisk
open Os

/-- `sysconf(_SC_PAGE_SIZE)` -/
def pageSize : Nat := 4096

/-- `(offset/page_size)*page_size` -/
def pageFloor (offset : Int) : Int := offset.tdiv pageSize * pageSize

theorem pageFloor_natCast (n : Nat) : pageFloor n = ((n / pageSize * pageSize : Nat) : Int) := rfl

theorem pageFloor_le (n : Nat) : 0 ≤ pageFloor n ∧ pageFloor n ≤ n := by
  rw [pageFloor_natCast]
  exact ⟨Int.natCast_nonneg _, Int.ofNat_le.2 (Nat.div_mul_le_self _ _)⟩

variable (J : Jwt) (cwd : CStr)

/-- The loop of `recv_file`: `offset` at the end of it. An iteration that goes on raises `offset`, so
`fuel` is never short when it is `file_size - offset` at first. -/
def recvLoop (clientFd fd fileSize : Int) : (fuel : Nat) → (offset : Int) → Os Int
  | 0, offset => return offset
  | fuel + 1, offset => do
    if offset < fileSize then
      let buf ← recvBuf clientFd
      if buf = [] then return offset
      let count := if offset + buf.length > fileSize then fileSize - offset else buf.length
      let mapped ← mmapWrite fd offset (buf.take count.toNat)
      if mapped then recvLoop clientFd fd fileSize fuel (offset + count) else return offset
    else return offset

theorem recvLoop_only (clientFd fd fileSize : Int) (fuel : Nat) (offset : Int) :
    Prog.Only (S := osSig) (fun o : Op => o.isReceive = true) (recvLoop clientFd fd fileSize fuel offset) := by
  induction fuel generalizing offset with
  | zero => trivial
  | succ fuel ih =>
    rw [recvLoop]
    split
    · refine ⟨rfl, fun (buf : CStr) => ?_⟩
      show Prog.Only _ (if buf = [] then _ else _)
      split
      · trivial
      · refine ⟨rfl, fun mapped => ?_⟩
        cases mapped with
        | true => exact ih _
        | false => trivial
    · trivial

/-- `recv_file` once `query_puts` has returned 1: the transfer into `real_path`. -/
def recvFileData (clientFd : Int) (trans : TransFile) (token : TokenInfo) (strerror : CStr) : Os Int := do
  let realPath := cwd ++ "/data".toList ++ "/".toList ++ trans.data
  let fd ← openFile realPath true
  let fileSize := intOf trans.dataLength
  if fd < 0 then
    sendMessage J clientFd strerror false token
    return -1
  let size ← lseekEnd fd
  let offset := pageFloor size
  send clientFd { trans with flag := true, dataLength := intOf offset }
  ftruncate fd fileSize
  let offset ← recvLoop clientFd fd fileSize (fileSize - offset).toNat offset
  send clientFd {}
  close clientFd
  close fd
  if offset = fileSize then
    let _ ← queryUpdate trans.data
  return 0

/-- `recv_file`; `strerror` is the text for a failed `open`. -/
def recvFile (clientFd : Int) (argument : CStr) (token : TokenInfo) (strerror : CStr) : Os Int := do
  let some (localPath, path) := spliteArgument argument | crash
  let fileName := getFileName localPath
  let some userPath := getUserPath path token | crash
  let trans ← recv clientFd
  let ret ← queryPuts userPath fileName trans.data token.userId
  if ret = -2 then
    sendMessage J clientFd (utf8 "服务器繁忙，请稍候重试") false token
    return 0
  if ret = -1 then
    sendMessage J clientFd (utf8 "无效的路径，请重试") false token
    return 0
  if ret = 0 then
    sendMessage J clientFd (utf8 "该目录下有同名文件，请检查") false token
    return 0
  if ret = 2 then
    sendMessage J clientFd (utf8 "上传成功") false token
    return 0
  recvFileData J cwd clientFd trans token strerror

/-- The loop that cuts the path at its last slash, unless that is the first character. -/
def cutName (userPath : CStr) : CStr :=
  let rest := userPath.reverse.dropWhile (· ≠ '/')
  if rest.length ≤ 1 then userPath else rest.tail.reverse

/-- `send_file`. -/
def sendFile (clientFd : Int) (argument : CStr) (token : TokenInfo) : Os Int := do
  let some (path, _) := spliteArgument argument | crash
  let some userPath := getUserPath path token | crash
  let fileName := getFileName userPath
  let (ret, hashValue) ← queryGets (cutName userPath) fileName token.userId
  if ret = -1 then
    sendMessage J clientFd (utf8 "服务器错误") false token
    close clientFd
    return 0
  if ret = 0 then
    sendMessage J clientFd (utf8 "不合法的路径或文件不存在") false token
    close clientFd
    return 0
  let fd ← openFile (cwd ++ "/data/".toList ++ hashValue) false
  if fd ≤ 0 then
    sendMessage J clientFd (utf8 "服务器错误") false token
  let fileSize ← lseekEnd fd
  send clientFd { dataLength := intOf fileSize, flag := true }
  -- the test after this `recv` compares the function `recv_file` with 0 and is never true
  let trans ← recv clientFd
  let clientSize := trans.dataLength
  sendfile clientFd fd clientSize (fileSize - clientSize)
  let _ ← recv clientFd
  close clientFd
  return 0

/-- `remove_file`. -/
def removeFile (clientFd : Int) (argument : CStr) (token : TokenInfo) : Os Int := do
  let some userPath := getUserPath argument token | crash
  let ret ← queryRemove (cutName userPath) (getFileName argument) token.userId
  if ret = -1 then
    sendMessage J clientFd (utf8 "系统繁忙，请稍候重试") false token
    return -1
  if ret = 1 then
    sendMessage J clientFd (utf8 "请输入正确路径") false token
    return -1
  if ret = 2 then
    sendMessage J clientFd (utf8 "文件夹非空，请清空后重试") false token
    return -1
  sendMessage J clientFd (utf8 "删除成功") false token
  return 0

/-- `add_dir`. -/
def addDir (clientFd : Int) (argument : CStr) (token : TokenInfo) : Os Int := do
  let some userPath := getUserPath argument token | crash
  let ret ← queryMkdir (cutName userPath) (getFileName argument) token.userId
  if ret = -1 then
    sendMessage J clientFd (utf8 "系统繁忙，请稍候重试") false token
    return -1
  if ret = 0 then
    sendMessage J clientFd (utf8 "请输入正确路径") false token
    return -1
  if ret = 1 then
    sendMessage J clientFd (utf8 "当前目录下已有同名文件") false token
    return -1
  sendMessage J clientFd (utf8 "创建成功") false token
  return 0

end Netdisk

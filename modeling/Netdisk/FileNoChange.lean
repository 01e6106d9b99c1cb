import Netdisk.DealSql
import Netdisk.Hash

/-!
# Commands that change no file (`file_no_change.c`)
-/

namespace Netdisk
open Os

variable (J : Jwt) (cwd : CStr)

/-- `change_dir`; it returns the `token` too, whose `workpath` it may change. -/
def changeDir (clientFd : Int) (argument : CStr) (token : TokenInfo) : Os (Int × TokenInfo) := do
  let some userPath := getUserPath argument token | crash
  let ret ← queryCd userPath token.userId
  if ret < 0 then
    sendMessage J clientFd (utf8 "server busy,please retry") false token
    return (0, token)
  else if ret = 0 then
    sendMessage J clientFd (utf8 "illegal path, please retry") false token
    return (0, token)
  else
    let token := { token with workpath := userPath }
    sendMessage J clientFd (utf8 "change success") false token
    return (0, token)

/-- One reply for each text. -/
def sendEach (clientFd : Int) (token : TokenInfo) : List CStr → Os Unit
  | [] => return ()
  | text :: texts => do
    sendMessage J clientFd text true token
    sendEach clientFd token texts

/-- `show_dir`: the result set is read before the test for `NULL`. -/
def showDir (clientFd : Int) (argument : CStr) (token : TokenInfo) : Os Int := do
  let some userPath := getUserPath argument token | crash
  let some res ← queryLs userPath token.userId | crash
  sendEach J clientFd token (res.map (·.name))
  sendMessage J clientFd (utf8 "查找完成") false token
  return 0

/-- `show_path`. -/
def showPath (clientFd : Int) (_argument : CStr) (token : TokenInfo) : Os Int := do
  sendMessage J clientFd token.workpath false token
  return 0

/-- `%4ld` -/
def pad4 (n : Int) : CStr :=
  let digits := (toString n).toList
  List.replicate (4 - digits.length) ' ' ++ digits

/-- The loop of `show_dir_detail` over both result sets; the second may be too short. -/
def detailLoop (clientFd : Int) (token : TokenInfo) : List FileT → List UserFileT → Os Unit
  | [], _ => return ()
  | f :: files, names => do
    match ← stat (cwd ++ "/data".toList ++ "/".toList ++ f.realPath) with
    | none => detailLoop clientFd token files names.tail
    | some size =>
      let some uf := names.head? | crash
      let kind := if f.type = 0 then "dir".toList else "file".toList
      sendMessage J clientFd (uf.name ++ [' '] ++ pad4 size ++ [' '] ++ kind) true token
      detailLoop clientFd token files names.tail

/-- `show_dir_detail`; without the second result set it replies and then reads it all the same. -/
def showDirDetail (clientFd : Int) (argument : CStr) (token : TokenInfo) : Os Int := do
  let some userPath := getUserPath argument token | crash
  match ← queryLl userPath token.userId with
  | none =>
    sendMessage J clientFd (utf8 "系统繁忙，请稍候重试") false token
    return 1
  | some fileDetail =>
    match ← queryLs userPath token.userId with
    | none =>
      sendMessage J clientFd (utf8 "系统繁忙，请稍候重试") false token
      crash
    | some fileName =>
      detailLoop J cwd clientFd token fileDetail fileName
      sendMessage J clientFd (utf8 "查询完成") false token
      return 0

end Netdisk

import Netdisk.FileChange

/-!
# The client (`judgment.c`, `pthread.c`)

What becomes of a typed line, how the replies to it are read, and the two transfers. `remove_space`
of the client's `Tools.c` is the server's, word for word.
-/

namespace Netdisk
open Os

/-! ### `execute_command`, `command_printf` -/

/-- `order[]` -/
def order : List CStr :=
  ["cd".toList, "ls".toList, "ll".toList, "pwd".toList, "mkdir".toList, "puts".toList, "gets".toList, "rm".toList]

/-- The values 1 and 2 of `res`. -/
inductive CommandKind
  | short
  | long
deriving DecidableEq

/-- The test of the number of spaces behind the command `i`. -/
def checkSize (i size : Nat) : Option CommandKind :=
  if i = 0 ∨ i = 4 ∨ i = 7 then
    if size ≠ 1 then none else some .short
  else if i = 1 ∨ i = 2 then
    if size > 1 then none else some .short
  else if i = 5 ∨ i = 6 then
    if size ≠ 2 then none else some .long
  else
    if size ≠ 0 then none else some .short

/-- The loop of `execute_command`: the number of the first command that the line begins with
(`strncmp`), if the spaces fit it. -/
def classify (command : CStr) : Option (Nat × CommandKind) := do
  let size := command.count ' '
  let i ← order.findIdx? fun o => o.isPrefixOf command
  let kind ← checkSize i size
  return (i, kind)

/-- The frame that `execute_command` builds for the command `i`. -/
def commandFrame (command : CStr) (i : Nat) (globalToken : CStr) : TransFile :=
  { data := command, dataLength := command.length, commandNo := i, token := globalToken }

/-- `command_printf` on the frames that are there to read: what it prints, `global_token`
afterwards, and the frames it leaves. A closed connection reads as a zeroed frame. -/
def commandPrintf : List TransFile → List CStr × CStr × List TransFile
  | [] => ([[]], [], [])
  | train :: rest =>
    if train.flag then
      let (printed, token, rest) := commandPrintf rest
      (train.data :: printed, token, rest)
    else ([train.data], train.token, rest)

/-! ### `transfile` -/

/-- `strtok`: the first token and the text behind it. -/
def strtok (delim : Char) (s : CStr) : Option (CStr × CStr) :=
  match s.dropWhile (· = delim) with
  | [] => none
  | rest => some (rest.takeWhile (· ≠ delim), (rest.dropWhile (· ≠ delim)).tail)

/-- `argument1` and `argument2` of `transfile`; `NULL` where the line has no such word. The line is copied to `cmd`
first, and overruns its 256 bytes if it is too long. -/
def transfileArguments (data : CStr) : Option (Option CStr × Option CStr) :=
  if 256 ≤ data.length then none
  else
    let argument1 := (strtok ' ' data).bind fun x => strtok ' ' x.2
    let argument2 := argument1.bind fun x => strtok '\n' x.2
    some (argument1.map Prod.fst, argument2.map Prod.fst)

/-! ### `gets_File` -/

/-- `gets_File` behind the reply that announces the file: `cur_size` where the loop is left. The loop
is the one of `recv_file`, and a `return` in it is the case `cur_size < file_size`. -/
def getsFileData (fd socketFd : Int) (trans : TransFile) : Os Int := do
  let fileSize := trans.dataLength
  let size ← lseekEnd fd
  let curSize := pageFloor size
  send socketFd { trans with dataLength := intOf curSize }
  ftruncate fd fileSize
  let curSize ← recvLoop socketFd fd fileSize (fileSize - curSize).toNat curSize
  if curSize < fileSize then return curSize
  send socketFd { trans with dataLength := intOf (pageFloor size) }
  return curSize

/-- `gets_File`: `cur_size` where the loop is left, or else the new `global_token`. -/
def getsFile (fd socketFd : Int) : Os (Int ⊕ CStr) := do
  let trans ← recv socketFd
  if trans.flag = false then return .inr trans.token
  let curSize ← getsFileData fd socketFd trans
  return .inl curSize

/-! ### `puts_File` -/

/-- `puts_File`: the new `global_token` if the server refuses. `digest` is what `generate_digest` writes. -/
def putsFile (digest : CStr) (fd socketFd : Int) : Os (Option CStr) := do
  let fileSize ← lseekEnd fd
  send socketFd { data := digest, dataLength := intOf fileSize }
  let train ← recv socketFd
  if train.flag = false then return some train.token
  let serverSize := train.dataLength
  sendfile socketFd fd serverSize (fileSize - serverSize)
  let _ ← recv socketFd
  return none

end Netdisk

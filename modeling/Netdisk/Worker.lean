import Netdisk.FileChange
import Netdisk.FileNoChange
import Netdisk.Login

/-!
# A worker (`thread.c`)

What a worker does with one task, from the frame it has taken off the queue to the point where it
hands the descriptor back or not. `token_info token` outlives the task.
-/

namespace Netdisk
open Os

/-- What the server program is built with and runs in: the JWT and crypt libraries, its working
directory, and the text of a failed `open`. -/
structure Env where
  jwt : Jwt
  crypt : Crypt
  cwd : CStr
  strerror : CStr

/-- Unary tokens, passwords kept as they are, and the root directory. -/
def Env.plain : Env := { jwt := .unary, crypt := .plain, cwd := [], strerror := [] }

/-- `command[]` -/
inductive Command
  | cd | ls | ll | pwd | mkdir | puts | gets | rm
deriving DecidableEq

/-- The search in `command[]`. -/
def Command.ofName (cmd : CStr) : Option Command :=
  if cmd = "cd".toList then some .cd
  else if cmd = "ls".toList then some .ls
  else if cmd = "ll".toList then some .ll
  else if cmd = "pwd".toList then some .pwd
  else if cmd = "mkdir".toList then some .mkdir
  else if cmd = "puts".toList then some .puts
  else if cmd = "gets".toList then some .gets
  else if cmd = "rm".toList then some .rm
  else none

/-- The strings of `command[]`. -/
def Command.text : Command → CStr
  | .cd => "cd".toList
  | .ls => "ls".toList
  | .ll => "ll".toList
  | .pwd => "pwd".toList
  | .mkdir => "mkdir".toList
  | .puts => "puts".toList
  | .gets => "gets".toList
  | .rm => "rm".toList

theorem Command.eq_text_of_ofName {cmd : CStr} {command : Command} (h : Command.ofName cmd = some command) :
    cmd = command.text := by
  unfold Command.ofName at h
  repeat' split at h
  all_goals first | (cases h; assumption) | cases h

variable (E : Env)

/-- `deal_command[]`, with the `token` the command leaves behind. -/
def dealCommand (command : Command) (clientFd : Int) (argument : CStr) (token : TokenInfo) :
    Os (Int × TokenInfo) :=
  let keep (p : Os Int) : Os (Int × TokenInfo) := do
    let ret ← p
    return (ret, token)
  match command with
  | .cd => changeDir E.jwt clientFd argument token
  | .ls => keep (showDir E.jwt clientFd argument token)
  | .ll => keep (showDirDetail E.jwt E.cwd clientFd argument token)
  | .pwd => keep (showPath E.jwt clientFd argument token)
  | .mkdir => keep (addDir E.jwt clientFd argument token)
  | .puts => keep (recvFile E.jwt E.cwd clientFd argument token E.strerror)
  | .gets => keep (sendFile E.jwt E.cwd clientFd argument token)
  | .rm => keep (removeFile E.jwt clientFd argument token)

/-- The command and the argument in a frame's text. -/
def parseRequest (data : CStr) : CStr × CStr :=
  let data := removeSpace data
  (spliteArgument data).getD (data, [])

/-- The account in a frame that registers or logs in. -/
def account (frame : TransFile) : CStr := (parseRequest frame.data).1

/-- `connect_with_client`. -/
def connectWithClient (clientFd : Int) (train : TransFile) (token : TokenInfo) : Os (Int × TokenInfo) := do
  let (cmd, argument) := parseRequest train.data
  match Command.ofName cmd with
  | none =>
    sendMessage E.jwt clientFd (utf8 "无效的命令") false token
    return (0, token)
  | some command =>
    let (_, token) ← dealCommand E command clientFd argument token
    return (0, token)

/-- The command and the argument that `connect_with_client` calls `deal_command[]` with. -/
def dispatch (data : CStr) : Option (Command × CStr) :=
  (Command.ofName (parseRequest data).1).map fun command => (command, (parseRequest data).2)

theorem connectWithClient_dispatch (E : Env) (clientFd : Int) (train : TransFile) (token : TokenInfo) :
    connectWithClient E clientFd train token = match dispatch train.data with
      | none => (sendMessage E.jwt clientFd (utf8 "无效的命令") false token).bind fun _ => .pure (0, token)
      | some (command, argument) =>
        (dealCommand E command clientFd argument token).bind fun x => .pure (0, x.2) := by
  unfold connectWithClient dispatch
  obtain ⟨cmd, argument⟩ := parseRequest train.data
  dsimp only
  cases Command.ofName cmd <;> rfl

/-- The body of the loop of `thread` for a task, up to the hand-back: the `token` it leaves for the
next task. -/
def serve (rand : CStr) (netFd : Int) (trans : TransFile) (token : TokenInfo) : Os TokenInfo := do
  if trans.token = [] then
    let (_, token) ← checkUserLogin E.jwt E.crypt rand netFd trans token
    return token
  else
    let now ← time
    match E.jwt.verifyToken now trans.token with
    | none =>
      sendMessage E.jwt netFd (utf8 "请重新登录") false token
      return token
    | some token =>
      let (ret, token) ← connectWithClient E netFd trans token
      if ret = -1 then
        sendMessage E.jwt netFd (utf8 "连接关闭") false {}
        return {}
      return token

/-- A request with a token. `connect_with_client` never returns -1, so the reply to that is never sent. -/
theorem serve_of_token {rand : CStr} {netFd : Int} {trans : TransFile} {token : TokenInfo} (htoken : trans.token ≠ []) :
    serve E rand netFd trans token = .op (S := osSig) .time fun (now : Nat) => match E.jwt.verifyToken now trans.token with
      | none => (sendMessage E.jwt netFd (utf8 "请重新登录") false token).bind fun _ => .pure token
      | some token => match dispatch trans.data with
        | none => (sendMessage E.jwt netFd (utf8 "无效的命令") false token).bind fun _ => .pure token
        | some (command, argument) => (dealCommand E command netFd argument token).bind fun x => .pure x.2 := by
  unfold serve
  rw [if_neg htoken]
  refine congrArg (Prog.op (S := osSig) .time) (funext fun (now : Nat) => ?_)
  show (match E.jwt.verifyToken now trans.token with | none => _ | some token => _) = _
  cases E.jwt.verifyToken now trans.token with
  | none => rfl
  | some token =>
    dsimp only
    rw [connectWithClient_dispatch]
    cases dispatch trans.data with
    | none => exact Prog.bind_assoc ..
    | some x => exact Prog.bind_assoc ..

/-- Whether `thread` writes the descriptor to the pipe after the task. -/
def handsBack (trans : TransFile) : Bool := !trans.isLong

end Netdisk

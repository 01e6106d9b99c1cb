import Netdisk.DealSql
import Netdisk.Hash

/-!
# Registration and login (`login.c`)
-/

namespace Netdisk
open Os

/-- What `check_user_login` copies to `user_name` and `user_pwd`, which have 100 bytes each: nothing if there is one
word only, or one does not fit. -/
def loginWords (data : CStr) : Option (CStr × CStr) :=
  (spliteArgument (removeSpace data)).filter fun (userName, userPwd) => userName.length < 100 && userPwd.length < 100

/-- `check_user_login`; it returns the `token` too. `rand` is the random string that hashing a new
password draws. -/
def checkUserLogin (J : Jwt) (C : Crypt) (rand : CStr) (clientFd : Int) (trans : TransFile) (token : TokenInfo) :
    Os (Int × TokenInfo) := do
  let some (userName, userPwd) := loginWords trans.data | crash
  if trans.commandNo = 0 then
    let ret ← userRegister C rand userName userPwd
    if ret ≤ 0 then
      if ret = -1 then
        sendMessage J clientFd (utf8 "服务器出错，请稍候重试。") false {}
      else if ret = 0 then
        sendMessage J clientFd (utf8 "账户已存在。") false {}
      return (1, {})
    let token : TokenInfo := { userId := ulongOf ret, workpath := '/' :: userName }
    sendMessage J clientFd (utf8 "注册成功！") true token
    return (0, token)
  else if trans.commandNo = 1 then
    match ← getUser userName with
    | none =>
      sendMessage J clientFd (utf8 "服务器繁忙，请稍候重试") false {}
      return (1, {})
    | some [] => crash
    | some (user :: _) =>
      if matchPassword C userPwd user.password = false then
        sendMessage J clientFd (utf8 "帐号或密码不正确，请重试") false {}
        return (1, {})
      let token : TokenInfo := { userId := user.id, workpath := '/' :: userName }
      sendMessage J clientFd (utf8 "密码正确，欢迎登录") true token
      return (0, token)
  return (0, token)

theorem loginWords_eq_some {data userName userPwd : CStr} : loginWords data = some (userName, userPwd) ↔
    spliteArgument (removeSpace data) = some (userName, userPwd) ∧ userName.length < 100 ∧ userPwd.length < 100 := by
  simp [loginWords, Option.filter_eq_some_iff]

end Netdisk

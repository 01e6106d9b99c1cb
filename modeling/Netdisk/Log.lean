import Netdisk.Wire

/-!
# The log (`log.c`)

The globals of `log.c` with the descriptors that the operating system has open for them, and the
functions on them. The answers of `read_config`, which do not change during a run, come in as `conf`;
the answers of the operating system in one call are a `Sys`.
-/

namespace Netdisk

/-- `LOG_LEVEL_DEBUG` to `LOG_LEVEL_ERROR`, the only levels that the source passes. -/
inductive Level where
  | debug | info | warning | error
deriving DecidableEq

namespace Level

def toNat : Level → Nat
  | debug => 0
  | info => 1
  | warning => 2
  | error => 3

/-- `level_to_str` -/
def str : Level → CStr
  | debug => "DBUG".toList
  | info => "INFO".toList
  | warning => "WARN".toList
  | error => "ERRO".toList

/-- How `str_to_lever` spells it. -/
def word : Level → CStr
  | debug => "DEBUG".toList
  | info => "INFO".toList
  | warning => "WARNING".toList
  | error => "ERROR".toList

end Level

/-- A day of the local calendar; the year has four digits at most, as `now_date` has room for. -/
structure Date where
  year : Nat
  month : Nat
  day : Nat
  year_lt : year < 10000
  month_mem : 1 ≤ month ∧ month ≤ 12
  day_mem : 1 ≤ day ∧ day ≤ 31
deriving DecidableEq

def Date.newYear : Date := ⟨2024, 1, 1, by decide, by decide, by decide⟩

/-- `%02d` -/
def twoDigits (n : Nat) : CStr := if n < 10 then '0' :: Nat.toDigits 10 n else Nat.toDigits 10 n

/-- `get_now_date`: `"%d-%02d-%02d"`. -/
def Date.text (d : Date) : CStr := Nat.toDigits 10 d.year ++ '-' :: twoDigits d.month ++ '-' :: twoDigits d.day

/-- What the operating system answers in one call of `print_log`: the date, the descriptor that `open`
would return, the thread's number and the text of `errno`. -/
structure Sys where
  now : Date
  fd : Nat
  tid : Nat
  strerror : CStr

/-- The globals, and the path that each open descriptor was opened on. -/
structure LogState where
  logFd : List Int := [-1, -1, -1, -1, -1]
  logIsolate : Int := -1
  logThread : Int := -1
  currDate : CStr := []
  outputLevel : Int := -1
  files : Nat → Option CStr := fun _ => none

/-- A call of `write`. -/
structure Written where
  fd : Int
  text : CStr
deriving DecidableEq

namespace LogState

/-- The setting of a flag in the configuration. -/
def flag (value : Option CStr) : Int :=
  match value with
  | none => 0
  | some v => if v = "true".toList then 1 else 0

/-- `get_log_isolate` -/
def getLogIsolate (conf : CStr → Option CStr) (s : LogState) : Int × LogState :=
  if s.logIsolate ≠ -1 then (s.logIsolate, s)
  else (flag (conf "log_output_isolate".toList), { s with logIsolate := flag (conf "log_output_isolate".toList) })

/-- `get_thread_conf` -/
def getThreadConf (conf : CStr → Option CStr) (s : LogState) : Int × LogState :=
  if s.logThread ≠ -1 then (s.logThread, s)
  else (flag (conf "log_output_thread".toList), { s with logThread := flag (conf "log_output_thread".toList) })

/-- The index in `log_fd`. -/
def slot (isIsolate : Int) (level : Level) : Nat := if isIsolate = 1 then level.toNat + 1 else 0

/-- `get_curr_fd` -/
def getCurrFd (conf : CStr → Option CStr) (level : Level) (s : LogState) : Int × LogState :=
  let (isIsolate, s) := s.getLogIsolate conf
  (s.logFd.getD (slot isIsolate level) (-1), s)

/-- The file of a day, or of a day and a level. -/
def path (isIsolate : Int) (nowDate : CStr) (level : Level) : CStr :=
  if isIsolate = 1 then "./log/".toList ++ nowDate ++ '_' :: level.str ++ ".log".toList
  else "./log/".toList ++ nowDate ++ ".log".toList

def close (fd : Int) (s : LogState) : LogState := { s with files := fun k => if fd = k then none else s.files k }

def openAt (fd : Nat) (path : CStr) (s : LogState) : LogState := { s with files := fun k => if k = fd then some path else s.files k }

/-- `update_log_info` -/
def updateLogInfo (conf : CStr → Option CStr) (sys : Sys) (nowDate : CStr) (level : Level) (s : LogState) : Int × LogState :=
  let (currLogFd, s) := s.getCurrFd conf level
  let s := if currLogFd ≠ -1 then s.close currLogFd else s
  let (isIsolate, s) := s.getLogIsolate conf
  let s := s.openAt sys.fd (path isIsolate nowDate level)
  (sys.fd, { s with logFd := s.logFd.set (slot isIsolate level) sys.fd, currDate := nowDate })

/-- `get_log_fd` -/
def getLogFd (conf : CStr → Option CStr) (sys : Sys) (level : Level) (s : LogState) : Int × LogState :=
  let nowDate := sys.now.text
  let (currFd, s) := s.getCurrFd conf level
  if currFd = -1 ∨ s.currDate.take 10 ≠ nowDate.take 10 then s.updateLogInfo conf sys nowDate level
  else (currFd, s)

/-- `print_log`, on the formatted text. -/
def printLog (conf : CStr → Option CStr) (sys : Sys) (level : Level) (buf : CStr) (s : LogState) : Written × LogState :=
  let (thread, s) := s.getThreadConf conf
  let buf := if thread = 1 then buf ++ " [tid: ".toList ++ Nat.toDigits 10 (sys.tid % 10000) ++ "] ".toList else buf
  let buf := if level = .error then buf ++ "[errmsg:".toList ++ sys.strerror ++ "]".toList else buf
  let (fd, s) := s.getLogFd conf sys level
  ({ fd := fd, text := buf ++ ['\n'] }, s)

end LogState

/-! ### `output_control` -/

/-- `str_to_lever` -/
def strToLever (setLever : CStr) : Int :=
  let setLever := setLever.map Char.toUpper
  if setLever = Level.debug.word then 0
  else if setLever = Level.info.word then 1
  else if setLever = Level.warning.word then 2
  else if setLever = Level.error.word then 3
  else -1

/-- The `LOG` macro; `control` is the call of `output_control` in it, `place` the file, line and function
that it is expanded in. -/
def LOG (conf : CStr → Option CStr) (sys : LogState → Sys) (control : Int → StateT LogState Option Bool) (level : Level)
    (place format : CStr) : StateT LogState Option Unit := do
  if ← control level.toNat then
    let tempInfo := '[' :: level.str ++ "] [".toList ++ place ++ "] ".toList ++ format
    modify fun s => (s.printLog conf (sys s) level tempInfo).2

def notSet : CStr := "log_output_level is not set, use default value: INFO".toList

/-- `output_control` with its `LOG` calls expanded; `fuel` bounds the depth of the recursion. -/
def outputControl (conf : CStr → Option CStr) (sys : LogState → Sys) : (fuel : Nat) → (level : Int) → StateT LogState Option Bool
  | 0, _ => failure
  | fuel + 1, level => do
    if (← get).outputLevel = -1 then
      match conf "log_output_level".toList with
      | none =>
        LOG conf sys (outputControl conf sys fuel) .warning "log.c:180:output_control".toList notSet
        modify fun s => { s with outputLevel := Level.info.toNat }
      | some value =>
        modify fun s => { s with outputLevel := strToLever value }
        if (← get).outputLevel = -1 then
          LOG conf sys (outputControl conf sys fuel) .warning "log.c:188:output_control".toList notSet
          modify fun s => { s with outputLevel := Level.info.toNat }
    return decide ((← get).outputLevel ≤ level)

end Netdisk

import Netdisk.Db.Sequential
import Netdisk.Lib.Faults
import Netdisk.RequestBuffers

/-!
# Accesses through `NULL`

The programs of a worker with a fault of its own for each access through what `splite_argument`, `query_ls`
or `query_ll` returned, where that may be `NULL`; without the distinction they are `serve` (`erase_serve`).
`safe_serve_iff` says which requests do not come to such an access, whatever clients, files and clock do.
-/

namespace Netdisk
open Os Prog

/-- A program of the server with the accesses through `NULL` told apart. -/
abbrev NullOs := Prog osSig.withFault

namespace NullOs

/-- The access through `NULL`. -/
abbrev null {α : Type} : NullOs α := fault

section Handlers
variable (J : Jwt) (C : Crypt) (cwd : CStr)

/-- `check_user_login`: it reads `res[0]` before anything else. -/
def checkUserLogin (rand : CStr) (clientFd : Int) (trans : TransFile) (token : TokenInfo) : NullOs (Int × TokenInfo) :=
  match spliteArgument (removeSpace trans.data) with
  | none => null
  | some _ => (Netdisk.checkUserLogin J C rand clientFd trans token).lift

/-- `show_dir` reads `res->data`. -/
def showDir (clientFd : Int) (argument : CStr) (token : TokenInfo) : NullOs Int :=
  match getUserPath argument token with
  | none => Os.crash.lift
  | some userPath => (queryLs userPath token.userId).lift.bind fun
    | none => null
    | some res => Prog.lift do
      sendEach J clientFd token (res.map (·.name))
      sendMessage J clientFd (utf8 "查找完成") false token
      return 0

/-- `show_dir_detail` tests what `query_ll` returns, and reads `file_name->data` in any case. -/
def showDirDetail (clientFd : Int) (argument : CStr) (token : TokenInfo) : NullOs Int :=
  match getUserPath argument token with
  | none => Os.crash.lift
  | some userPath => (queryLl userPath token.userId).lift.bind fun
    | none => Prog.lift do
      sendMessage J clientFd (utf8 "系统繁忙，请稍候重试") false token
      return 1
    | some fileDetail => (queryLs userPath token.userId).lift.bind fun
      | none => (sendMessage J clientFd (utf8 "系统繁忙，请稍候重试") false token).lift.bind fun _ => null
      | some fileName => Prog.lift do
        detailLoop J cwd clientFd token fileDetail fileName
        sendMessage J clientFd (utf8 "查询完成") false token
        return 0

/-- `recv_file` reads `res[0]`. -/
def recvFile (clientFd : Int) (argument : CStr) (token : TokenInfo) (strerror : CStr) : NullOs Int :=
  match spliteArgument argument with
  | none => null
  | some _ => (Netdisk.recvFile J cwd clientFd argument token strerror).lift

/-- `send_file` reads `temp[0]`. -/
def sendFile (clientFd : Int) (argument : CStr) (token : TokenInfo) : NullOs Int :=
  match spliteArgument argument with
  | none => null
  | some _ => (Netdisk.sendFile J cwd clientFd argument token).lift

end Handlers

variable (E : Env)

/-- `deal_command[]`. -/
def dealCommand (command : Command) (clientFd : Int) (argument : CStr) (token : TokenInfo) : NullOs (Int × TokenInfo) :=
  let keep (p : NullOs Int) : NullOs (Int × TokenInfo) := p.bind fun ret => .pure (ret, token)
  match command with
  | .ls => keep (showDir E.jwt clientFd argument token)
  | .ll => keep (showDirDetail E.jwt E.cwd clientFd argument token)
  | .puts => keep (recvFile E.jwt E.cwd clientFd argument token E.strerror)
  | .gets => keep (sendFile E.jwt E.cwd clientFd argument token)
  | command => (Netdisk.dealCommand E command clientFd argument token).lift

/-- The body of the loop of `thread`. -/
def serve (rand : CStr) (netFd : Int) (trans : TransFile) (token : TokenInfo) : NullOs TokenInfo :=
  if trans.token = [] then (checkUserLogin E.jwt E.crypt rand netFd trans token).bind fun x => .pure x.2
  else time.lift.bind fun now =>
    match E.jwt.verifyToken now trans.token with
    | none => (sendMessage E.jwt netFd (utf8 "请重新登录") false token).lift.bind fun _ => .pure token
    | some token =>
      match dispatch trans.data with
      | none => (sendMessage E.jwt netFd (utf8 "无效的命令") false token).lift.bind fun _ => .pure token
      | some (command, argument) => (dealCommand E command netFd argument token).bind fun x => .pure x.2

end NullOs

/-! ### Without the distinction -/

/-- An access through `NULL` is a crash like another. -/
def erased {α : Type} (p : NullOs α) : Os α := p.erase (S := osSig) .crash fun e => nomatch (e : Empty)

section Erased
variable {J : Jwt} {C : Crypt} {cwd rand argument strerror : CStr} {fd : Int} {token : TokenInfo} {E : Env} {trans : TransFile}

theorem erased_bind {α β : Type} (p : NullOs α) (f : α → NullOs β) :
    erased (p.bind f) = (erased p).bind fun a => erased (f a) := erase_bind p f

theorem erased_lift {α : Type} (p : Os α) : erased p.lift = p := erase_lift p

theorem erased_lift_bind {α β : Type} (p : Os α) (f : α → NullOs β) :
    erased (p.lift.bind f) = p.bind fun a => erased (f a) := by rw [erased_bind, erased_lift]

theorem erased_null {α : Type} : erased (NullOs.null : NullOs α) = Os.crash :=
  congrArg (Prog.op (S := osSig) .crash) (funext fun e => nomatch (e : Empty))

theorem erased_checkUserLogin :
    erased (NullOs.checkUserLogin J C rand fd trans token) = checkUserLogin J C rand fd trans token := by
  unfold NullOs.checkUserLogin
  split
  · next h =>
    have hwords : loginWords trans.data = none := by rw [loginWords, h, Option.filter_none]
    rw [erased_null, checkUserLogin, hwords]
  · exact erased_lift _

theorem erased_showDir : erased (NullOs.showDir J fd argument token) = showDir J fd argument token := by
  unfold NullOs.showDir showDir
  cases getUserPath argument token with
  | none => exact erased_lift _
  | some userPath =>
    refine (erased_lift_bind _ _).trans (congrArg (queryLs userPath token.userId).bind (funext fun rows => ?_))
    cases rows with
    | none => exact erased_null
    | some res => exact erased_lift _

theorem erased_showDirDetail :
    erased (NullOs.showDirDetail J cwd fd argument token) = showDirDetail J cwd fd argument token := by
  unfold NullOs.showDirDetail showDirDetail
  cases getUserPath argument token with
  | none => exact erased_lift _
  | some userPath =>
    refine (erased_lift_bind _ _).trans (congrArg (queryLl userPath token.userId).bind (funext fun files => ?_))
    cases files with
    | none => exact erased_lift _
    | some fileDetail =>
      refine (erased_lift_bind _ _).trans (congrArg (queryLs userPath token.userId).bind (funext fun rows => ?_))
      cases rows with
      | none =>
        refine (erased_lift_bind _ _).trans (congrArg (sendMessage J fd _ false token).bind (funext fun _ => ?_))
        exact erased_null
      | some fileName => exact erased_lift _

theorem erased_recvFile :
    erased (NullOs.recvFile J cwd fd argument token strerror) = recvFile J cwd fd argument token strerror := by
  unfold NullOs.recvFile
  split
  · next h =>
    rw [erased_null, recvFile, h]
  · exact erased_lift _

theorem erased_sendFile : erased (NullOs.sendFile J cwd fd argument token) = sendFile J cwd fd argument token := by
  unfold NullOs.sendFile
  split
  · next h =>
    rw [erased_null, sendFile, h]
  · exact erased_lift _

theorem erased_dealCommand (command : Command) :
    erased (NullOs.dealCommand E command fd argument token) = dealCommand E command fd argument token := by
  have hkeep : ∀ (p : NullOs Int) (q : Os Int), erased p = q →
      erased (p.bind fun ret => .pure (ret, token)) = q.bind fun ret => .pure (ret, token) := by
    rintro p _ rfl
    exact erased_bind _ _
  cases command with
  | ls => exact hkeep _ _ erased_showDir
  | ll => exact hkeep _ _ erased_showDirDetail
  | puts => exact hkeep _ _ erased_recvFile
  | gets => exact hkeep _ _ erased_sendFile
  | cd | pwd | mkdir | rm => exact erased_lift _

/-- The programs with the accesses told apart are the programs of the worker. -/
theorem erased_serve : erased (NullOs.serve E rand fd trans token) = serve E rand fd trans token := by
  by_cases htoken : trans.token = []
  · unfold NullOs.serve serve
    rw [if_pos htoken, if_pos htoken, erased_bind, erased_checkUserLogin]
    rfl
  · rw [serve_of_token E htoken]
    unfold NullOs.serve
    rw [if_neg htoken, erased_lift_bind, time_bind]
    refine congrArg (Prog.op (S := osSig) .time) (funext fun (now : Nat) => ?_)
    cases E.jwt.verifyToken now trans.token with
    | none => exact erased_lift_bind _ _
    | some token =>
      cases dispatch trans.data with
      | none => exact erased_lift_bind _ _
      | some x =>
        refine (erased_bind _ _).trans ?_
        rw [erased_dealCommand]
        rfl

end Erased

/-! ### Requests to the database as it is -/

/-- The tables answer every statement, the rows of each select in any order; everything else may happen. -/
def Db.serving : Protocol osSig Db where
  ok _ _ := True
  resp db o r := o.isSql = true → ∃ ord, (Db.handler ord o db).map (·.1) = some r
  next db o _ := ((Db.handler .stored o db).map (·.2)).getD db

/-- The path is found, in whatever order the rows come. -/
def Db.Finds (db : Db) (path : CStr) (u : Nat) : Prop := ∀ ord d, db.cd ord path u = some d → 0 < d

namespace Serving
variable {α : Type} {post : Db → α → Prop} {db : Db} {path : CStr} {u : Nat} {connect : Conn}

theorem wp_getConnection {k : Option Conn → Os α} :
    (getConnection.bind k).wp Db.serving post db ↔ (k (some (0 : Nat))).wp Db.serving post db := by
  constructor
  · exact fun h => h.2 _ fun _ => ⟨.stored, rfl⟩
  · intro h
    refine ⟨trivial, fun r hr => ?_⟩
    obtain ⟨ord, hr⟩ := hr rfl
    exact Option.some.inj hr ▸ h

theorem wp_selectUserFile {q : Db.UserFileQuery} {k : List UserFileT → Os α} :
    ((selectUserFile connect q).bind k).wp Db.serving post db ↔
      ∀ ord, (k (db.selectUserFile ord q)).wp Db.serving post db := by
  constructor
  · exact fun h ord => h.2 _ fun _ => ⟨ord, rfl⟩
  · intro h
    refine ⟨trivial, fun r hr => ?_⟩
    obtain ⟨ord, hr⟩ := hr rfl
    exact Option.some.inj hr ▸ h ord

theorem wp_selectFile {q : Db.FileQuery} {k : List FileT → Os α} :
    ((selectFile connect q).bind k).wp Db.serving post db ↔ ∀ ord, (k (db.selectFile ord q)).wp Db.serving post db := by
  constructor
  · exact fun h ord => h.2 _ fun _ => ⟨ord, rfl⟩
  · intro h
    refine ⟨trivial, fun r hr => ?_⟩
    obtain ⟨ord, hr⟩ := hr rfl
    exact Option.some.inj hr ▸ h ord

theorem wp_releaseConnection {k : Unit → Os α} :
    ((releaseConnection connect).bind k).wp Db.serving post db ↔ (k ()).wp Db.serving post db :=
  ⟨fun h => h.2 () fun _ => ⟨.stored, rfl⟩, fun h => ⟨trivial, fun _ _ => h⟩⟩

theorem wp_crash : (Os.crash : Os α).wp Db.serving post db ↔ True :=
  iff_true_intro ⟨trivial, fun e => nomatch (e : Empty)⟩

theorem wp_time {k : Nat → Os α} : (time.bind k).wp Db.serving post db ↔ ∀ now, (k now).wp Db.serving post db :=
  ⟨fun h now => h.2 now nofun, fun h => ⟨trivial, fun now _ => h now⟩⟩

/-- A reply leaves the tables as they are. -/
theorem wp_sendMessage {J : Jwt} {fd : Int} {msg : CStr} {flag : Bool} {info : TokenInfo} {post : Db → Unit → Prop} :
    (sendMessage J fd msg flag info).wp Db.serving post db ↔ post db () := by
  unfold sendMessage
  split
  · constructor
    · intro h
      have htime := h.2 (0 : Nat) nofun
      exact htime.2 () nofun
    · exact fun h => ⟨trivial, fun _ _ => ⟨trivial, fun _ _ => h⟩⟩
  · exact ⟨fun h => h.2 () nofun, fun h => ⟨trivial, fun _ _ => h⟩⟩

theorem wp_queryCd {post : Db → Int → Prop} :
    (queryCd path u).wp Db.serving post db ↔ ∀ ord d, db.cd ord path u = some d → post db d := by
  refine wp_getConnection.trans (wp_selectUserFile.trans (forall_congr' fun ord => ?_))
  unfold Db.cd
  cases db.selectUserFile ord (.ofUser u) with
  | nil =>
    refine wp_releaseConnection.trans ?_
    simp
  | cons file files =>
    cases spliteFileName path with
    | none => exact wp_crash.trans (by simp)
    | some names =>
      refine wp_releaseConnection.trans ?_
      simp

/-- Whether the program may return `NULL`. -/
theorem wp_queryLs {post : Db → Option (List UserFileT) → Prop} :
    (queryLs path u).wp Db.serving post db ↔ ∀ ord d, db.cd ord path u = some d →
      if d ≤ 0 then post db none else ∀ ord', post db (some (db.selectUserFile ord' (.lsOf (regOf d)))) := by
  refine (wp_bind _ _).trans (wp_queryCd.trans (forall₃_congr fun ord d _ => ?_))
  split
  · rfl
  · exact wp_getConnection.trans (wp_selectUserFile.trans (forall_congr' fun ord' => wp_releaseConnection))

theorem wp_queryLl {post : Db → Option (List FileT) → Prop} :
    (queryLl path u).wp Db.serving post db ↔ ∀ ord d, db.cd ord path u = some d →
      if d ≤ 0 then post db none else ∀ ord', post db (some (db.selectFile ord' (.llOf (regOf d)))) := by
  refine (wp_bind _ _).trans (wp_queryCd.trans (forall₃_congr fun ord d _ => ?_))
  split
  · rfl
  · exact wp_getConnection.trans (wp_selectFile.trans (forall_congr' fun ord' => wp_releaseConnection))

end Serving

open Serving

/-! ### The requests that are safe -/

/-- The argument of `ls` is a path that is found, that of `ll` a path that is found in every order of the rows
or in none, those of `puts` and of `gets` are two words. -/
def Command.Harmless (argument : CStr) (token : TokenInfo) (db : Db) : Command → Prop
  | .ls => ∀ path, getUserPath argument token = some path → db.Finds path token.userId
  | .ll => ∀ path, getUserPath argument token = some path → (∃ ord d, db.cd ord path token.userId = some d ∧ 0 < d) →
    db.Finds path token.userId
  | .puts | .gets => ' ' ∈ argument
  | _ => True

/-- A frame without a token has two words; one with a valid token asks for something harmless, or for nothing. -/
def NullFree (E : Env) (frame : TransFile) (db : Db) : Prop :=
  (frame.token = [] → ' ' ∈ removeSpace frame.data) ∧
  (frame.token ≠ [] → ∀ now token, E.jwt.verifyToken now frame.token = some token →
    ∀ command argument, dispatch frame.data = some (command, argument) → command.Harmless argument token db)

section Safe
variable {J : Jwt} {C : Crypt} {cwd rand argument strerror : CStr} {fd : Int} {token : TokenInfo} {E : Env} {trans : TransFile}
  {db : Db}

theorem spliteArgument_eq_none {s : CStr} : spliteArgument s = none ↔ ' ' ∉ s := by
  refine ⟨fun h hs => ?_, spliteArgument_none⟩
  obtain ⟨a, b, rfl, ha⟩ := List.eq_append_cons_of_mem hs
  rw [spliteArgument_space ha] at h
  nomatch h

theorem safe_lift_serving {α : Type} (p : Os α) : p.lift.Safe Db.serving db := safe_lift (fun _ _ => trivial) p

/-- A handler that splits a text first. -/
theorem safe_splite {α : Type} {s : CStr} {p : Os α} :
    (match spliteArgument s with
      | none => NullOs.null
      | some _ => p.lift : NullOs α).Safe Db.serving db ↔ ' ' ∈ s := by
  by_cases hs : ' ' ∈ s
  · obtain ⟨x, hx⟩ := Option.ne_none_iff_exists'.1 (fun h => spliteArgument_eq_none.1 h hs)
    rw [hx]
    exact iff_of_true (safe_lift_serving p) hs
  · rw [spliteArgument_none hs]
    exact iff_of_false not_safe_fault hs

/-- `query_ls`, and then something that needs its rows. -/
theorem safe_queryLs {α : Type} {path : CStr} {u : Nat} {k : Option (List UserFileT) → NullOs α}
    (hnone : ¬ (k none).Safe Db.serving db) (hsome : ∀ rows, (k (some rows)).Safe Db.serving db) :
    ((queryLs path u).lift.bind k).Safe Db.serving db ↔ db.Finds path u := by
  refine (safe_lift_bind _ _).trans (wp_queryLs.trans (forall₃_congr fun ord d _ => ?_))
  split
  · next hd => exact iff_of_false hnone (by omega)
  · next hd => exact iff_of_true (fun _ => hsome _) (by omega)

theorem safe_showDir : (NullOs.showDir J fd argument token).Safe Db.serving db ↔
    ∀ path, getUserPath argument token = some path → db.Finds path token.userId := by
  unfold NullOs.showDir
  cases getUserPath argument token with
  | none => exact iff_of_true (safe_lift_serving _) nofun
  | some path =>
    simp only [Option.some.injEq, forall_eq']
    exact safe_queryLs not_safe_fault fun _ => safe_lift_serving _

/-- `query_ls` comes after `query_ll` has found the path. -/
theorem safe_showDirDetail : (NullOs.showDirDetail J cwd fd argument token).Safe Db.serving db ↔
    ∀ path, getUserPath argument token = some path → (∃ ord d, db.cd ord path token.userId = some d ∧ 0 < d) →
      db.Finds path token.userId := by
  unfold NullOs.showDirDetail
  cases getUserPath argument token with
  | none => exact iff_of_true (safe_lift_serving _) nofun
  | some path =>
    simp only [Option.some.injEq, forall_eq', forall_exists_index, and_imp]
    refine (safe_lift_bind _ _).trans (wp_queryLl.trans (forall₃_congr fun ord d _ => ?_))
    split
    · next hd => exact iff_of_true (safe_lift_serving _) fun h => absurd hd (Int.not_le.2 h)
    · next hd =>
      have hnone : ¬ ((sendMessage J fd (utf8 "系统繁忙，请稍候重试") false token).lift.bind fun _ =>
          (NullOs.null : NullOs Int)).Safe Db.serving db :=
        fun h => not_safe_fault (wp_sendMessage.1 ((safe_lift_bind _ _).1 h))
      refine (forall_congr' fun ord' => safe_queryLs hnone fun _ => safe_lift_serving _).trans ?_
      exact ⟨fun h _ => h .stored, fun h _ => h (by omega)⟩

theorem safe_dealCommand (command : Command) :
    (NullOs.dealCommand E command fd argument token).Safe Db.serving db ↔ command.Harmless argument token db := by
  cases command with
  | ls => exact (safe_bind_pure _ _).trans safe_showDir
  | ll => exact (safe_bind_pure _ _).trans safe_showDirDetail
  | puts => exact (safe_bind_pure _ _).trans safe_splite
  | gets => exact (safe_bind_pure _ _).trans safe_splite
  | cd | pwd | mkdir | rm => exact iff_true_intro (safe_lift_serving _)

end Safe

/-- Exactly the requests that are `NullFree` are served without an access through `NULL`. -/
theorem safe_serve_iff (E : Env) (rand : CStr) (netFd : Int) (frame : TransFile) (token : TokenInfo) (db : Db) :
    (NullOs.serve E rand netFd frame token).Safe Db.serving db ↔ NullFree E frame db := by
  unfold NullOs.serve NullFree
  by_cases htoken : frame.token = []
  · simp only [htoken, if_true, true_imp_iff, ne_eq, not_true_eq_false, false_imp_iff, and_true]
    exact (safe_bind_pure _ _).trans safe_splite
  · simp only [htoken, if_false, false_imp_iff, true_and, ne_eq, not_false_eq_true, true_imp_iff]
    refine (safe_lift_bind _ _).trans (wp_time.trans (forall_congr' fun now => ?_))
    show Prog.Safe Db.serving db (match E.jwt.verifyToken now frame.token with | none => _ | some token => _) ↔ _
    cases E.jwt.verifyToken now frame.token with
    | none => exact iff_of_true ((safe_lift_bind _ _).2 (wp_of_ok (fun _ _ => trivial) _)) nofun
    | some token =>
      simp only [Option.some.injEq, forall_eq']
      cases dispatch frame.data with
      | none => exact iff_of_true ((safe_lift_bind _ _).2 (wp_of_ok (fun _ _ => trivial) _)) nofun
      | some x =>
        obtain ⟨command, argument⟩ := x
        refine (safe_bind_pure _ _).trans ((safe_dealCommand command).trans ?_)
        simp only [Option.some.injEq, Prod.mk.injEq, and_imp, forall_apply_eq_imp_iff, forall_eq']

/-- A login without a password. -/
theorem null_login : ¬ ∀ E rand netFd frame token db, Runs.Reaches (Db.Step E.crypt) {} db →
    (NullOs.serve E rand netFd frame token).Safe Db.serving db := by
  intro h
  exact (h .plain [] 5 { data := "x".toList, commandNo := 1 } {} {} .refl).1

end Netdisk

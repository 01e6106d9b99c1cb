import Netdisk.Db.Sequential
import Netdisk.Replies

/-!
# Which descriptors a worker hands back

`thread` looks at `command_no` to decide whether the descriptor goes back to the main loop, and
`connect_with_client` at the text to decide what is done with it. `handsBackOpen_iff`: what goes back is
open exactly when the number is that of a long command, or the text is no `gets` and begins no upload.
-/

namespace Netdisk
open Os

/-! ### Closing -/

/-- Whether an upload has begun, and whether the connection has been closed. -/
structure Closing where
  begun : Bool := false
  closed : Bool := false

/-- Every call is allowed. -/
def closingProtocol (fd : Int) : Prog.Protocol osSig Closing where
  ok _ _ := True
  resp _ _ _ := True
  next l (o : Op) r :=
    match o, r with
    | .openFile _ true, (file : Int) => { l with begun := l.begun || decide (0 ≤ file) }
    | .close fd', _ => { l with closed := l.closed || decide (fd' = fd) }
    | _, _ => l

section Closing
variable {α β : Type} {J : Jwt} {cwd strerror argument : CStr} {fd : Int} {token : TokenInfo} {l m : Closing}

theorem closingProtocol_log {log : Log} (h : (closingProtocol fd).Accepts l log m) :
    m.begun = (l.begun || log.begun) ∧ m.closed = (l.closed || log.closed fd) := by
  induction log generalizing l with
  | nil =>
    obtain rfl : l = m := h
    simp [Log.begun, Log.closed]
  | cons e log ih =>
    obtain ⟨o, r⟩ := e
    obtain ⟨hb, hc⟩ := ih h.2
    rw [hb, hc]
    cases o with
    | openFile path creat => cases creat <;> simp [closingProtocol, Log.begun, Log.closed, Bool.or_assoc]
    | close fd' => simp [closingProtocol, Log.begun, Log.closed, Bool.or_assoc]
    | _ => simp [closingProtocol, Log.begun, Log.closed]

/-- Neither opens a file nor closes anything. -/
def Op.isSettled : Op → Bool
  | .openFile .. | .close _ => false
  | _ => true

abbrev Settled (p : Os α) : Prop := Prog.Only (S := osSig) (fun o : Op => o.isSettled = true) p

theorem Settled.stays {p : Os α} (h : Settled p) : p.wp (closingProtocol fd) (fun l' _ => l' = l) l :=
  h.wp fun (o : Op) ho => by
    cases o <;> first | exact ⟨trivial, fun _ => rfl⟩ | cases ho

theorem settled_bind {p : Os β} {f : β → Os α} {post : Closing → α → Prop} (h : Settled p)
    (hf : ∀ b, (f b).wp (closingProtocol fd) post l) : (p.bind f).wp (closingProtocol fd) post l := by
  refine h.stays.bind fun l' b hl => ?_
  rw [hl]
  exact hf b

theorem sql_settled {p : Os α} (h : SqlOnly p) : Settled p := h.mono fun (o : Op) ho => by
  cases o <;> first | rfl | exact absurd ho (by simp [Op.isSql])

theorem recvLoop_settled {file fileSize : Int} {fuel : Nat} {offset : Int} : Settled (recvLoop fd file fileSize fuel offset) :=
  (recvLoop_only ..).mono fun (o : Op) ho => by
    cases o <;> first | rfl | cases ho

theorem sendMessage_settled {msg : CStr} {flag : Bool} : Settled (sendMessage J fd msg flag token) := by
  unfold sendMessage
  split
  · exact ⟨rfl, fun _ => ⟨rfl, fun _ => trivial⟩⟩
  · exact ⟨rfl, fun _ => trivial⟩

theorem Answering.settled {T : TokenInfo → Prop} {p : Os α} (h : Answering J fd T p) : Settled p := by
  induction h with
  | crash => exact ⟨rfl, fun e => nomatch (e : Empty)⟩
  | query hquery _ ih => exact (sql_settled hquery.sql).bind ih
  | stat _ ih => exact ⟨rfl, ih⟩
  | more _ _ ih => exact sendMessage_settled.bind fun _ => ih
  | last a _ => exact sendMessage_settled.bind fun _ => trivial
  | lost _ => exact sendMessage_settled.bind fun _ => ⟨rfl, fun e => nomatch (e : Empty)⟩

theorem crash_closing {post : Closing → α → Prop} : (crash : Os α).wp (closingProtocol fd) post l :=
  ⟨trivial, fun e => nomatch (e : Empty)⟩

/-- The connection is closed if the upload begins. -/
abbrev ClosesBegun (fd : Int) (p : Os α) : Prop := p.wp (closingProtocol fd) (fun l _ => l.closed = l.begun) {}

/-- The connection is closed in any case. -/
abbrev Closes (fd : Int) (p : Os α) : Prop := p.wp (closingProtocol fd) (fun l _ => l.closed = true) {}

theorem recvFileData_closing {header : TransFile} : ClosesBegun fd (recvFileData J cwd fd header token strerror) := by
  refine ⟨trivial, fun (file : Int) _ => ?_⟩
  show Prog.wp _ _ (if file < 0 then _ else _) ({ begun := decide (0 ≤ file) } : Closing)
  split
  · next hfile =>
    refine settled_bind sendMessage_settled fun _ => ?_
    show false = decide (0 ≤ file)
    exact (decide_eq_false (by omega)).symm
  · next hfile =>
    rw [decide_eq_true (Int.not_lt.1 hfile)]
    refine ⟨trivial, fun size _ => ⟨trivial, fun _ _ => ⟨trivial, fun _ _ => ?_⟩⟩⟩
    show Prog.wp _ _ ((recvLoop _ _ _ _ _).bind _) ({ begun := true } : Closing)
    refine settled_bind recvLoop_settled fun (offset : Int) => ⟨trivial, fun _ _ => ⟨trivial, fun _ _ => ⟨trivial, fun _ _ => ?_⟩⟩⟩
    have hclosed : (closingProtocol fd).next ((closingProtocol fd).next { begun := true } (Op.close fd) ()) (Op.close file) () =
        { begun := true, closed := true } := by
      simp [closingProtocol]
    show Prog.wp _ _ (if offset = intOf header.dataLength then _ else _) _
    split
    · refine settled_bind (sql_settled queryUpdate_only.sql) fun _ => ?_
      exact hclosed ▸ rfl
    · exact hclosed ▸ rfl

theorem recvFile_closing : ClosesBegun fd (recvFile J cwd fd argument token strerror) := by
  refine recvFile_cases crash_closing fun userPath fileName f hf => ⟨trivial, fun (header : TransFile) _ => ?_⟩
  show Prog.wp _ _ ((queryPuts ..).bind _) _
  refine settled_bind (sql_settled queryPuts_only.sql) fun ret => ?_
  obtain ⟨msg, heq⟩ | heq := hf header ret <;> rw [heq]
  · exact settled_bind sendMessage_settled fun _ => rfl
  · exact recvFileData_closing

theorem sendFile_closing : Closes fd (sendFile J cwd fd argument token) := by
  refine sendFile_cases crash_closing fun path name f hf => settled_bind (sql_settled queryGets_only.sql) fun x => ?_
  have hclose : Closes fd ((close fd).bind fun _ => .pure (0 : Int)) := ⟨trivial, fun _ _ => by simp [closingProtocol]⟩
  obtain ⟨msg, heq⟩ | ⟨hash, heq⟩ := hf x <;> rw [heq]
  · exact settled_bind sendMessage_settled fun _ => hclose
  · refine ⟨trivial, fun (file : Int) _ => ?_⟩
    have hrest : Closes fd (sendOpened fd file) :=
      ⟨trivial, fun _ _ => ⟨trivial, fun _ _ => ⟨trivial, fun _ _ => ⟨trivial, fun _ _ => ⟨trivial, fun _ _ => hclose⟩⟩⟩⟩⟩
    show Closes fd (if file ≤ 0 then _ else _)
    split
    · exact settled_bind sendMessage_settled fun _ => hrest
    · exact hrest

end Closing

/-! ### The worker -/

/-- The token is valid, and the text is a `gets`, or a `puts` whose upload begins. -/
def Transfers (E : Env) (trans : TransFile) (log : Log) : Prop :=
  (∃ now info, log.times.head? = some now ∧ E.jwt.verifyToken now trans.token = some info) ∧
    ∃ command argument, dispatch trans.data = some (command, argument) ∧ (command = .gets ∨ command = .puts ∧ log.begun = true)

section Worker
variable {E : Env} {rand : CStr} {netFd : Int} {trans : TransFile} {token token' : TokenInfo} {log : Log}

theorem checkUserLogin_settled : Settled (checkUserLogin E.jwt E.crypt rand netFd trans token) := by
  unfold checkUserLogin
  have hreply {msg : CStr} {flag : Bool} {info : TokenInfo} {x : Int × TokenInfo} :
      Settled ((sendMessage E.jwt netFd msg flag info).bind fun _ => .pure x) := sendMessage_settled.bind fun _ => trivial
  cases loginWords trans.data with
  | none => exact ⟨rfl, fun e => nomatch (e : Empty)⟩
  | some x =>
    dsimp only
    split
    · refine (sql_settled (userRegister_sql ..)).bind fun ret => ?_
      split
      · split
        · exact hreply
        split
        · exact hreply
        · trivial
      · exact hreply
    split
    · refine (sql_settled getUser_only.sql).bind fun users => ?_
      match users with
      | none => exact hreply
      | some [] => exact ⟨rfl, fun e => nomatch (e : Empty)⟩
      | some (user :: _) =>
        dsimp only
        split <;> exact hreply
    · trivial

theorem dealCommand_closing {command : Command} {argument : CStr} :
    (dealCommand E command netFd argument token).wp (closingProtocol netFd)
      (fun l _ => l.closed = true ↔ command = .gets ∨ command = .puts ∧ l.begun = true) {} := by
  by_cases hputs : command = .puts
  · subst hputs
    show Prog.wp _ _ ((recvFile ..).bind _) _
    refine recvFile_closing.bind fun l _ hl => ?_
    show l.closed = true ↔ _
    rw [hl]
    simp
  by_cases hgets : command = .gets
  · subst hgets
    show Prog.wp _ _ ((sendFile ..).bind _) _
    refine sendFile_closing.bind fun l _ hl => ?_
    show l.closed = true ↔ _
    rw [hl]
    simp
  · have hanswering : Answering E.jwt netFd (fun _ => True) (dealCommand E command netFd argument token) :=
      dealCommand_answering hputs hgets trivial fun _ _ => trivial
    refine hanswering.settled.stays.mono fun l _ hl => ?_
    rw [hl]
    simp [hputs, hgets]

theorem Settled.closed_eq_false {α : Type} {p : Os α} {a : α} (h : Settled p) (hd : p.Does log a) (fd : Int) :
    log.closed fd = false := by
  have hstay : p.wp (closingProtocol fd) (fun l' _ => l' = {}) {} := h.stays
  obtain ⟨m, hacc, rfl⟩ := hstay.accepts (fun _ _ _ => trivial) hd
  exact ((closingProtocol_log hacc).2.trans (Bool.false_or _)).symm

/-- When a worker closes the connection of its task. -/
theorem closed_iff_transfers (h : (serve E rand netFd trans token).Does log token') :
    log.closed netFd = true ↔ Transfers E trans log := by
  by_cases htoken : trans.token = []
  · unfold serve at h
    rw [if_pos htoken] at h
    have hsettled : Settled ((checkUserLogin E.jwt E.crypt rand netFd trans token).bind fun x => .pure x.2) :=
      checkUserLogin_settled.bind fun _ => trivial
    refine iff_of_false (by simp [hsettled.closed_eq_false h netFd]) ?_
    rintro ⟨⟨now, info, -, hinfo⟩, -⟩
    obtain ⟨made, hmade⟩ := E.jwt.decode_made hinfo
    exact E.jwt.encode_ne_nil hmade htoken
  · rw [serve_of_token E htoken] at h
    obtain ⟨(now : Nat), rest, rfl, hrest⟩ := Prog.does_op.1 h
    have hclosed : Log.closed netFd (⟨.time, now⟩ :: rest) = Log.closed netFd rest := rfl
    have hbegun : Log.begun (⟨.time, now⟩ :: rest) = Log.begun rest := rfl
    rw [hclosed, Transfers, hbegun]
    have hreply {msg : CStr} {info : TokenInfo} : Settled ((sendMessage E.jwt netFd msg false info).bind fun _ => .pure info) :=
      sendMessage_settled.bind fun _ => trivial
    cases hverify : E.jwt.verifyToken now trans.token with
    | none =>
      rw [hverify] at hrest
      refine iff_of_false (by simp [hreply.closed_eq_false hrest netFd]) ?_
      rintro ⟨⟨now', info, hnow, hinfo⟩, -⟩
      obtain rfl : now = now' := Option.some.inj hnow
      rw [hverify] at hinfo
      cases hinfo
    | some info =>
      rw [hverify] at hrest
      dsimp only at hrest
      have hvalid : ∃ now' info', (Log.times (⟨.time, now⟩ :: rest)).head? = some now' ∧
          E.jwt.verifyToken now' trans.token = some info' := ⟨now, info, rfl, hverify⟩
      cases hdispatch : dispatch trans.data with
      | none =>
        rw [hdispatch] at hrest
        refine iff_of_false (by simp [hreply.closed_eq_false hrest netFd]) ?_
        rintro ⟨-, command, argument, ⟨⟩, -⟩
      | some x =>
        obtain ⟨command, argument⟩ := x
        rw [hdispatch] at hrest
        obtain ⟨y, l₁, l₂, rfl, hdeal, hpure⟩ := Prog.does_bind.1 hrest
        obtain ⟨rfl, -⟩ := Prog.does_pure.1 hpure
        obtain ⟨m, hacc, hm⟩ := dealCommand_closing.accepts (fun _ _ _ => trivial) hdeal
        obtain ⟨hb, hc⟩ := closingProtocol_log hacc
        rw [hb, hc, Bool.false_or, Bool.false_or] at hm
        rw [List.append_nil] at hvalid ⊢
        rw [and_iff_right hvalid, hm]
        simp

/-- A descriptor that goes back is open exactly when the number is that of a long command, or nothing is
transferred. -/
theorem handsBackOpen_iff (h : (serve E rand netFd trans token).Does log token') :
    (handsBack trans = true → log.closed netFd = false) ↔ trans.isLong = true ∨ ¬ Transfers E trans log := by
  rw [← closed_iff_transfers h, handsBack, Bool.not_eq_true]
  cases trans.isLong <;> simp

end Worker

/-! ### A `gets` under the number of `cd` -/

/-- The database answers the statements of the transcript one after the other. -/
def Db.Answers (ord : RowOrder) : Db → Log → Db → Prop
  | db, [], db' => db = db'
  | db, ⟨o, r⟩ :: log, db' =>
    if (o : Op).isSql then ∃ db₁, handler ord o db = some (r, db₁) ∧ Answers ord db₁ log db' else Answers ord db log db'

def getsFrame : TransFile := { data := "gets f g".toList, dataLength := 8, commandNo := 0, token := "0.1./a".toList }

/-- The file is not there: the handler says so and closes. -/
def getsLog : Log :=
  let reply : TransFile :=
    { data := utf8 "不合法的路径或文件不存在", dataLength := (utf8 "不合法的路径或文件不存在").length, token := "0.1./a".toList }
  [⟨.time, (1 : Nat)⟩, ⟨.getConnection, (some 0 : Option Conn)⟩,
    ⟨.selectUserFile 0 (.ofUser 1), ([⟨1, ['a'], 1, 1, 0⟩] : List UserFileT)⟩, ⟨.releaseConnection 0, ()⟩,
    ⟨.getConnection, (some 0 : Option Conn)⟩, ⟨.selectFile 0 (.linked 1 1 ['f']), ([] : List FileT)⟩,
    ⟨.releaseConnection 0, ()⟩, ⟨.time, (1 : Nat)⟩, ⟨.send 4 reply, ()⟩, ⟨.close 4, ()⟩]

/-- One registered user. -/
def Db.registered : Db where
  user := [⟨1, ['a'], ['p']⟩]
  file := [{ id := 1, type := .dir, complete := true }]
  userFile := [⟨1, ['a'], 1, 1, none⟩]
  nextUser := 2
  nextFile := 2
  nextUserFile := 2

theorem getsLog_does : (serve .plain [] 4 getsFrame {}).Does getsLog { userId := 1, workpath := "/a".toList } :=
  .of_replay (by decide +kernel)

theorem handsBackOpen_iff_gets :
    (handsBack getsFrame = true → Log.closed 4 getsLog = false) ↔ getsFrame.isLong = true ∨ ¬ Transfers .plain getsFrame getsLog :=
  handsBackOpen_iff getsLog_does

/-- The worker closes the connection of this frame and hands it back. -/
theorem closed_handed_back : ¬ ∀ (E : Env) (rand : CStr) (netFd : Int) (trans : TransFile) (token token' info : TokenInfo) (log : Log)
    (ord : RowOrder) (db db' : Db) (now : Nat), log.times.head? = some now → E.jwt.verifyToken now trans.token = some info →
    db.Answers ord log db' → (serve E rand netFd trans token).Does log token' → handsBack trans = true →
    log.closed netFd = false := by
  intro h
  have hdb : Db.registered.Answers .stored getsLog .registered :=
    ⟨_, rfl, _, rfl, _, rfl, _, rfl, _, rfl, _, rfl, rfl⟩
  have hopen := h .plain [] 4 getsFrame {} _ { userId := 1, workpath := "/a".toList } getsLog .stored _ _ 1 rfl (by decide +kernel) hdb
    getsLog_does rfl
  cases hopen

end Netdisk

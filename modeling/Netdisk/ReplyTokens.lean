import Netdisk.Lib.Runs
import Netdisk.Replies

/-!
# Whose token a reply carries

`token_info token` of a worker outlives the request: a request whose token is refused is answered with
what the request before it left there. `ownTokens_iff_fresh`: the replies of a run carry tokens of
their own requests exactly when no refused request finds a user in the variable, and the ids of new
users survive the `int` they pass through.
-/

namespace Netdisk
open Os Runs

/-! ### What a worker does for a request -/

/-- One turn of the loop of `thread`: what the worker is called with, and all it does for it. -/
structure Turn where
  rand : CStr
  netFd : Int
  trans : TransFile
  log : Log

/-- The program does this and returns, or the process ends. -/
abbrev Traces {α : Type} (p : Os α) (log : Log) (res : Option α) : Prop :=
  Prog.Traces (S := osSig) (fun o : Op => o = .crash) p log res

/-- The worker comes to the end of the task, or the process ends in it. -/
def TurnStep (E : Env) (token : Option TokenInfo) (i : Turn) (token' : Option TokenInfo) : Prop :=
  ∃ t, token = some t ∧ Traces (serve E i.rand i.netFd i.trans t) i.log token'

/-- The request shows that it comes from the user. -/
inductive Authenticates (E : Env) (i : Turn) (id : Nat) : Prop
  | verified {now : Nat} {info : TokenInfo} : i.log.times.head? = some now →
    E.jwt.verifyToken now i.trans.token = some info → info.userId = id → Authenticates E i id
  | registered : i.trans.token = [] → i.trans.commandNo = 0 → id ∈ i.log.registered → Authenticates E i id
  | loggedIn {userName userPwd : CStr} {user : User} {users : List User} : i.trans.token = [] → i.trans.commandNo = 1 →
    spliteArgument (removeSpace i.trans.data) = some (userName, userPwd) → user :: users ∈ i.log.lookedUp →
    matchPassword E.crypt userPwd user.password = true → user.id = id → Authenticates E i id

/-- `recv_file` sends the header of the upload back, without `send_message`. -/
def EchoOf (header train : TransFile) : Prop := train = { header with flag := true, dataLength := train.dataLength }

/-- The token of every message is empty or made for a user that the request comes from. -/
def OwnTokens (E : Env) (i : Turn) : Prop :=
  ∀ train ∈ i.log.sent, (∃ header ∈ i.log.received, EchoOf header train) ∨ train.token = [] ∨
    ∃ id, Authenticates E i id ∧ E.jwt.Encodes train.token id

/-- A request whose token is refused finds no user in the variable, and a new user's id is the `int`
that it becomes, or is none; or else no token can be made. -/
structure Fresh (E : Env) (token : Option TokenInfo) (i : Turn) : Prop where
  refused : ∀ t now now' rest, token = some t → i.trans.token ≠ [] → i.log.times = now :: now' :: rest →
    E.jwt.verifyToken now i.trans.token = none → t.userId = 0 ∨ E.jwt.generateToken now' t = none
  inserted : ∀ id ∈ i.log.registered, ∀ now ∈ i.log.times, i.trans.token = [] → 0 < intOf id → intOf id = id ∨
    E.jwt.generateToken now { userId := ulongOf (intOf id), workpath := '/' :: account i.trans } = none

/-! ### Transcripts -/

section Transcripts
variable {J : Jwt} {fd : Int} {log : Log}

/-- The calls of the database send nothing, receive nothing and do not look at the clock. -/
theorem Log.of_sql (h : ∀ e ∈ log, (e.op : Op).isSql = true ∨ (e.op : Op) = .crash) :
    log.sent = [] ∧ log.received = [] ∧ log.times = [] := by
  induction log with
  | nil => exact ⟨rfl, rfl, rfl⟩
  | cons e log ih =>
    obtain ⟨he, hlog⟩ := List.forall_mem_cons.1 h
    obtain ⟨o, r⟩ := e
    have ho : (o : Op).isSql = true ∨ (o : Op) = .crash := he
    cases o <;> first | exact ih hlog | exact absurd ho (by simp [Op.isSql])

theorem traces_crash {α : Type} {res : Option α} (h : Traces (crash : Os α) log res) : log = [] := by
  cases res with
  | some a =>
    obtain _ | ⟨r, -⟩ := h
    exact nomatch (r : Empty)
  | none =>
    obtain _ | ⟨r, -⟩ := h
    · rfl
    · exact nomatch (r : Empty)

theorem sendMessage_traces {α : Type} {msg : CStr} {flag : Bool} {info : TokenInfo} {f : Unit → Os α} {res : Option α}
    (h : Traces ((sendMessage J fd msg flag info).bind f) log res) :
    (info.userId = 0 ∧ ∃ rest, log = ⟨.send fd { data := msg, dataLength := msg.length, flag }, ()⟩ :: rest ∧ Traces (f ()) rest res) ∨
      info.userId ≠ 0 ∧ ∃ (now : Nat) (rest : Log), log = ⟨.time, now⟩ ::
        ⟨.send fd { data := msg, dataLength := msg.length, flag, token := (J.generateToken now info).getD [] }, ()⟩ :: rest ∧
          Traces (f ()) rest res := by
  unfold sendMessage at h
  split at h
  · next hid =>
    obtain ⟨now, _, rfl, h₁⟩ := Prog.traces_op nofun h
    obtain ⟨_, rest, rfl, h₂⟩ := Prog.traces_op nofun h₁
    exact .inr ⟨hid, now, rest, rfl, h₂⟩
  · next hid =>
    obtain ⟨_, rest, rfl, h₁⟩ := Prog.traces_op nofun h
    exact .inl ⟨not_not.1 hid, rest, rfl, h₁⟩

end Transcripts

/-! ### Messages for one user -/

/-- A frame is the answer to a header received before, or carries no token, or one for the user. -/
def MessageFor (J : Jwt) (u : Nat) (received : List TransFile) (train : TransFile) : Prop :=
  (∃ header ∈ received, EchoOf header train) ∨ train.token = [] ∨ J.Encodes train.token u

/-- The local state is what has been received. -/
def messageProtocol (J : Jwt) (u : Nat) : Prog.Protocol osSig (List TransFile) where
  ok received (o : Op) :=
    match o with
    | .send _ train => MessageFor J u received train
    | _ => True
  resp _ _ _ := True
  next received (o : Op) r :=
    match o, r with
    | .recv _, train => train :: received
    | _, _ => received

section Messages
variable {α β : Type} {J : Jwt} {u : Nat} {fd : Int} {cwd strerror argument : CStr} {token : TokenInfo} {received received' : List TransFile}

theorem messageProtocol_log {log : Log} (h : (messageProtocol J u).Accepts received log received') :
    ∀ train ∈ log.sent, MessageFor J u (Log.received log ++ received) train := by
  induction log generalizing received with
  | nil => nofun
  | cons e log ih =>
    obtain ⟨o, r⟩ := e
    obtain ⟨hok, hlog⟩ := h
    have hrest := ih hlog
    cases o with
    | send fd' train =>
      refine List.forall_mem_cons.2 ⟨?_, hrest⟩
      refine hok.imp_left fun ⟨header, hmem, hecho⟩ => ⟨header, List.mem_append_right _ hmem, hecho⟩
    | recv fd' =>
      intro train htrain
      refine (hrest train htrain).imp_left fun ⟨header, hmem, hecho⟩ => ⟨header, ?_, hecho⟩
      have hmem : header ∈ Log.received log ++ r :: received := hmem
      show header ∈ (r :: Log.received log) ++ received
      simpa [or_assoc, or_comm, or_left_comm] using hmem
    | _ => exact hrest

/-- Nothing is sent or received with a frame. -/
abbrev Mute (p : Os α) : Prop := Prog.Only (S := osSig) (fun o : Op => o.isSql = true ∨ o.isReceive = true ∨ o = .crash) p

theorem Mute.stays {p : Os α} (h : Mute p) : p.wp (messageProtocol J u) (fun l _ => l = received) received :=
  h.wp fun (o : Op) ho => by
    cases o <;> first | exact ⟨trivial, fun _ => rfl⟩ | exact absurd ho (by simp [Op.isSql, Op.isReceive])

theorem mute_bind {p : Os β} {f : β → Os α} {post : List TransFile → α → Prop} (h : Mute p)
    (hf : ∀ b, (f b).wp (messageProtocol J u) post received) : (p.bind f).wp (messageProtocol J u) post received := by
  refine h.stays.bind fun l b hl => ?_
  rw [hl]
  exact hf b

theorem sql_mute {p : Os α} (h : SqlOnly p) : Mute p := h.mono fun (_ : Op) ho => ho.imp_right .inr

theorem generateToken_encodes {now : Nat} (htoken : token.userId = u) :
    (J.generateToken now token).getD [] = [] ∨ J.Encodes ((J.generateToken now token).getD []) u := by
  cases hgen : J.generateToken now token with
  | none => exact .inl rfl
  | some made => exact .inr ⟨now, token, (Option.filter_eq_some_iff.1 hgen).1, htoken⟩

theorem sendMessage_message {msg : CStr} {flag : Bool} {f : Unit → Os α} {post : List TransFile → α → Prop}
    (htoken : token.userId = u) (hf : (f ()).wp (messageProtocol J u) post received) :
    ((sendMessage J fd msg flag token).bind f).wp (messageProtocol J u) post received := by
  unfold sendMessage
  split
  · exact ⟨trivial, fun now _ => ⟨.inr (generateToken_encodes htoken), fun _ _ => hf⟩⟩
  · exact ⟨.inr (.inl rfl), fun _ _ => hf⟩

/-- The program sends messages for the user only. -/
abbrev Messages (J : Jwt) (u : Nat) (received : List TransFile) (p : Os α) : Prop :=
  p.wp (messageProtocol J u) (fun _ _ => True) received

theorem crash_messages : Messages J u received (crash : Os α) := ⟨trivial, fun e => nomatch (e : Empty)⟩

theorem Answering.messages {p : Os α} (h : Answering J fd (fun info => info.userId = u) p) : Messages J u received p := by
  induction h with
  | crash => exact crash_messages
  | query hquery _ ih => exact mute_bind (sql_mute hquery.sql) ih
  | stat _ ih => exact ⟨trivial, fun size _ => ih size⟩
  | more htoken _ ih => exact sendMessage_message htoken ih
  | last a htoken => exact sendMessage_message htoken trivial
  | lost htoken => exact sendMessage_message htoken crash_messages

theorem recvFileData_messages {header : TransFile} :
    Messages J token.userId (header :: received) (recvFileData J cwd fd header token strerror) := by
  refine ⟨trivial, fun (file : Int) _ => ?_⟩
  show Prog.wp _ _ (if file < 0 then _ else _) (header :: received)
  split
  · exact sendMessage_message rfl trivial
  · refine ⟨trivial, fun size _ => ⟨.inl ⟨header, List.mem_cons_self, rfl⟩, fun _ _ => ⟨trivial, fun _ _ => ?_⟩⟩⟩
    show Prog.wp _ _ ((recvLoop _ _ _ _ _).bind _) (header :: received)
    have hloop (fuel : Nat) (offset : Int) : Mute (recvLoop fd file (intOf header.dataLength) fuel offset) :=
      (recvLoop_only fd file _ fuel offset).mono fun (_ : Op) ho => .inr (.inl ho)
    refine mute_bind (hloop _ _) fun (offset : Int) => ⟨.inr (.inl rfl), fun _ _ => ⟨trivial, fun _ _ => ⟨trivial, fun _ _ => ?_⟩⟩⟩
    show Prog.wp _ _ (if offset = intOf header.dataLength then _ else _) (header :: received)
    split
    · exact mute_bind (sql_mute queryUpdate_only.sql) fun _ => trivial
    · trivial

theorem recvFile_messages : Messages J token.userId received (recvFile J cwd fd argument token strerror) := by
  refine recvFile_cases crash_messages fun userPath fileName f hf => ⟨trivial, fun (header : TransFile) _ => ?_⟩
  show Prog.wp _ _ ((queryPuts ..).bind _) _
  refine mute_bind (sql_mute queryPuts_only.sql) fun ret => ?_
  obtain ⟨msg, heq⟩ | heq := hf header ret <;> rw [heq]
  · exact sendMessage_message rfl trivial
  · exact recvFileData_messages

theorem sendFileData_messages {hash : CStr} : Messages J token.userId received (sendFileData J cwd fd hash token) := by
  refine ⟨trivial, fun (file : Int) _ => ?_⟩
  have hrest : Messages J token.userId received (sendOpened fd file) :=
    ⟨trivial, fun _ _ => ⟨.inr (.inl rfl), fun _ _ => ⟨trivial, fun _ _ => ⟨trivial, fun _ _ => ⟨trivial, fun _ _ =>
      ⟨trivial, fun _ _ => trivial⟩⟩⟩⟩⟩⟩
  show Prog.wp _ _ (if file ≤ 0 then _ else _) received
  split
  · exact sendMessage_message rfl hrest
  · exact hrest

theorem sendFile_messages : Messages J token.userId received (sendFile J cwd fd argument token) := by
  refine sendFile_cases crash_messages fun path name f hf => mute_bind (sql_mute queryGets_only.sql) fun x => ?_
  obtain ⟨msg, heq⟩ | ⟨hash, heq⟩ := hf x <;> rw [heq]
  · exact sendMessage_message rfl ⟨trivial, fun _ _ => trivial⟩
  · exact sendFileData_messages

theorem dealCommand_messages {E : Env} {command : Command} :
    Messages E.jwt token.userId received (dealCommand E command fd argument token) := by
  by_cases hputs : command = .puts
  · subst hputs
    show Prog.wp _ _ ((recvFile ..).bind _) _
    rw [Prog.wp_bind]
    exact recvFile_messages
  by_cases hgets : command = .gets
  · subst hgets
    show Prog.wp _ _ ((sendFile ..).bind _) _
    rw [Prog.wp_bind]
    exact sendFile_messages
  · have hanswering : Answering E.jwt fd (fun info => info.userId = token.userId) (dealCommand E command fd argument token) :=
      dealCommand_answering hputs hgets (by rfl) fun _ _ => rfl
    exact hanswering.messages

end Messages

/-! ### Registrations and logins -/

section Login
variable {E : Env} {log : Log}

theorem getUser_does {name : CStr} {res : Option (List User)} (h : (getUser name).Does log res) :
    log.registered = [] ∧ ∀ users, res = some users → users ∈ log.lookedUp := by
  unfold getUser at h
  obtain _ | ⟨connect, h⟩ := h
  cases connect with
  | none =>
    obtain ⟨⟩ := h
    exact ⟨rfl, nofun⟩
  | some connect =>
    obtain _ | ⟨rows, h⟩ := h
    change Prog.Does (if (rows : List User) = [] then _ else _) _ _ at h
    split at h
    · obtain _ | ⟨_, ⟨⟩⟩ := h
      exact ⟨rfl, nofun⟩
    · obtain _ | ⟨_, ⟨⟩⟩ := h
      exact ⟨rfl, fun users hsome => Option.some.inj hsome ▸ List.mem_cons_self⟩

theorem userRegister_does {rand account password : CStr} {ret : Int} (h : (userRegister E.crypt rand account password).Does log ret) :
    log.registered = [] ∧ ret ≤ 0 ∨ ∃ id, log.registered = [id] ∧ ret = intOf id := by
  unfold userRegister at h
  obtain _ | ⟨connect, h⟩ := h
  cases connect with
  | none =>
    obtain ⟨⟩ := h
    exact .inl ⟨rfl, by decide⟩
  | some connect =>
    obtain _ | ⟨_, h⟩ := h
    obtain _ | ⟨rows, h⟩ := h
    change Prog.Does (if (rows : List User) ≠ [] then _ else _) _ _ at h
    split at h
    · obtain _ | ⟨_, ⟨⟩⟩ := h
      exact .inl ⟨rfl, by decide⟩
    · obtain _ | ⟨id, h⟩ := h
      obtain _ | ⟨_, h⟩ := h
      obtain _ | ⟨_, h⟩ := h
      obtain _ | ⟨_, h⟩ := h
      obtain _ | ⟨_, h⟩ := h
      obtain _ | ⟨_, h⟩ := h
      obtain ⟨rfl, hret⟩ := Prog.does_pure.1 h
      exact .inr ⟨id, rfl, hret⟩

theorem Fresh.of_untimed {t : Option TokenInfo} {i : Turn} (h : i.log.times = []) : Fresh E t i where
  refused _ _ _ _ _ _ htimes := by
    rw [h] at htimes
    cases htimes
  inserted _ _ now hnow := by
    rw [h] at hnow
    cases hnow

theorem OwnTokens.of_silent {i : Turn} (h : i.log.sent = []) : OwnTokens E i := by
  intro train htrain
  rw [h] at htrain
  cases htrain

theorem Authenticates.of_no_token {i : Turn} {id : Nat} (htoken : i.trans.token = []) (h : Authenticates E i id) :
    i.trans.commandNo = 0 ∧ id ∈ i.log.registered ∨ i.trans.commandNo = 1 := by
  cases h with
  | verified _ hinfo _ =>
    obtain ⟨made, hmade⟩ := E.jwt.decode_made hinfo
    exact absurd htoken (E.jwt.encode_ne_nil hmade)
  | registered _ hno hid => exact .inl ⟨hno, hid⟩
  | loggedIn _ hno => exact .inr hno

theorem OwnTokens.of_untokened {i : Turn} (h : ∀ train ∈ i.log.sent, train.token = []) : OwnTokens E i :=
  fun train htrain => .inr (.inl (h train htrain))

theorem refusal_traces {fd : Int} {msg : CStr} {flag : Bool} {x : Int × TokenInfo} {log : Log} {res : Option (Int × TokenInfo)}
    (h : Traces ((sendMessage E.jwt fd msg flag {}).bind fun _ => .pure x) log res) :
    log.registered = [] ∧ ∀ train ∈ log.sent, train.token = [] := by
  obtain ⟨-, rest, rfl, hpure⟩ | ⟨hne, -⟩ := sendMessage_traces h
  · obtain ⟨rfl, -⟩ := Prog.traces_pure.1 hpure
    exact ⟨rfl, List.forall_mem_singleton.2 rfl⟩
  · exact absurd rfl hne

/-- One message, made for one user. -/
theorem ownTokens_iff_of_reply {i : Turn} {now : Nat} {info : TokenInfo} {reply : TransFile} (hsent : i.log.sent = [reply])
    (hreceived : i.log.received = []) (hreply : reply.token = (E.jwt.generateToken now info).getD []) :
    OwnTokens E i ↔ E.jwt.generateToken now info = none ∨ Authenticates E i info.userId := by
  rw [OwnTokens, hsent, hreceived, List.forall_mem_singleton, hreply]
  cases hgen : E.jwt.generateToken now info with
  | none => simp
  | some made =>
    have hmade := (Option.filter_eq_some_iff.1 hgen).1
    constructor
    · rintro (⟨_, hmem, -⟩ | hnil | ⟨id, hauth, now', info', hmade', rfl⟩)
      · cases hmem
      · exact absurd hnil (E.jwt.encode_ne_nil hmade)
      · obtain rfl := E.jwt.encode_inj hmade hmade'
        exact .inr hauth
    · rintro (hnone | hauth)
      · cases hnone
      · exact .inr (.inr ⟨info.userId, hauth, now, info, hmade, rfl⟩)

/-- A registration whose row got the number `id`. -/
theorem ownTokens_iff_fresh_of_inserted {i : Turn} {t : Option TokenInfo} {id now : Nat} {ret : Int} {reply : TransFile}
    (htoken : i.trans.token = []) (hno : i.trans.commandNo = 0) (hret : ret = intOf id) (hpos : 0 < ret)
    (hregistered : i.log.registered = [id]) (htimes : i.log.times = [now]) (hsent : i.log.sent = [reply])
    (hreceived : i.log.received = [])
    (hreply : reply.token = (E.jwt.generateToken now { userId := ulongOf ret, workpath := '/' :: account i.trans }).getD []) :
    OwnTokens E i ↔ Fresh E t i := by
  have hlt := intOf_lt id
  have hnat : ((ulongOf ret : Nat) : Int) = ret := by
    rw [ulongOf]
    omega
  rw [ownTokens_iff_of_reply hsent hreceived hreply]
  constructor
  · intro hown
    refine ⟨fun _ _ _ _ _ hne => absurd htoken hne, fun id' hid now' hnow _ _ => ?_⟩
    rw [hregistered, List.mem_singleton] at hid
    rw [htimes, List.mem_singleton] at hnow
    rw [hid, hnow, ← hret]
    refine hown.symm.imp_left fun hauth => ?_
    obtain ⟨-, hmem⟩ | hlogin := hauth.of_no_token htoken
    · rw [hregistered, List.mem_singleton] at hmem
      have hmem : ulongOf ret = id := hmem
      omega
    · omega
  · intro hfresh
    have hins := hfresh.inserted id (by simp [hregistered]) now (by simp [htimes]) htoken (by omega)
    rw [← hret] at hins
    refine hins.symm.imp_right fun heq => .registered htoken hno ?_
    have hid : ulongOf ret = id := by omega
    rw [hregistered, List.mem_singleton]
    exact hid

theorem ownTokens_iff_fresh_of_register {i : Turn} {t : TokenInfo} {userName userPwd : CStr} {res : Option (Int × TokenInfo)}
    (htoken : i.trans.token = []) (hno : i.trans.commandNo = 0)
    (hwords : loginWords i.trans.data = some (userName, userPwd))
    (h : Traces (checkUserLogin E.jwt E.crypt i.rand i.netFd i.trans t) i.log res) : OwnTokens E i ↔ Fresh E (some t) i := by
  obtain ⟨hsplit, -, -⟩ := loginWords_eq_some.1 hwords
  unfold checkUserLogin at h
  rw [hwords] at h
  dsimp only at h
  rw [if_pos hno] at h
  obtain ⟨-, hstop⟩ | ⟨ret, l₁, l₂, hlog, hreg, h⟩ := Prog.traces_bind.1 h
  · obtain ⟨hsent, -, htimes⟩ := Log.of_sql ((userRegister_sql ..).stops hstop)
    exact iff_of_true (.of_silent hsent) (.of_untimed htimes)
  obtain ⟨hsent, hreceived, htimes⟩ := Log.of_sql ((userRegister_sql ..).does hreg)
  have hids := userRegister_does hreg
  split at h
  · next hret =>
    have hrest : Log.registered l₂ = [] ∧ ∀ train ∈ Log.sent l₂, train.token = [] := by
      split at h
      · exact refusal_traces h
      split at h
      · exact refusal_traces h
      · obtain ⟨rfl, -⟩ := Prog.traces_pure.1 h
        exact ⟨rfl, nofun⟩
    refine iff_of_true (.of_untokened fun train htrain => hrest.2 train ?_)
      ⟨fun _ _ _ _ _ hne => absurd htoken hne, fun id hid now _ _ hpos => ?_⟩
    · rw [hlog, Log.sent_append, hsent] at htrain
      exact htrain
    · rw [hlog, Log.registered_append, hrest.1, List.append_nil] at hid
      obtain ⟨hnil, -⟩ | ⟨id', hone, hint⟩ := hids
      · rw [hnil] at hid
        cases hid
      · obtain rfl := List.mem_singleton.1 (hone ▸ hid)
        omega
  · next hret =>
    obtain ⟨-, hle⟩ | ⟨id, hone, hint⟩ := hids
    · exact absurd hle hret
    have hlt := intOf_lt id
    obtain ⟨hzero, -⟩ | ⟨-, now, rest, rfl, hpure⟩ := sendMessage_traces h
    · have hzero : ulongOf ret = 0 := hzero
      rw [ulongOf] at hzero
      omega
    obtain ⟨rfl, -⟩ := Prog.traces_pure.1 hpure
    have haccount : account i.trans = userName := by
      rw [account, parseRequest, hsplit]
      rfl
    have hregistered : i.log.registered = [id] := by
      rw [hlog, Log.registered_append, hone]
      rfl
    have htimes' : i.log.times = [now] := by
      rw [hlog, Log.times_append, htimes]
      rfl
    have hreceived' := (congrArg Log.received hlog).trans (Log.received_append.trans (congrArg (· ++ _) hreceived))
    have hsent' := (congrArg Log.sent hlog).trans (Log.sent_append.trans (congrArg (· ++ _) hsent))
    have hpos : 0 < ret := by omega
    exact ownTokens_iff_fresh_of_inserted htoken hno hint hpos hregistered htimes' hsent' hreceived' (by rw [haccount])

theorem ownTokens_iff_fresh_of_login {i : Turn} {t : TokenInfo} {userName userPwd : CStr} {res : Option (Int × TokenInfo)}
    (htoken : i.trans.token = []) (hno : i.trans.commandNo = 1)
    (hwords : loginWords i.trans.data = some (userName, userPwd))
    (h : Traces (checkUserLogin E.jwt E.crypt i.rand i.netFd i.trans t) i.log res) : OwnTokens E i ↔ Fresh E (some t) i := by
  obtain ⟨hsplit, -, -⟩ := loginWords_eq_some.1 hwords
  unfold checkUserLogin at h
  rw [hwords] at h
  dsimp only at h
  rw [if_neg (by omega), if_pos hno] at h
  obtain ⟨-, hstop⟩ | ⟨users, l₁, l₂, hlog, huser, h⟩ := Prog.traces_bind.1 h
  · obtain ⟨hsent, -, htimes⟩ := Log.of_sql (getUser_only.sql.stops hstop)
    exact iff_of_true (.of_silent hsent) (.of_untimed htimes)
  obtain ⟨hsent, hreceived, htimes⟩ := Log.of_sql (getUser_only.sql.does huser)
  obtain ⟨hregistered, hlookedUp⟩ := getUser_does huser
  have hsilent : ∀ train ∈ i.log.sent, train ∈ Log.sent l₂ := fun train htrain => by
    rw [hlog, Log.sent_append, hsent] at htrain
    exact htrain
  suffices hrest : Log.registered l₂ = [] ∧ OwnTokens E i by
    refine iff_of_true hrest.2 ⟨fun _ _ _ _ _ hne => absurd htoken hne, fun id hid => ?_⟩
    rw [hlog, Log.registered_append, hregistered, hrest.1] at hid
    cases hid
  have hrefuse {msg : CStr} (h : Traces ((sendMessage E.jwt i.netFd msg false {}).bind fun _ => .pure ((1 : Int), {})) l₂ res) :
      Log.registered l₂ = [] ∧ OwnTokens E i := by
    obtain ⟨hnone, huntokened⟩ := refusal_traces h
    exact ⟨hnone, .of_untokened fun train htrain => huntokened train (hsilent train htrain)⟩
  match users, h with
  | none, h => exact hrefuse h
  | some [], h =>
    simp only [Prog.bind_eq, crash_bind] at h
    obtain rfl := traces_crash h
    exact ⟨rfl, .of_untokened fun train htrain => nomatch hsilent train htrain⟩
  | some (user :: users), h =>
    dsimp only at h
    split at h
    · exact hrefuse h
    · next hmatch =>
      obtain ⟨-, rest, rfl, hpure⟩ | ⟨-, now, rest, rfl, hpure⟩ := sendMessage_traces h <;>
        obtain ⟨rfl, -⟩ := Prog.traces_pure.1 hpure
      · exact ⟨rfl, .of_untokened fun train htrain => List.mem_singleton.1 (hsilent train htrain) ▸ rfl⟩
      · have hsent' := (congrArg Log.sent hlog).trans (Log.sent_append.trans (congrArg (· ++ _) hsent))
        have hreceived' := (congrArg Log.received hlog).trans (Log.received_append.trans (congrArg (· ++ _) hreceived))
        refine ⟨rfl, (ownTokens_iff_of_reply hsent' hreceived' rfl).2 (.inr ?_)⟩
        have hfound : user :: users ∈ i.log.lookedUp := by
          rw [hlog, Log.lookedUp_append]
          exact List.mem_append_left _ (hlookedUp _ rfl)
        exact .loggedIn htoken hno hsplit hfound (by simpa using hmatch) rfl

theorem ownTokens_iff_fresh_of_no_token {i : Turn} {t : TokenInfo} {res : Option (Int × TokenInfo)} (htoken : i.trans.token = [])
    (h : Traces (checkUserLogin E.jwt E.crypt i.rand i.netFd i.trans t) i.log res) : OwnTokens E i ↔ Fresh E (some t) i := by
  cases hwords : loginWords i.trans.data with
  | none =>
    unfold checkUserLogin at h
    rw [hwords] at h
    have hlog := traces_crash h
    exact iff_of_true (.of_silent (by rw [hlog]; rfl)) (.of_untimed (by rw [hlog]; rfl))
  | some x =>
    by_cases hregister : i.trans.commandNo = 0
    · exact ownTokens_iff_fresh_of_register htoken hregister hwords h
    by_cases hlogin : i.trans.commandNo = 1
    · exact ownTokens_iff_fresh_of_login htoken hlogin hwords h
    · unfold checkUserLogin at h
      rw [hwords] at h
      dsimp only at h
      rw [if_neg hregister, if_neg hlogin] at h
      have hlog := (Prog.traces_pure.1 h).1
      exact iff_of_true (.of_silent (by rw [hlog]; rfl)) (.of_untimed (by rw [hlog]; rfl))

end Login

/-! ### The run of a worker -/

section Worker
variable {E : Env}

theorem ownTokens_iff_fresh_of_token {i : Turn} {t : TokenInfo} {res : Option TokenInfo} (htoken : i.trans.token ≠ [])
    (h : Traces (serve E i.rand i.netFd i.trans t) i.log res) : OwnTokens E i ↔ Fresh E (some t) i := by
  rw [serve_of_token E htoken] at h
  obtain ⟨(now : Nat), rest, hlog, h⟩ := Prog.traces_op nofun h
  have hnow : i.log.times.head? = some now := by
    rw [hlog]
    rfl
  have hinserted : ∀ id ∈ i.log.registered, ∀ now ∈ i.log.times, i.trans.token = [] → 0 < intOf id → intOf id = id ∨
      E.jwt.generateToken now { userId := ulongOf (intOf id), workpath := '/' :: account i.trans } = none :=
    fun _ _ _ _ hnil => absurd hnil htoken
  cases hverify : E.jwt.verifyToken now i.trans.token with
  | none =>
    rw [hverify] at h
    have hauth {id : Nat} : ¬ Authenticates E i id := by
      rintro (⟨hnow', hinfo, -⟩ | ⟨hnil, -⟩ | ⟨hnil, -⟩)
      · obtain rfl := Option.some.inj (hnow.symm.trans hnow')
        rw [hverify] at hinfo
        cases hinfo
      · exact htoken hnil
      · exact htoken hnil
    obtain ⟨hzero, _, rfl, hpure⟩ | ⟨hid, now', _, rfl, hpure⟩ := sendMessage_traces h <;>
      obtain ⟨rfl, -⟩ := Prog.traces_pure.1 hpure
    · refine iff_of_true (.of_untokened ?_) ⟨fun t' _ _ _ heq _ _ _ => ?_, hinserted⟩
      · rw [hlog]
        exact List.forall_mem_singleton.2 rfl
      · obtain rfl := Option.some.inj heq
        exact .inl hzero
    · have hsent := congrArg Log.sent hlog
      have hreceived := congrArg Log.received hlog
      have htimes : i.log.times = [now, now'] := congrArg Log.times hlog
      rw [ownTokens_iff_of_reply hsent hreceived rfl, or_iff_left hauth]
      constructor
      · refine fun hgen => ⟨fun t' m m' _ heq _ htimes' _ => ?_, hinserted⟩
        obtain rfl := Option.some.inj heq
        rw [htimes] at htimes'
        obtain ⟨-, rfl, -⟩ : now = m ∧ now' = m' ∧ _ := by simpa using htimes'
        exact .inr hgen
      · exact fun hfresh => (hfresh.refused t now now' [] rfl htoken htimes hverify).resolve_left hid
  | some info =>
    rw [hverify] at h
    dsimp only at h
    have hacc : ∃ received, (messageProtocol E.jwt info.userId).Accepts [] rest received := by
      cases hdispatch : dispatch i.trans.data with
      | none =>
        rw [hdispatch] at h
        have hmessages : Messages E.jwt info.userId []
            ((sendMessage E.jwt i.netFd (utf8 "无效的命令") false info).bind fun _ => .pure info) := sendMessage_message rfl trivial
        exact hmessages.accepts_traces (fun _ _ _ => trivial) h
      | some x =>
        rw [hdispatch] at h
        have hmessages : Messages E.jwt info.userId [] ((dealCommand E x.1 i.netFd x.2 info).bind fun y => .pure y.2) := by
          rw [Messages, Prog.wp_bind]
          exact dealCommand_messages
        exact hmessages.accepts_traces (fun _ _ _ => trivial) h
    obtain ⟨_, hacc⟩ := hacc
    refine iff_of_true (fun train htrain => ?_) ⟨fun _ m _ _ _ _ htimes hnone => ?_, hinserted⟩
    · rw [hlog] at htrain ⊢
      obtain ⟨header, hmem, hecho⟩ | hnil | hmade := messageProtocol_log hacc train htrain
      · rw [List.append_nil] at hmem
        exact .inl ⟨header, hmem, hecho⟩
      · exact .inr (.inl hnil)
      · exact .inr (.inr ⟨info.userId, .verified hnow hverify rfl, hmade⟩)
    · rw [htimes] at hnow
      obtain rfl := Option.some.inj hnow
      rw [hverify] at hnone
      cases hnone

theorem TurnStep.own_iff_fresh {i : Turn} {token token' : Option TokenInfo} (h : TurnStep E token i token') :
    OwnTokens E i ↔ Fresh E token i := by
  obtain ⟨t, rfl, h⟩ := h
  by_cases htoken : i.trans.token = []
  · unfold serve at h
    rw [if_pos htoken] at h
    obtain ⟨hres, hstop⟩ | ⟨x, l₁, l₂, hlog, hdoes, hpure⟩ := Prog.traces_bind.1 h
    · have hstop : Traces (checkUserLogin E.jwt E.crypt i.rand i.netFd i.trans t) i.log none := hstop
      exact ownTokens_iff_fresh_of_no_token htoken hstop
    · obtain ⟨rfl, -⟩ := Prog.traces_pure.1 hpure
      rw [List.append_nil] at hlog
      have hdoes : Traces (checkUserLogin E.jwt E.crypt i.rand i.netFd i.trans t) i.log (some x) := hlog ▸ hdoes
      exact ownTokens_iff_fresh_of_no_token htoken hdoes
  · exact ownTokens_iff_fresh_of_token htoken h

/-- Every message of every request carries a token of that request exactly when each request is fresh. -/
theorem ownTokens_iff_fresh {token : Option TokenInfo} {r : List (Turn × Option TokenInfo)} (hr : IsRun (TurnStep E) token r) :
    Meets (fun _ => OwnTokens E) token r ↔ Meets (Fresh E) token r :=
  Meets.iff (fun _ _ _ h => h.own_iff_fresh) hr

/-- User 1 asks for the working directory. -/
def pwdTurn : Turn where
  rand := []
  netFd := 4
  trans := { data := "pwd".toList, dataLength := 3, commandNo := 3, token := "0.1./a".toList }
  log := [⟨.time, (1 : Nat)⟩, ⟨.time, (1 : Nat)⟩,
    ⟨.send 4 { data := "/a".toList, dataLength := 2, token := "0.1./a".toList }, ()⟩]

/-- User 2 does. -/
def secondTurn : Turn where
  rand := []
  netFd := 5
  trans := { data := "pwd".toList, dataLength := 3, commandNo := 3, token := "0.11./b".toList }
  log := [⟨.time, (1 : Nat)⟩, ⟨.time, (1 : Nat)⟩,
    ⟨.send 5 { data := "/b".toList, dataLength := 2, token := "0.11./b".toList }, ()⟩]

theorem pwdTurn_step : TurnStep .plain (some {}) pwdTurn (some { userId := 1, workpath := "/a".toList }) :=
  ⟨_, rfl, Prog.Does.of_replay (by decide +kernel)⟩

theorem secondTurn_step : TurnStep .plain (some { userId := 1, workpath := "/a".toList }) secondTurn
    (some { userId := 2, workpath := "/b".toList }) :=
  ⟨_, rfl, Prog.Does.of_replay (by decide +kernel)⟩

theorem fresh_of_verified {E : Env} {token : Option TokenInfo} {i : Turn} {info : TokenInfo} (htoken : i.trans.token ≠ [])
    (h : ∀ now ∈ i.log.times, E.jwt.verifyToken now i.trans.token = some info) : Fresh E token i where
  refused _ now _ _ _ _ htimes hnone := by
    have hsome := h now (by rw [htimes]; exact List.mem_cons_self)
    rw [hnone] at hsome
    cases hsome
  inserted _ _ _ _ hnil := absurd hnil htoken

/-- One worker answers two users, each with a token of that user. -/
theorem ownTokens_iff_fresh_two :
    let r := [(pwdTurn, some { userId := 1, workpath := "/a".toList }),
      (secondTurn, some { userId := 2, workpath := "/b".toList })]
    IsRun (TurnStep .plain) (some {}) r ∧ Meets (fun _ => OwnTokens .plain) (some {}) r := by
  intro r
  have hr : IsRun (TurnStep .plain) (some {}) r := ⟨pwdTurn_step, secondTurn_step, trivial⟩
  have hfirst : ∀ now ∈ pwdTurn.log.times, Env.plain.jwt.verifyToken now pwdTurn.trans.token =
      some { userId := 1, workpath := "/a".toList } := by decide +kernel
  have hsecond : ∀ now ∈ secondTurn.log.times, Env.plain.jwt.verifyToken now secondTurn.trans.token =
      some { userId := 2, workpath := "/b".toList } := by decide +kernel
  exact ⟨hr, (ownTokens_iff_fresh hr).2 ⟨fresh_of_verified (by decide) hfirst, fresh_of_verified (by decide) hsecond, trivial⟩⟩

/-- Somebody asks with a token that is none. -/
def forgedTurn : Turn where
  rand := []
  netFd := 5
  trans := { data := "ls".toList, dataLength := 2, commandNo := 1, token := "x".toList }
  log := [⟨.time, (1 : Nat)⟩, ⟨.time, (1 : Nat)⟩,
    ⟨.send 5 { data := utf8 "请重新登录", dataLength := (utf8 "请重新登录").length, token := "0.1./a".toList }, ()⟩]

/-- Behind the request of user 1, the same worker answers the one with the forged token with a token of
user 1. -/
theorem stale_token_sent : ¬ ∀ E token r, IsRun (TurnStep E) token r → Meets (fun _ => OwnTokens E) token r := by
  intro hown
  have hforged : TurnStep .plain (some { userId := 1, workpath := "/a".toList }) forgedTurn
      (some { userId := 1, workpath := "/a".toList }) :=
    ⟨_, rfl, Prog.Does.of_replay (by decide +kernel)⟩
  have hmeets := hown .plain (some {}) [(pwdTurn, _), (forgedTurn, _)] ⟨pwdTurn_step, hforged, trivial⟩
  have hfresh := hforged.own_iff_fresh.1 hmeets.2.1
  obtain hzero | hnone := hfresh.refused _ 1 1 [] rfl (by decide) rfl (by decide)
  · cases hzero
  · cases hnone

end Worker

end Netdisk

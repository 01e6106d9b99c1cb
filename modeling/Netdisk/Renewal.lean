import Netdisk.Replies

/-!
# Tokens that come with the replies

A client goes on with the token of the last reply. `Renews` is what it takes for a reply to carry one:
a refused request is answered by a worker that still has a user, and a token can be made from what the
reply is made from.
-/

namespace Netdisk
open Os

/-- The token is made for a user. -/
def Jwt.Issued (J : Jwt) (token : CStr) : Prop := ∃ id, id ≠ 0 ∧ J.Encodes token id

/-- `cd` finds the directory: what `query_cd` makes of the answers of the database. -/
def Moves (frame : TransFile) (tok : TokenInfo) (rest : Log) (path : CStr) : Prop :=
  ∃ argument l₁ l₂ ret, dispatch frame.data = some (.cd, argument) ∧ getUserPath argument tok = some path ∧
    rest = l₁ ++ l₂ ∧ (queryCd path tok.userId).Does l₁ ret ∧ 0 < ret

/-- What the token of the replies is made from, in a worker with `t` in its variable. -/
inductive MadeFrom (E : Env) (t : TokenInfo) (frame : TransFile) (now : Nat) (rest : Log) : TokenInfo → Prop
  | refused : E.jwt.verifyToken now frame.token = none → MadeFrom E t frame now rest t
  | kept {tok : TokenInfo} : E.jwt.verifyToken now frame.token = some tok → (∀ path, ¬ Moves frame tok rest path) →
    MadeFrom E t frame now rest tok
  | moved {tok : TokenInfo} {path : CStr} : E.jwt.verifyToken now frame.token = some tok → Moves frame tok rest path →
    MadeFrom E t frame now rest { tok with workpath := path }

/-- A refused request finds a user in the worker's variable, and `generate_token` does not fail. -/
structure Renews (E : Env) (t : TokenInfo) (frame : TransFile) (log : Log) : Prop where
  refused : ∀ (now : Nat) (rest : Log), log = ⟨.time, now⟩ :: rest → E.jwt.verifyToken now frame.token = none → t.userId ≠ 0
  made : ∀ (now : Nat) (rest : Log) (info : TokenInfo), log = ⟨.time, now⟩ :: rest → MadeFrom E t frame now rest info → ∀ now' ∈ rest.times,
    E.jwt.generateToken now' info ≠ none

section Issued
variable {J : Jwt} {token : CStr} {info : TokenInfo} {now : Nat}

theorem Jwt.Issued.ne_nil (h : J.Issued token) : token ≠ [] := by
  obtain ⟨_, -, _, _, hmade, -⟩ := h
  exact J.encode_ne_nil hmade

theorem Jwt.issued_of_generate (hgen : J.generateToken now info ≠ none) (hid : info.userId ≠ 0) :
    J.Issued ((J.generateToken now info).getD []) := by
  obtain ⟨made, hmade⟩ := Option.ne_none_iff_exists'.1 hgen
  rw [hmade]
  exact ⟨info.userId, hid, now, info, (Option.filter_eq_some_iff.1 hmade).1, rfl⟩

/-- A token that is accepted gives the user back that it was made for. -/
theorem Jwt.Issued.verified (h : J.Issued token) (hv : J.verifyToken now token = some info) : info.userId ≠ 0 := by
  obtain ⟨_, hid, _, _, hmade, rfl⟩ := h
  obtain ⟨_, hmade'⟩ := J.decode_made hv
  rw [J.encode_inj hmade' hmade]
  exact hid

end Issued

/-! ### The frames of a reply -/

/-- Every frame carries a token, or, with `lenient`, the first one does unless it announces another. The
local state says whether one has been sent. -/
def renewProtocol (J : Jwt) (T : TokenInfo → Prop) (lenient : Bool) : Prog.Protocol osSig Bool where
  ok sent (o : Op) :=
    match o with
    | .send _ train => J.Issued train.token ∨ lenient = true ∧ (sent = true ∨ train.flag = true)
    | _ => True
  resp _ (o : Op) r :=
    match o, r with
    | .time, (now : Nat) => ∀ info, T info → J.generateToken now info ≠ none
    | _, _ => True
  next sent (o : Op) _ :=
    match o with
    | .send .. => true
    | _ => sent

section Protocol
variable {J : Jwt} {T : TokenInfo → Prop} {lenient sent sent' : Bool} {log : Log}

theorem renewProtocol_all (h : (renewProtocol J T false).Accepts sent log sent') : ∀ train ∈ log.sent, J.Issued train.token := by
  induction log generalizing sent with
  | nil => nofun
  | cons e log ih =>
    obtain ⟨o, r⟩ := e
    obtain ⟨hok, hlog⟩ := h
    cases o with
    | send fd train => exact List.forall_mem_cons.2 ⟨hok.resolve_right nofun, ih hlog⟩
    | _ => exact ih hlog

theorem renewProtocol_first (h : (renewProtocol J T lenient).Accepts false log sent') :
    ∀ train ∈ log.sent.head?, train.flag = false → J.Issued train.token := by
  induction log with
  | nil => nofun
  | cons e log ih =>
    obtain ⟨o, r⟩ := e
    obtain ⟨hok, hlog⟩ := h
    cases o with
    | send fd train =>
      rintro _ ⟨⟩ hflag
      refine hok.resolve_right ?_
      rintro ⟨-, hsent | hset⟩
      · cases hsent
      · rw [hflag] at hset
        cases hset
    | _ => exact ih hlog

end Protocol

section Programs
variable {α β : Type} {J : Jwt} {T : TokenInfo → Prop} {lenient sent : Bool} {fd : Int} {cwd strerror argument : CStr} {token : TokenInfo}

/-- The program keeps to the protocol. -/
abbrev Renewing (J : Jwt) (T : TokenInfo → Prop) (lenient sent : Bool) (p : Os α) : Prop :=
  p.wp (renewProtocol J T lenient) (fun _ _ => True) sent

/-- Nothing is sent, and the clock is not looked at. -/
def Op.isHidden : Op → Bool
  | .send .. | .time => false
  | _ => true

theorem hidden_bind {p : Os β} {f : β → Os α} (h : Prog.Only (S := osSig) (fun o : Op => o.isHidden = true) p)
    (hf : ∀ b, Renewing J T lenient sent (f b)) : Renewing J T lenient sent (p.bind f) := by
  have hstay : p.wp (renewProtocol J T lenient) (fun l _ => l = sent) sent := h.wp fun (o : Op) ho => by
    cases o <;> first | exact ⟨trivial, fun _ => rfl⟩ | cases ho
  rw [Renewing]
  refine hstay.bind fun l b hl => ?_
  rw [hl]
  exact hf b

theorem query_hidden {p : Os α} (h : QueryOnly p) : Prog.Only (S := osSig) (fun o : Op => o.isHidden = true) p :=
  h.mono fun (o : Op) ho => by
    cases o <;> first | rfl | exact absurd ho (by simp [Op.isQuery, Op.isSql])

theorem crash_renewing : Renewing J T lenient sent (crash : Os α) := ⟨trivial, fun e => nomatch (e : Empty)⟩

theorem sendMessage_renewing {msg : CStr} {flag : Bool} {f : Unit → Os α} (hT : T token) (hid : token.userId ≠ 0)
    (hf : Renewing J T lenient true (f ())) : Renewing J T lenient sent ((sendMessage J fd msg flag token).bind f) := by
  unfold sendMessage
  rw [if_pos hid]
  exact ⟨trivial, fun (now : Nat) hnow => ⟨.inl (Jwt.issued_of_generate (hnow token hT) hid), fun _ _ => hf⟩⟩

theorem Answering.renewing {p : Os α} (h : Answering J fd T p) (hid : ∀ info, T info → info.userId ≠ 0) :
    Renewing J T lenient sent p := by
  induction h generalizing sent with
  | crash => exact crash_renewing
  | query hquery _ ih => exact hidden_bind (query_hidden hquery) fun b => ih b
  | stat _ ih => exact ⟨trivial, fun size _ => ih size⟩
  | more hT _ ih => exact sendMessage_renewing hT (hid _ hT) ih
  | last a hT => exact sendMessage_renewing hT (hid _ hT) trivial
  | lost hT => exact sendMessage_renewing hT (hid _ hT) crash_renewing

theorem recvFileData_renewing {header : TransFile} (hT : T token) (hid : token.userId ≠ 0) :
    Renewing J T true sent (recvFileData J cwd fd header token strerror) := by
  refine ⟨trivial, fun (file : Int) _ => ?_⟩
  show Prog.wp _ _ (if file < 0 then _ else _) sent
  split
  · exact sendMessage_renewing hT hid trivial
  · refine ⟨trivial, fun size _ => ⟨.inr ⟨rfl, .inr rfl⟩, fun _ _ => ⟨trivial, fun _ _ => ?_⟩⟩⟩
    show Renewing J T true true ((recvLoop _ _ _ _ _).bind _)
    have hloop (fuel : Nat) (offset : Int) :
        Prog.Only (S := osSig) (fun o : Op => o.isHidden = true) (recvLoop fd file (intOf header.dataLength) fuel offset) :=
      (recvLoop_only ..).mono fun (o : Op) ho => by cases o <;> first | rfl | cases ho
    refine hidden_bind (hloop _ _) fun (offset : Int) => ⟨.inr ⟨rfl, .inl rfl⟩, fun _ _ => ⟨trivial, fun _ _ => ⟨trivial, fun _ _ => ?_⟩⟩⟩
    show Renewing J T true true (if offset = intOf header.dataLength then _ else _)
    split
    · exact hidden_bind (query_hidden queryUpdate_only) fun _ => trivial
    · trivial

theorem recvFile_renewing (hT : T token) (hid : token.userId ≠ 0) :
    Renewing J T true sent (recvFile J cwd fd argument token strerror) := by
  refine recvFile_cases crash_renewing fun userPath fileName f hf => ⟨trivial, fun (header : TransFile) _ => ?_⟩
  show Renewing J T true sent ((queryPuts ..).bind _)
  refine hidden_bind (query_hidden queryPuts_only) fun ret => ?_
  obtain ⟨msg, heq⟩ | heq := hf header ret <;> rw [heq]
  · exact sendMessage_renewing hT hid trivial
  · exact recvFileData_renewing hT hid

theorem sendFile_renewing (hT : T token) (hid : token.userId ≠ 0) : Renewing J T true sent (sendFile J cwd fd argument token) := by
  refine sendFile_cases crash_renewing fun path name f hf => hidden_bind (query_hidden queryGets_only) fun x => ?_
  obtain ⟨msg, heq⟩ | ⟨hash, heq⟩ := hf x <;> rw [heq]
  · exact sendMessage_renewing hT hid ⟨trivial, fun _ _ => trivial⟩
  · refine ⟨trivial, fun (file : Int) _ => ?_⟩
    have hrest (sent : Bool) : Renewing J T true sent (sendOpened fd file) :=
      ⟨trivial, fun _ _ => ⟨.inr ⟨rfl, .inr rfl⟩, fun _ _ => ⟨trivial, fun _ _ => ⟨trivial, fun _ _ => ⟨trivial, fun _ _ =>
        ⟨trivial, fun _ _ => trivial⟩⟩⟩⟩⟩⟩
    show Renewing J T true sent (if file ≤ 0 then _ else _)
    split
    · exact sendMessage_renewing hT hid (hrest true)
    · exact hrest sent

end Programs

/-! ### Accounts -/

/-- A row of the table of users is made. -/
def Op.registers : Op → Bool
  | .exec _ (.insertUser ..) => true
  | _ => false

/-- The program registers nobody. -/
abbrev Unregistering {α : Type} (p : Os α) : Prop := Prog.Only (S := osSig) (fun o : Op => o.registers = false) p

section Accounts
variable {α β : Type} {J : Jwt} {T : TokenInfo → Prop} {fd : Int} {cwd strerror argument : CStr} {token : TokenInfo}

theorem Unregistering.registered {halt : Op → Prop} {p : Os α} {log : Log} {res : Option α} (h : Unregistering p)
    (hd : Prog.Traces (S := osSig) halt p log res) : log.registered = [] := by
  refine List.filterMap_eq_nil_iff.2 fun e he => ?_
  obtain ⟨(o : Op), r⟩ := e
  have ho : o.registers = false := h.traces hd _ he
  cases o with
  | exec connect st =>
    cases st with
    | insertUser => cases ho
    | _ => rfl
  | _ => rfl

theorem query_unregistering {p : Os α} (h : QueryOnly p) : Unregistering p :=
  h.mono fun (o : Op) ho => by
    cases o with
    | exec connect st => cases st <;> first | rfl | exact absurd ho (by simp [Op.isQuery])
    | _ => rfl

theorem crash_unregistering : Unregistering (crash : Os α) := ⟨rfl, fun e => nomatch (e : Empty)⟩

theorem sendMessage_unregistering {msg : CStr} {flag : Bool} {f : Unit → Os α} (hf : Unregistering (f ())) :
    Unregistering ((sendMessage J fd msg flag token).bind f) := by
  unfold sendMessage
  split
  · exact ⟨rfl, fun _ => ⟨rfl, fun _ => hf⟩⟩
  · exact ⟨rfl, fun _ => hf⟩

theorem Answering.unregistering {p : Os α} (h : Answering J fd T p) : Unregistering p := by
  induction h with
  | crash => exact crash_unregistering
  | query hquery _ ih => exact (query_unregistering hquery).bind ih
  | stat _ ih => exact ⟨rfl, ih⟩
  | more _ _ ih => exact sendMessage_unregistering ih
  | last a _ => exact sendMessage_unregistering trivial
  | lost _ => exact sendMessage_unregistering crash_unregistering

theorem recvFile_unregistering : Unregistering (recvFile J cwd fd argument token strerror) := by
  refine recvFile_cases crash_unregistering fun userPath fileName f hf => ⟨rfl, fun (header : TransFile) => ?_⟩
  show Unregistering ((queryPuts ..).bind _)
  refine (query_unregistering queryPuts_only).bind fun ret => ?_
  obtain ⟨msg, heq⟩ | heq := hf header ret <;> rw [heq]
  · exact sendMessage_unregistering trivial
  refine ⟨rfl, fun (file : Int) => ?_⟩
  show Unregistering (if file < 0 then _ else _)
  split
  · exact sendMessage_unregistering trivial
  · refine ⟨rfl, fun size => ⟨rfl, fun _ => ⟨rfl, fun _ => ?_⟩⟩⟩
    show Unregistering ((recvLoop ..).bind _)
    have hloop (fuel : Nat) (offset : Int) : Unregistering (recvLoop fd file (intOf header.dataLength) fuel offset) :=
      (recvLoop_only ..).mono fun (o : Op) ho => by cases o <;> first | rfl | cases ho
    refine (hloop _ _).bind fun (offset : Int) => ⟨rfl, fun _ => ⟨rfl, fun _ => ⟨rfl, fun _ => ?_⟩⟩⟩
    show Unregistering (if offset = intOf header.dataLength then _ else _)
    split
    · exact (query_unregistering queryUpdate_only).bind fun _ => trivial
    · trivial

theorem sendFile_unregistering : Unregistering (sendFile J cwd fd argument token) := by
  refine sendFile_cases crash_unregistering fun path name f hf => (query_unregistering queryGets_only).bind fun x => ?_
  obtain ⟨msg, heq⟩ | ⟨hash, heq⟩ := hf x <;> rw [heq]
  · exact sendMessage_unregistering ⟨rfl, fun _ => trivial⟩
  · refine ⟨rfl, fun (file : Int) => ?_⟩
    have hrest : Unregistering (sendOpened fd file) :=
      ⟨rfl, fun _ => ⟨rfl, fun _ => ⟨rfl, fun _ => ⟨rfl, fun _ => ⟨rfl, fun _ => ⟨rfl, fun _ => trivial⟩⟩⟩⟩⟩⟩
    show Unregistering (if file ≤ 0 then _ else _)
    split
    · exact sendMessage_unregistering hrest
    · exact hrest

theorem dealCommand_unregistering {E : Env} {command : Command} : Unregistering (dealCommand E command fd argument token) := by
  have hother (hputs : command ≠ .puts) (hgets : command ≠ .gets) : Unregistering (dealCommand E command fd argument token) := by
    have hanswering : Answering E.jwt fd (fun _ => True) (dealCommand E command fd argument token) :=
      dealCommand_answering hputs hgets trivial fun _ _ => trivial
    exact hanswering.unregistering
  cases command with
  | puts => exact recvFile_unregistering.bind fun _ => trivial
  | gets => exact sendFile_unregistering.bind fun _ => trivial
  | _ => exact hother nofun nofun

/-- A request with a token registers nobody, nor does one without a token and the number of another
command than `register` and `login`. -/
theorem serve_unregistering {E : Env} {rand : CStr} {frame : TransFile} (h : frame.token ≠ [] ∨ frame.commandNo ≠ 0 ∧ frame.commandNo ≠ 1) :
    Unregistering (serve E rand fd frame token) := by
  by_cases htoken : frame.token = []
  · obtain ⟨hregister, hlogin⟩ := h.resolve_left (not_not.2 htoken)
    unfold serve
    rw [if_pos htoken]
    refine Prog.Only.bind ?_ fun _ => trivial
    unfold checkUserLogin
    cases loginWords frame.data with
    | none => exact crash_unregistering
    | some x =>
      dsimp only
      rw [if_neg hregister, if_neg hlogin]
      trivial
  · rw [serve_of_token E htoken]
    refine ⟨rfl, fun (now : Nat) => ?_⟩
    dsimp only
    cases E.jwt.verifyToken now frame.token with
    | none => exact sendMessage_unregistering trivial
    | some tok =>
      dsimp only
      cases dispatch frame.data with
      | none => exact sendMessage_unregistering trivial
      | some x => exact dealCommand_unregistering.bind fun _ => trivial

end Accounts

/-! ### The worker -/

/-- The first frame carries a token unless it announces another, and without `lenient` all of them do. -/
structure Renewed (J : Jwt) (lenient : Bool) (log : Log) : Prop where
  first : ∀ train ∈ log.sent.head?, train.flag = false → J.Issued train.token
  all : lenient = false → ∀ train ∈ log.sent, J.Issued train.token

theorem Renewing.renewed {α : Type} {J : Jwt} {T : TokenInfo → Prop} {lenient : Bool} {p : Os α} {log : Log} {a : α}
    (h : Renewing J T lenient false p) (hd : p.Does log a)
    (htimes : ∀ now ∈ log.times, ∀ info, T info → J.generateToken now info ≠ none) : Renewed J lenient log := by
  have hresp : ∀ e ∈ log, ∀ now : Nat, e = ⟨.time, now⟩ → ∀ info, T info → J.generateToken now info ≠ none := by
    rintro e he now rfl
    exact htimes now (List.mem_filterMap.2 ⟨_, he, rfl⟩)
  obtain ⟨m, hacc, -⟩ := h.accepts_of (fun l (o : Op) r hr => by
    cases o with
    | time => exact hr r rfl
    | _ => trivial) hd hresp
  refine ⟨renewProtocol_first hacc, fun hlenient => ?_⟩
  subst hlenient
  exact renewProtocol_all hacc

/-- The text is `puts` or `gets` by its first word. -/
def isTransfer (data : CStr) : Bool :=
  match dispatch data with
  | some (.puts, _) | some (.gets, _) => true
  | _ => false

theorem hidden_log {α : Type} {p : Os α} {log : Log} {a : α} (h : Prog.Only (S := osSig) (fun o : Op => o.isHidden = true) p)
    (hd : p.Does log a) : log.sent = [] ∧ log.times = [] := by
  have hall := h.does hd
  constructor
  · refine List.filterMap_eq_nil_iff.2 fun e he => ?_
    obtain ⟨(o : Op), r⟩ := e
    have ho : o.isHidden = true := hall _ he
    cases o <;> first | rfl | cases ho
  · refine List.filterMap_eq_nil_iff.2 fun e he => ?_
    obtain ⟨(o : Op), r⟩ := e
    have ho : o.isHidden = true := hall _ he
    cases o <;> first | rfl | cases ho

section Worker
variable {E : Env} {rand : CStr} {netFd : Int} {frame : TransFile} {t t' : TokenInfo} {log : Log}

theorem moves_iff {argument path path' : CStr} {tok : TokenInfo} {l₁ l₂ : Log} {ret : Int}
    (hdispatch : dispatch frame.data = some (.cd, argument)) (hpath : getUserPath argument tok = some path)
    (hcd : (queryCd path tok.userId).Does l₁ ret) : Moves frame tok (l₁ ++ l₂) path' ↔ path' = path ∧ 0 < ret := by
  constructor
  · rintro ⟨argument', l₁', l₂', ret', hdispatch', hpath', heq, hcd', hret⟩
    rw [hdispatch] at hdispatch'
    obtain rfl : argument = argument' := (Prod.mk.inj (Option.some.inj hdispatch')).2
    obtain rfl := Option.some.inj (hpath.symm.trans hpath')
    obtain ⟨-, rfl⟩ := hcd.unique hcd' heq
    exact ⟨rfl, hret⟩
  · rintro ⟨rfl, hret⟩
    exact ⟨argument, l₁, l₂, ret, hdispatch, hpath, rfl, hcd, hret⟩

theorem changeDir_renewed {argument : CStr} {tok : TokenInfo} {x : Int × TokenInfo} {lenient : Bool} {now : Nat}
    (hid : tok.userId ≠ 0) (hverify : E.jwt.verifyToken now frame.token = some tok)
    (hdispatch : dispatch frame.data = some (.cd, argument)) (h : (changeDir E.jwt netFd argument tok).Does log x)
    (hmade : ∀ info, MadeFrom E t frame now log info → ∀ now' ∈ log.times, E.jwt.generateToken now' info ≠ none) :
    Renewed E.jwt lenient log := by
  unfold changeDir at h
  cases hpath : getUserPath argument tok with
  | none =>
    rw [hpath] at h
    obtain ⟨r, -⟩ := Prog.does_op.1 h
    exact nomatch (r : Empty)
  | some path =>
    rw [hpath] at h
    obtain ⟨ret, l₁, l₂, rfl, hcd, hreply⟩ := Prog.does_bind.1 h
    obtain ⟨hsent, htimes⟩ := hidden_log (query_hidden queryCd_only) hcd
    -- the message is made from what `query_cd` leads to
    have hanswer {msg : CStr} {info : TokenInfo} {y : Int × TokenInfo} (hmadeFrom : MadeFrom E t frame now (l₁ ++ l₂) info)
        (hinfo : info.userId ≠ 0)
        (hd : ((sendMessage E.jwt netFd msg false info).bind fun _ => .pure y).Does l₂ x) : Renewed E.jwt lenient (l₁ ++ l₂) := by
      have hprog : Renewing E.jwt (· = info) lenient false ((sendMessage E.jwt netFd msg false info).bind fun _ => .pure y) :=
        sendMessage_renewing rfl hinfo trivial
      have hrenewed := hprog.renewed hd fun now' hnow' info' heq => by
        rw [heq]
        exact hmade info hmadeFrom now' (by simp [hnow'])
      constructor
      · rw [Log.sent_append, hsent]
        exact hrenewed.first
      · rw [Log.sent_append, hsent]
        exact hrenewed.all
    have hkept (hret : ¬ 0 < ret) : MadeFrom E t frame now (l₁ ++ l₂) tok :=
      .kept hverify fun path' hmoves => hret ((moves_iff hdispatch hpath hcd).1 hmoves).2
    dsimp only at hreply
    split at hreply
    · exact hanswer (hkept (by omega)) hid hreply
    split at hreply
    · exact hanswer (hkept (by omega)) hid hreply
    · have hmoved : MadeFrom E t frame now (l₁ ++ l₂) { tok with workpath := path } :=
        .moved hverify ((moves_iff hdispatch hpath hcd).2 ⟨rfl, by omega⟩)
      exact hanswer hmoved hid hreply

theorem serve_renewed (hissued : E.jwt.Issued frame.token) (hrenews : Renews E t frame log)
    (h : (serve E rand netFd frame t).Does log t') : Renewed E.jwt (isTransfer frame.data) log := by
  rw [serve_of_token E hissued.ne_nil] at h
  obtain ⟨(now : Nat), rest, rfl, hrest⟩ := Prog.does_op.1 h
  suffices hsuff : Renewed E.jwt (isTransfer frame.data) rest from ⟨hsuff.first, hsuff.all⟩
  cases hverify : E.jwt.verifyToken now frame.token with
  | none =>
    rw [hverify] at hrest
    have hid := hrenews.refused now rest rfl hverify
    have hprog : Renewing E.jwt (· = t) (isTransfer frame.data) false
        ((sendMessage E.jwt netFd (utf8 "请重新登录") false t).bind fun _ => .pure t) := sendMessage_renewing rfl hid trivial
    refine hprog.renewed hrest fun now' hnow' info hinfo => ?_
    rw [hinfo]
    exact hrenews.made now rest t rfl (.refused hverify) now' hnow'
  | some tok =>
    rw [hverify] at hrest
    dsimp only at hrest
    have hid := hissued.verified hverify
    have hsame (info : TokenInfo) (hinfo : info = tok) : info.userId ≠ 0 := by
      rw [hinfo]
      exact hid
    -- every command but `cd` replies with what `verify_token` has read
    have hkept (hnot : ∀ path, ¬ Moves frame tok rest path) : ∀ now' ∈ Log.times rest, ∀ info, info = tok →
        E.jwt.generateToken now' info ≠ none := by
      rintro now' hnow' _ rfl
      exact hrenews.made now rest _ rfl (.kept hverify hnot) now' hnow'
    cases hdispatch : dispatch frame.data with
    | none =>
      rw [hdispatch] at hrest
      have hprog (lenient : Bool) : Renewing E.jwt (· = tok) lenient false
          ((sendMessage E.jwt netFd (utf8 "无效的命令") false tok).bind fun _ => .pure tok) := sendMessage_renewing rfl hid trivial
      refine (hprog _).renewed hrest (hkept ?_)
      rintro path ⟨_, _, _, _, hcd, -⟩
      rw [hdispatch] at hcd
      cases hcd
    | some x =>
      obtain ⟨command, argument⟩ := x
      rw [hdispatch] at hrest
      obtain ⟨y, l₁, l₂, rfl, hcommand, hend⟩ := Prog.does_bind.1 hrest
      obtain ⟨rfl, -⟩ := Prog.does_pure.1 hend
      rw [List.append_nil] at *
      have hnot (hcd : command ≠ .cd) : ∀ path, ¬ Moves frame tok l₁ path := by
        rintro path ⟨_, _, _, _, hcd', -⟩
        rw [hdispatch] at hcd'
        exact hcd (Prod.mk.inj (Option.some.inj hcd')).1
      have htransfer (hcommand : command = .puts ∨ command = .gets) : isTransfer frame.data = true := by
        obtain rfl | rfl := hcommand <;> simp [isTransfer, hdispatch]
      have hother (hputs : command ≠ .puts) (hgets : command ≠ .gets) (hcd : command ≠ .cd) :
          Renewed E.jwt (isTransfer frame.data) l₁ := by
        have hanswering : Answering E.jwt netFd (· = tok) (dealCommand E command netFd argument tok) :=
          dealCommand_answering hputs hgets rfl fun heq => absurd heq hcd
        exact (hanswering.renewing hsame).renewed hcommand (hkept (hnot hcd))
      cases command with
      | cd => exact changeDir_renewed hid hverify hdispatch hcommand fun info hinfo => hrenews.made now l₁ info rfl hinfo
      | puts =>
        rw [htransfer (.inl rfl)]
        obtain ⟨ret, l, l', rfl, hrecv, hend⟩ := Prog.does_bind.1 hcommand
        obtain ⟨rfl, -⟩ := Prog.does_pure.1 hend
        rw [List.append_nil] at *
        have hprog : Renewing E.jwt (· = tok) true false (recvFile E.jwt E.cwd netFd argument tok E.strerror) :=
          recvFile_renewing rfl hid
        exact hprog.renewed hrecv (hkept (hnot nofun))
      | gets =>
        rw [htransfer (.inr rfl)]
        obtain ⟨ret, l, l', rfl, hsend, hend⟩ := Prog.does_bind.1 hcommand
        obtain ⟨rfl, -⟩ := Prog.does_pure.1 hend
        rw [List.append_nil] at *
        have hprog : Renewing E.jwt (· = tok) true false (sendFile E.jwt E.cwd netFd argument tok) := sendFile_renewing rfl hid
        exact hprog.renewed hsend (hkept (hnot nofun))
      | _ => exact hother nofun nofun nofun

end Worker

end Netdisk

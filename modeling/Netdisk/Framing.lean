import Netdisk.Client
import Netdisk.Replies

/-!
# Replies in step

A command that transfers no file is answered with any number of frames that announce another one and
with one that does not. The local state says whether a frame is still to come.
-/

namespace Netdisk
open Os

/-- The calls that write to a socket, read from it, or close it. -/
def Op.onSocket : Op → Bool
  | .send .. | .recv _ | .recvBuf _ | .close _ | .sendfile .. => true
  | _ => false

/-- The calls on sockets, in their order. -/
def socketOps (log : Log) : List Op := (log.map fun e => (e.op : Op)).filter Op.onSocket

/-- Any number of frames with the flag, and one without it. -/
def Framed (frames : List TransFile) : Prop :=
  ∃ init last, frames = init ++ [last] ∧ (∀ t ∈ init, t.flag = true) ∧ last.flag = false

/-- Frames to one descriptor, as long as one is still to come. -/
def replyProtocol (fd : Int) : Prog.Protocol osSig Bool where
  ok (more : Bool) (o : Op) :=
    match o with
    | .send fd' _ => fd' = fd ∧ more = true
    | o => o.onSocket = false
  resp _ _ _ := True
  next (more : Bool) (o : Op) _ :=
    match o with
    | .send _ train => train.flag
    | _ => more

section Protocol
variable {fd : Int} {more : Bool}

theorem replyProtocol_ok {o : Op} {r : Resp o} (h : (replyProtocol fd).ok more o) :
    (o.onSocket = false ∧ (replyProtocol fd).next more o r = more) ∨
      ∃ train : TransFile, o = .send fd train ∧ more = true ∧ (replyProtocol fd).next more o r = train.flag := by
  cases o with
  | send fd' train =>
    obtain ⟨rfl, hmore⟩ := h
    exact .inr ⟨train, rfl, hmore, rfl⟩
  | _ => exact .inl ⟨h, rfl⟩

theorem socketOps_cons {o : Op} {r : Resp o} {log : Log} :
    socketOps (⟨o, r⟩ :: log) = if o.onSocket then o :: socketOps log else socketOps log := by
  simp [socketOps, List.filter_cons]

theorem socketOps_of_accepts_false {log : Log} (h : (replyProtocol fd).Accepts false log more) :
    socketOps log = [] := by
  induction log with
  | nil => rfl
  | cons e log ih =>
    obtain ⟨o, r⟩ := e
    obtain ⟨hoff, hnext⟩ | ⟨train, -, hfalse, -⟩ := replyProtocol_ok (r := r) h.1
    · rw [socketOps_cons, if_neg (by simp [hoff])]
      exact ih (hnext ▸ h.2)
    · exact absurd hfalse (by decide)

/-- Up to the last frame, every frame but that one announces another. -/
theorem framed_of_accepts {log : Log} (h : (replyProtocol fd).Accepts true log false) :
    ∃ frames, socketOps log = frames.map (Op.send fd) ∧ Framed frames := by
  induction log with
  | nil => exact absurd h (by simp [Prog.Protocol.Accepts])
  | cons e log ih =>
    obtain ⟨o, r⟩ := e
    obtain ⟨hoff, hnext⟩ | ⟨train, rfl, -, hnext⟩ := replyProtocol_ok (r := r) h.1
    · rw [socketOps_cons, if_neg (by simp [hoff])]
      exact ih (hnext ▸ h.2)
    · have hrest : (replyProtocol fd).Accepts train.flag log false := hnext ▸ h.2
      rw [socketOps_cons, if_pos (show (Op.send fd train).onSocket = true from rfl)]
      cases hflag : train.flag with
      | false =>
        refine ⟨[train], ?_, [], train, rfl, by simp, hflag⟩
        rw [socketOps_of_accepts_false (hflag ▸ hrest)]
        rfl
      | true =>
        obtain ⟨_, hlog, init, last, rfl, hinit, hlast⟩ := ih (hflag ▸ hrest)
        exact ⟨train :: (init ++ [last]), by rw [hlog]; rfl, train :: init, last, rfl, List.forall_mem_cons.2 ⟨hflag, hinit⟩,
          hlast⟩

end Protocol

/-! ### The handlers -/

section Handlers
variable {α β : Type} {fd : Int} {J : Jwt} {token : TokenInfo}

/-- The program sends frames up to the last one. -/
abbrev Replies (fd : Int) (p : Os α) : Prop := p.wp (replyProtocol fd) (fun more _ => more = false) true

theorem crash_wp {more : Bool} {post : Bool → α → Prop} : (crash : Os α).wp (replyProtocol fd) post more :=
  ⟨rfl, fun e => nomatch (e : Empty)⟩

theorem sql_stays {p : Os β} (h : SqlOnly p) (more : Bool) : p.wp (replyProtocol fd) (fun l _ => l = more) more :=
  h.wp fun (o : Op) ho => by
    cases o <;> first | exact ⟨rfl, fun _ => rfl⟩ | exact absurd ho (by simp [Op.isSql])

theorem sendMessage_frame {msg : CStr} {flag : Bool} {f : Unit → Os α} {post : Bool → α → Prop}
    (hf : (f ()).wp (replyProtocol fd) post flag) :
    ((sendMessage J fd msg flag token).bind f).wp (replyProtocol fd) post true := by
  unfold sendMessage
  split
  · exact ⟨rfl, fun _ _ => ⟨⟨rfl, rfl⟩, fun _ _ => hf⟩⟩
  · exact ⟨⟨rfl, rfl⟩, fun _ _ => hf⟩

theorem Answering.replies {T : TokenInfo → Prop} {p : Os α} (h : Answering J fd T p) : Replies fd p := by
  induction h with
  | crash => exact crash_wp
  | query hquery _ ih =>
    rw [Replies]
    refine (sql_stays hquery.sql true).bind fun more b hmore => ?_
    rw [hmore]
    exact ih b
  | stat _ ih => exact ⟨rfl, fun size _ => ih size⟩
  | more _ _ ih => exact sendMessage_frame ih
  | last a _ => exact sendMessage_frame rfl
  | lost _ => exact sendMessage_frame crash_wp

/-- A request that carries a token and whose first word is no transfer. -/
theorem serve_replies {E : Env} {rand : CStr} {trans : TransFile} (htoken : trans.token ≠ [])
    (hputs : (parseRequest trans.data).1 ≠ "puts".toList) (hgets : (parseRequest trans.data).1 ≠ "gets".toList) :
    Replies fd (serve E rand fd trans token) := by
  rw [serve_of_token E htoken]
  refine ⟨rfl, fun (now : Nat) _ => ?_⟩
  dsimp only
  cases E.jwt.verifyToken now trans.token with
  | none => exact sendMessage_frame rfl
  | some token =>
    dsimp only [dispatch]
    cases hname : Command.ofName (parseRequest trans.data).1 with
    | none => exact sendMessage_frame rfl
    | some command =>
      have hne : command ≠ .puts ∧ command ≠ .gets := by
        constructor <;> rintro rfl
        · exact hputs (Command.eq_text_of_ofName hname)
        · exact hgets (Command.eq_text_of_ofName hname)
      have hanswering : Answering E.jwt fd (fun _ => True) (dealCommand E command fd (parseRequest trans.data).2 token) :=
        dealCommand_answering hne.1 hne.2 trivial fun _ _ => trivial
      exact (hanswering.map Prod.snd).replies

end Handlers

/-! ### The client behind the stream -/

/-- `command_printf` reads up to the first frame without the flag. -/
theorem commandPrintf_append {init : List TransFile} {last : TransFile} (hinit : ∀ t ∈ init, t.flag = true)
    (hlast : last.flag = false) (rest : List TransFile) :
    commandPrintf (init ++ last :: rest) = ((init ++ [last]).map (·.data), last.token, rest) := by
  induction init with
  | nil => simp [commandPrintf, hlast]
  | cons t init ih =>
    obtain ⟨ht, hinit⟩ := List.forall_mem_cons.1 hinit
    rw [List.cons_append, commandPrintf, if_pos ht, ih hinit]
    rfl

/-- The frames for a request are what `command_printf` reads for it, and nothing else is done with the
connection. The first word is the one that `connect_with_client` compares. -/
theorem replies_inStep {E : Env} {rand : CStr} {netFd : Int} {trans : TransFile} {token token' : TokenInfo}
    {log : Log} (htoken : trans.token ≠ []) (hputs : (parseRequest trans.data).1 ≠ "puts".toList)
    (hgets : (parseRequest trans.data).1 ≠ "gets".toList) (h : (serve E rand netFd trans token).Does log token') :
    ∃ init last, socketOps log = (init ++ [last]).map (Op.send netFd) ∧ (∀ t ∈ init, t.flag = true) ∧ last.flag = false ∧
      ∀ rest, commandPrintf (init ++ last :: rest) = ((init ++ [last]).map (·.data), last.token, rest) := by
  obtain ⟨more, hlog, rfl⟩ := (serve_replies htoken hputs hgets).accepts (fun _ _ _ => trivial) h
  obtain ⟨_, hops, init, last, rfl, hinit, hlast⟩ := framed_of_accepts hlog
  exact ⟨init, last, hops, hinit, hlast, commandPrintf_append hinit hlast⟩

/-- User 1 lists a home with the entries `d` and `f`. -/
def lsLog : Log :=
  let home : UserFileT := ⟨1, "a".toList, 1, 1, 0⟩
  let d : UserFileT := ⟨2, "d".toList, 1, 2, 1⟩
  let f : UserFileT := ⟨3, "f".toList, 1, 3, 1⟩
  let reply (text : CStr) (more : Bool) : TransFile := ⟨text, text.length, 0, more, "0.1./a".toList⟩
  [⟨.time, (1 : Nat)⟩,
    ⟨.getConnection, some (0 : Nat)⟩, ⟨.selectUserFile (0 : Nat) (.ofUser 1), [home, d, f]⟩, ⟨.releaseConnection (0 : Nat), ()⟩,
    ⟨.getConnection, some (0 : Nat)⟩, ⟨.selectUserFile (0 : Nat) (.lsOf 1), [d, f]⟩, ⟨.releaseConnection (0 : Nat), ()⟩,
    ⟨.time, (1 : Nat)⟩, ⟨.send 4 (reply "d".toList true), ()⟩, ⟨.time, (1 : Nat)⟩, ⟨.send 4 (reply "f".toList true), ()⟩,
    ⟨.time, (1 : Nat)⟩, ⟨.send 4 (reply (utf8 "查找完成") false), ()⟩]

theorem replies_inStep_ls :
    (socketOps lsLog).length = 3 ∧
      ∃ init last, socketOps lsLog = (init ++ [last]).map (Op.send 4) ∧ (∀ t ∈ init, t.flag = true) ∧ last.flag = false ∧
        ∀ rest, commandPrintf (init ++ last :: rest) = ((init ++ [last]).map (·.data), last.token, rest) := by
  have h : (serve .plain [] 4 { data := "ls".toList, dataLength := 2, commandNo := 1, token := "0.1./a".toList } {}).Does
      lsLog { userId := 1, workpath := "/a".toList } := .of_replay (by decide +kernel)
  exact ⟨rfl, replies_inStep (by decide) (by decide) (by decide) h⟩

end Netdisk

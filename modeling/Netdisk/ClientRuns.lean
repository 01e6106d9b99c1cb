import Netdisk.Renewal
import Netdisk.ReplyTokens
import Netdisk.TypedLine

/-!
# A client and the workers

After the login `main` sends what the user types over the first connection and waits for the replies;
`puts` and `gets` go to threads with connections of their own. All of them overwrite `global_token`, and
a frame with an empty token is a registration or a login by its `command_no`. `typed_not_account`: no
typed command becomes one in a run in which every answer renews the token.
-/

namespace Netdisk
open Os Runs

/-- A thread in `transfile`. -/
inductive Transfile
  /-- `trans` is not sent yet. -/
  | created (trans : TransFile)
  /-- `trans` is on its connection. -/
  | asked (trans : TransFile)
  /-- The server is through with it; the first frame of its replies. -/
  | served (answer : Option TransFile)
  /-- The thread has given up the connection, and `trans` is still there. -/
  | left (trans : TransFile)
  | over

/-- The program on one user's side with what is on its connections, and the `token` of each worker. -/
structure Client where
  globalToken : CStr := []
  loggedIn : Bool := false
  /-- `main` is in `command_printf`. -/
  reading : Bool := false
  /-- The server has closed the first connection. -/
  closed : Bool := false
  requests : List TransFile := []
  replies : List TransFile := []
  threads : List Transfile := []
  /-- The server runs. -/
  up : Bool := true
  workers : Nat → TokenInfo

/-- `none` is the first connection. The accesses to `global_token` are indivisible here. -/
inductive ClientAct
  /-- `login`, and the worker `i` for it. -/
  | login (account password : CStr) (i : Nat) (turn : Turn)
  /-- The worker `i` for another client. -/
  | foreign (i : Nat) (turn : Turn)
  /-- `execute_command` up to its `send` or `pthread_create`. -/
  | typed (command : CStr)
  /-- A thread sends its frame. -/
  | start (k : Nat)
  /-- The worker `i` for a typed command. -/
  | serve (source : Option Nat) (i : Nat) (turn : Turn)
  /-- `command_printf` takes a frame. -/
  | read
  /-- `puts_File` or `gets_File` takes the first frame. -/
  | answer (k : Nat)
  | lost
  /-- `command_printf` takes what has arrived of a frame. -/
  | cut (train : TransFile)
  /-- `puts_File` or `gets_File` takes what has arrived of the first frame, if there is a connection at all. -/
  | unanswered (k : Nat) (train : TransFile)

/-- The frame that the server finds on a thread's connection. -/
def Transfile.request : Transfile → Option TransFile
  | .asked frame | .left frame => some frame
  | _ => none

/-- The server has replied. -/
def Transfile.respond (sent : List TransFile) : Transfile → Transfile
  | .asked _ => .served sent.head?
  | _ => .over

/-- The thread has given up. -/
def Transfile.abandon : Transfile → Transfile
  | .asked frame => .left frame
  | _ => .over

/-- `login`: the frame it sends. -/
def loginFrame (account password : CStr) : TransFile :=
  { data := account ++ ' ' :: password, dataLength := (account ++ ' ' :: password).length, commandNo := 1 }

namespace Client
variable (E : Env)

/-- The client at the menu; nobody sets the `token` of a worker. -/
def menu (workers : Nat → TokenInfo) : Client := { workers }

/-- The frame that the server finds on a connection. -/
def request (s : Client) : Option Nat → Option TransFile
  | none => s.requests.head?
  | some k => s.threads[k]?.bind Transfile.request

/-- The server has replied over a connection. -/
def respond (s : Client) (sent : List TransFile) : Option Nat → Client
  | none => { s with requests := s.requests.tail, replies := s.replies ++ sent }
  | some k => { s with threads := s.threads.modify k (Transfile.respond sent) }

/-- The worker `i` is through with a task, or the server has gone in it. -/
def leave (s : Client) (i : Nat) : Option TokenInfo → Client
  | some token => { s with workers := Function.update s.workers i token }
  | none => { s with up := false, closed := true }

/-- `login`: the reply. -/
def welcome (s : Client) : Option TransFile → Client
  | some train => if train.flag then { s with globalToken := train.token, loggedIn := true } else s
  | none => s

/-- The end of `puts_File` and `gets_File` on a frame that announces no other. -/
def take (s : Client) (train : TransFile) : Client :=
  if train.flag then s else { s with globalToken := train.token }

/-- `execute_command`. -/
def execute (s : Client) (command : CStr) : Client :=
  match classify command with
  | none => s
  | some (i, .short) => { s with
      reading := true
      requests := if s.closed then s.requests else s.requests ++ [commandFrame command i s.globalToken] }
  | some (i, .long) => { s with threads := s.threads ++ [.created (commandFrame command i s.globalToken)] }

def Step (s : Client) : ClientAct → Client → Prop
  | .login account password i turn, t => s.up = true ∧ s.loggedIn = false ∧ s.closed = false ∧
      turn.trans = loginFrame account password ∧ ∃ res, TurnStep E (some (s.workers i)) turn res ∧
        t = (s.welcome turn.log.sent.head?).leave i res
  | .foreign i turn, t => s.up = true ∧ ∃ res, TurnStep E (some (s.workers i)) turn res ∧ t = s.leave i res
  | .typed command, t => s.loggedIn = true ∧ s.reading = false ∧ t = s.execute (removeSpace command)
  | .start k, t => ∃ trans, s.threads[k]? = some (.created trans) ∧
      t = { s with threads := s.threads.set k (.asked { trans with token := s.globalToken }) }
  | .serve source i turn, t => s.up = true ∧ s.request source = some turn.trans ∧
      ∃ res, TurnStep E (some (s.workers i)) turn res ∧ t = (s.respond turn.log.sent source).leave i res
  | .read, t => s.reading = true ∧ ∃ train rest, s.replies = train :: rest ∧
      t = { s with globalToken := train.token, reading := train.flag, replies := rest }
  | .answer k, t => ∃ train, s.threads[k]? = some (.served (some train)) ∧
      t = { s.take train with threads := s.threads.set k .over }
  | .lost, t => t = { s with closed := true }
  | .cut train, t => s.closed = true ∧ s.reading = true ∧ s.replies = [] ∧
      t = { s with globalToken := train.token, reading := train.flag }
  | .unanswered k train, t => ∃ x, s.threads[k]? = some x ∧ (∀ trans, x ≠ .left trans) ∧ x ≠ .over ∧
      t = { s.take train with threads := s.threads.set k x.abandon }

end Client

/-- The frame goes to the register branch or the login branch of `check_user_login`. -/
def TransFile.isAccount (trans : TransFile) : Prop := trans.token = [] ∧ (trans.commandNo = 0 ∨ trans.commandNo = 1)

/-- A typed command is no registration and no login, and makes no row. -/
def KeepsAccounts (_ : Client) : ClientAct → Prop
  | .serve _ _ turn => ¬ turn.trans.isAccount ∧ turn.log.registered = []
  | _ => True

/-- A login finds a user with an id and gets a token for it. As long as the first connection is there,
every answer to a typed command renews the token, and no thread loses its connection before the answer. -/
def RenewsToken (E : Env) (s : Client) : ClientAct → Prop
  | .login _ _ _ turn => ∀ users ∈ turn.log.lookedUp, ∀ user ∈ users.head?, user.id ≠ 0 ∧
      ∀ now ∈ turn.log.times, E.jwt.generateToken now { userId := user.id, workpath := '/' :: account turn.trans } ≠ none
  | .serve _ i turn => s.closed = false → Renews E (s.workers i) turn.trans turn.log
  | .unanswered _ _ => s.closed = true
  | _ => True

/-! ### The first word -/

section FirstWord
variable {name c : CStr} {prev : Option Char}

theorem removeSpaceLoop_starts (hname : ∀ x ∈ name, x ≠ ' ' ∧ x ≠ '\n') (h : name <+: c) : name <+: removeSpaceLoop prev c := by
  induction name generalizing c prev with
  | nil => exact List.nil_prefix
  | cons a name ih =>
    obtain ⟨rest, rfl⟩ := h
    obtain ⟨⟨hspace, hbreak⟩, hname⟩ := List.forall_mem_cons.1 hname
    simp only [List.cons_append, removeSpaceLoop, hspace, hbreak, and_false, false_and, if_false]
    exact List.cons_prefix_cons.2 ⟨rfl, ih hname (List.prefix_append _ _)⟩

theorem removeSpace_starts (hname : ∀ x ∈ name, x ≠ ' ' ∧ x ≠ '\n') (h : name <+: c) : name <+: removeSpace c := by
  have hloop : name <+: removeSpaceLoop none c := removeSpaceLoop_starts hname h
  unfold removeSpace
  dsimp only
  split
  · next hlast =>
    obtain ⟨front, heq⟩ := List.getLast?_eq_some_iff.1 hlast
    rw [heq] at hloop ⊢
    rw [List.dropLast_concat]
    obtain rfl | hfront := List.prefix_concat_iff.1 hloop
    · exact absurd rfl (hname ' ' (by simp)).1
    · exact hfront
  · exact hloop

theorem parseRequest_starts (hname : ∀ x ∈ name, x ≠ ' ' ∧ x ≠ '\n') (h : name <+: c) : name <+: (parseRequest c).1 := by
  have hclean := removeSpace_starts hname h
  unfold parseRequest spliteArgument
  dsimp only
  split
  · exact hclean
  · exact prefix_takeWhile (fun hmem => (hname ' ' hmem).1 rfl) hclean

theorem order_chars : ∀ i < 8, ∀ x ∈ order.getD i [], x ≠ ' ' ∧ x ≠ '\n' := by
  have hall : ∀ i < 8, (order.getD i []).all (fun x => decide (x ≠ ' ' ∧ x ≠ '\n')) = true := by decide
  intro i hi x hx
  exact of_decide_eq_true (List.all_eq_true.1 (hall i hi) x hx)

/-- What the client takes for a short command the server does not take for a transfer. -/
theorem isTransfer_of_short {i : Nat} (h : classify c = some (i, .short)) : isTransfer c = false := by
  obtain ⟨hi, hstart, hsize⟩ := classify_eq h
  have hword := parseRequest_starts (order_chars i hi) hstart
  have hcommand (command : Command) (hname : Command.ofName (parseRequest c).1 = some command) : command.no = i := by
    rw [Command.eq_text_of_ofName hname] at hword
    have htext : order.getD command.no [] = command.text := by cases command <;> rfl
    rw [← htext] at hword
    exact (order_starts i hi command.no (by cases command <;> decide) hword).symm
  unfold isTransfer dispatch
  cases hname : Command.ofName (parseRequest c).1 with
  | none => rfl
  | some command =>
    have hno := hcommand command hname
    have hshort : i ≠ 5 ∧ i ≠ 6 := by
      constructor <;> rintro rfl <;> simp [checkSize] at hsize
    cases command <;> first | rfl | exact absurd hno.symm hshort.1 | exact absurd hno.symm hshort.2

theorem isLong_of_long {i : Nat} {token : CStr} (h : classify c = some (i, .long)) : (commandFrame c i token).isLong = true := by
  obtain ⟨-, -, hsize⟩ := classify_eq h
  have hlong : i = 5 ∨ i = 6 := by
    unfold checkSize at hsize
    split at hsize
    · split at hsize <;> cases hsize
    split at hsize
    · split at hsize <;> cases hsize
    split at hsize
    · assumption
    · split at hsize <;> cases hsize
  obtain rfl | rfl := hlong <;> rfl

end FirstWord

/-! ### The login -/

theorem login_issued {E : Env} {rand : CStr} {fd : Int} {frame : TransFile} {t t' : TokenInfo} {log : Log}
    (htoken : frame.token = []) (hno : frame.commandNo = 1) (h : (serve E rand fd frame t).Does log t')
    (hmade : ∀ users ∈ log.lookedUp, ∀ user ∈ users.head?, user.id ≠ 0 ∧
      ∀ now ∈ log.times, E.jwt.generateToken now { userId := user.id, workpath := '/' :: account frame } ≠ none) :
    ∀ train ∈ log.sent.head?, train.flag = true → E.jwt.Issued train.token := by
  unfold serve at h
  rw [if_pos htoken] at h
  obtain ⟨x, l, l', rfl, hlogin, hend⟩ := Prog.does_bind.1 h
  obtain ⟨rfl, -⟩ := Prog.does_pure.1 hend
  rw [List.append_nil] at *
  unfold checkUserLogin at hlogin
  cases hwords : loginWords frame.data with
  | none =>
    rw [hwords] at hlogin
    obtain ⟨r, -⟩ := Prog.does_op.1 hlogin
    exact nomatch (r : Empty)
  | some y =>
    obtain ⟨userName, userPwd⟩ := y
    obtain ⟨hsplit, -, -⟩ := loginWords_eq_some.1 hwords
    have haccount : account frame = userName := by
      unfold account parseRequest
      dsimp only
      rw [hsplit]
      rfl
    rw [hwords] at hlogin
    dsimp only at hlogin
    rw [if_neg (by omega), if_pos hno] at hlogin
    obtain ⟨users, l₁, l₂, rfl, huser, hreply⟩ := Prog.does_bind.1 hlogin
    obtain ⟨hsent, -, -⟩ := Log.of_sql (getUser_only.sql.does huser)
    rw [Log.sent_append, hsent]
    have hrefuse {msg : CStr} (h : ((sendMessage E.jwt fd msg false {}).bind fun _ => .pure ((1 : Int), {})).Does l₂ x) :
        ∀ train ∈ (Log.sent l₂).head?, train.flag = true → E.jwt.Issued train.token := by
      obtain ⟨_, rest, rfl, hpure⟩ := Prog.does_op.1 h
      obtain ⟨rfl, -⟩ := Prog.does_pure.1 hpure
      rintro _ ⟨⟩ ⟨⟩
    match users, hreply with
    | none, hreply => exact hrefuse hreply
    | some [], hreply =>
      obtain ⟨r, -⟩ := Prog.does_op.1 hreply
      exact nomatch (r : Empty)
    | some (user :: users), hreply =>
      dsimp only at hreply
      split at hreply
      · exact hrefuse hreply
      · obtain ⟨hid, hgen⟩ := hmade _ (by
          rw [Log.lookedUp_append]
          exact List.mem_append_left _ ((getUser_does huser).2 _ rfl)) user rfl
        unfold sendMessage at hreply
        rw [if_pos hid] at hreply
        obtain ⟨(now : Nat), rest, rfl, hsend⟩ := Prog.does_op.1 hreply
        obtain ⟨_, rest', rfl, hpure⟩ := Prog.does_op.1 hsend
        obtain ⟨rfl, -⟩ := Prog.does_pure.1 hpure
        rintro _ ⟨⟩ -
        refine Jwt.issued_of_generate ?_ hid
        rw [← haccount]
        exact hgen now (by simp [Log.times])

/-! ### Every token is somebody's -/

/-- What holds of a thread, and of its tokens as long as the first connection is there. -/
def Transfile.Fits (J : Jwt) (loggedIn closed : Bool) : Transfile → Prop
  | .created frame => loggedIn = true ∧ frame.isLong = true
  | .asked frame => frame.isLong = true ∧ (closed = false → J.Issued frame.token)
  | .left frame => frame.isLong = true ∧ closed = true
  | .served (some train) => closed = false → train.flag = false → J.Issued train.token
  | .served none | .over => True

namespace Client
variable {E : Env} {s t : Client}

/-- The short commands that wait have tokens, and while the first connection is there everything else
that becomes the token of a command has one. -/
structure Inv (E : Env) (s : Client) : Prop where
  token : s.loggedIn = true → s.closed = false → E.jwt.Issued s.globalToken
  requests : ∀ frame ∈ s.requests, E.jwt.Issued frame.token ∧ isTransfer frame.data = false
  replies : s.closed = false → ∀ train ∈ s.replies, E.jwt.Issued train.token
  threads : ∀ x ∈ s.threads, x.Fits E.jwt s.loggedIn s.closed

theorem menu_inv (workers : Nat → TokenInfo) : Inv E (menu workers) where
  token := nofun
  requests := nofun
  replies _ := nofun
  threads := nofun

theorem fits_closed {loggedIn closed : Bool} {x : Transfile} (h : x.Fits E.jwt loggedIn closed) : x.Fits E.jwt loggedIn true := by
  match x, h with
  | .created _, h => exact h
  | .asked _, h => exact ⟨h.1, nofun⟩
  | .left _, h => exact ⟨h.1, rfl⟩
  | .served (some _), _ => exact nofun
  | .served none, _ => trivial
  | .over, _ => trivial

theorem fits_loggedIn {loggedIn closed : Bool} {x : Transfile} (h : x.Fits E.jwt loggedIn closed) : x.Fits E.jwt true closed := by
  match x, h with
  | .created _, h => exact ⟨rfl, h.2⟩
  | .asked _, h => exact h
  | .left _, h => exact h
  | .served (some _), h => exact h
  | .served none, _ => trivial
  | .over, _ => trivial

theorem Inv.close {up : Bool} (h : Inv E s) : Inv E { s with up, closed := true } where
  token _ := nofun
  requests := h.requests
  replies := nofun
  threads x hx := fits_closed (h.threads x hx)

theorem Inv.leave {i : Nat} {res : Option TokenInfo} (h : ∀ token, res = some token → Inv E s) (hclosed : Inv E { s with closed := true }) :
    Inv E (s.leave i res) := by
  cases res with
  | some token =>
    have hs := h token rfl
    exact ⟨hs.token, hs.requests, hs.replies, hs.threads⟩
  | none => exact ⟨hclosed.token, hclosed.requests, hclosed.replies, hclosed.threads⟩

theorem Inv.set {k : Nat} {x : Transfile} (h : Inv E s) (hx : x.Fits E.jwt s.loggedIn s.closed) :
    Inv E { s with threads := s.threads.set k x } := by
  refine ⟨h.token, h.requests, h.replies, fun y hy => ?_⟩
  rcases List.mem_or_eq_of_mem_set hy with hy | rfl
  · exact h.threads y hy
  · exact hx

theorem Inv.renew {token : CStr} {reading : Bool} {rest : List TransFile} (h : Inv E s) (htoken : s.closed = false → E.jwt.Issued token)
    (hrest : ∀ train ∈ rest, train ∈ s.replies) : Inv E { s with globalToken := token, reading, replies := rest } where
  token _ := htoken
  requests := h.requests
  replies hclosed train htrain := h.replies hclosed train (hrest train htrain)
  threads := h.threads

theorem Inv.take {train : TransFile} (h : Inv E s) (htrain : s.closed = false → train.flag = false → E.jwt.Issued train.token) :
    Inv E (s.take train) := by
  unfold Client.take
  split
  · exact h
  · next hflag => exact h.renew (fun hclosed => htrain hclosed (by simpa using hflag)) fun _ => id

@[simp] theorem take_threads {train : TransFile} : (s.take train).threads = s.threads := by
  unfold Client.take
  split <;> rfl

@[simp] theorem take_loggedIn {train : TransFile} : (s.take train).loggedIn = s.loggedIn := by
  unfold Client.take
  split <;> rfl

@[simp] theorem take_closed {train : TransFile} : (s.take train).closed = s.closed := by
  unfold Client.take
  split <;> rfl

theorem Inv.welcome {reply : Option TransFile} (h : Inv E s)
    (hreply : s.closed = false → ∀ train ∈ reply, train.flag = true → E.jwt.Issued train.token) : Inv E (s.welcome reply) := by
  cases reply with
  | none => exact h
  | some train =>
    unfold Client.welcome
    dsimp only
    split
    · next hflag =>
      exact ⟨fun _ hopen => hreply hopen train rfl hflag, h.requests, h.replies, fun x hx => fits_loggedIn (h.threads x hx)⟩
    · exact h

theorem welcome_close {reply : Option TransFile} :
    ({ s with closed := true } : Client).welcome reply = { s.welcome reply with closed := true } := by
  cases reply with
  | none => rfl
  | some train =>
    unfold Client.welcome
    dsimp only
    split <;> rfl

theorem Inv.execute {command : CStr} (h : Inv E s) (hlogin : s.loggedIn = true) : Inv E (s.execute command) := by
  unfold Client.execute
  cases hclassify : classify command with
  | none => exact h
  | some x =>
    obtain ⟨i, _ | _⟩ := x
    · refine ⟨h.token, ?_, h.replies, h.threads⟩
      dsimp only
      split
      · exact h.requests
      · next hclosed =>
        have hopen : s.closed = false := by simpa using hclosed
        rintro frame hframe
        rcases List.mem_append.1 hframe with hframe | hframe
        · exact h.requests frame hframe
        · rw [List.mem_singleton.1 hframe]
          exact ⟨h.token hlogin hopen, isTransfer_of_short hclassify⟩
    · refine ⟨h.token, h.requests, h.replies, fun x hx => ?_⟩
      rcases List.mem_append.1 hx with hx | hx
      · exact h.threads x hx
      · rw [List.mem_singleton.1 hx]
        exact ⟨hlogin, isLong_of_long hclassify⟩

theorem Inv.request {source : Option Nat} {frame : TransFile} (h : Inv E s) (hreq : s.request source = some frame) :
    (frame.isLong = true ∨ E.jwt.Issued frame.token) ∧ (s.closed = false → E.jwt.Issued frame.token) := by
  cases source with
  | none =>
    have hframe := (h.requests frame (List.mem_of_mem_head? hreq)).1
    exact ⟨.inr hframe, fun _ => hframe⟩
  | some k =>
    obtain ⟨x, hx, hframe⟩ := Option.bind_eq_some_iff.1 hreq
    have hfits := h.threads x (List.mem_of_getElem? hx)
    cases x with
    | asked =>
      obtain rfl := Option.some.inj hframe
      exact ⟨.inl hfits.1, hfits.2⟩
    | left =>
      obtain rfl := Option.some.inj hframe
      refine ⟨.inl hfits.1, fun hopen => ?_⟩
      rw [hfits.2] at hopen
      cases hopen
    | _ => cases hframe

theorem Inv.respond {source : Option Nat} {frame : TransFile} {sent : List TransFile} (h : Inv E s)
    (hreq : s.request source = some frame)
    (hfirst : s.closed = false → ∀ train ∈ sent.head?, train.flag = false → E.jwt.Issued train.token)
    (hall : s.closed = false → isTransfer frame.data = false → ∀ train ∈ sent, E.jwt.Issued train.token) :
    Inv E (s.respond sent source) := by
  cases source with
  | none =>
    refine ⟨h.token, fun frame' hframe' => h.requests frame' (List.mem_of_mem_tail hframe'), fun hopen train htrain => ?_, h.threads⟩
    rcases List.mem_append.1 htrain with htrain | htrain
    · exact h.replies hopen train htrain
    · exact hall hopen (h.requests frame (List.mem_of_mem_head? hreq)).2 train htrain
  | some k =>
    obtain ⟨x, hx, hframe⟩ := Option.bind_eq_some_iff.1 hreq
    have hmodify : s.threads.modify k (Transfile.respond sent) = s.threads.set k (x.respond sent) := by
      rw [List.modify_eq_set_getElem?, hx]
      rfl
    unfold Client.respond
    dsimp only
    rw [hmodify]
    refine h.set ?_
    cases x with
    | asked =>
      unfold Transfile.respond
      dsimp only
      cases hhead : sent.head? with
      | none => trivial
      | some train => exact fun hopen => hfirst hopen train hhead
    | _ => trivial

/-! ### The runs -/

theorem Inv.serve {source : Option Nat} {i : Nat} {turn : Turn} (h : Inv E s) (hC : RenewsToken E s (.serve source i turn))
    (hst : Step E s (.serve source i turn) t) : Inv E t := by
  obtain ⟨-, hreq, res, hturn, rfl⟩ := hst
  obtain ⟨-, htoken⟩ := h.request hreq
  refine .leave (fun token hres => ?_) ?_
  · subst hres
    obtain ⟨_, ⟨⟩, hdoes⟩ := hturn
    have hrenewed (hopen : s.closed = false) : Renewed E.jwt (isTransfer turn.trans.data) turn.log :=
      serve_renewed (htoken hopen) (hC hopen) hdoes
    exact h.respond hreq (fun hopen => (hrenewed hopen).first) fun hopen => (hrenewed hopen).all
  · have hclosed : Inv E { s with closed := true } := h.close
    have hreq' : Client.request { s with closed := true } source = some turn.trans := by
      cases source <;> exact hreq
    have hrespond : Inv E (Client.respond { s with closed := true } turn.log.sent source) := hclosed.respond hreq' nofun nofun
    cases source <;> exact hrespond

theorem Inv.step {a : ClientAct} (h : Inv E s) (hC : RenewsToken E s a) (hst : Step E s a t) : Inv E t := by
  cases a with
  | login account password i turn =>
    obtain ⟨-, -, -, htrans, res, hturn, rfl⟩ := hst
    refine .leave (fun token hres => ?_) ?_
    · subst hres
      obtain ⟨_, ⟨⟩, hdoes⟩ := hturn
      exact h.welcome fun _ => login_issued (by rw [htrans]; rfl) (by rw [htrans]; rfl) hdoes hC
    · have hclosed : Inv E { s with closed := true } := h.close
      have hwelcome : Inv E (Client.welcome { s with closed := true } turn.log.sent.head?) := hclosed.welcome nofun
      rw [welcome_close] at hwelcome
      exact hwelcome
  | foreign i turn =>
    obtain ⟨-, res, -, rfl⟩ := hst
    exact .leave (fun _ _ => h) h.close
  | typed command =>
    obtain ⟨hlogin, -, rfl⟩ := hst
    exact h.execute hlogin
  | start k =>
    obtain ⟨frame, hk, rfl⟩ := hst
    obtain ⟨hlogin, hlong⟩ := h.threads _ (List.mem_of_getElem? hk)
    exact h.set ⟨hlong, h.token hlogin⟩
  | serve source i turn => exact h.serve hC hst
  | read =>
    obtain ⟨-, train, rest, hreplies, rfl⟩ := hst
    refine h.renew (fun hopen => h.replies hopen train ?_) fun train' htrain' => ?_
    · rw [hreplies]
      exact List.mem_cons_self
    · rw [hreplies]
      exact List.mem_cons_of_mem _ htrain'
  | answer k =>
    obtain ⟨train, hk, rfl⟩ := hst
    have htrain := h.threads _ (List.mem_of_getElem? hk)
    have hset := (h.take htrain).set (k := k) (x := .over) trivial
    rw [take_threads] at hset
    exact hset
  | lost =>
    obtain rfl := hst
    exact h.close
  | cut train =>
    obtain ⟨hclosed, -, hreplies, rfl⟩ := hst
    have hnone (hopen : s.closed = false) : E.jwt.Issued train.token := by
      rw [hclosed] at hopen
      cases hopen
    exact h.renew hnone fun _ => id
  | unanswered k train =>
    obtain ⟨x, hk, -, -, rfl⟩ := hst
    have hfits := h.threads _ (List.mem_of_getElem? hk)
    have hclosed : s.closed = true := hC
    have htrain (hopen : s.closed = false) : train.flag = false → E.jwt.Issued train.token := by
      rw [hclosed] at hopen
      cases hopen
    have habandon : x.abandon.Fits E.jwt (s.take train).loggedIn (s.take train).closed := by
      cases x with
      | asked =>
        rw [take_closed]
        exact ⟨hfits.1, hclosed⟩
      | _ => trivial
    have hset := (h.take htrain).set (k := k) habandon
    rw [take_threads] at hset
    exact hset

theorem Inv.keepsAccounts {a : ClientAct} (h : Inv E s) (hst : Step E s a t) : KeepsAccounts s a := by
  cases a with
  | serve source i turn =>
    obtain ⟨-, hreq, res, hturn, -⟩ := hst
    obtain ⟨hframe, -⟩ := h.request hreq
    have hno : turn.trans.token ≠ [] ∨ turn.trans.commandNo ≠ 0 ∧ turn.trans.commandNo ≠ 1 := by
      obtain hlong | hissued := hframe
      · obtain h5 | h6 : turn.trans.commandNo = 5 ∨ turn.trans.commandNo = 6 := by simpa [TransFile.isLong] using hlong
        · exact .inr (by omega)
        · exact .inr (by omega)
      · exact .inl hissued.ne_nil
    refine ⟨?_, ?_⟩
    · rintro ⟨htoken, h0 | h1⟩
      · obtain hne | ⟨hne, -⟩ := hno
        · exact hne htoken
        · exact hne h0
      · obtain hne | ⟨-, hne⟩ := hno
        · exact hne htoken
        · exact hne h1
    · obtain ⟨_, ⟨⟩, htraces⟩ := hturn
      exact (serve_unregistering hno).registered htraces
  | _ => trivial

/-- No typed command is taken for a registration or a login in a run in which every answer renews the
token. -/
theorem typed_not_account {workers : Nat → TokenInfo} {r : List (ClientAct × Client)} (hr : IsRun (Step E) (menu workers) r)
    (hC : Meets (RenewsToken E) (menu workers) r) : Meets KeepsAccounts (menu workers) r :=
  hr.meets_step (I := Inv E) (fun _ _ _ h hC hst => h.step hC hst) (fun _ _ _ h _ hst => h.keepsAccounts hst) (menu_inv workers) hC

/-- User 1 logs in. -/
def loginTurn : Turn where
  rand := []
  netFd := 4
  trans := loginFrame "a".toList "p".toList
  log := [⟨.getConnection, (some 0 : Option Conn)⟩, ⟨.selectUser 0 "a".toList, ([⟨1, "a".toList, "p".toList⟩] : List User)⟩,
    ⟨.releaseConnection 0, ()⟩, ⟨.time, (1 : Nat)⟩,
    ⟨.send 4 { data := utf8 "密码正确，欢迎登录", dataLength := (utf8 "密码正确，欢迎登录").length, flag := true, token := "0.1./a".toList }, ()⟩]

theorem loginTurn_step : TurnStep .plain (some {}) loginTurn (some { userId := 1, workpath := "/a".toList }) :=
  ⟨_, rfl, Prog.Does.of_replay (by decide +kernel)⟩

theorem pwdTurn_renews : Renews .plain {} pwdTurn.trans pwdTurn.log where
  refused := by
    rintro now rest hlog hnone
    obtain rfl : 1 = now := by injection hlog with hevent; simpa using hevent
    exact absurd hnone (by decide +kernel)
  made := by
    rintro now rest info hlog hmade now' hnow'
    injection hlog with hevent hrest
    obtain rfl : 1 = now := by simpa using hevent
    subst hrest
    obtain rfl : now' = 1 := List.mem_singleton.1 hnow'
    cases hmade with
    | refused hnone => exact absurd hnone (by decide +kernel)
    | @kept tok hverify _ =>
      obtain rfl := Option.some.inj hverify
      decide +kernel
    | moved _ hmoves =>
      obtain ⟨_, _, _, _, hdispatch, -⟩ := hmoves
      have hpwd : dispatch pwdTurn.trans.data = some (.pwd, []) := by decide +kernel
      rw [hpwd] at hdispatch
      cases hdispatch

theorem typed_not_account_pwd : ∃ s₁ s₂ s₃ s₄, Meets KeepsAccounts (menu fun _ => {})
    [(.login "a".toList "p".toList 0 loginTurn, s₁), (.typed "pwd\n".toList, s₂), (.serve none 1 pwdTurn, s₃), (.read, s₄)] := by
  refine ⟨_, _, _, _, typed_not_account (E := .plain) ⟨⟨rfl, rfl, rfl, rfl, _, loginTurn_step, rfl⟩, ⟨rfl, rfl, rfl⟩,
    ⟨rfl, ?_, _, pwdTurn_step, rfl⟩, ⟨rfl, _, _, rfl, rfl⟩, trivial⟩ ⟨?_, trivial, fun _ => ?_, trivial, trivial⟩⟩
  · decide +kernel
  · intro users husers user huser
    obtain rfl : users = [⟨1, "a".toList, "p".toList⟩] := List.mem_singleton.1 husers
    obtain rfl := Option.some.inj huser
    refine ⟨by decide, fun now hnow => ?_⟩
    obtain rfl : now = 1 := List.mem_singleton.1 hnow
    decide +kernel
  · exact pwdTurn_renews

/-- Its token has expired when user 1 asks for the working directory. -/
def expiredTurn : Turn := { pwdTurn with
  log := [⟨.time, (5 : Nat)⟩, ⟨.send 4 { data := utf8 "请重新登录", dataLength := (utf8 "请重新登录").length }, ()⟩] }

theorem expiredTurn_step : TurnStep .plain (some {}) expiredTurn (some {}) :=
  ⟨_, rfl, Prog.Does.of_replay (by decide +kernel)⟩

/-- What `cd x` is without a token. -/
def cdTurn : Turn where
  rand := []
  netFd := 4
  trans := commandFrame "cd x".toList 0 []
  log := [⟨.getConnection, (some 0 : Option Conn)⟩, ⟨.autocommit 0 false, ()⟩, ⟨.selectUser 0 "cd".toList, ([] : List User)⟩,
    ⟨.exec 0 (.insertUser "cd".toList "x".toList), (2 : Nat)⟩, ⟨.exec 0 .insertDir, (2 : Nat)⟩,
    ⟨.exec 0 (.insertUserFile "cd".toList 2 2 none), (2 : Nat)⟩, ⟨.commit 0, ()⟩, ⟨.autocommit 0 true, ()⟩,
    ⟨.releaseConnection 0, ()⟩, ⟨.time, (5 : Nat)⟩,
    ⟨.send 4 { data := utf8 "注册成功！", dataLength := (utf8 "注册成功！").length, flag := true, token := "00000.11./cd".toList }, ()⟩]

theorem cdTurn_step : TurnStep .plain (some {}) cdTurn (some { userId := 2, workpath := "/cd".toList }) :=
  ⟨_, rfl, Prog.Does.of_replay (by decide +kernel)⟩

/-- A worker that has served nobody answers the expired token with an empty one, and the next `cd x` makes
a user `cd`. -/
theorem cd_registers : ¬ ∀ E workers r, IsRun (Step E) (menu workers) r → Meets KeepsAccounts (menu workers) r := by
  intro h
  have hmeets := h .plain (fun _ => {}) [(.login "a".toList "p".toList 0 loginTurn, _), (.typed "pwd\n".toList, _),
      (.serve none 1 expiredTurn, _), (.read, _), (.typed "cd x\n".toList, _), (.serve none 2 cdTurn, _)]
    ⟨⟨rfl, rfl, rfl, rfl, _, loginTurn_step, rfl⟩, ⟨rfl, rfl, rfl⟩, ⟨rfl, by decide +kernel, _, expiredTurn_step, rfl⟩,
      ⟨rfl, _, _, rfl, rfl⟩, ⟨rfl, rfl, rfl⟩, ⟨rfl, by decide +kernel, _, cdTurn_step, rfl⟩, trivial⟩
  exact hmeets.2.2.2.2.2.1.1 ⟨rfl, .inl rfl⟩

end Client

end Netdisk

import Netdisk.Db.Sequential
import Netdisk.Worker

/-!
# Answers (`file_change.c`, `file_no_change.c`)

The query functions return small numbers that mean something else in each of them, and the handlers
turn them into texts. `Tells` and `Keeps` are what a client takes from an answer: whether it is right
about a fact, and whether nothing has changed if it is no success. For each handler they come down to
what its query returns.
-/

namespace Netdisk
open Os Prog

/-! ### Hearing an answer -/

/-- The tables, and the first frame that is sent with the tables as they are then. -/
structure Heard where
  db : Db
  first : Option (TransFile × Db) := none

namespace Heard

/-- What the answer says, unless it announces data. -/
def message (l : Heard) : Option CStr := l.first.bind fun x => if x.1.flag then none else some x.1.data

/-- The tables at the answer. -/
def tables (l : Heard) : Db := (l.first.map Prod.snd).getD l.db

/-- The answer is `success` exactly if that is a fact. -/
def Told (success : CStr) (fact : Db → Prop) (l : Heard) : Prop := l.message = some success ↔ fact l.tables

def after (l : Heard) : Op → Heard
  | .send _ train => { l with first := l.first.or (some (train, l.db)) }
  | .exec _ st => { l with db := l.db.exec st }
  | _ => l

end Heard

/-- The statements succeed and the rows come in the order `ord`; the client sends `frame`, and `open`
returns `opened`. -/
def Db.delivers (ord : RowOrder) (frame : TransFile) (opened : Int) (db : Db) : (o : Op) → Resp o → Prop
  | .recv _, r => r = frame
  | .openFile .., r => r = opened
  | o, r => o.isSql = true → (Db.handler ord o db).map (·.1) = some r

/-- A program faults only where `gone` holds. -/
def hearing (ord : RowOrder) (frame : TransFile) (opened : Int) (gone : Heard → Prop) : Protocol osSig Heard where
  ok l o := o = .crash → gone l
  resp l o r := l.db.delivers ord frame opened o r
  next l o _ := l.after o

section Answers
variable (ord : RowOrder) (frame : TransFile) (opened : Int) (db : Db)

/-- The answer is `success` exactly if that is a fact by then; where there is no answer it is none. -/
def Tells {α : Type} (success : CStr) (fact : Db → Prop) (p : Os α) : Prop :=
  p.wp (hearing ord frame opened (Heard.Told success fact)) (fun l _ => l.Told success fact) { db }

/-- Every other text leaves the tables and the token as they were. -/
def Keeps (success : CStr) (token : TokenInfo) (p : Os (Int × TokenInfo)) : Prop :=
  p.wp (hearing ord frame opened fun _ => True)
    (fun l x => ∀ text, l.message = some text → text ≠ success → l.db = db ∧ x.2 = token) { db }

end Answers

namespace Hearing
variable {α β : Type} {ord : RowOrder} {frame : TransFile} {opened : Int} {gone : Heard → Prop} {db db' : Db}
  {first : Option (TransFile × Db)} {post : Heard → α → Prop} {l : Heard}

theorem delivers_sql {o : Op} (ho : o.isSql = true) {r : Resp o} :
    db.delivers ord frame opened o r ↔ (Db.handler ord o db).map (·.1) = some r := by
  cases o with
  | getConnection | releaseConnection | autocommit | commit | selectUser | selectUserFile | selectFile | exec =>
    exact ⟨fun h => h rfl, fun h _ => h⟩
  | _ => cases ho

theorem after_sql {o : Op} (ho : o.isSql = true) {r : Resp o} (hx : Db.handler ord o db = some (r, db')) :
    (⟨db, first⟩ : Heard).after o = ⟨db', first⟩ := by
  cases o with
  | getConnection | releaseConnection | autocommit | commit | selectUser | selectUserFile | selectFile | exec =>
    obtain ⟨-, rfl⟩ := Prod.mk.inj (Option.some.inj hx)
    rfl
  | _ => cases ho

theorem wp_sql {o : Op} (ho : o.isSql = true) {r : Resp o} (hx : Db.handler ord o db = some (r, db')) {k : Resp o → Os α} :
    (Prog.op (S := osSig) o k).wp (hearing ord frame opened gone) post ⟨db, first⟩ ↔
      (k r).wp (hearing ord frame opened gone) post ⟨db', first⟩ := by
  have hafter : (⟨db, first⟩ : Heard).after o = ⟨db', first⟩ := after_sql ho hx
  have hdelivers : ∀ r', db.delivers ord frame opened o r' ↔ r = r' := by
    intro r'
    rw [delivers_sql ho, hx, Option.map_some, Option.some.injEq]
  have hcrash : o ≠ .crash := by
    rintro rfl
    cases ho
  rw [← hafter]
  constructor
  · intro h
    exact h.2 r ((hdelivers r).2 rfl)
  · intro h
    refine ⟨fun hc => absurd hc hcrash, fun r' hr' => ?_⟩
    obtain rfl := (hdelivers r').1 hr'
    exact h

/-- A program of the database only. -/
theorem wp_run {p : Os α} (hp : SqlOnly p) {a : α} (hrun : p.run (Db.handler ord) db = some (a, db')) :
    p.wp (hearing ord frame opened gone) post ⟨db, first⟩ ↔ post ⟨db', first⟩ a := by
  induction p generalizing db with
  | pure b =>
    obtain ⟨rfl, rfl⟩ := Prod.mk.inj (Option.some.inj hrun)
    rfl
  | op o k ih =>
    obtain ⟨⟨r, db₁⟩, hx, hrest⟩ := Option.bind_eq_some_iff.1 hrun
    rcases hp.1 with ho | rfl
    · exact (wp_sql ho hx).trans (ih r (hp.2 r) hrest)
    · cases hx

theorem wp_gone : (Os.crash : Os α).wp (hearing ord frame opened gone) post l ↔ gone l :=
  ⟨fun h => h.1 rfl, fun h => ⟨fun _ => h, fun e => nomatch (e : Empty)⟩⟩

/-- What starts with a `query_cd` that faults. -/
theorem wp_lost {path : CStr} {u : Nat} (hcd : db.cd ord path u = none) {k : Int → Os α} :
    ((queryCd path u).bind k).wp (hearing ord frame opened gone) post ⟨db, first⟩ ↔ gone ⟨db, first⟩ := by
  refine (wp_sql rfl rfl).trans ((wp_sql rfl rfl).trans ?_)
  unfold Db.cd at hcd
  cases hrows : db.selectUserFile ord (.ofUser u) with
  | nil =>
    rw [hrows] at hcd
    cases hcd
  | cons file files =>
    cases hnames : spliteFileName path with
    | none =>
      show ((Os.crash : Os Int).bind k).wp _ _ _ ↔ _
      rw [crash_bind]
      exact wp_gone
    | some names =>
      rw [hrows, hnames] at hcd
      cases hcd

theorem wp_recv {fd : Int} {k : TransFile → Os α} :
    ((recv fd).bind k).wp (hearing ord frame opened gone) post l ↔
      (k frame).wp (hearing ord frame opened gone) post l := by
  constructor
  · exact fun h => h.2 frame rfl
  · rintro h
    exact ⟨nofun, fun r (hr : r = frame) => hr ▸ h⟩

theorem wp_openFile {path : CStr} {creat : Bool} {k : Int → Os α} :
    ((openFile path creat).bind k).wp (hearing ord frame opened gone) post l ↔
      (k opened).wp (hearing ord frame opened gone) post l := by
  constructor
  · exact fun h => h.2 opened rfl
  · rintro h
    exact ⟨nofun, fun r (hr : r = opened) => hr ▸ h⟩

theorem wp_sendMessage {J : Jwt} {fd : Int} {msg : CStr} {flag : Bool} {info : TokenInfo} {post : Heard → Unit → Prop} :
    (sendMessage J fd msg flag info).wp (hearing ord frame opened gone) post l ↔
      ∀ now, post (l.after (.send fd (messageFrame J now msg flag info))) () := by
  unfold sendMessage messageFrame
  split
  · constructor
    · intro h now
      exact (h.2 now nofun).2 () nofun
    · intro h
      exact ⟨nofun, fun now _ => ⟨nofun, fun _ _ => h now⟩⟩
  · constructor
    · intro h _
      exact h.2 () nofun
    · intro h
      exact ⟨nofun, fun _ _ => h 0⟩

variable (ord frame opened db) in
/-- Something may come back of every call. -/
theorem exists_delivered (o : Op) (ho : o ≠ .crash) : ∃ r, db.delivers ord frame opened o r := by
  cases o with
  | crash => exact absurd rfl ho
  | recv => exact ⟨frame, rfl⟩
  | openFile => exact ⟨opened, rfl⟩
  | getConnection => exact ⟨some (0 : Nat), fun _ => rfl⟩
  | selectUser connect name => exact ⟨db.selectUser ord name, fun _ => rfl⟩
  | selectUserFile connect q => exact ⟨db.selectUserFile ord q, fun _ => rfl⟩
  | selectFile connect q => exact ⟨db.selectFile ord q, fun _ => rfl⟩
  | exec connect st => exact ⟨(db.change st).2, fun _ => rfl⟩
  | releaseConnection | autocommit | commit => exact ⟨(), fun _ => rfl⟩
  | send | close | ftruncate | sendfile => exact ⟨(), nofun⟩
  | recvBuf => exact ⟨([] : CStr), nofun⟩
  | lseekEnd => exact ⟨(0 : Int), nofun⟩
  | mmapWrite => exact ⟨true, nofun⟩
  | stat => exact ⟨(none : Option Int), nofun⟩
  | time => exact ⟨(0 : Nat), nofun⟩

/-- Once the answer is given, nothing is heard any more. -/
theorem wp_said {Q : Prop} {x : TransFile × Db} (hpost : ∀ m a, m.first = some x → (post m a ↔ Q))
    (hgone : ∀ m, m.first = some x → (gone m ↔ Q)) (p : Os α) (hl : l.first = some x) :
    p.wp (hearing ord frame opened gone) post l ↔ Q := by
  induction p generalizing l with
  | pure a => exact hpost l a hl
  | op o k ih =>
    have hafter : (l.after o).first = some x := by
      cases o with
      | send =>
        show l.first.or _ = _
        rw [hl]
        rfl
      | _ => exact hl
    by_cases ho : o = .crash
    · subst ho
      exact ⟨fun h => (hgone l hl).1 (h.1 rfl), fun h => ⟨fun _ => (hgone l hl).2 h, fun e => nomatch (e : Empty)⟩⟩
    · constructor
      · intro h
        obtain ⟨r, hr⟩ := exists_delivered ord frame opened l.db o ho
        exact (ih r hafter).1 (h.2 r hr)
      · exact fun h => ⟨fun hc => absurd hc ho, fun r _ => (ih r hafter).2 h⟩

end Hearing

open Hearing

/-! ### The handlers -/

/-- A query, and a message that goes by what it returns. -/
def answering (J : Jwt) (fd : Int) (query : Os Int) (text : Int → CStr) (token : Int → TokenInfo) (code : Int → Int) :
    Os (Int × TokenInfo) :=
  query.bind fun ret => (sendMessage J fd (text ret) false (token ret)).bind fun _ => .pure (code ret, token ret)

def cdText (ret : Int) : CStr :=
  if ret < 0 then utf8 "server busy,please retry"
  else if ret = 0 then utf8 "illegal path, please retry"
  else utf8 "change success"

def mkdirText (ret : Int) : CStr :=
  if ret = -1 then utf8 "系统繁忙，请稍候重试"
  else if ret = 0 then utf8 "请输入正确路径"
  else if ret = 1 then utf8 "当前目录下已有同名文件"
  else utf8 "创建成功"

def rmText (ret : Int) : CStr :=
  if ret = -1 then utf8 "系统繁忙，请稍候重试"
  else if ret = 1 then utf8 "请输入正确路径"
  else if ret = 2 then utf8 "文件夹非空，请清空后重试"
  else utf8 "删除成功"

def putsText (ret : Int) : CStr :=
  if ret = -2 then utf8 "服务器繁忙，请稍候重试"
  else if ret = -1 then utf8 "无效的路径，请重试"
  else if ret = 0 then utf8 "该目录下有同名文件，请检查"
  else utf8 "上传成功"

/-- `recv_file` after its query. -/
def putsReply (E : Env) (fd : Int) (trans : TransFile) (token : TokenInfo) (ret : Int) : Os (Int × TokenInfo) :=
  if ret = -2 ∨ ret = -1 ∨ ret = 0 ∨ ret = 2 then
    (sendMessage E.jwt fd (putsText ret) false token).bind fun _ => .pure (0, token)
  else (recvFileData E.jwt E.cwd fd trans token E.strerror).bind fun ret => .pure (ret, token)

section Handlers
variable {E : Env} {fd : Int} {argument path : CStr} {token : TokenInfo}

theorem dealCommand_cd (hpath : getUserPath argument token = some path) :
    dealCommand E .cd fd argument token = answering E.jwt fd (queryCd path token.userId) cdText
      (fun ret => if 0 < ret then { token with workpath := path } else token) fun _ => 0 := by
  show changeDir E.jwt fd argument token = _
  rw [changeDir, hpath]
  refine congrArg (queryCd path token.userId).bind (funext fun ret => ?_)
  unfold cdText
  dsimp only
  split
  · next hneg => rw [if_neg (by omega)]; rfl
  split
  · next hzero => rw [if_neg (by omega)]; rfl
  · rw [if_pos (by omega)]; rfl

theorem dealCommand_mkdir (hpath : getUserPath argument token = some path) :
    dealCommand E .mkdir fd argument token =
      answering E.jwt fd (queryMkdir (cutName path) (getFileName argument) token.userId) mkdirText (fun _ => token)
        fun ret => if ret = -1 ∨ ret = 0 ∨ ret = 1 then -1 else 0 := by
  show (addDir E.jwt fd argument token).bind _ = _
  rw [addDir, hpath]
  refine (Prog.bind_assoc _ _ _).trans (congrArg (queryMkdir _ _ _).bind (funext fun ret => ?_))
  unfold mkdirText
  dsimp only
  split
  · next h => rw [if_pos (.inl h)]; exact Prog.bind_assoc ..
  split
  · next h => rw [if_pos (.inr (.inl h))]; exact Prog.bind_assoc ..
  split
  · next h => rw [if_pos (.inr (.inr h))]; exact Prog.bind_assoc ..
  · next h₁ h₂ h₃ => rw [if_neg (not_or.2 ⟨h₁, not_or.2 ⟨h₂, h₃⟩⟩)]; exact Prog.bind_assoc ..

theorem dealCommand_rm (hpath : getUserPath argument token = some path) :
    dealCommand E .rm fd argument token =
      answering E.jwt fd (queryRemove (cutName path) (getFileName argument) token.userId) rmText (fun _ => token)
        fun ret => if ret = -1 ∨ ret = 1 ∨ ret = 2 then -1 else 0 := by
  show (removeFile E.jwt fd argument token).bind _ = _
  rw [removeFile, hpath]
  refine (Prog.bind_assoc _ _ _).trans (congrArg (queryRemove _ _ _).bind (funext fun ret => ?_))
  unfold rmText
  dsimp only
  split
  · next h => rw [if_pos (.inl h)]; exact Prog.bind_assoc ..
  split
  · next h => rw [if_pos (.inr (.inl h))]; exact Prog.bind_assoc ..
  split
  · next h => rw [if_pos (.inr (.inr h))]; exact Prog.bind_assoc ..
  · next h₁ h₂ h₃ => rw [if_neg (not_or.2 ⟨h₁, not_or.2 ⟨h₂, h₃⟩⟩)]; exact Prog.bind_assoc ..

theorem dealCommand_puts {localPath target : CStr} (hargs : spliteArgument argument = some (localPath, target))
    (hpath : getUserPath target token = some path) :
    dealCommand E .puts fd argument token = (recv fd).bind fun trans =>
      (queryPuts path (getFileName localPath) trans.data token.userId).bind (putsReply E fd trans token) := by
  show (recvFile E.jwt E.cwd fd argument token E.strerror).bind _ = _
  rw [recvFile, hargs]
  dsimp only
  rw [hpath]
  refine (Prog.bind_assoc _ _ _).trans (congrArg (recv fd).bind (funext fun trans => ?_))
  refine (Prog.bind_assoc _ _ _).trans (congrArg (queryPuts _ _ _ _).bind (funext fun ret => ?_))
  unfold putsReply putsText
  split
  · next h => rw [if_pos (.inl h)]; exact Prog.bind_assoc ..
  split
  · next h => rw [if_pos (.inr (.inl h))]; exact Prog.bind_assoc ..
  split
  · next h => rw [if_pos (.inr (.inr (.inl h)))]; exact Prog.bind_assoc ..
  split
  · next h => rw [if_pos (.inr (.inr (.inr h)))]; exact Prog.bind_assoc ..
  · next h₁ h₂ h₃ h₄ => rw [if_neg (not_or.2 ⟨h₁, not_or.2 ⟨h₂, not_or.2 ⟨h₃, h₄⟩⟩⟩)]; rfl

/-- Without a path, the command faults before it has done anything. -/
theorem dealCommand_noPath (hpath : getUserPath argument token = none) :
    dealCommand E .cd fd argument token = Os.crash ∧ dealCommand E .mkdir fd argument token = Os.crash ∧
      dealCommand E .rm fd argument token = Os.crash := by
  refine ⟨?_, ?_, ?_⟩
  · show changeDir E.jwt fd argument token = _
    rw [changeDir, hpath]
  · show (addDir E.jwt fd argument token).bind _ = _
    rw [addDir, hpath]
    exact crash_bind _
  · show (removeFile E.jwt fd argument token).bind _ = _
    rw [removeFile, hpath]
    exact crash_bind _

end Handlers

section Answering
variable {ord : RowOrder} {frame : TransFile} {opened fd ret : Int} {db db' : Db} {success : CStr} {fact : Db → Prop}
  {J : Jwt} {query : Os Int} {text : Int → CStr} {tok : Int → TokenInfo} {code : Int → Int} {token : TokenInfo}

theorem tells_crash : Tells ord frame opened db success fact (Os.crash : Os (Int × TokenInfo)) ↔ ¬ fact db := by
  refine wp_gone.trans ?_
  show (none = some success ↔ fact db) ↔ _
  simp

theorem keeps_crash : Keeps ord frame opened db success token Os.crash := wp_gone.2 trivial

theorem tells_answering (hq : SqlOnly query) (hrun : query.run (Db.handler ord) db = some (ret, db')) :
    Tells ord frame opened db success fact (answering J fd query text tok code) ↔ (text ret = success ↔ fact db') := by
  refine (wp_bind _ _).trans ((wp_run hq hrun).trans ((wp_bind _ _).trans (wp_sendMessage.trans ?_)))
  show (∀ _ : Nat, (some (text ret) = some success ↔ fact db')) ↔ _
  rw [forall_const, Option.some.injEq]

theorem keeps_answering (hq : SqlOnly query) (hrun : query.run (Db.handler ord) db = some (ret, db')) :
    Keeps ord frame opened db success token (answering J fd query text tok code) ↔
      (text ret ≠ success → db' = db ∧ tok ret = token) := by
  refine (wp_bind _ _).trans ((wp_run hq hrun).trans ((wp_bind _ _).trans (wp_sendMessage.trans ?_)))
  show (∀ _ : Nat, ∀ t, some (text ret) = some t → t ≠ success → db' = db ∧ tok ret = token) ↔ _
  simp

/-- The query faults in its `query_cd`. -/
theorem tells_lost {path : CStr} {u : Nat} {k : Int → Os Int} (hcd : db.cd ord path u = none) :
    Tells ord frame opened db success fact (answering J fd ((queryCd path u).bind k) text tok code) ↔ ¬ fact db := by
  refine (wp_bind _ _).trans ((wp_lost hcd).trans ?_)
  show (none = some success ↔ fact db) ↔ _
  simp

theorem keeps_lost {path : CStr} {u : Nat} {k : Int → Os Int} (hcd : db.cd ord path u = none) :
    Keeps ord frame opened db success token (answering J fd ((queryCd path u).bind k) text tok code) :=
  (wp_bind _ _).2 ((wp_lost hcd).2 trivial)

end Answering

section Upload
variable {α : Type} {ord : RowOrder} {frame trans : TransFile} {opened fd ret : Int} {gone : Heard → Prop} {db db' : Db}
  {success : CStr} {fact : Db → Prop} {J : Jwt} {cwd strerror : CStr} {token : TokenInfo} {E : Env}
  {post : Heard → α → Prop}

/-- The frame that announces the data is an answer without a text. -/
theorem wp_announced {Q : Prop} (hopen : 0 ≤ opened)
    (hpost : ∀ train : TransFile, train.flag = true → ∀ m a, m.first = some (train, db) → (post m a ↔ Q))
    (hgone : ∀ train : TransFile, train.flag = true → ∀ m, m.first = some (train, db) → (gone m ↔ Q)) {k : Int → Os α} :
    ((recvFileData J cwd fd trans token strerror).bind k).wp (hearing ord frame opened gone) post ⟨db, none⟩ ↔ Q := by
  rw [recvFileData, Prog.bind_eq, Prog.bind_assoc]
  refine wp_openFile.trans ?_
  dsimp only
  rw [if_neg (by omega)]
  have hsent : ∀ (train : TransFile), train.flag = true → ∀ p : Os α,
      p.wp (hearing ord frame opened gone) post ((⟨db, none⟩ : Heard).after (.send fd train)) ↔ Q :=
    fun train htrain p => wp_said (hpost train htrain) (hgone train htrain) p rfl
  constructor
  · intro h
    have hsend := (h.2 (0 : Int) nofun).2 () nofun
    exact (hsent _ rfl _).1 hsend
  · intro h
    exact ⟨nofun, fun size _ => ⟨nofun, fun _ _ => (hsent _ rfl _).2 h⟩⟩

theorem wp_notOpened (hopen : opened < 0) {k : Int → Os α} :
    ((recvFileData J cwd fd trans token strerror).bind k).wp (hearing ord frame opened gone) post ⟨db, none⟩ ↔
      ∀ now, (k (-1)).wp (hearing ord frame opened gone) post
        ((⟨db, none⟩ : Heard).after (.send fd (messageFrame J now strerror false token))) := by
  rw [recvFileData, Prog.bind_eq, Prog.bind_assoc]
  refine wp_openFile.trans ?_
  dsimp only
  rw [if_pos hopen]
  exact (wp_bind _ _).trans ((wp_bind _ _).trans wp_sendMessage)

/-- After the query: a text, that of a failed `open`, or the announcement of the data. -/
theorem wp_putsReply {post : Heard → Int × TokenInfo → Prop} {told : CStr → Prop} {silent : Prop}
    (hret : ret = -2 ∨ ret = -1 ∨ ret = 0 ∨ ret = 1 ∨ ret = 2)
    (htold : ∀ text now code,
      post ((⟨db, none⟩ : Heard).after (.send fd (messageFrame E.jwt now text false token))) (code, token) ↔ told text)
    (hpost : ∀ train : TransFile, train.flag = true → ∀ m x, m.first = some (train, db) → (post m x ↔ silent))
    (hgone : ∀ train : TransFile, train.flag = true → ∀ m, m.first = some (train, db) → (gone m ↔ silent)) :
    (putsReply E fd trans token ret).wp (hearing ord frame opened gone) post ⟨db, none⟩ ↔
      if ret = 1 then (if opened < 0 then told E.strerror else silent) else told (putsText ret) := by
  unfold putsReply
  by_cases hdata : ret = 1
  · have hno : ¬ (ret = -2 ∨ ret = -1 ∨ ret = 0 ∨ ret = 2) := by omega
    rw [if_neg hno, if_pos hdata]
    split
    · next hopen =>
      refine (wp_notOpened hopen).trans ?_
      constructor
      · exact fun h => (htold _ 0 _).1 (h 0)
      · exact fun h now => (htold _ now _).2 h
    · next hopen => exact wp_announced (not_lt.1 hopen) hpost hgone
  · have hmessage : ret = -2 ∨ ret = -1 ∨ ret = 0 ∨ ret = 2 := by omega
    rw [if_pos hmessage, if_neg hdata]
    refine (wp_bind _ _).trans (wp_sendMessage.trans ?_)
    constructor
    · exact fun h => (htold _ 0 _).1 (h 0)
    · exact fun h now => (htold _ now _).2 h

theorem putsText_eq_iff (hret : ret = -2 ∨ ret = -1 ∨ ret = 0 ∨ ret = 1 ∨ ret = 2) (hdata : ret ≠ 1) :
    putsText ret = utf8 "上传成功" ↔ ret = 2 := by
  have hmessage : ret = -2 ∨ ret = -1 ∨ ret = 0 ∨ ret = 2 := by omega
  rcases hmessage with rfl | rfl | rfl | rfl <;> decide

variable {path name : CStr} {u : Nat}

theorem tells_puts (hE : E.strerror ≠ utf8 "上传成功")
    (hrun : (queryPuts path name frame.data u).run (Db.handler ord) db = some (ret, db'))
    (hret : ret = -2 ∨ ret = -1 ∨ ret = 0 ∨ ret = 1 ∨ ret = 2) :
    Tells ord frame opened db (utf8 "上传成功") fact ((recv fd).bind fun trans =>
      (queryPuts path name trans.data u).bind (putsReply E fd trans token)) ↔ (ret = 2 ↔ fact db') := by
  have hsilent : ∀ train : TransFile, train.flag = true → ∀ m : Heard, m.first = some (train, db') →
      (m.Told (utf8 "上传成功") fact ↔ ¬ fact db') := by
    intro train htrain m hm
    unfold Heard.Told Heard.message Heard.tables
    rw [hm]
    simp [htrain]
  have htold : ∀ (text : CStr) (now : Nat) (_ : Int),
      ((⟨db', none⟩ : Heard).after (.send fd (messageFrame E.jwt now text false token))).Told (utf8 "上传成功") fact ↔
        (text = utf8 "上传成功" ↔ fact db') := by
    intro text now _
    show (some text = _ ↔ fact db') ↔ _
    rw [Option.some.injEq]
  refine wp_recv.trans ((wp_bind _ _).trans ((wp_run queryPuts_only.sql hrun).trans ?_))
  refine (wp_putsReply hret htold (fun train htrain m _ => hsilent train htrain m) hsilent).trans ?_
  split
  · next hdata => split <;> simp [hE, hdata]
  · next hdata => rw [putsText_eq_iff hret hdata]

theorem keeps_puts (hE : E.strerror ≠ utf8 "上传成功")
    (hrun : (queryPuts path name frame.data u).run (Db.handler ord) db = some (ret, db'))
    (hret : ret = -2 ∨ ret = -1 ∨ ret = 0 ∨ ret = 1 ∨ ret = 2) :
    Keeps ord frame opened db (utf8 "上传成功") token ((recv fd).bind fun trans =>
      (queryPuts path name trans.data u).bind (putsReply E fd trans token)) ↔
      (ret ≠ 2 → (ret = 1 → opened < 0) → db' = db) := by
  have hsilent : ∀ train : TransFile, train.flag = true → ∀ (m : Heard) (x : Int × TokenInfo), m.first = some (train, db') →
      ((∀ t, m.message = some t → t ≠ utf8 "上传成功" → m.db = db ∧ x.2 = token) ↔ True) := by
    intro train htrain m x hm
    unfold Heard.message
    rw [hm]
    simp [htrain]
  have htold : ∀ (text : CStr) (_ : Nat) (_ : Int),
      (∀ t, some text = some t → t ≠ utf8 "上传成功" → db' = db ∧ token = token) ↔ (text ≠ utf8 "上传成功" → db' = db) := by
    simp
  refine wp_recv.trans ((wp_bind _ _).trans ((wp_run queryPuts_only.sql hrun).trans ?_))
  refine (wp_putsReply hret htold hsilent fun _ _ _ _ => Iff.rfl).trans ?_
  split
  · next hdata =>
    split
    · next hopen => simp [hE, hdata, hopen]
    · next hopen => simp [hdata, hopen]
  · next hdata =>
    rw [ne_eq, putsText_eq_iff hret hdata]
    simp [hdata]

end Upload

end Netdisk

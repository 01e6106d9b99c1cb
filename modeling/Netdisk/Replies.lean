import Netdisk.Worker

/-!
# What a command without a transfer does

`Answering` lists what the handlers other than those of `puts` and `gets` are put together from; every
property of them is an induction over it.
-/

namespace Netdisk
open Os

/-- The program looks at the database and at files, sends frames that announce another one, and ends
with one that does not or with the end of the process. Its replies go to `fd`, with tokens made from
what `T` names. -/
inductive Answering (J : Jwt) (fd : Int) (T : TokenInfo → Prop) {α : Type} : Os α → Prop
  | crash : Answering J fd T crash
  | query {β : Type} {p : Os β} {f : β → Os α} : QueryOnly p → (∀ b, Answering J fd T (f b)) → Answering J fd T (p.bind f)
  | stat {path : CStr} {f : Option Int → Os α} : (∀ size, Answering J fd T (f size)) →
    Answering J fd T ((stat path).bind f)
  | more {msg : CStr} {token : TokenInfo} {f : Unit → Os α} : T token → Answering J fd T (f ()) →
    Answering J fd T ((sendMessage J fd msg true token).bind f)
  | last {msg : CStr} {token : TokenInfo} (a : α) : T token →
    Answering J fd T ((sendMessage J fd msg false token).bind fun _ => .pure a)
  | lost {msg : CStr} {token : TokenInfo} : T token →
    Answering J fd T ((sendMessage J fd msg false token).bind fun _ => Os.crash)

section Handlers
variable {α β : Type} {J : Jwt} {cwd : CStr} {fd : Int} {argument : CStr} {token : TokenInfo} {T : TokenInfo → Prop}

theorem Answering.map {p : Os α} (h : Answering J fd T p) (g : α → β) :
    Answering J fd T (p.bind fun a => .pure (g a)) := by
  induction h with
  | crash =>
    rw [crash_bind]
    exact .crash
  | query hquery _ ih =>
    rw [Prog.bind_assoc]
    exact .query hquery ih
  | stat _ ih => exact .stat ih
  | more htoken _ ih =>
    rw [Prog.bind_assoc]
    exact .more htoken ih
  | last a htoken =>
    rw [Prog.bind_assoc]
    exact .last (g a) htoken
  | lost htoken =>
    rw [Prog.bind_assoc]
    simp only [crash_bind]
    exact .lost htoken

theorem changeDir_answering (hT : T token) (hpath : ∀ path, T { token with workpath := path }) :
    Answering J fd T (changeDir J fd argument token) := by
  unfold changeDir
  cases getUserPath argument token with
  | none => exact .crash
  | some userPath =>
    refine .query queryCd_only fun ret => ?_
    split
    · exact .last _ hT
    split
    · exact .last _ hT
    · exact .last _ (hpath userPath)

theorem sendEach_answering (hT : T token) {texts : List CStr} {f : Unit → Os α} (hf : Answering J fd T (f ())) :
    Answering J fd T ((sendEach J fd token texts).bind f) := by
  induction texts with
  | nil => exact hf
  | cons text texts ih =>
    show Answering J fd _ (((sendMessage J fd text true token).bind _).bind f)
    rw [Prog.bind_assoc]
    exact .more hT ih

theorem showDir_answering (hT : T token) : Answering J fd T (showDir J fd argument token) := by
  unfold showDir
  cases getUserPath argument token with
  | none => exact .crash
  | some userPath =>
    refine .query queryLs_only fun res => ?_
    cases res with
    | none => exact .crash
    | some res => exact sendEach_answering hT (.last _ hT)

theorem showPath_answering (hT : T token) : Answering J fd T (showPath J fd argument token) := .last _ hT

theorem detailLoop_answering (hT : T token) {files : List FileT} {names : List UserFileT} {f : Unit → Os α}
    (hf : Answering J fd T (f ())) :
    Answering J fd T ((detailLoop J cwd fd token files names).bind f) := by
  induction files generalizing names with
  | nil => exact hf
  | cons file files ih =>
    refine .stat fun size => ?_
    cases size with
    | none => exact ih
    | some size =>
      cases names with
      | nil =>
        show Answering J fd _ (Os.crash.bind f)
        rw [crash_bind]
        exact .crash
      | cons uf names =>
        show Answering J fd _ (((sendMessage J fd _ true token).bind _).bind f)
        rw [Prog.bind_assoc]
        exact .more hT ih

theorem showDirDetail_answering (hT : T token) : Answering J fd T (showDirDetail J cwd fd argument token) := by
  unfold showDirDetail
  cases getUserPath argument token with
  | none => exact .crash
  | some userPath =>
    refine .query queryLl_only fun res => ?_
    cases res with
    | none => exact .last _ hT
    | some fileDetail =>
      refine .query queryLs_only fun res => ?_
      cases res with
      | none => exact .lost hT
      | some fileName => exact detailLoop_answering hT (.last _ hT)

theorem removeFile_answering (hT : T token) : Answering J fd T (removeFile J fd argument token) := by
  unfold removeFile
  cases getUserPath argument token with
  | none => exact .crash
  | some userPath =>
    refine .query queryRemove_only fun ret => ?_
    split
    · exact .last _ hT
    split
    · exact .last _ hT
    split
    · exact .last _ hT
    · exact .last _ hT

theorem addDir_answering (hT : T token) : Answering J fd T (addDir J fd argument token) := by
  unfold addDir
  cases getUserPath argument token with
  | none => exact .crash
  | some userPath =>
    refine .query queryMkdir_only fun ret => ?_
    split
    · exact .last _ hT
    split
    · exact .last _ hT
    split
    · exact .last _ hT
    · exact .last _ hT

theorem dealCommand_answering {E : Env} {command : Command} (hputs : command ≠ .puts) (hgets : command ≠ .gets) (hT : T token)
    (hpath : command = .cd → ∀ path, T { token with workpath := path }) :
    Answering E.jwt fd T (dealCommand E command fd argument token) := by
  cases command with
  | cd => exact changeDir_answering hT (hpath rfl)
  | ls => exact (showDir_answering hT).map fun ret => (ret, token)
  | ll => exact (showDirDetail_answering hT).map fun ret => (ret, token)
  | pwd => exact (showPath_answering hT).map fun ret => (ret, token)
  | mkdir => exact (addDir_answering hT).map fun ret => (ret, token)
  | puts => exact absurd rfl hputs
  | gets => exact absurd rfl hgets
  | rm => exact (removeFile_answering hT).map fun ret => (ret, token)

end Handlers

/-! ### The transfers -/

section Transfers
variable {J : Jwt} {cwd strerror argument : CStr} {fd : Int} {token : TokenInfo}

/-- `recv_file` after its `recv` and its `query_puts`: a message, or the transfer. -/
def Uploading (J : Jwt) (cwd strerror : CStr) (fd : Int) (token : TokenInfo) (header : TransFile) (p : Os Int) : Prop :=
  (∃ msg, p = (sendMessage J fd msg false token).bind fun _ => .pure 0) ∨ p = recvFileData J cwd fd header token strerror

theorem recvFile_cases {P : Os Int → Prop} (hcrash : P crash)
    (hrecv : ∀ userPath fileName (f : TransFile → Int → Os Int), (∀ header ret, Uploading J cwd strerror fd token header (f header ret)) →
      P ((recv fd).bind fun header => (queryPuts userPath fileName header.data token.userId).bind (f header))) :
    P (recvFile J cwd fd argument token strerror) := by
  unfold recvFile
  cases spliteArgument argument with
  | none => exact hcrash
  | some x =>
    obtain ⟨localPath, path⟩ := x
    dsimp only
    cases getUserPath path token with
    | none => exact hcrash
    | some userPath =>
      refine hrecv userPath (getFileName localPath) _ fun header ret => ?_
      split
      · exact .inl ⟨_, rfl⟩
      split
      · exact .inl ⟨_, rfl⟩
      split
      · exact .inl ⟨_, rfl⟩
      split
      · exact .inl ⟨_, rfl⟩
      · exact .inr rfl

/-- `send_file` once `query_gets` has found the file. -/
def sendFileData (J : Jwt) (cwd : CStr) (clientFd : Int) (hashValue : CStr) (token : TokenInfo) : Os Int := do
  let fd ← openFile (cwd ++ "/data/".toList ++ hashValue) false
  if fd ≤ 0 then
    sendMessage J clientFd (utf8 "服务器错误") false token
  let fileSize ← lseekEnd fd
  send clientFd { dataLength := intOf fileSize, flag := true }
  let trans ← recv clientFd
  let clientSize := trans.dataLength
  sendfile clientFd fd clientSize (fileSize - clientSize)
  let _ ← recv clientFd
  close clientFd
  return 0

/-- What `sendFileData` does with the open file, also after the message that it cannot open it. -/
def sendOpened (clientFd fd : Int) : Os Int := do
  let fileSize ← lseekEnd fd
  send clientFd { dataLength := intOf fileSize, flag := true }
  let trans ← recv clientFd
  sendfile clientFd fd trans.dataLength (fileSize - trans.dataLength)
  let _ ← recv clientFd
  close clientFd
  return 0

/-- `send_file` after its `query_gets`: a message and the end of the connection, or the transfer. -/
def Downloading (J : Jwt) (cwd : CStr) (fd : Int) (token : TokenInfo) (p : Os Int) : Prop :=
  (∃ msg, p = (sendMessage J fd msg false token).bind fun _ => (close fd).bind fun _ => .pure 0) ∨
    ∃ hash, p = sendFileData J cwd fd hash token

theorem sendFile_cases {P : Os Int → Prop} (hcrash : P crash)
    (hgets : ∀ path name (f : Int × CStr → Os Int), (∀ x, Downloading J cwd fd token (f x)) →
      P ((queryGets path name token.userId).bind f)) : P (sendFile J cwd fd argument token) := by
  unfold sendFile
  cases spliteArgument argument with
  | none => exact hcrash
  | some x =>
    obtain ⟨path, localPath⟩ := x
    dsimp only
    cases getUserPath path token with
    | none => exact hcrash
    | some userPath =>
      refine hgets _ _ _ fun x => ?_
      obtain ⟨ret, hashValue⟩ := x
      dsimp only
      split
      · exact .inl ⟨_, rfl⟩
      split
      · exact .inl ⟨_, rfl⟩
      · exact .inr ⟨hashValue, rfl⟩

end Transfers

end Netdisk

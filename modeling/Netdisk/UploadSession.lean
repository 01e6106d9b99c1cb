import Netdisk.Pool
import Netdisk.Upload

/-!
# The course of an upload session

What `recv_file` may do when: it writes to the stored file of its digest between a look at the rows
of that digest and `close`, and marks the digest complete after that (`sessProtocol`).
-/

namespace Netdisk

/-- Where a session stands: the digest is known, was found incomplete or unknown, is being written,
is done with. -/
inductive Sess
  | start
  | seen (d : CStr)
  | passed (d : CStr)
  | writing (d : CStr) (fd : Int)
  | closed (d : CStr)
deriving DecidableEq

def Sess.digest : Sess → Option CStr
  | .start => none
  | .seen d | .passed d | .writing d _ | .closed d => some d

/-- The answers of `select` on which `query_puts` lets the transfer begin. -/
def Passes (d : CStr) (q : Db.FileQuery) (r : List FileT) : Prop :=
  q = .byHash d ∧ (r = [] ∨ ∃ f ∈ r, f.complete = false) ∨ ∃ f ∈ r, f.hashValue = d ∧ f.complete = false

instance (d : CStr) (q : Db.FileQuery) (r : List FileT) : Decidable (Passes d q r) :=
  inferInstanceAs (Decidable (_ ∨ _))

/-- Rows and files of a digest are touched between the look at its rows and `close` only, and it is
marked complete after that. -/
def sessProtocol (cwd : CStr) : Prog.Protocol osSig Sess where
  ok
    | l, .recv _ => l = .start
    | l, .selectFile _ _ => ∃ d, l = .seen d
    | l, .commit _ | l, .autocommit _ true => ∃ d, l = .seen d ∨ l = .passed d
    | l, .exec _ (.insertFile _ h) => l = .passed h
    | l, .exec _ (.insertUserFile ..) => l ≠ .start
    | l, .exec _ (.updateComplete h) => l = .closed h
    | _, .exec _ _ => False
    | l, .openFile path _ => ∃ d, l = .passed d ∧ path = realPath cwd d
    | l, .ftruncate fd _ | l, .mmapWrite fd _ _ => ∃ d, l = .writing d fd
    | _, .selectUser .. | _, .stat _ | _, .sendfile .. => False
    | _, _ => True
  resp _ _ _ := True
  next
    | .start, .recv _, f => .seen f.data
    | .seen d, .selectFile _ q, r => if Passes d q r then .passed d else .seen d
    | .passed d, .openFile _ _, fd => if fd < 0 then .closed d else .writing d fd
    | .writing d fd, .close fd', _ => if fd' = fd then .closed d else .writing d fd
    | l, _, _ => l

section Next
variable {cwd d : CStr} {fd : Int}

theorem next_select {c : Conn} {q : Db.FileQuery} {r : List FileT} :
    (sessProtocol cwd).next (.seen d) (.selectFile c q) r = if Passes d q r then .passed d else .seen d := rfl

theorem next_open {path : CStr} {creat : Bool} :
    (sessProtocol cwd).next (.passed d) (.openFile path creat) fd = if fd < 0 then .closed d else .writing d fd := rfl

theorem next_close {fd' : Int} {r : Unit} :
    (sessProtocol cwd).next (.writing d fd) (.close fd') r = if fd' = fd then .closed d else .writing d fd := rfl

end Next

/-- The calls of `query_cd`. -/
def Op.isLookup : Op → Bool
  | .getConnection | .releaseConnection _ | .selectUserFile .. | .crash => true
  | _ => false

/-- Those, replies, and what leaves files and rows alone. -/
def Op.isQuiet : Op → Bool
  | .getConnection | .releaseConnection _ | .selectUserFile .. | .send .. | .recvBuf _ | .lseekEnd _ | .time
  | .crash => true
  | _ => false

/-- Nothing but such operations. -/
abbrev Quiet {α : Type} (p : Os α) : Prop := Prog.Only (S := osSig) (fun o : Op => o.isQuiet = true) p

section Wp
variable {J : Jwt} {cwd strerror d : CStr} {l : Sess} {fd : Int}

theorem Quiet.sess {α : Type} {p : Os α} (h : Quiet p) : p.wp (sessProtocol cwd) (fun l' _ => l' = l) l := by
  refine h.wp fun (o : Op) ho => ?_
  cases o with
  | getConnection | releaseConnection | selectUserFile | send | recvBuf | lseekEnd | time | crash =>
    exact ⟨trivial, fun r => by cases l <;> rfl⟩
  | _ => cases ho

theorem sendMessage_quiet (msg : CStr) (flag : Bool) (info : TokenInfo) :
    Quiet (sendMessage J fd msg flag info) := by
  unfold sendMessage
  split <;> simp [Op.isQuiet, Os.send, Prog.perform]

theorem queryCd_lookups (path : CStr) (u : Nat) :
    Prog.Only (S := osSig) (fun o : Op => o.isLookup = true) (queryCd path u) := by
  simp only [queryCd, Prog.bind_eq, Os.getConnection_bind, Prog.only_op]
  refine ⟨rfl, fun r => ?_⟩
  cases r with
  | none => trivial
  | some c =>
    simp only [Os.selectUserFile_bind, Prog.only_op]
    refine ⟨rfl, fun rows => ?_⟩
    cases rows with
    | nil => simp [Op.isLookup]
    | cons file files =>
      dsimp only
      split
      · exact ⟨rfl, fun e => nomatch (e : Empty)⟩
      · simp [Op.isLookup]

theorem queryCd_quiet (path : CStr) (u : Nat) : Quiet (queryCd path u) :=
  (queryCd_lookups path u).mono fun (o : Op) ho => by cases o <;> first | rfl | cases ho

/-- The transfer may begin unless `query_puts` returns one of the other codes. -/
def PutsCode (d : CStr) (l : Sess) (ret : Int) : Prop := l = .passed d ∨ ret = -2 ∨ ret = -1 ∨ ret = 0 ∨ ret = 2

theorem queryPuts_sess (path fileName : CStr) (u : Nat) :
    (queryPuts path fileName d u).wp (sessProtocol cwd) (PutsCode d) (.seen d) := by
  unfold queryPuts
  rw [Prog.bind_eq]
  refine (queryCd_quiet path u).sess.bind fun l dir hl => ?_
  subst hl
  split
  · exact .inr (.inl rfl)
  split
  · exact .inr (.inr (.inl rfl))
  refine ⟨trivial, fun r _ => ?_⟩
  cases r with
  | none => exact ⟨trivial, fun e => nomatch (e : Empty)⟩
  | some c =>
    refine ⟨trivial, fun rows _ => ?_⟩
    cases rows with
    | cons sameName rest =>
      refine ⟨⟨d, rfl⟩, fun files _ => ?_⟩
      cases files with
      | nil => exact ⟨trivial, fun e => nomatch (e : Empty)⟩
      | cons f files =>
        refine ⟨trivial, fun _ _ => ?_⟩
        -- the code is 1 for an incomplete row with the digest only
        by_cases hf : d = f.hashValue ∧ f.complete = false
        · have hp : Passes d (.byId (regOf (intOf sameName.fileId))) (f :: files) :=
            .inr ⟨f, List.mem_cons_self, hf.1.symm, hf.2⟩
          exact .inl (by simp only [sessProtocol, if_pos hp])
        · refine .inr (.inr (.inr ?_))
          split
          · next hd =>
            have hcomplete : f.complete = true := by simpa [hd] using hf
            exact .inr (if_pos hcomplete)
          · exact .inl rfl
    | nil =>
      refine ⟨⟨d, rfl⟩, fun files _ => ?_⟩
      cases files with
      | nil =>
        have hp : Passes d (.byHash d) [] := .inl ⟨rfl, .inl rfl⟩
        simp only [sessProtocol, if_pos hp, Prog.bind_eq]
        exact ⟨trivial, fun _ _ => ⟨rfl, fun fileId _ => ⟨nofun, fun _ _ => ⟨⟨d, .inr rfl⟩, fun _ _ =>
          ⟨⟨d, .inr rfl⟩, fun _ _ => ⟨trivial, fun _ _ => .inl rfl⟩⟩⟩⟩⟩⟩
      | cons f files =>
        refine ⟨?_, fun _ _ => ⟨trivial, fun _ _ => ?_⟩⟩
        · dsimp only [sessProtocol]
          split <;> exact nofun
        · cases hf : f.complete with
          | true => exact .inr (.inr (.inr (.inr rfl)))
          | false =>
            have hp : Passes d (.byHash d) (f :: files) :=
              .inl ⟨rfl, .inr ⟨f, List.mem_cons_self, hf⟩⟩
            exact .inl (by simp only [sessProtocol, if_pos hp])

theorem recvLoop_sess (clientFd fileSize : Int) (fuel : Nat) (offset : Int) :
    (recvLoop clientFd fd fileSize fuel offset).wp (sessProtocol cwd) (fun l' _ => l' = .writing d fd)
      (.writing d fd) := by
  induction fuel generalizing offset with
  | zero => rfl
  | succ fuel ih =>
    rw [recvLoop]
    split
    · refine ⟨trivial, fun buf _ => ?_⟩
      show Prog.wp _ _ (if buf = [] then _ else _) (Sess.writing d fd)
      split
      · rfl
      · refine ⟨⟨d, rfl⟩, fun mapped _ => ?_⟩
        cases mapped with
        | true => exact ih _
        | false => rfl
    · rfl

theorem queryUpdate_sess : (queryUpdate d).wp (sessProtocol cwd) (fun _ _ => True) (.closed d) := by
  refine ⟨trivial, fun r _ => ?_⟩
  cases r with
  | none => trivial
  | some c => exact ⟨rfl, fun _ _ => ⟨trivial, fun _ _ => trivial⟩⟩

theorem recvFileData_sess (clientFd : Int) (trans : TransFile) (token : TokenInfo) :
    (recvFileData J cwd clientFd trans token strerror).wp (sessProtocol cwd) (fun _ _ => True)
      (.passed trans.data) := by
  refine ⟨⟨trans.data, rfl, rfl⟩, fun fd _ => ?_⟩
  show Prog.wp _ _ (if fd < 0 then _ else _) (if fd < 0 then Sess.closed trans.data else .writing trans.data fd)
  split
  · rw [Prog.bind_eq, Prog.wp_bind]
    exact (sendMessage_quiet _ _ _).sess.mono fun _ _ _ => trivial
  · refine ⟨trivial, fun size _ => ⟨trivial, fun _ _ => ⟨⟨_, rfl⟩, fun _ _ => ?_⟩⟩⟩
    show Prog.wp _ _ ((recvLoop _ _ _ _ _).bind _) (Sess.writing trans.data fd)
    refine (recvLoop_sess _ _ _ _).bind fun l offset hl => ?_
    subst hl
    refine ⟨trivial, fun _ _ => ⟨trivial, fun _ _ => ⟨trivial, fun _ _ => ?_⟩⟩⟩
    -- both ways of the first `close` end in the same state after the second
    have hclosed : (sessProtocol cwd).next (if clientFd = fd then .closed trans.data else .writing trans.data fd)
        (.close fd) () = .closed trans.data := by
      split
      · rfl
      · exact if_pos rfl
    show Prog.wp _ _ (if offset = intOf trans.dataLength then _ else _) ((sessProtocol cwd).next
      (if clientFd = fd then .closed trans.data else .writing trans.data fd) (.close fd) ())
    rw [hclosed]
    split
    · rw [Prog.bind_eq, Prog.wp_bind]
      exact queryUpdate_sess.mono fun _ _ _ => trivial
    · trivial

theorem recvFile_sess (clientFd : Int) (argument : CStr) (token : TokenInfo) :
    (recvFile J cwd clientFd argument token strerror).wp (sessProtocol cwd) (fun _ _ => True) .start := by
  unfold recvFile
  split
  · split
    · refine ⟨rfl, fun (trans : TransFile) _ => ?_⟩
      show Prog.wp _ _ ((queryPuts _ _ trans.data _).bind _) (Sess.seen trans.data)
      refine (queryPuts_sess _ _ _).bind fun l ret hl => ?_
      have hreply : ∀ msg, ((sendMessage J clientFd msg false token).bind fun _ => .pure 0).wp (sessProtocol cwd)
          (fun _ (_ : Int) => True) l := fun msg => by
        exact (sendMessage_quiet _ _ _).sess.bind fun _ _ _ => trivial
      split
      · exact hreply _
      split
      · exact hreply _
      split
      · exact hreply _
      split
      · exact hreply _
      · next h₁ h₂ h₃ h₄ =>
        rcases hl with rfl | hret | hret | hret | hret
        · exact recvFileData_sess _ _ _
        · exact absurd hret h₁
        · exact absurd hret h₂
        · exact absurd hret h₃
        · exact absurd hret h₄
    · exact ⟨trivial, fun e => nomatch (e : Empty)⟩
  · exact ⟨trivial, fun e => nomatch (e : Empty)⟩

end Wp

/-- Nothing that concerns the database. -/
abbrev NoSql {α : Type} (p : Os α) : Prop := Prog.Only (S := osSig) (fun o : Op => o.isSql = false) p

section Conn
variable {J : Jwt} {cwd strerror : CStr} {l : Hold}

theorem NoSql.conn {α : Type} {p : Os α} (h : NoSql p) : p.wp connProtocol (fun l' _ => l' = l) l := by
  refine h.wp fun (o : Op) ho => ⟨?_, fun r => ?_⟩
  · cases l <;> cases o <;> first | exact ho | cases ho
  · cases l <;> cases o <;> first | rfl | cases ho

theorem sendMessage_noSql (fd : Int) (msg : CStr) (flag : Bool) (info : TokenInfo) : NoSql (sendMessage J fd msg flag info) := by
  unfold sendMessage
  split <;> simp [Op.isSql, Os.send, Prog.perform]

theorem recvLoop_noSql (clientFd fd fileSize : Int) (fuel : Nat) (offset : Int) :
    NoSql (recvLoop clientFd fd fileSize fuel offset) :=
  (recvLoop_only clientFd fd fileSize fuel offset).mono fun (o : Op) ho => by
    cases o <;> first | rfl | exact absurd ho (by simp [Op.isReceive])

theorem recvFileData_returns (clientFd : Int) (trans : TransFile) (token : TokenInfo) :
    Returns (recvFileData J cwd clientFd trans token strerror) := by
  refine ⟨rfl, fun (fd : Int) _ => ?_⟩
  show Prog.wp _ _ (if fd < 0 then _ else _) Hold.idle
  split
  · exact Returns.bind (sendMessage_noSql _ _ _ _).conn fun _ => rfl
  · refine ⟨rfl, fun size _ => ⟨rfl, fun _ _ => ⟨rfl, fun _ _ => ?_⟩⟩⟩
    show Prog.wp _ _ ((recvLoop _ _ _ _ _).bind _) Hold.idle
    refine Returns.bind (recvLoop_noSql _ _ _ _ _).conn fun (offset : Int) => ?_
    refine ⟨rfl, fun _ _ => ⟨rfl, fun _ _ => ⟨rfl, fun _ _ => ?_⟩⟩⟩
    show Prog.wp _ _ (if offset = intOf trans.dataLength then _ else _) Hold.idle
    split
    · exact (queryUpdate_borrows trans.data).returns.bind fun _ => rfl
    · rfl

theorem recvFile_returns (clientFd : Int) (argument : CStr) (token : TokenInfo) :
    Returns (recvFile J cwd clientFd argument token strerror) := by
  unfold Returns recvFile
  split
  · split
    · refine ⟨rfl, fun (trans : TransFile) _ => ?_⟩
      refine (queryPuts_borrows _ _ trans.data _).returns.bind fun ret => ?_
      have hreply : ∀ msg, ((sendMessage J clientFd msg false token).bind fun _ => .pure 0).wp connProtocol
          (fun l (_ : Int) => l = .idle) .idle := fun msg =>
        Returns.bind (sendMessage_noSql _ _ _ _).conn fun _ => rfl
      split
      · exact hreply _
      split
      · exact hreply _
      split
      · exact hreply _
      split
      · exact hreply _
      · exact recvFileData_returns _ _ _
    · exact wp_crash
  · exact wp_crash

theorem UploadCall.wp (call : UploadCall) :
    (call.prog J cwd strerror).wp (connProtocol.prod (sessProtocol cwd)) (fun _ _ => True) (.idle, .start) := by
  have hconn : (call.prog J cwd strerror).wp connProtocol (fun l _ => l = .idle) .idle :=
    Returns.bind (recvFile_returns _ _ _) fun _ => rfl
  have hsess : (call.prog J cwd strerror).wp (sessProtocol cwd) (fun _ _ => True) .start := by
    rw [UploadCall.prog]
    exact (recvFile_sess _ _ _).bind fun _ _ _ => trivial
  exact (hconn.prod hsess).mono fun _ _ _ => trivial

end Conn

end Netdisk

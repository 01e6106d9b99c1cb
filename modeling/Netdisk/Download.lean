import Netdisk.Client
import Netdisk.Db.Sequential
import Netdisk.Lib.Bytes
import Netdisk.UploadSession

/-!
# Downloads

`gets_File` of the client against `send_file` of the server, over connections that may be cut
anywhere and bring the bytes in pieces of any size. The client resumes at the length of its own
file, which it has extended before the first byte came: `downloaded_of_pagesRight` says that the file
is complete when the transfer is, as long as no transfer resumes behind bytes that were never received.
-/

namespace Netdisk
open Runs

/-! ### The server's side -/

/-- What `send_file` is called with, and what it finds. -/
structure Source where
  jwt : Jwt
  cwd : CStr
  ord : RowOrder
  now : Nat
  db : Db
  files : CStr → Option CStr
  clientFd : Int
  argument : CStr
  token : TokenInfo

namespace Source

/-- The tables, the bytes of the file that is open, and what has been sent. -/
structure Sending where
  db : Db
  file : CStr := []
  frames : List TransFile := []
  bytes : CStr := []

variable (W : Source)

/-- What the operations of `send_file` do, when the client answers with `reply`. -/
def handler (reply : TransFile) : (o : Op) → Sending → Option (Resp o × Sending)
  | .openFile path _, s => match W.files path with
    | some file => some (3, { s with file })
    | none => some (-1, s)
  | .lseekEnd _, s => some ((s.file.length : Int), s)
  | .send _ train, s => some ((), { s with frames := s.frames ++ [train] })
  | .recv _, s => some (reply, s)
  | .sendfile _ _ offset count, s =>
    some ((), { s with bytes := s.bytes ++ (s.file.drop offset.toNat).take count.toNat })
  | .close _, s => some ((), s)
  | .time, s => some (W.now, s)
  | o, s => (Db.handler W.ord o s.db).map fun x => (x.1, { s with db := x.2 })

/-- The frames and the bytes that the client is sent. -/
def send (reply : TransFile) : Option (List TransFile × CStr) :=
  ((sendFile W.jwt W.cwd W.clientFd W.argument W.token).run (W.handler reply) { db := W.db }).map fun x =>
    (x.2.frames, x.2.bytes)

/-- `query_gets` finds the complete file with the bytes `content`. -/
def Serves (content : CStr) : Prop :=
  ∃ path rest userPath hash, spliteArgument W.argument = some (path, rest) ∧ getUserPath path W.token = some userPath ∧
    (queryGets (cutName userPath) (getFileName userPath) W.token.userId).run (Db.handler W.ord) W.db =
      some ((1, hash), W.db) ∧ W.files (W.cwd ++ "/data/".toList ++ hash) = some content

/-- What the first frame announces. -/
def announce : TransFile := (W.send {}).elim {} fun x => x.1.headD {}

/-- The bytes that follow the client's answer. -/
def follow (reply : TransFile) : CStr := (W.send reply).elim [] Prod.snd

end Source

/-! ### The client's side -/

/-- The first `n` bytes of a frame, in one of zeros: `data`, `data_length`, `command_no`, `flag` and
`token` one after the other. -/
def arrived (n : Nat) (train : TransFile) : TransFile where
  data := train.data.take n
  dataLength := if 1028 ≤ n then train.dataLength else train.dataLength % 256 ^ (n - 1024)
  commandNo := if 1032 ≤ n then train.commandNo else train.commandNo % 256 ^ (n - 1028)
  flag := decide (1032 < n) && train.flag
  token := train.token.take (n - 1033)

/-- One download: how many bytes of the first frame arrive, how many of the file, and how many each
`read` brings. -/
structure Pull where
  header : Nat
  cut : Nat
  sizes : List Nat

/-- The local file, the frames that the client has sent, and the bytes that are still to arrive. -/
structure Pulling where
  file : CStr
  sent : List TransFile := []
  down : CStr := []
  sizes : List Nat

/-- What the operations of `gets_File` do. -/
def Pulling.handler (W : Source) (p : Pull) : (o : Op) → Pulling → Option (Resp o × Pulling)
  | .recv _, s => some (arrived p.header W.announce, s)
  | .lseekEnd _, s => some ((s.file.length : Int), s)
  | .send _ train, s => some ((), { s with
      sent := s.sent ++ [train]
      down := if s.sent = [] then (W.follow train).take p.cut else s.down })
  | .ftruncate _ length, s =>
    some ((), if length < 0 then s else { s with file := Bytes.resize '\x00' length.toNat s.file })
  | .recvBuf _, s =>
    let n := max 1 (min 4096 (s.sizes.headD 4096))
    some (s.down.take n, { s with down := s.down.drop n, sizes := s.sizes.tail })
  | .mmapWrite _ offset bytes, s =>
    if offset < 0 ∨ offset % pageSize ≠ 0 then some (false, s)
    else if Store.pageEnd s.file.length < offset.toNat + bytes.length then none
    else some (true, { s with file := Bytes.overwrite offset.toNat bytes s.file })
  | _, _ => none

/-- The local file, and `cur_size` where the last download left its loop. -/
structure Local where
  file : Option CStr := none
  curSize : Option Int := none
deriving DecidableEq

/-- One download into the local file, which is made if it is not there. -/
def pull (W : Source) (fd socketFd : Int) (s : Local) (p : Pull) : Option Local :=
  ((getsFile fd socketFd).run (Pulling.handler W p) { file := s.file.getD [], sizes := p.sizes }).map fun x =>
    { file := some x.2.file, curSize := x.1.getLeft? }

abbrev PullStep (W : Source) (fd socketFd : Int) (s : Local) (p : Pull) (t : Local) : Prop :=
  pull W fd socketFd s p = some t

/-- A download that has come to the end of the file has brought its bytes. -/
def Downloaded (content : CStr) (s : Local) : Prop :=
  s.curSize = some (content.length : Int) → s.file = some content

/-- Where a download asks for the length of the local file, the whole pages of it hold the bytes of
the file that they are to hold. -/
def PagesRight (content : CStr) (s : Local) (p : Pull) : Prop :=
  1032 < p.header → ∀ bytes, s.file = some bytes → Bytes.Agrees content (pageFloor bytes.length).toNat bytes

/-! ### What the server sends -/

section Source
variable {W : Source} {content : CStr} {reply : TransFile}

theorem Source.Serves.send (h : W.Serves content) (reply : TransFile) :
    W.send reply = some ([{ dataLength := intOf content.length, flag := true }],
      (content.drop reply.dataLength.toNat).take ((content.length : Int) - reply.dataLength).toNat) := by
  obtain ⟨path, rest, userPath, hash, hargs, hpath, hgets, hfile⟩ := h
  have hrun : (queryGets (cutName userPath) (getFileName userPath) W.token.userId).run (W.handler reply) { db := W.db } =
      some ((1, hash), { db := W.db }) := by
    have hsql : SqlOnly (queryGets (cutName userPath) (getFileName userPath) W.token.userId) := queryGets_only.sql
    have hsame (o : Op) (ho : o.isSql = true ∨ o = .crash) (db : Db) :
        W.handler reply o { db } = (Db.handler W.ord o db).map fun x => (x.1, { db := x.2 }) := by
      cases o <;> first | rfl | exact absurd ho (by simp [Op.isSql])
    have hembed := hsql.run_embed (fun db => ({ db } : Sending)) hsame W.db
    rw [hembed, hgets]
    rfl
  unfold Source.send sendFile
  rw [hargs]
  dsimp only
  rw [hpath]
  dsimp only
  rw [Prog.bind_eq, Prog.run_bind, hrun]
  simp at hfile
  simp [Source.handler, hfile]

theorem Source.Serves.announce (h : W.Serves content) (hlen : content.length < 2 ^ 31) :
    W.announce = { dataLength := content.length, flag := true } := by
  rw [Source.announce, h.send, intOf_of_lt hlen]
  rfl

theorem Source.Serves.follow (h : W.Serves content) {n : Nat} (hreply : reply.dataLength = n) :
    W.follow reply = content.drop n := by
  rw [Source.follow, h.send, hreply]
  show (content.drop _).take _ = _
  rw [Int.toNat_natCast, List.take_of_length_le]
  rw [List.length_drop]
  omega

end Source

/-! ### What the client makes of it -/

section Pulling
variable {W : Source} {p : Pull} {content : CStr} {fd socketFd : Int}

/-- The loop of `gets_File`: up to the offset that it returns, the file is right. -/
theorem recvLoop_pulling {fuel n : Nat} {st st' : Pulling} {ret : Int}
    (h : (recvLoop socketFd fd content.length fuel n).run (Pulling.handler W p) st = some (ret, st'))
    (hn : n ≤ content.length) (hlength : st.file.length = content.length) (hagrees : Bytes.Agrees content n st.file)
    (hdown : st.down <+: content.drop n) :
    ∃ m : Nat, ret = m ∧ m ≤ content.length ∧ st'.file.length = content.length ∧ Bytes.Agrees content m st'.file := by
  induction fuel generalizing n st with
  | zero =>
    obtain ⟨rfl, rfl⟩ := Prod.mk.inj (Option.some.inj h)
    exact ⟨n, rfl, hn, hlength, hagrees⟩
  | succ fuel ih =>
    rw [recvLoop] at h
    split at h
    · next hlt =>
      have hnlt : n < content.length := by omega
      -- the bytes that this round brings
      let k := max 1 (min 4096 (st.sizes.headD 4096))
      let rest : Pulling := { st with down := st.down.drop k, sizes := st.sizes.tail }
      have hbuf : Pulling.handler W p (.recvBuf socketFd) st = some (st.down.take k, rest) := rfl
      simp only [Prog.bind_eq, Os.recvBuf_bind, Prog.run_op, hbuf, Option.bind_some] at h
      split at h
      · obtain ⟨rfl, rfl⟩ := Prod.mk.inj (Option.some.inj h)
        exact ⟨n, rfl, hn, hlength, hagrees⟩
      · obtain ⟨later, hlater⟩ := hdown
        have hstart : content.drop n = st.down.take k ++ (st.down.drop k ++ later) := by
          rw [← List.append_assoc, List.take_append_drop, hlater]
        have hbuflen : n + (st.down.take k).length ≤ content.length := by
          have hdrop := congrArg List.length hstart
          rw [List.length_drop, List.length_append] at hdrop
          omega
        have hbytes : ∀ j < (st.down.take k).length, (st.down.take k)[j]? = content[n + j]? := fun j hj => by
          rw [← List.getElem?_drop, hstart, List.getElem?_append_left hj]
        have hcount : (if (n : Int) + (st.down.take k).length > content.length then (content.length : Int) - n else
            ((st.down.take k).length : Int)) = (st.down.take k).length := if_neg (by omega)
        rw [hcount, Int.toNat_natCast, List.take_length] at h
        simp only [Os.mmapWrite_bind, Prog.run_op, Pulling.handler] at h
        split at h
        · obtain ⟨rfl, rfl⟩ := Prod.mk.inj (Option.some.inj h)
          exact ⟨n, rfl, hn, hlength, hagrees⟩
        split at h
        · cases h
        · have hoff : (n : Int) + (st.down.take k).length = ((n + (st.down.take k).length : Nat) : Int) := by omega
          rw [Option.bind_some, Int.toNat_natCast] at h
          dsimp only at h
          rw [if_pos rfl, hoff] at h
          refine ih h hbuflen (by rw [Bytes.length_overwrite]; exact hlength)
            (hagrees.extend (by rw [hlength]; exact hbuflen) hbytes) ⟨later, ?_⟩
          show st.down.drop k ++ later = content.drop (n + (st.down.take k).length)
          rw [← List.drop_drop, hstart, List.drop_left' rfl]
    · obtain ⟨rfl, rfl⟩ := Prod.mk.inj (Option.some.inj h)
      exact ⟨n, rfl, hn, hlength, hagrees⟩

/-- A download that has begun: where it gets to, the file is right, if it was below the offset that
it resumes at. -/
theorem getsFileData_pulling (h : W.Serves content) (hlen : content.length < 2 ^ 31) {trans : TransFile}
    {st st' : Pulling} {ret : Int}
    (hrun : (getsFileData fd socketFd trans).run (Pulling.handler W p) st = some (ret, st'))
    (htrans : trans.dataLength = content.length) (hsent : st.sent = []) (hfile : st.file.length ≤ content.length)
    (hpages : Bytes.Agrees content (pageFloor st.file.length).toNat st.file) :
    ∃ m : Nat, ret = m ∧ st'.file.length = content.length ∧ Bytes.Agrees content m st'.file := by
  have hn := pageFloor_natCast st.file.length
  generalize hpage : st.file.length / pageSize * pageSize = n at hn
  have hnle : n ≤ content.length := by
    have hle := (pageFloor_le st.file.length).2
    omega
  rw [hn, Int.toNat_natCast] at hpages
  have hint : intOf (n : Int) = n := intOf_of_lt (by omega)
  have hneg : ¬ (content.length : Int) < 0 := by omega
  have hfollow : W.follow { trans with dataLength := (n : Int) } = content.drop n := h.follow rfl
  -- the file is extended, and its bytes are to follow
  let begun : Pulling :=
    { st with
      sent := [{ trans with dataLength := (n : Int) }]
      down := (content.drop n).take p.cut
      file := Bytes.resize '\x00' content.length st.file }
  have hloop : ((recvLoop socketFd fd content.length (content.length - (n : Int)).toNat n).run (Pulling.handler W p) begun).bind
      (fun x => (if x.1 < content.length then (Prog.pure x.1 : Os Int) else
        .op (S := osSig) (.send socketFd { trans with dataLength := intOf (pageFloor st.file.length) }) fun _ => .pure x.1).run
          (Pulling.handler W p) x.2) = some (ret, st') := by
    simpa [getsFileData, Pulling.handler, Prog.run_bind, htrans, hn, hint, hneg, hsent, hfollow, begun] using hrun
  obtain ⟨⟨cur, mid⟩, hmid, hrest⟩ := Option.bind_eq_some_iff.1 hloop
  obtain ⟨m, rfl, hm, hlength, hagrees⟩ := recvLoop_pulling hmid hnle Bytes.length_resize (hpages.resize hnle)
    (List.take_prefix p.cut _)
  have hend : ret = m ∧ st'.file = mid.file := by
    split at hrest
    · obtain ⟨rfl, rfl⟩ := Prod.mk.inj (Option.some.inj hrest)
      exact ⟨rfl, rfl⟩
    · obtain ⟨rfl, rfl⟩ := Prod.mk.inj (Option.some.inj hrest)
      exact ⟨rfl, rfl⟩
  rw [hend.2]
  exact ⟨m, hend.1, hlength, hagrees⟩

/-- The local file is no longer than the file, and right as far as the last download has come. -/
structure RightSoFar (content : CStr) (s : Local) : Prop where
  length : ∀ bytes, s.file = some bytes → bytes.length ≤ content.length
  agrees : ∀ m : Nat, s.curSize = some (m : Int) →
    ∃ bytes, s.file = some bytes ∧ bytes.length = content.length ∧ Bytes.Agrees content m bytes

theorem RightSoFar.downloaded {s : Local} (h : RightSoFar content s) : Downloaded content s := by
  intro hcur
  obtain ⟨bytes, hfile, hlength, hagrees⟩ := h.agrees content.length hcur
  rw [hfile, hagrees.eq hlength.le]

theorem RightSoFar.pull (h : W.Serves content) (hlen : content.length < 2 ^ 31) {s t : Local}
    (hs : RightSoFar content s) (hC : PagesRight content s p) (hst : PullStep W fd socketFd s p t) :
    RightSoFar content t := by
  obtain ⟨⟨got, st⟩, hrun, rfl⟩ := Option.map_eq_some_iff.1 hst
  have hold : (s.file.getD []).length ≤ content.length := by
    cases hfile : s.file with
    | none => exact Nat.zero_le _
    | some bytes => exact hs.length bytes hfile
  have hpages : 1032 < p.header → Bytes.Agrees content (pageFloor (s.file.getD []).length).toNat (s.file.getD []) := by
    intro hheader
    cases hfile : s.file with
    | none => exact fun k hk => absurd hk (Nat.not_lt_zero k)
    | some bytes => exact hC hheader bytes hfile
  have hrecv : ∀ st, Pulling.handler W p (.recv socketFd) st = some (arrived p.header W.announce, st) := fun _ => rfl
  simp only [getsFile, Prog.bind_eq, Os.recv_bind, Prog.run_op, hrecv, Option.bind_some] at hrun
  by_cases hheader : 1032 < p.header
  · have harrived : arrived p.header W.announce = { dataLength := content.length, flag := true } := by
      rw [h.announce hlen, arrived, if_pos (by omega), if_pos (by omega)]
      simp [hheader]
    rw [harrived, if_neg (by simp), Prog.run_bind] at hrun
    obtain ⟨⟨ret, st'⟩, hdata, hrest⟩ := Option.bind_eq_some_iff.1 hrun
    obtain ⟨rfl, rfl⟩ := Prod.mk.inj (Option.some.inj hrest)
    obtain ⟨m, rfl, hlength, hagrees⟩ := getsFileData_pulling h hlen hdata rfl rfl hold (hpages hheader)
    refine ⟨fun bytes hbytes => ?_, fun m' hcur => ?_⟩
    · obtain rfl := Option.some.inj hbytes
      exact hlength.le
    · obtain rfl : m = m' := Int.ofNat.inj (Option.some.inj hcur)
      exact ⟨_, rfl, hlength, hagrees⟩
  · have harrived : (arrived p.header W.announce).flag = false := by simp [arrived, hheader]
    rw [if_pos harrived] at hrun
    obtain ⟨rfl, rfl⟩ := Prod.mk.inj (Option.some.inj hrun)
    refine ⟨fun bytes hbytes => ?_, nofun⟩
    obtain rfl := Option.some.inj hbytes
    exact hold

theorem rightSoFar_none : RightSoFar content {} := ⟨nofun, nofun⟩

/-- A download that was cut behind the whole pages of the file is resumed rightly. -/
theorem RightSoFar.pagesRight {s : Local} {m : Nat} (h : RightSoFar content s) (hcur : s.curSize = some (m : Int))
    (hm : (pageFloor content.length).toNat ≤ m) : PagesRight content s p := by
  intro _ bytes hbytes
  obtain ⟨bytes', hbytes', hlength, hagrees⟩ := h.agrees m hcur
  obtain rfl := Option.some.inj (hbytes.symm.trans hbytes')
  rw [hlength]
  exact hagrees.mono hm

/-- From no local file, every download that comes to the end of the file leaves a true copy of it, as
long as none goes on behind pages that differ from those of the file. -/
theorem downloaded_of_pagesRight (W : Source) (content : CStr) (fd socketFd : Int) (h : W.Serves content)
    (hlen : content.length < 2 ^ 31) (r : List (Pull × Local)) (hr : IsRun (PullStep W fd socketFd) {} r)
    (hC : Meets (PagesRight content) {} r) : Always (Downloaded content) {} r :=
  (hr.always (I := RightSoFar content) (fun _ _ _ hs hC hst => hs.pull h hlen hC hst) rightSoFar_none hC).mono
    fun _ => RightSoFar.downloaded

theorem pagesRight_of_short {s : Local} (hfile : ∀ bytes, s.file = some bytes → bytes.length < pageSize) :
    PagesRight content s p := by
  intro _ bytes hbytes k hk
  rw [pageFloor_natCast, Nat.div_eq_of_lt (hfile bytes hbytes)] at hk
  exact absurd hk (by simp)

end Pulling

/-- User 1 has the complete file `f`. -/
def sharedDb : Db :=
  [.insertUser ['a'] ['p'], .insertDir, .insertUserFile ['a'] 1 1 none, .insertFile ['H'] ['H'],
    .insertUserFile ['f'] 1 2 (some 1), .updateComplete ['H']].foldl Db.exec {}

def sharedFile (content : CStr) : Source where
  jwt := .unary
  cwd := "/".toList
  ord := .stored
  now := 0
  db := sharedDb
  files := fun path => if path = "//data/H".toList then some content else none
  clientFd := 7
  argument := "f f".toList
  token := { userId := 1, workpath := "/a".toList }

theorem sharedFile_serves (content : CStr) : (sharedFile content).Serves content := by
  have hargs : spliteArgument "f f".toList = some (['f'], ['f']) := by decide
  have hpath : getUserPath ['f'] { userId := 1, workpath := "/a".toList } = some "/a/f".toList := by decide
  have hgets : (queryGets (cutName "/a/f".toList) (getFileName "/a/f".toList) 1).run (Db.handler .stored) sharedDb =
      some ((1, ['H']), sharedDb) := by decide +kernel
  exact ⟨_, _, _, _, hargs, hpath, hgets, rfl⟩

def pageAndByte : CStr := List.replicate 4096 'x' ++ ['y']

theorem length_pageAndByte : pageAndByte.length = 4097 := by
  rw [pageAndByte, List.length_append, List.length_replicate, List.length_singleton]

/-- Two downloads, too long to be unfolded. -/
@[irreducible] def twice (content : CStr) (first second : Pull) : List (Pull × Local) :=
  trace (pull (sharedFile content) 3 4) {} [first, second]

theorem isRun_twice (content : CStr) (first second : Pull) :
    IsRun (PullStep (sharedFile content) 3 4) {} (twice content first second) := by
  rw [twice]
  exact isRun_trace (pull (sharedFile content) 3 4) {} [first, second]

theorem meets_twice {content : CStr} {first second : Pull} {cur : Option Int} {curs : List (Option Int)}
    (hcurs : (twice content first second).map (·.2.curSize) = cur :: curs)
    (h : ∀ t, pull (sharedFile content) 3 4 {} first = some t → t.curSize = cur → PagesRight content t second) :
    Meets (PagesRight content) {} (twice content first second) := by
  rw [twice] at hcurs ⊢
  refine meets_trace_cons (fun _ => nofun) fun t ht => meets_trace_cons (h t ht ?_) fun _ _ => trivial
  rw [trace, ht] at hcurs
  exact (List.cons.inj hcurs).1

/-- The first download is cut behind the page, with the file extended; the second one brings the last byte. -/
theorem downloaded_of_pagesRight_two :
    let r := twice pageAndByte ⟨2060, 4096, []⟩ ⟨2060, 1, []⟩
    IsRun (PullStep (sharedFile pageAndByte) 3 4) {} r ∧ r.map (·.2.curSize) = [some 4096, some 4097] ∧
      Always (Downloaded pageAndByte) {} r := by
  intro r
  have hlen : pageAndByte.length < 2 ^ 31 := by
    rw [length_pageAndByte]
    decide
  have hcurs : r.map (·.2.curSize) = [some ((4096 : Nat) : Int), some 4097] := by decide +kernel
  refine ⟨isRun_twice _ _ _, hcurs, ?_⟩
  refine downloaded_of_pagesRight _ _ 3 4 (sharedFile_serves _) hlen r (isRun_twice _ _ _) (meets_twice hcurs fun t ht hcur => ?_)
  refine (rightSoFar_none.pull (sharedFile_serves _) hlen (fun _ => nofun) ht).pagesRight hcur ?_
  rw [length_pageAndByte]
  decide

/-- A page of bytes: the first download is cut before any of them arrives, the second one takes the
extended file for the received one. -/
theorem resumed_behind_zeros : ¬ ∀ W content fd socketFd, Source.Serves W content → content.length < 2 ^ 31 →
    ∀ s, Reaches (PullStep W fd socketFd) {} s → Downloaded content s := by
  intro h
  have hlen : (List.replicate 4096 'x').length < 2 ^ 31 := by decide +kernel
  let s := final {} (trace (pull (sharedFile (List.replicate 4096 'x')) 3 4) {} [⟨2060, 0, []⟩, ⟨2060, 0, []⟩])
  have hs := h _ _ 3 4 (sharedFile_serves (List.replicate 4096 'x')) hlen s
    (.of_trace (pull (sharedFile (List.replicate 4096 'x')) 3 4) ({} : Local) _)
  have hcur : s.curSize = some ((4096 : Nat) : Int) := by decide +kernel
  have hfile : s.file ≠ some (List.replicate 4096 'x') := by decide +kernel
  exact hfile (hs (by rw [hcur, List.length_replicate]))

end Netdisk

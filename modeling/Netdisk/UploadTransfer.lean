import Netdisk.UploadSession

/-!
# The bytes of an upload session

What `recv_file` knows about the stored file at each point of the transfer: the resume offset is the
length of the file down to a page, every chunk goes to the offset reached so far, and the digest is
marked complete only when that offset is the announced size (`transferProtocol`).
-/

namespace Netdisk

/-- The state of a transfer: its header, its descriptor, and the offset reached. -/
inductive Transfer
  | start
  | seen (f : TransFile)
  | opened (f : TransFile) (fd : Int)
  | sized (f : TransFile) (fd offset : Int)
  | replied (f : TransFile) (fd offset : Int)
  | copying (f : TransFile) (fd offset : Int)
  | received (f : TransFile) (fd offset : Int) (buf : CStr)
  | ended
deriving DecidableEq

def transferProtocol (cwd : CStr) : Prog.Protocol osSig Transfer where
  ok
    | l, .recv _ => l = .start
    | l, .openFile path _ => ∃ f, l = .seen f ∧ path = realPath cwd f.data
    | l, .lseekEnd fd => ∃ f, l = .opened f fd
    | l, .send _ reply => ∀ f fd offset, l = .sized f fd offset → reply.dataLength = intOf offset
    | l, .ftruncate fd length => ∃ f offset, l = .replied f fd offset ∧ length = intOf f.dataLength
    | l, .recvBuf _ => ∃ f fd offset, l = .copying f fd offset
    | l, .mmapWrite fd offset bytes => ∃ f buf, l = .received f fd offset buf ∧
        bytes = buf.take (intOf f.dataLength - offset).toNat
    | l, .exec _ (.updateComplete h) => ∃ f fd, l = .copying f fd (intOf f.dataLength) ∧ h = f.data
    | _, .exec _ (.insertFile ..) | _, .exec _ (.insertUserFile ..) => True
    | _, .exec _ _ => False
    | _, .selectUser .. | _, .stat _ | _, .sendfile .. => False
    | _, _ => True
  resp _ _ _ := True
  next
    | .start, .recv _, f => .seen f
    | .seen f, .openFile _ _, fd => if fd < 0 then .ended else .opened f fd
    | .opened f fd, .lseekEnd _, size => .sized f fd (pageFloor size)
    | .sized f fd offset, .send _ _, _ => .replied f fd offset
    | .replied f fd offset, .ftruncate _ _, _ => .copying f fd offset
    | .copying f fd offset, .recvBuf _, buf => if buf = [] then .ended else .received f fd offset buf
    | .received f fd offset _, .mmapWrite _ _ bytes, mapped =>
      if mapped then .copying f fd (offset + bytes.length) else .ended
    | .start, .send _ _, _ | .seen _, .send _ _, _ | .opened _ _, .send _ _, _ => .ended
    | l, _, _ => l

/-- The database calls of an upload apart from the last. -/
def Op.isPuts : Op → Bool
  | .getConnection | .releaseConnection _ | .autocommit .. | .commit _ | .selectUserFile .. | .selectFile ..
  | .exec _ (.insertFile ..) | .exec _ (.insertUserFile ..) | .crash => true
  | _ => false

section Wp
variable {J : Jwt} {cwd strerror : CStr} {l : Transfer}

theorem queryPuts_isPuts (path fileName hash : CStr) (u : Nat) :
    Prog.Only (S := osSig) (fun o : Op => o.isPuts = true) (queryPuts path fileName hash u) := by
  have hcd : Prog.Only (S := osSig) (fun o : Op => o.isPuts = true) (queryCd path u) :=
    (queryCd_lookups path u).mono fun (o : Op) ho => by cases o <;> first | rfl | cases ho
  refine hcd.bind fun dir => ?_
  split
  · trivial
  split
  · trivial
  refine ⟨rfl, fun r => ?_⟩
  cases r with
  | none => exact ⟨rfl, fun e => nomatch (e : Empty)⟩
  | some c =>
    refine ⟨rfl, fun rows => ?_⟩
    cases rows with
    | cons sameName rest =>
      refine ⟨rfl, fun files => ?_⟩
      cases files with
      | nil => exact ⟨rfl, fun e => nomatch (e : Empty)⟩
      | cons file files => exact ⟨rfl, fun _ => trivial⟩
    | nil =>
      refine ⟨rfl, fun files => ?_⟩
      cases files with
      | nil => exact ⟨rfl, fun _ => ⟨rfl, fun _ => ⟨rfl, fun _ => ⟨rfl, fun _ => ⟨rfl, fun _ => ⟨rfl, fun _ =>
          trivial⟩⟩⟩⟩⟩⟩
      | cons file files => exact ⟨rfl, fun _ => ⟨rfl, fun _ => trivial⟩⟩

theorem wp_puts {α : Type} {p : Os α} (h : Prog.Only (S := osSig) (fun o : Op => o.isPuts = true) p) :
    p.wp (transferProtocol cwd) (fun l' _ => l' = l) l := by
  refine h.wp fun (o : Op) ho => ?_
  cases o with
  | getConnection | releaseConnection | autocommit | commit | selectUserFile | selectFile | crash =>
    exact ⟨trivial, fun r => by cases l <;> rfl⟩
  | exec c st =>
    cases st with
    | insertFile | insertUserFile => exact ⟨trivial, fun r => by cases l <;> rfl⟩
    | _ => cases ho
  | _ => cases ho

theorem sendMessage_wp {fd : Int} {msg : CStr} {flag : Bool} {info : TokenInfo}
    (hl : ∀ f fd offset, l ≠ .sized f fd offset) :
    (sendMessage J fd msg flag info).wp (transferProtocol cwd) (fun _ _ => True) l := by
  have hsend : ∀ train, (Os.send fd train).wp (transferProtocol cwd) (fun _ _ => True) l :=
    fun train => ⟨fun f fd offset h => absurd h (hl f fd offset), fun _ _ => trivial⟩
  unfold sendMessage
  split
  · refine ⟨trivial, fun now _ => ?_⟩
    have hnext : (transferProtocol cwd).next l .time now = l := by cases l <;> rfl
    rw [hnext]
    exact hsend _
  · exact hsend _

/-- The loop ends at the offset that it returns, or short of the size. -/
theorem recvLoop_transfer {f : TransFile} {fd : Int} (clientFd : Int) (fuel : Nat) (offset : Int) :
    (recvLoop clientFd fd (intOf f.dataLength) fuel offset).wp (transferProtocol cwd)
      (fun l ret => l = .copying f fd ret ∨ l = .ended ∧ ret ≠ intOf f.dataLength) (.copying f fd offset) := by
  induction fuel generalizing offset with
  | zero => exact .inl rfl
  | succ fuel ih =>
    rw [recvLoop]
    split
    · next hlt =>
      refine ⟨⟨f, fd, offset, rfl⟩, fun (buf : CStr) _ => ?_⟩
      show Prog.wp _ _ (if buf = [] then _ else _) (if buf = [] then Transfer.ended else .received f fd offset buf)
      split
      · exact .inr ⟨rfl, Int.ne_of_lt hlt⟩
      · -- the chunk is cut at the size, whichever way the source says it
        have hcut : (if offset + buf.length > intOf f.dataLength then intOf f.dataLength - offset else
            (buf.length : Int)) = (buf.take (intOf f.dataLength - offset).toNat).length := by
          rw [List.length_take]
          split <;> omega
        have htake : buf.take (if offset + buf.length > intOf f.dataLength then intOf f.dataLength - offset else
            (buf.length : Int)).toNat = buf.take (intOf f.dataLength - offset).toNat := by
          split
          · rfl
          · rw [Int.toNat_natCast, List.take_length, List.take_of_length_le (by omega)]
        refine ⟨⟨f, buf, rfl, htake⟩, fun mapped _ => ?_⟩
        cases mapped with
        | true =>
          show Prog.wp _ _ (recvLoop _ _ _ _ _) (Transfer.copying f fd (offset + (buf.take _).length))
          rw [htake, hcut]
          exact ih _
        | false => exact .inr ⟨rfl, Int.ne_of_lt hlt⟩
    · exact .inl rfl

theorem queryUpdate_transfer {f : TransFile} {fd : Int} :
    (queryUpdate f.data).wp (transferProtocol cwd) (fun _ _ => True) (.copying f fd (intOf f.dataLength)) := by
  refine ⟨trivial, fun r _ => ?_⟩
  cases r with
  | none => trivial
  | some c => exact ⟨⟨f, fd, rfl, rfl⟩, fun _ _ => ⟨trivial, fun _ _ => trivial⟩⟩

theorem recvFileData_transfer (clientFd : Int) (f : TransFile) (token : TokenInfo) :
    (recvFileData J cwd clientFd f token strerror).wp (transferProtocol cwd) (fun _ _ => True) (.seen f) := by
  refine ⟨⟨f, rfl, rfl⟩, fun (fd : Int) _ => ?_⟩
  show Prog.wp _ _ (if fd < 0 then _ else _) (if fd < 0 then Transfer.ended else .opened f fd)
  split
  · rw [Prog.bind_eq, Prog.wp_bind]
    exact (sendMessage_wp (by intro _ _ _ h; cases h)).mono fun _ _ _ => trivial
  · refine ⟨⟨f, rfl⟩, fun (size : Int) _ => ⟨?_, fun _ _ => ⟨⟨f, pageFloor size, rfl, rfl⟩, fun _ _ => ?_⟩⟩⟩
    · intro f' fd' offset heq
      cases heq
      rfl
    · show Prog.wp _ _ ((recvLoop _ _ _ _ _).bind _) (Transfer.copying f fd (pageFloor size))
      refine (recvLoop_transfer _ _ _).bind fun l offset hl => ?_
      rcases hl with rfl | ⟨rfl, hne⟩
      · refine ⟨fun _ _ _ => nofun, fun _ _ => ⟨trivial, fun _ _ => ⟨trivial, fun _ _ => ?_⟩⟩⟩
        show Prog.wp _ _ (if offset = intOf f.dataLength then _ else _) (Transfer.copying f fd offset)
        split
        · next heq =>
          rw [Prog.bind_eq, Prog.wp_bind, heq]
          exact queryUpdate_transfer.mono fun _ _ _ => trivial
        · trivial
      · refine ⟨fun _ _ _ => nofun, fun _ _ => ⟨trivial, fun _ _ => ⟨trivial, fun _ _ => ?_⟩⟩⟩
        show Prog.wp _ _ (if offset = intOf f.dataLength then _ else _) Transfer.ended
        rw [if_neg hne]
        trivial

theorem UploadCall.transfer (call : UploadCall) :
    (call.prog J cwd strerror).wp (transferProtocol cwd) (fun _ _ => True) .start := by
  rw [UploadCall.prog, Prog.wp_bind, recvFile]
  split
  · split
    · refine ⟨rfl, fun (f : TransFile) _ => ?_⟩
      show Prog.wp _ _ ((queryPuts _ _ f.data _).bind _) (Transfer.seen f)
      refine (wp_puts (queryPuts_isPuts _ _ _ _)).bind fun l ret hl => ?_
      subst hl
      have hreply : ∀ msg, ((sendMessage J call.clientFd msg false call.token).bind fun _ => .pure 0).wp
          (transferProtocol cwd) (fun _ (_ : Int) => True) (.seen f) := fun msg => by
        exact (sendMessage_wp (by intro _ _ _ h; cases h)).bind fun _ _ _ => trivial
      split
      · exact hreply _
      split
      · exact hreply _
      split
      · exact hreply _
      split
      · exact hreply _
      · exact recvFileData_transfer _ _ _
    · exact ⟨trivial, fun (e : Empty) => e.elim⟩
  · exact ⟨trivial, fun (e : Empty) => e.elim⟩

end Wp

end Netdisk

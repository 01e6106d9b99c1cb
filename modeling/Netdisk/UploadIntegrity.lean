import Netdisk.UploadTransfer

/-!
# What a complete file holds

Clients that send the true digest, the true size and their own bytes, over connections that may be
cut anywhere. `intact_of_resumesRight`: a complete row means that the stored file is the file of
that digest, as long as no header arrives cut in its size and no session resumes behind bytes that
were never received.
-/

namespace Netdisk
open Runs

/-- The files of the clients, by their digests. -/
abbrev Contents := CStr → CStr

section Model
variable (content : Contents) (cwd : CStr)

/-- The header frame of the file, of which `n` bytes arrive: `data_length` follows the 1024 bytes of
`data`, lowest byte first. -/
def headerFrame (digest : CStr) (n : Nat) : TransFile :=
  { data := digest.take n, dataLength := ((content digest).length % 256 ^ (n - 1024) : Nat) }

/-- The length that the server has told the client to go on from. -/
def Store.replyOffset (s : Store) (i : Nat) : Nat := ((s.sent i).head?.elim 0 TransFile.dataLength).toNat

/-- A client sends its header and, from the offset of the reply on, the bytes of its file. -/
def Honest (s : UploadState) : UploadAct → Prop
  | .start call => IsDigest call.digest
  | .exec i w => ∀ call o k, s.threads[i]? = some ⟨call, .op o k⟩ →
      (∀ fd, o = .recv fd → ∃ n, w.frame = headerFrame content call.digest n) ∧
      ∀ fd, o = .recvBuf fd →
        w.bytes <+: (content call.digest).drop (s.shared.replyOffset i + (s.shared.received i).length)

/-- Complete rows have their files. -/
def Intact (s : UploadState) : Prop :=
  ∀ h, IsDigest h → s.shared.Complete h → s.shared.stored cwd h = some (content h)

/-- A header with a whole digest has the true size. -/
def WholeHeader (s : UploadState) : UploadAct → Prop
  | .start _ => True
  | .exec i w => ∀ call fd k, s.threads[i]? = some ⟨call, .op (.recv fd) k⟩ → IsDigest w.frame.data →
      w.frame.dataLength = (content w.frame.data).length

/-- Where a session asks for the length of a stored file, the whole pages of it hold the bytes of
the file that they are to hold. -/
def ResumesRight (s : UploadState) : UploadAct → Prop
  | .start _ => True
  | .exec i _ => ∀ call fd k f bytes, s.threads[i]? = some ⟨call, .op (.lseekEnd fd) k⟩ →
      s.shared.header i = some f → IsDigest f.data → s.shared.contents fd = some bytes →
      Bytes.Agrees (content f.data) (pageFloor bytes.length).toNat bytes

end Model

/-! ### Growing files -/

/-- Stored files of digests come to hold more of their content, and no less. -/
structure Grows (content : Contents) (cwd : CStr) (s s' : Store) : Prop where
  kept : ∀ p, (s.files p).isSome → (s'.files p).isSome
  bytes : ∀ h, IsDigest h → ∀ new, s'.stored cwd h = some new →
    s.stored cwd h = none ∧ new = [] ∨ ∃ old, s.stored cwd h = some old ∧
      (∀ n ≤ (content h).length, Bytes.Agrees (content h) n old → Bytes.Agrees (content h) n new) ∧
      (old.length = (content h).length → new.length = (content h).length) ∧
      (old.length ≤ (content h).length → new.length ≤ (content h).length)

section Grows
variable {content : Contents} {cwd : CStr} {s s' : Store}

theorem grows_of_files (hfiles : s'.files = s.files) : Grows content cwd s s' where
  kept p hp := by rwa [hfiles]
  bytes h _ new hnew := by
    refine .inr ⟨new, ?_, fun _ _ => id, id, id⟩
    rwa [Store.stored, ← hfiles]

theorem grows_open {p : Path} : Grows content cwd s { s with
    files := Function.update s.files p (some ((s.files p).getD []))
    fds := Function.update s.fds s.nextFd (some p)
    nextFd := s.nextFd + 1 } where
  kept q hq := by
    by_cases hqp : q = p
    · simp [hqp]
    · simpa [hqp] using hq
  bytes h _ new hnew := by
    change Function.update s.files p _ (resolve (realPath cwd h)) = some new at hnew
    by_cases hp : resolve (realPath cwd h) = p
    · rw [hp, Function.update_self] at hnew
      rw [Store.stored, hp]
      cases hold : s.files p with
      | none =>
        rw [hold] at hnew
        exact .inl ⟨rfl, (Option.some.inj hnew).symm⟩
      | some old =>
        rw [hold] at hnew
        obtain rfl : old = new := Option.some.inj hnew
        exact .inr ⟨old, rfl, fun _ _ => id, id, id⟩
    · rw [Function.update_of_ne hp] at hnew
      exact .inr ⟨new, hnew, fun _ _ => id, id, id⟩

theorem grows_modify {fd : Int} {g : CStr → CStr}
    (hg : ∀ h, IsDigest h → s.fds fd = some (resolve (realPath cwd h)) → ∀ old, s.stored cwd h = some old →
      (∀ n ≤ (content h).length, Bytes.Agrees (content h) n old → Bytes.Agrees (content h) n (g old)) ∧
      (old.length = (content h).length → (g old).length = (content h).length) ∧
      (old.length ≤ (content h).length → (g old).length ≤ (content h).length)) :
    Grows content cwd s (s.modify fd g) := by
  cases hfd : s.fds fd with
  | none =>
    have hsame : s.modify fd g = s := by rw [Store.modify, hfd]
    rw [hsame]
    exact grows_of_files rfl
  | some p =>
    have hmod : (s.modify fd g).files = Function.update s.files p ((s.files p).map g) := by rw [Store.modify, hfd]
    refine ⟨fun q hq => ?_, fun h hh new hnew => ?_⟩
    · rw [hmod]
      by_cases hqp : q = p
      · subst hqp
        simpa using hq
      · rwa [Function.update_of_ne hqp]
    · rw [Store.stored, hmod] at hnew
      by_cases hp : resolve (realPath cwd h) = p
      · rw [hp, Function.update_self] at hnew
        obtain ⟨old, hold, rfl⟩ := Option.map_eq_some_iff.1 hnew
        have hstored : s.stored cwd h = some old := by rw [Store.stored, hp, hold]
        exact .inr ⟨old, hstored, hg h hh (hfd.trans (congrArg some hp.symm)) old hstored⟩
      · rw [Function.update_of_ne hp] at hnew
        exact .inr ⟨new, hnew, fun _ _ => id, id, id⟩

/-- The content of a complete file does not grow any more. -/
theorem Grows.eq (hg : Grows content cwd s s') {h : CStr} (hh : IsDigest h)
    (hs : s.stored cwd h = some (content h)) : s'.stored cwd h = some (content h) := by
  have hsome : (s.files (resolve (realPath cwd h))).isSome := by
    rw [show s.files (resolve (realPath cwd h)) = some (content h) from hs]
    rfl
  obtain ⟨new, hnew⟩ := Option.isSome_iff_exists.1 (hg.kept _ hsome)
  rcases hg.bytes h hh new hnew with ⟨hnone, -⟩ | ⟨old, hold, hagrees, hlen, -⟩
  · rw [hs] at hnone
    cases hnone
  · obtain rfl := Option.some.inj (hs.symm.trans hold)
    have hall : Bytes.Agrees (content h) (content h).length new := hagrees _ le_rfl fun _ _ => rfl
    have heq : new = content h := hall.eq (hlen rfl).le
    rw [← heq]
    exact hnew

end Grows

/-! ### The sessions -/

def Transfer.header : Transfer → Option TransFile
  | .seen f | .opened f _ | .sized f _ _ | .replied f _ _ | .copying f _ _ | .received f _ _ _ => some f
  | .start | .ended => none

def Transfer.fd : Transfer → Option Int
  | .opened _ fd | .sized _ fd _ | .replied _ fd _ | .copying _ fd _ | .received _ fd _ _ => some fd
  | _ => none

def Transfer.offset : Transfer → Option Int
  | .sized _ _ offset | .replied _ _ offset | .copying _ _ offset | .received _ _ offset _ => some offset
  | _ => none

/-- The stored file has its full length, if the descriptor is still good. -/
def FullLength (content : Contents) (cwd : CStr) (s : Store) (f : TransFile) (fd : Int) : Prop :=
  s.fds fd ≠ none → ∀ bytes, s.stored cwd f.data = some bytes → bytes.length = (content f.data).length

/-- What has been said and received so far. -/
def Transfer.Progress (content : Contents) (cwd : CStr) (s : Store) (i : Nat) : Transfer → Prop
  | .start | .seen _ | .opened _ _ | .sized _ _ _ => s.sent i = [] ∧ s.received i = []
  | .replied f _ offset => s.sent i ≠ [] ∧ s.received i = [] ∧ (IsDigest f.data → (s.replyOffset i : Int) = offset)
  | .copying f fd offset => s.sent i ≠ [] ∧ (IsDigest f.data →
      (s.replyOffset i + (s.received i).length : Nat) = offset ∧ FullLength content cwd s f fd)
  | .received f fd offset buf => s.sent i ≠ [] ∧ (IsDigest f.data →
      (s.replyOffset i + (s.received i).length : Nat) = offset + buf.length ∧
      buf <+: (content f.data).drop offset.toNat ∧ FullLength content cwd s f fd)
  | .ended => True

/-- The state of a session agrees with the store. -/
structure Fits (content : Contents) (cwd : CStr) (s : Store) (i : Nat) (l : Transfer) : Prop where
  header : ∀ f, l.header = some f → s.header i = some f ∧ IsHex f.data ∧
    (IsDigest f.data → f.dataLength = (content f.data).length)
  leads : ∀ f fd, l.header = some f → l.fd = some fd → fd < s.nextFd ∧
    (s.fds fd = none ∨ s.fds fd = some (resolve (realPath cwd f.data))) ∧
    (s.files (resolve (realPath cwd f.data))).isSome
  reached : ∀ f fd offset, l.header = some f → l.fd = some fd → l.offset = some offset → IsDigest f.data →
    0 ≤ offset ∧ offset ≤ (content f.data).length ∧
    ∀ bytes, s.stored cwd f.data = some bytes → Bytes.Agrees (content f.data) offset.toNat bytes
  progress : l.Progress content cwd s i

section Fits
variable {content : Contents} {cwd : CStr} {s s' : Store} {i : Nat} {l : Transfer}

theorem fits_start (hsent : s.sent i = []) (hreceived : s.received i = []) : Fits content cwd s i .start :=
  ⟨nofun, nofun, nofun, hsent, hreceived⟩

theorem fits_ended : Fits content cwd s i .ended := ⟨nofun, nofun, nofun, trivial⟩

/-- What a session relies on survives the steps of the others. -/
theorem Fits.frame (h : Fits content cwd s i l) (hg : Grows content cwd s s') (hheader : s'.header i = s.header i)
    (hsent : s'.sent i = s.sent i) (hreceived : s'.received i = s.received i) (hnext : s.nextFd ≤ s'.nextFd)
    (hfds : ∀ fd < (s.nextFd : Int), s'.fds fd = s.fds fd ∨ s'.fds fd = none) : Fits content cwd s' i l := by
  have hleads : ∀ f fd, l.header = some f → l.fd = some fd → fd < s'.nextFd ∧
      (s'.fds fd = none ∨ s'.fds fd = some (resolve (realPath cwd f.data))) ∧
      (s'.files (resolve (realPath cwd f.data))).isSome := by
    intro f fd hf hfd
    obtain ⟨hlt, hto, hsome⟩ := h.leads f fd hf hfd
    refine ⟨by omega, ?_, hg.kept _ hsome⟩
    rcases hfds fd hlt with heq | hnone
    · rwa [heq]
    · exact .inl hnone
  have hold : ∀ f fd, l.header = some f → l.fd = some fd → IsDigest f.data → ∀ new, s'.stored cwd f.data = some new →
      ∃ old, s.stored cwd f.data = some old ∧
        (∀ n ≤ (content f.data).length, Bytes.Agrees (content f.data) n old → Bytes.Agrees (content f.data) n new) ∧
        (old.length = (content f.data).length → new.length = (content f.data).length) := by
    intro f fd hf hfd hd new hnew
    rcases hg.bytes _ hd new hnew with ⟨hnone, -⟩ | ⟨old, hold, hagrees, hlen, -⟩
    · have hsome := (h.leads f fd hf hfd).2.2
      rw [show s.files (resolve (realPath cwd f.data)) = none from hnone] at hsome
      cases hsome
    · exact ⟨old, hold, hagrees, hlen⟩
  have hfull : ∀ f fd, l.header = some f → l.fd = some fd → IsDigest f.data → FullLength content cwd s f fd →
      FullLength content cwd s' f fd := by
    intro f fd hf hfd hd hlen hne new hnew
    obtain ⟨old, hold, -, hkeep⟩ := hold f fd hf hfd hd new hnew
    have hne' : s.fds fd ≠ none := fun hnone => by
      rcases hfds fd (h.leads f fd hf hfd).1 with heq | hnone'
      · exact hne (heq.trans hnone)
      · exact hne hnone'
    exact hkeep (hlen hne' old hold)
  refine ⟨fun f hf => ?_, hleads, fun f fd offset hf hfd ho hd => ?_, ?_⟩
  · rw [hheader]
    exact h.header f hf
  · obtain ⟨h0, hle, hagrees⟩ := h.reached f fd offset hf hfd ho hd
    refine ⟨h0, hle, fun new hnew => ?_⟩
    obtain ⟨old, hold, hkeep, -⟩ := hold f fd hf hfd hd new hnew
    exact hkeep _ (by omega) (hagrees old hold)
  · have hp := h.progress
    have hreply : s'.replyOffset i = s.replyOffset i := by rw [Store.replyOffset, hsent, Store.replyOffset]
    cases l with
    | start | seen | opened | sized => exact ⟨hsent.trans hp.1, hreceived.trans hp.2⟩
    | replied f fd offset =>
      refine ⟨hsent ▸ hp.1, hreceived.trans hp.2.1, fun hd => ?_⟩
      rw [hreply]
      exact hp.2.2 hd
    | copying f fd offset =>
      refine ⟨hsent ▸ hp.1, fun hd => ?_⟩
      rw [hreply, hreceived]
      exact ⟨(hp.2 hd).1, hfull f fd rfl rfl hd (hp.2 hd).2⟩
    | received f fd offset buf =>
      refine ⟨hsent ▸ hp.1, fun hd => ?_⟩
      rw [hreply, hreceived]
      exact ⟨(hp.2 hd).1, (hp.2 hd).2.1, hfull f fd rfl rfl hd (hp.2 hd).2.2⟩
    | ended => trivial

end Fits

/-! ### The steps of a session -/

section Steps
variable {content : Contents} {cwd : CStr} {s s' : Store} {i : Nat} {l : Transfer} {f : TransFile} {fd offset : Int}

/-- A descriptor of a session that leads to the file of `h` is one of a session with the digest `h`. -/
theorem Fits.digest {h : CStr} (hl : Fits content cwd s i l) (hf : l.header = some f) (hfd : l.fd = some fd)
    (hh : IsDigest h) (hto : s.fds fd = some (resolve (realPath cwd h))) : f.data = h := by
  obtain ⟨-, hfds, -⟩ := hl.leads f fd hf hfd
  rcases hfds with hnone | hsome
  · rw [hnone] at hto
    cases hto
  · exact (hl.header f hf).2.1.unaliased h hh (Option.some.inj (hsome.symm.trans hto))

/-- The announced size is the `int` that the server works with. -/
theorem Fits.size (hsize : ∀ d, (content d).length < 2 ^ 31) (hl : Fits content cwd s i l)
    (hf : l.header = some f) (hd : IsDigest f.data) : intOf f.dataLength = (content f.data).length := by
  rw [(hl.header f hf).2.2 hd]
  exact intOf_of_lt (hsize _)

theorem Fits.recv (hl : Fits content cwd s i .start) (hex : IsHex f.data)
    (hlen : IsDigest f.data → f.dataLength = (content f.data).length) :
    Fits content cwd { s with header := Function.update s.header i (some f) } i (.seen f) := by
  refine ⟨fun f' hf' => ?_, nofun, nofun, hl.progress⟩
  obtain rfl : f = f' := Option.some.inj hf'
  exact ⟨Function.update_self _ _ _, hex, hlen⟩

theorem Fits.open (hl : Fits content cwd s i (.seen f)) :
    Fits content cwd { s with
      files := Function.update s.files (resolve (realPath cwd f.data))
        (some ((s.files (resolve (realPath cwd f.data))).getD []))
      fds := Function.update s.fds s.nextFd (some (resolve (realPath cwd f.data)))
      nextFd := s.nextFd + 1 } i (.opened f s.nextFd) := by
  refine ⟨hl.header, fun f' fd' hf' hfd' => ?_, nofun, hl.progress⟩
  obtain rfl : f = f' := Option.some.inj hf'
  obtain rfl : (s.nextFd : Int) = fd' := Option.some.inj hfd'
  exact ⟨Int.ofNat_lt.2 (Nat.lt_succ_self _), .inr (Function.update_self _ _ _), by simp⟩

/-- The offset of a session is a page of the stored file, or 0 if its descriptor is gone. -/
theorem Fits.lseek (hl : Fits content cwd s i (.opened f fd))
    (hlength : ∀ h, IsDigest h → ∀ bytes, s.stored cwd h = some bytes → bytes.length ≤ (content h).length)
    (hresume : ∀ bytes, IsDigest f.data → s.contents fd = some bytes →
      Bytes.Agrees (content f.data) (pageFloor bytes.length).toNat bytes) :
    Fits content cwd s i
      (.sized f fd (pageFloor ((s.contents fd).elim (-1) fun bytes => (bytes.length : Int)))) := by
  refine ⟨hl.header, hl.leads, fun f' fd' offset hf' hfd' ho hd => ?_, hl.progress⟩
  obtain rfl : f = f' := Option.some.inj hf'
  obtain rfl : fd = fd' := Option.some.inj hfd'
  obtain rfl := Option.some.inj ho
  cases hc : s.contents fd with
  | none =>
    have hzero : pageFloor (-1) = 0 := by decide
    rw [Option.elim_none, hzero]
    exact ⟨le_rfl, Int.natCast_nonneg _, fun _ _ k hk => absurd hk (Nat.not_lt_zero k)⟩
  | some bytes =>
    have hstored : s.stored cwd f.data = some bytes := by
      obtain ⟨p, hp, hbytes⟩ := Option.bind_eq_some_iff.1 hc
      rcases (hl.leads f fd rfl rfl).2.1 with hnone | hsome
      · rw [hnone] at hp
        cases hp
      · obtain rfl := Option.some.inj (hsome.symm.trans hp)
        exact hbytes
    obtain ⟨h0, hle⟩ := pageFloor_le bytes.length
    have hmax := hlength _ hd bytes hstored
    refine ⟨h0, by rw [Option.elim_some]; omega, fun bytes' hbytes' => ?_⟩
    obtain rfl := Option.some.inj (hstored.symm.trans hbytes')
    exact hresume bytes hd hc

theorem Fits.reply (hsize : ∀ d, (content d).length < 2 ^ 31) {train : TransFile}
    (hl : Fits content cwd s i (.sized f fd offset)) (htrain : train.dataLength = intOf offset) :
    Fits content cwd { s with sent := Function.update s.sent i (s.sent i ++ [train]) } i (.replied f fd offset) := by
  obtain ⟨hsent, hreceived⟩ := hl.progress
  refine ⟨hl.header, hl.leads, hl.reached, ?_, hreceived, fun hd => ?_⟩
  · simp
  · obtain ⟨h0, hle, -⟩ := hl.reached f fd offset rfl rfl rfl hd
    have hlt := hsize f.data
    obtain ⟨n, rfl⟩ := Int.eq_ofNat_of_zero_le h0
    have hreply : intOf (n : Int) = n := intOf_of_lt (by omega)
    simp [Store.replyOffset, hsent, htrain, hreply]

theorem Fits.send {train : TransFile} (hl : Fits content cwd s i l)
    (hlate : (∃ f fd offset, l = .replied f fd offset) ∨ (∃ f fd offset, l = .copying f fd offset) ∨
      ∃ f fd offset buf, l = .received f fd offset buf) :
    Fits content cwd { s with sent := Function.update s.sent i (s.sent i ++ [train]) } i l := by
  have hreply : s.sent i ≠ [] →
      Store.replyOffset { s with sent := Function.update s.sent i (s.sent i ++ [train]) } i = s.replyOffset i := by
    intro hne
    obtain ⟨x, xs, hx⟩ := List.exists_cons_of_ne_nil hne
    simp [Store.replyOffset, hx]
  have hne : s.sent i ≠ [] → Function.update s.sent i (s.sent i ++ [train]) i ≠ [] := fun _ => by
    rw [Function.update_self]
    exact List.append_ne_nil_of_right_ne_nil _ (List.cons_ne_nil _ _)
  refine ⟨hl.header, hl.leads, hl.reached, ?_⟩
  have hp := hl.progress
  rcases hlate with ⟨f, fd, offset, rfl⟩ | ⟨f, fd, offset, rfl⟩ | ⟨f, fd, offset, buf, rfl⟩
  · exact ⟨hne hp.1, hp.2.1, fun hd => by rw [hreply hp.1]; exact hp.2.2 hd⟩
  · exact ⟨hne hp.1, fun hd => by rw [hreply hp.1]; exact hp.2 hd⟩
  · exact ⟨hne hp.1, fun hd => by rw [hreply hp.1]; exact hp.2 hd⟩

theorem stored_modify {h : CStr} {g : CStr → CStr} (hto : s.fds fd = some (resolve (realPath cwd h))) :
    (s.modify fd g).stored cwd h = (s.stored cwd h).map g := by
  rw [Store.modify, hto]
  exact Function.update_self _ _ _

/-- Chunks that a client sends are bytes of its file. -/
theorem Fits.recvBuf {buf : CStr} (hl : Fits content cwd s i (.copying f fd offset))
    (hbuf : IsDigest f.data → buf <+: (content f.data).drop (s.replyOffset i + (s.received i).length)) :
    Fits content cwd { s with received := Function.update s.received i (s.received i ++ buf) } i
      (.received f fd offset buf) := by
  obtain ⟨hsent, hp⟩ := hl.progress
  refine ⟨hl.header, hl.leads, hl.reached, hsent, fun hd => ?_⟩
  obtain ⟨hoffset, hfull⟩ := hp hd
  have hreceived : (Function.update s.received i (s.received i ++ buf) i).length = (s.received i).length + buf.length := by
    rw [Function.update_self, List.length_append]
  refine ⟨?_, ?_, hfull⟩
  · show ((s.replyOffset i + (Function.update s.received i (s.received i ++ buf) i).length : Nat) : Int) = _
    rw [hreceived]
    omega
  · have htoNat : s.replyOffset i + (s.received i).length = offset.toNat := by omega
    rw [← htoNat]
    exact hbuf hd

theorem Fits.grows_truncate (hsize : ∀ d, (content d).length < 2 ^ 31)
    (hl : Fits content cwd s i (.replied f fd offset)) :
    Grows content cwd s (s.modify fd (Bytes.resize '\x00' (intOf f.dataLength).toNat)) := by
  refine grows_modify fun h hh hto old hold => ?_
  obtain rfl := hl.digest rfl rfl hh hto
  rw [hl.size hsize rfl hh, Int.toNat_natCast]
  exact ⟨fun n hn hagrees => hagrees.resize hn, fun _ => Bytes.length_resize, fun _ => Bytes.length_resize.le⟩

theorem Fits.truncate (hsize : ∀ d, (content d).length < 2 ^ 31) (hl : Fits content cwd s i (.replied f fd offset))
    (hs' : s' = if intOf f.dataLength < 0 then s else s.modify fd (Bytes.resize '\x00' (intOf f.dataLength).toNat)) :
    Grows content cwd s s' ∧ Fits content cwd s' i (.copying f fd offset) := by
  have hgrows : Grows content cwd s s' := by
    rw [hs']
    split
    · exact grows_of_files rfl
    · exact hl.grows_truncate hsize
  have hsame : s' = { s with sql := s'.sql, files := s'.files } := by
    rw [hs']
    split
    · rfl
    · exact Store.modify_eq
  have hl' : Fits content cwd s' i (.replied f fd offset) := by
    refine hl.frame hgrows ?_ ?_ ?_ ?_ fun fd _ => .inl ?_ <;> rw [hsame]
  obtain ⟨hsent, hreceived, hreply⟩ := hl'.progress
  refine ⟨hgrows, hl'.header, hl'.leads, hl'.reached, hsent, fun hd => ⟨?_, fun hne bytes hbytes => ?_⟩⟩
  · rw [hreceived]
    exact hreply hd
  · have hto : s.fds fd = some (resolve (realPath cwd f.data)) := by
      have hfds : s'.fds = s.fds := by rw [hsame]
      rw [hfds] at hne
      exact (hl.leads f fd rfl rfl).2.1.resolve_left hne
    have hlen := hl.size hsize rfl hd
    rw [hs', if_neg (by omega), stored_modify hto] at hbytes
    obtain ⟨old, -, rfl⟩ := Option.map_eq_some_iff.1 hbytes
    rw [Bytes.length_resize, hlen, Int.toNat_natCast]

/-- The chunk that a session is about to write is in its place. -/
theorem Fits.chunk (hsize : ∀ d, (content d).length < 2 ^ 31) {buf : CStr}
    (hl : Fits content cwd s i (.received f fd offset buf)) (hd : IsDigest f.data) :
    buf.take (intOf f.dataLength - offset).toNat = buf ∧
      ∀ j < buf.length, buf[j]? = (content f.data)[offset.toNat + j]? := by
  obtain ⟨h0, hle, -⟩ := hl.reached f fd offset rfl rfl rfl hd
  obtain ⟨-, hstart, -⟩ := hl.progress.2 hd
  have hlen := hstart.length_le
  rw [List.length_drop] at hlen
  refine ⟨List.take_of_length_le ?_, fun j hj => ?_⟩
  · rw [hl.size hsize rfl hd]
    omega
  · rw [List.getElem?_eq_getElem hj, ← List.getElem?_drop]
    exact (List.prefix_iff_getElem?.1 hstart j hj).symm

theorem Fits.grows_write (hsize : ∀ d, (content d).length < 2 ^ 31) {buf : CStr}
    (hl : Fits content cwd s i (.received f fd offset buf)) :
    Grows content cwd s (s.modify fd (Bytes.overwrite offset.toNat (buf.take (intOf f.dataLength - offset).toNat))) := by
  refine grows_modify fun h hh hto old hold => ?_
  obtain rfl := hl.digest rfl rfl hh hto
  obtain ⟨htake, hbytes⟩ := hl.chunk hsize hh
  rw [htake]
  refine ⟨fun n hn hagrees => hagrees.overwrite hn hbytes, fun h => ?_, fun h => ?_⟩ <;> rwa [Bytes.length_overwrite]

theorem Fits.write (hsize : ∀ d, (content d).length < 2 ^ 31) {buf : CStr}
    (hl : Fits content cwd s i (.received f fd offset buf)) (hopen : s.fds fd ≠ none)
    (hs' : s' = s.modify fd (Bytes.overwrite offset.toNat (buf.take (intOf f.dataLength - offset).toNat))) :
    Fits content cwd s' i (.copying f fd (offset + (buf.take (intOf f.dataLength - offset).toNat).length)) := by
  have hgrows : Grows content cwd s s' := hs' ▸ hl.grows_write hsize
  have hsame : s' = { s with sql := s'.sql, files := s'.files } := by
    rw [hs']
    exact Store.modify_eq
  have hl' : Fits content cwd s' i (.received f fd offset buf) := by
    refine hl.frame hgrows ?_ ?_ ?_ ?_ fun fd _ => .inl ?_ <;> rw [hsame]
  obtain ⟨hsent, hp⟩ := hl'.progress
  refine ⟨hl'.header, hl'.leads, fun f' fd' offset' hf' hfd' ho hd => ?_, hsent, fun hd => ?_⟩
  · obtain rfl : f = f' := Option.some.inj hf'
    obtain rfl : fd = fd' := Option.some.inj hfd'
    obtain rfl := Option.some.inj ho
    obtain ⟨htake, hplace⟩ := hl.chunk hsize hd
    obtain ⟨h0, hle, hagrees⟩ := hl.reached f fd offset rfl rfl rfl hd
    obtain ⟨-, hstart, hfull⟩ := hl.progress.2 hd
    have hlen := hstart.length_le
    rw [List.length_drop] at hlen
    rw [htake]
    refine ⟨by omega, by omega, fun bytes hbytes => ?_⟩
    have hto := (hl.leads f fd rfl rfl).2.1.resolve_left hopen
    rw [hs', stored_modify hto, htake] at hbytes
    obtain ⟨old, hold, rfl⟩ := Option.map_eq_some_iff.1 hbytes
    have hroom := hfull hopen old hold
    have hsum : (offset + buf.length).toNat = offset.toNat + buf.length := by omega
    rw [hsum]
    exact (hagrees old hold).extend (by omega) hplace
  · rw [(hl.chunk hsize hd).1]
    exact ⟨(hp hd).1, (hp hd).2.2⟩

/-- A step of a session outside the database lets files grow and fits its new state. -/
theorem Fits.ioStep (hsize : ∀ d, (content d).length < 2 ^ 31) {w : Choice} {o : Op} {r : Resp o}
    (hl : Fits content cwd s i l)
    (hlength : ∀ h, IsDigest h → ∀ bytes, s.stored cwd h = some bytes → bytes.length ≤ (content h).length)
    (ho : o.isSql = false) (hok : (transferProtocol cwd).ok l o)
    (hrecv : ∀ fd, o = .recv fd → IsHex w.frame.data ∧
      (IsDigest w.frame.data → w.frame.dataLength = (content w.frame.data).length))
    (hbuf : ∀ fd, o = .recvBuf fd → ∀ f, s.header i = some f → IsDigest f.data →
      w.bytes <+: (content f.data).drop (s.replyOffset i + (s.received i).length))
    (hresume : ∀ fd, o = .lseekEnd fd → ∀ f bytes, s.header i = some f → IsDigest f.data →
      s.contents fd = some bytes → Bytes.Agrees (content f.data) (pageFloor bytes.length).toNat bytes)
    (hH : Store.handler i w o s = some (r, s')) :
    Grows content cwd s s' ∧ Fits content cwd s' i ((transferProtocol cwd).next l o r) := by
  cases o with
  | recv fd =>
    obtain rfl : l = .start := hok
    obtain ⟨rfl, rfl⟩ := Prod.mk.inj (Option.some.inj hH)
    exact ⟨grows_of_files rfl, hl.recv (hrecv fd rfl).1 (hrecv fd rfl).2⟩
  | openFile path creat =>
    obtain ⟨f, rfl, rfl⟩ := hok
    rcases Store.openFile_cases (Option.some.inj hH) with ⟨rfl, rfl⟩ | ⟨rfl, rfl⟩
    · exact ⟨grows_of_files rfl, fits_ended⟩
    · have hpos : ¬ (s.nextFd : Int) < 0 := by omega
      have hnext : (transferProtocol cwd).next (.seen f) (.openFile (realPath cwd f.data) creat) (s.nextFd : Int) =
          if (s.nextFd : Int) < 0 then .ended else .opened f s.nextFd := rfl
      rw [hnext, if_neg hpos]
      exact ⟨grows_open, hl.open⟩
  | lseekEnd fd =>
    obtain ⟨f, rfl⟩ := hok
    obtain ⟨rfl, rfl⟩ := Prod.mk.inj (Option.some.inj hH)
    exact ⟨grows_of_files rfl, hl.lseek hlength fun bytes hd hc =>
      hresume fd rfl f bytes (hl.header f rfl).1 hd hc⟩
  | send fd train =>
    obtain ⟨-, rfl⟩ := Prod.mk.inj (Option.some.inj hH)
    refine ⟨grows_of_files rfl, ?_⟩
    cases l with
    | sized f fd offset => exact hl.reply hsize (hok f fd offset rfl)
    | replied f fd offset => exact hl.send (.inl ⟨f, fd, offset, rfl⟩)
    | copying f fd offset => exact hl.send (.inr (.inl ⟨f, fd, offset, rfl⟩))
    | received f fd offset buf => exact hl.send (.inr (.inr ⟨f, fd, offset, buf, rfl⟩))
    | _ => exact fits_ended
  | ftruncate fd length =>
    obtain ⟨f, offset, rfl, rfl⟩ := hok
    obtain ⟨-, hs'⟩ := Prod.mk.inj (Option.some.inj hH)
    exact hl.truncate hsize hs'.symm
  | recvBuf fd =>
    obtain ⟨f, fd', offset, rfl⟩ := hok
    obtain ⟨-, hH⟩ := Option.ite_none_right_eq_some.1 hH
    obtain ⟨rfl, rfl⟩ := Prod.mk.inj (Option.some.inj hH)
    refine ⟨grows_of_files rfl, ?_⟩
    show Fits _ _ _ i (if w.bytes = [] then .ended else .received f fd' offset w.bytes)
    split
    · exact fits_ended
    · exact hl.recvBuf fun hd => hbuf fd rfl f (hl.header f rfl).1 hd
  | mmapWrite fd offset bytes =>
    obtain ⟨f, buf, rfl, rfl⟩ := hok
    rcases Store.mmapWrite_cases hH with ⟨rfl, rfl⟩ | ⟨rfl, -, -, hopen, hs'⟩
    · exact ⟨grows_of_files rfl, fits_ended⟩
    · have hne : s.fds fd ≠ none := fun hnone => by
        rw [Store.contents, hnone] at hopen
        cases hopen
      exact ⟨hs' ▸ hl.grows_write hsize, hl.write hsize hne hs'⟩
  | close fd =>
    obtain ⟨-, rfl⟩ := Prod.mk.inj (Option.some.inj hH)
    have hgrows : Grows content cwd s { s with fds := Function.update s.fds fd none } := grows_of_files rfl
    have hl' : Fits content cwd { s with fds := Function.update s.fds fd none } i l :=
      hl.frame hgrows rfl rfl rfl le_rfl fun fd' _ => by
        by_cases heq : fd' = fd
        · subst heq
          exact .inr (Function.update_self _ _ _)
        · exact .inl (Function.update_of_ne heq _ _)
    exact ⟨hgrows, by cases l <;> exact hl'⟩
  | time =>
    obtain ⟨-, rfl⟩ := Prod.mk.inj (Option.some.inj hH)
    exact ⟨grows_of_files rfl, by cases l <;> exact hl⟩
  | stat | sendfile | crash => cases hH
  | _ => cases ho

end Steps

/-! ### Runs -/

/-- All sessions fit the store, no stored file is too long, and whatever was marked complete is. -/
structure Sound (content : Contents) (cwd : CStr) (s : Store) (ls : List Transfer) : Prop where
  fits : ∀ (i : Nat) l, ls[i]? = some l → Fits content cwd s i l
  fresh : ∀ i, ls.length ≤ i → s.sent i = [] ∧ s.received i = []
  length : ∀ h, IsDigest h → ∀ bytes, s.stored cwd h = some bytes → bytes.length ≤ (content h).length
  done : ∀ j h, (j, Db.Change.complete h) ∈ s.sql.executed → IsDigest h → s.stored cwd h = some (content h)
  logged : s.sql.Logged
  rows : ∀ f ∈ s.sql.base.file, f.hash = none
  added : ∀ ch ∈ s.sql.executed, ∀ f, ch.2 = .addFile f → f.complete = false

section Sound
variable {content : Contents} {cwd : CStr} {s s' : Store} {ls : List Transfer} {i : Nat} {l : Transfer}

theorem Sound.intact (h : Sound content cwd s ls) {d : CStr} (hd : IsDigest d) (hc : s.Complete d) :
    s.stored cwd d = some (content d) := by
  obtain ⟨f, hf, hfd, hfc⟩ := hc
  rcases Mysql.complete_origin hf hfd hfc with ⟨g, hg, hgd⟩ | ⟨⟨j, ch⟩, hx, hch | ⟨g, hg, hgc⟩⟩
  · rw [h.rows g hg] at hgd
    cases hgd
  · obtain rfl : ch = .complete d := hch
    exact h.done j d (h.logged.published _ hx) hd
  · rw [h.added _ (h.logged.published _ hx) g hg] at hgc
    cases hgc

theorem Sound.start (h : Sound content cwd s ls) : Sound content cwd s (ls ++ [.start]) := by
  refine { h with fits := fun i l hi => ?_, fresh := fun i hi => h.fresh i ?_ }
  · rcases Threads.getElem?_snoc_cases hi with ⟨rfl, rfl⟩ | hi
    · obtain ⟨hsent, hreceived⟩ := h.fresh _ le_rfl
      exact fits_start hsent hreceived
    · exact h.fits i l hi
  · rw [List.length_append] at hi
    omega

theorem Sound.ioStep (hsize : ∀ d, (content d).length < 2 ^ 31) {w : Choice} {o : Op} {r : Resp o}
    (h : Sound content cwd s ls) (hi : ls[i]? = some l) (ho : o.isSql = false) (hok : (transferProtocol cwd).ok l o)
    (hrecv : ∀ fd, o = .recv fd → IsHex w.frame.data ∧
      (IsDigest w.frame.data → w.frame.dataLength = (content w.frame.data).length))
    (hbuf : ∀ fd, o = .recvBuf fd → ∀ f, s.header i = some f → IsDigest f.data →
      w.bytes <+: (content f.data).drop (s.replyOffset i + (s.received i).length))
    (hresume : ∀ fd, o = .lseekEnd fd → ∀ f bytes, s.header i = some f → IsDigest f.data →
      s.contents fd = some bytes → Bytes.Agrees (content f.data) (pageFloor bytes.length).toNat bytes)
    (hH : Store.handler i w o s = some (r, s')) :
    Sound content cwd s' (ls.set i ((transferProtocol cwd).next l o r)) := by
  obtain ⟨hgrows, hfits⟩ := (h.fits i l hi).ioStep hsize h.length ho hok hrecv hbuf hresume hH
  obtain ⟨hother, hnext, hfds⟩ := Store.handler_frame hH
  have hsql := Store.handler_io ho hH
  have hlt := (List.getElem?_eq_some_iff.1 hi).1
  refine ⟨fun j k hj => ?_, fun j hj => ?_, fun d hd new hnew => ?_, fun j d hj hd => ?_, hsql ▸ h.logged,
    hsql ▸ h.rows, hsql ▸ h.added⟩
  · rcases Threads.getElem?_set_cases hj with ⟨rfl, rfl⟩ | ⟨hne, hj⟩
    · exact hfits
    · obtain ⟨hheader, hsent, hreceived⟩ := hother j hne
      exact (h.fits j k hj).frame hgrows hheader hsent hreceived hnext hfds
  · rw [List.length_set] at hj
    obtain ⟨-, hsent, hreceived⟩ := hother j (by omega)
    rw [hsent, hreceived]
    exact h.fresh j hj
  · rcases hgrows.bytes d hd new hnew with ⟨-, rfl⟩ | ⟨old, hold, -, -, hle⟩
    · exact Nat.zero_le _
    · exact hle (h.length d hd old hold)
  · rw [hsql] at hj
    exact hgrows.eq hd (h.done j d hj hd)

/-- A digest is marked complete by a session that has reached the size. -/
theorem Sound.marks (hsize : ∀ d, (content d).length < 2 ^ 31) {c : Conn} {d : CStr} (h : Sound content cwd s ls)
    (hi : ls[i]? = some l) (hok : (transferProtocol cwd).ok l (.exec c (.updateComplete d))) (hd : IsDigest d) :
    s.stored cwd d = some (content d) := by
  obtain ⟨f, fd, rfl, rfl⟩ := hok
  have hl := h.fits i _ hi
  obtain ⟨bytes, hbytes⟩ := Option.isSome_iff_exists.1 (hl.leads f fd rfl rfl).2.2
  obtain ⟨-, -, hagrees⟩ := hl.reached f fd _ rfl rfl rfl hd
  have hall := hagrees bytes hbytes
  rw [hl.size hsize rfl hd, Int.toNat_natCast] at hall
  rw [← hall.eq (h.length _ hd bytes hbytes)]
  exact hbytes

theorem Sound.sqlStep (hsize : ∀ d, (content d).length < 2 ^ 31) {w : Choice} {o : Op} {r : Resp o}
    (h : Sound content cwd s ls) (hi : ls[i]? = some l) (ho : o.isSql = true) (hok : (transferProtocol cwd).ok l o)
    (hH : Store.handler i w o s = some (r, s')) :
    Sound content cwd s' (ls.set i ((transferProtocol cwd).next l o r)) := by
  obtain ⟨m, hm, rfl⟩ := Store.handler_sql ho hH
  have hsame : (transferProtocol cwd).next l o r = l := by
    cases o <;> first | (cases l <;> rfl) | cases ho
  have hnew : ∀ ch ∈ m.executed, ch ∈ s.sql.executed ∨ ∃ c st, o = .exec c st ∧ ch = (i, (s.sql.base.change st).1) := by
    intro ch hch
    rcases Mysql.handler_executed hm with heq | ⟨c, st, hst, heq⟩
    · exact .inl (heq ▸ hch)
    · rw [heq] at hch
      rcases List.mem_append.1 hch with hch | hch
      · exact .inl hch
      · exact .inr ⟨c, st, hst, List.mem_singleton.1 hch⟩
  rw [hsame, Threads.set_self hi]
  refine ⟨fun j k hj => ?_, h.fresh, h.length, fun j d hj hd => ?_, h.logged.step hm, ?_, fun ch hch f hf => ?_⟩
  · exact (h.fits j k hj).frame (grows_of_files rfl) rfl rfl rfl le_rfl fun _ _ => .inl rfl
  · rcases hnew _ hj with hj | ⟨c, st, rfl, heq⟩
    · exact h.done j d hj hd
    · have hch := (Prod.mk.inj heq).2
      cases st with
      | updateComplete e =>
        cases hch
        exact h.marks hsize hi hok hd
      | _ => cases hch
  · rw [(Mysql.handler_base hm).2.1]
    exact h.rows
  · rcases hnew ch hch with hch | ⟨c, st, rfl, rfl⟩
    · exact h.added ch hch f hf
    · cases st with
      | insertFile => cases hf; rfl
      | insertDir => exact hok.elim
      | _ => cases hf

end Sound

/-- The header that a session has received is the begin of its client's digest. -/
structure Named (s : UploadState) : Prop where
  fresh : ∀ i, s.threads.length ≤ i → s.shared.header i = none
  digest : ∀ (i : Nat) t, s.threads[i]? = some t → IsDigest t.call.digest ∧
    ∀ f, s.shared.header i = some f → f.data <+: t.call.digest

section Runs
variable {content : Contents} {J : Jwt} {cwd strerror : CStr} {s t : UploadState} {a : UploadAct}

theorem Named.step (hs : Named s) (hH : Honest content s a) (hst : UploadStep J cwd strerror s a t) : Named t := by
  cases a with
  | start call =>
    obtain rfl := Threads.step_start hst
    refine ⟨fun i hi => hs.fresh i ?_, fun i t hi => ?_⟩
    · rw [List.length_append] at hi
      omega
    · rcases Threads.getElem?_snoc_cases hi with ⟨rfl, rfl⟩ | hi
      · refine ⟨hH, fun f hf => ?_⟩
        rw [hs.fresh _ le_rfl] at hf
        cases hf
      · exact hs.digest i t hi
  | exec i w =>
    obtain ⟨call, o, k, r, sh, hi, hstep, rfl⟩ := Threads.step_exec hst
    have hlt := (List.getElem?_eq_some_iff.1 hi).1
    obtain ⟨hother, -, -⟩ := Store.handler_frame hstep
    obtain ⟨hd, hstart⟩ := hs.digest i _ hi
    -- only `recv` brings a header
    have hheader : ∀ f, sh.header i = some f → f.data <+: call.digest := by
      intro f hf
      by_cases hrecv : ∃ fd, o = .recv fd
      · obtain ⟨fd, rfl⟩ := hrecv
        obtain ⟨n, hframe⟩ := (hH call _ k hi).1 fd rfl
        obtain ⟨-, rfl⟩ := Prod.mk.inj (Option.some.inj hstep)
        change Function.update s.shared.header i (some w.frame) i = some f at hf
        rw [Function.update_self, hframe] at hf
        rw [← Option.some.inj hf]
        exact List.take_prefix _ _
      · have hkept : sh.header = s.shared.header := Store.header_of_ne hstep fun fd hfd => hrecv ⟨fd, hfd⟩
        exact hstart f (hkept ▸ hf)
    refine ⟨fun j hj => ?_, fun j t hj => ?_⟩
    · rw [List.length_set] at hj
      rw [(hother j (by omega)).1]
      exact hs.fresh j hj
    · rcases Threads.getElem?_set_cases hj with ⟨rfl, rfl⟩ | ⟨hne, hj⟩
      · exact ⟨hd, hheader⟩
      · rw [(hother j hne).1]
        exact hs.digest j t hj

abbrev IntegrityInv (content : Contents) (cwd : CStr) (s : UploadState) : Prop :=
  Threads.Guided (transferProtocol cwd) (fun _ _ => True) (Sound content cwd) s ∧ Named s

theorem IntegrityInv.step (hsize : ∀ d, (content d).length < 2 ^ 31) (hs : IntegrityInv content cwd s)
    (hC : Honest content s a ∧ WholeHeader content s a ∧ ResumesRight content s a) (hst : UploadStep J cwd strerror s a t) :
    IntegrityInv content cwd t := by
  refine ⟨?_, hs.2.step hC.1 hst⟩
  obtain ⟨hguided, hnamed⟩ := hs
  cases a with
  | start call => exact hguided.start hst call.transfer fun ls h => h.start
  | exec i w =>
    refine hguided.exec hst fun ls call o k l r sh hsound hl hi hok hH => ⟨trivial, ?_⟩
    obtain ⟨hframe, hbytes⟩ := hC.1 call o k hi
    obtain ⟨hd, hstart⟩ := hnamed.digest i _ hi
    cases ho : o.isSql with
    | true => exact hsound.sqlStep hsize hl ho hok hH
    | false =>
      refine hsound.ioStep hsize hl ho hok (fun fd hfd => ⟨?_, ?_⟩) (fun fd hfd f hf hfdigest => ?_)
        (fun fd hfd f bytes => ?_) hH
      · obtain ⟨n, hn⟩ := hframe fd hfd
        rw [hn]
        exact fun c hc => hd.2 c (List.mem_of_mem_take hc)
      · subst hfd
        exact hC.2.1 call fd k hi
      · have heq : f.data = call.digest := (hstart f hf).eq_of_length (hfdigest.1.trans hd.1.symm)
        rw [heq]
        exact hbytes fd hfd
      · subst hfd
        exact hC.2.2 call fd k f bytes hi

theorem integrityInv_init {db : Db} (hdb : ∀ f ∈ db.file, f.hash = none) :
    IntegrityInv content cwd (uploadInit db) := by
  refine ⟨Threads.guided_init ⟨nofun, fun _ _ => ⟨rfl, rfl⟩, nofun, nofun, ⟨nofun, ?_⟩, hdb, nofun⟩,
    ⟨fun _ _ => rfl, nofun⟩⟩
  intro c x hx ch hch
  obtain rfl := List.eq_of_mem_replicate (List.mem_of_getElem? hx)
  cases hch

/-- Complete rows have their files, in every state of a run of honest clients in which no header is
cut in its size and no session resumes behind bytes that are not those of the file. -/
theorem intact_of_resumesRight (J : Jwt) (cwd strerror : CStr) (db : Db) (hdb : ∀ f ∈ db.file, f.hash = none)
    (content : Contents) (hsize : ∀ d, (content d).length < 2 ^ 31) (r : List (UploadAct × UploadState))
    (hr : IsRun (UploadStep J cwd strerror) (uploadInit db) r) (hH : Meets (Honest content) (uploadInit db) r)
    (hC : Meets (WholeHeader content) (uploadInit db) r) (hC' : Meets (ResumesRight content) (uploadInit db) r) :
    Always (Intact content cwd) (uploadInit db) r :=
  (hr.always (I := IntegrityInv content cwd) (fun _ _ _ hs hC hst => hs.step hsize hC hst) (integrityInv_init hdb)
    (hH.and (hC.and hC'))).mono fun _ hs d hd hc => by
      obtain ⟨⟨ls, -, -, hsound⟩, -⟩ := hs
      exact hsound.intact hd hc

/-- Files shorter than a page are never resumed, so nothing can go wrong there. -/
theorem resumesRight_of_short {db : Db} (hdb : ∀ f ∈ db.file, f.hash = none)
    (hshort : ∀ d, (content d).length < pageSize) {r : List (UploadAct × UploadState)}
    (hr : IsRun (UploadStep J cwd strerror) (uploadInit db) r) (hH : Meets (Honest content) (uploadInit db) r)
    (hC : Meets (WholeHeader content) (uploadInit db) r) : Meets (ResumesRight content) (uploadInit db) r := by
  have hsize : ∀ d, (content d).length < 2 ^ 31 := fun d => (hshort d).trans (by decide)
  have hright : ∀ s a, IntegrityInv content cwd s → ResumesRight content s a := by
    intro s a hs
    cases a with
    | start call => trivial
    | exec i w =>
      intro call fd k f bytes hi hf hd hbytes
      obtain ⟨⟨ls, l, hsound, hl, hok⟩, hnamed⟩ := And.intro (hs.1.ok hi) hs.2
      obtain ⟨f', rfl⟩ := hok
      have hfits := hsound.fits i _ hl
      obtain rfl : f' = f := Option.some.inj ((hfits.header f' rfl).1.symm.trans hf)
      obtain ⟨p, hp, hfile⟩ := Option.bind_eq_some_iff.1 hbytes
      have hstored : s.shared.stored cwd f'.data = some bytes := by
        rcases (hfits.leads f' fd rfl rfl).2.1 with hnone | hsome
        · rw [hnone] at hp
          cases hp
        · obtain rfl := Option.some.inj (hsome.symm.trans hp)
          exact hfile
      have hlen := (hsound.length _ hd bytes hstored).trans_lt (hshort _)
      rw [pageFloor_natCast, Nat.div_eq_of_lt hlen, Nat.zero_mul]
      exact fun k hk => absurd hk (Nat.not_lt_zero k)
  exact hr.meets (I := IntegrityInv content cwd)
    (fun s a t hs hC hst => hs.step hsize ⟨hC.1, hC.2, hright s a hs⟩ hst) (fun s a hs _ => hright s a hs)
    (integrityInv_init hdb) (hH.and hC)

end Runs

/-! ### Two runs -/

/-- The run of the server on the steps `is`. -/
def uploadRun (J : Jwt) (cwd strerror : CStr) (s : UploadState) (is : List UploadAct) : List (UploadAct × UploadState) :=
  trace (Threads.step (UploadCall.prog J cwd strerror) Store.handler) s is

/-- What an honest client does where session `i` waits for it. -/
def Choice.honest (content : Contents) (s : Store) (i : Nat) (digest : CStr) (w : Choice) : Op → Bool
  | .recv _ => decide (IsDigest digest) && decide (w.frame = headerFrame content digest 1028)
  | .recvBuf _ => w.bytes.isPrefixOf ((content digest).drop (s.replyOffset i + (s.received i).length))
  | _ => true

/-- Where session `i` asks for the length of its file, the whole pages of it are right. -/
def Store.resumesRight (content : Contents) (s : Store) (i : Nat) : Op → Bool
  | .lseekEnd fd => (s.header i).all fun f => (s.contents fd).all fun bytes =>
      (bytes.take (bytes.length / pageSize * pageSize)).isPrefixOf (content f.data)
  | _ => true

/-- The step is one of honest clients, all of whose headers arrive. -/
def HonestStep (content : Contents) (s : UploadState) : UploadAct → Prop
  | .start call => IsDigest call.digest
  | .exec i w => s.Next i fun call o => w.honest content s.shared i call.digest o = true

def RightStep (content : Contents) (s : UploadState) : UploadAct → Prop
  | .start _ => True
  | .exec i _ => s.Next i fun _ o => s.shared.resumesRight content i o = true

instance (content : Contents) (s : UploadState) : DecidablePred (HonestStep content s)
  | .start call => inferInstanceAs (Decidable (IsDigest call.digest))
  | .exec i w => inferInstanceAs (Decidable (s.Next i fun call o => w.honest content s.shared i call.digest o = true))

instance (content : Contents) (s : UploadState) : DecidablePred (RightStep content s)
  | .start _ => isTrue trivial
  | .exec i _ => inferInstanceAs (Decidable (s.Next i fun _ o => s.shared.resumesRight content i o = true))

section Steps
variable {content : Contents} {s : UploadState} {a : UploadAct}

theorem HonestStep.honest (h : HonestStep content s a) : Honest content s a := by
  cases a with
  | start call => exact h
  | exec i w =>
    intro call o k hi
    have hnext : s.Next i fun call o => w.honest content s.shared i call.digest o = true := h
    have hw := Threads.next_iff.1 hnext call o k hi
    constructor
    · rintro fd rfl
      exact ⟨1028, of_decide_eq_true (Bool.and_eq_true_iff.1 hw).2⟩
    · rintro fd rfl
      exact List.isPrefixOf_iff_prefix.1 hw

theorem HonestStep.wholeHeader (hsize : ∀ d, (content d).length < 2 ^ 31) (h : HonestStep content s a) :
    WholeHeader content s a := by
  cases a with
  | start call => trivial
  | exec i w =>
    intro call fd k hi hdata
    have hnext : s.Next i fun call o => w.honest content s.shared i call.digest o = true := h
    obtain ⟨hd, hframe⟩ := Bool.and_eq_true_iff.1 (Threads.next_iff.1 hnext call _ k hi)
    have hlong : 64 ≤ 1028 := by decide
    have htake : call.digest.take 1028 = call.digest := List.take_of_length_le ((of_decide_eq_true hd).1 ▸ hlong)
    have hmod : (content call.digest).length % 256 ^ (1028 - 1024) = (content call.digest).length :=
      Nat.mod_eq_of_lt ((hsize _).trans (by decide))
    rw [of_decide_eq_true hframe, headerFrame, htake, hmod]

theorem RightStep.resumesRight (h : RightStep content s a) : ResumesRight content s a := by
  cases a with
  | start call => trivial
  | exec i w =>
    intro call fd k f bytes hi hf _ hbytes j hj
    have hnext : s.Next i fun _ o => s.shared.resumesRight content i o = true := h
    have hpages := Threads.next_iff.1 hnext call _ k hi
    simp only [Store.resumesRight, hf, hbytes, Option.all_some, List.isPrefixOf_iff_prefix] at hpages
    obtain ⟨rest, hrest⟩ := hpages
    rw [pageFloor_natCast, Int.toNat_natCast] at hj
    have hlt : j < (bytes.take (bytes.length / pageSize * pageSize)).length := by
      rw [List.length_take]
      exact Nat.lt_min.2 ⟨hj, hj.trans_le (Nat.div_mul_le_self _ _)⟩
    rw [← hrest, List.getElem?_append_left hlt, List.getElem?_take_of_lt hj]

end Steps

def someDigest : CStr := List.replicate 64 'A'

/-- User 1 puts the file with the digest into the home. -/
def someUpload : UploadCall := ⟨100, ['f', ' ', '/'], ⟨1, ['/', 'u']⟩, someDigest⟩

/-- A page and one byte. -/
def overPage : Contents := fun _ => List.replicate 4096 'x' ++ ['y']

/-- The first session receives the page and is cut; the second one resumes behind the page and receives
the last byte. -/
def cutAndResume : List UploadAct :=
  let header := headerFrame overPage someDigest 1028
  .start someUpload :: List.replicate 19 (.exec 0 { ord := .stored, frame := header, bytes := List.replicate 4096 'x' }) ++
    List.replicate 3 (.exec 0 { ord := .stored }) ++
    .start someUpload :: List.replicate 25 (.exec 1 { ord := .stored, frame := header, bytes := ['y'] })

theorem intact_of_resumesRight_two :
    let r := uploadRun .unary ['/'] [] (uploadInit oneUser) cutAndResume
    IsRun (UploadStep .unary ['/'] []) (uploadInit oneUser) r ∧
      (final (uploadInit oneUser) r).shared.Complete someDigest ∧
      Always (Intact overPage ['/']) (uploadInit oneUser) r := by
  intro r
  have hr : IsRun (UploadStep .unary ['/'] []) (uploadInit oneUser) r := isRun_trace (Threads.step _ _) _ _
  have hsize : ∀ d, (overPage d).length < 2 ^ 31 := fun d => by
    rw [overPage, List.length_append, List.length_replicate]
    decide
  have hC : Meets (fun s a => HonestStep overPage s a ∧ RightStep overPage s a) (uploadInit oneUser) r := by decide +kernel
  have hcomplete : (final (uploadInit oneUser) r).shared.Complete someDigest := by
    show ∃ f ∈ (final (uploadInit oneUser) r).shared.sql.committed.file, _
    decide +kernel
  exact ⟨hr, hcomplete, intact_of_resumesRight .unary ['/'] [] oneUser (by decide) overPage hsize r hr
    (hC.mono fun _ _ h => h.1.honest) (hC.mono fun _ _ h => h.1.wholeHeader hsize) (hC.mono fun _ _ h => h.2.resumesRight)⟩

/-- The first session is cut when it has brought the file to its length; the second one finds that
length and marks the file complete. -/
theorem resumed_behind_nothing : ¬ ∀ (J : Jwt) (cwd strerror : CStr) (db : Db) (content : Contents)
    (r : List (UploadAct × UploadState)), (∀ f ∈ db.file, f.hash = none) → (∀ d, (content d).length < 2 ^ 31) →
    IsRun (UploadStep J cwd strerror) (uploadInit db) r → Meets (Honest content) (uploadInit db) r →
    Always (Intact content cwd) (uploadInit db) r := by
  intro hclaim
  let content : Contents := fun _ => List.replicate 4096 'x'
  let w : Choice := { ord := .stored, frame := headerFrame content someDigest 1028 }
  let r := uploadRun .unary ['/'] [] (uploadInit oneUser)
    ((.start someUpload :: List.replicate 21 (.exec 0 w)) ++ (.start someUpload :: List.replicate 18 (.exec 1 w)))
  have hr : IsRun (UploadStep .unary ['/'] []) (uploadInit oneUser) r := isRun_trace (Threads.step _ _) _ _
  have hH : Meets (HonestStep content) (uploadInit oneUser) r := by decide +kernel
  have hfinal := (hclaim .unary ['/'] [] oneUser content r (by decide) (fun _ => List.length_replicate.trans_lt (by decide)) hr
    (hH.mono fun _ _ h => h.honest)).final
  have hcomplete : (final (uploadInit oneUser) r).shared.Complete someDigest := by
    show ∃ f ∈ (final (uploadInit oneUser) r).shared.sql.committed.file, _
    decide +kernel
  have hstored : (final (uploadInit oneUser) r).shared.stored ['/'] someDigest ≠ some (content someDigest) := by
    decide +kernel
  exact hstored (hfinal someDigest (by decide +kernel) hcomplete)

end Netdisk

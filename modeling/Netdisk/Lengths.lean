import Netdisk.Download
import Netdisk.Streams

/-!
# Lengths on the wire

The length of a file travels as an `int`. One transfer each way to an end that has nothing yet, with
all that `sendfile` moves arriving in some pieces: `lengths_survive_iff` says for which lengths a
transfer that comes to its end has stored the file.
-/

namespace Netdisk

theorem intOf_intOf (n : Int) : intOf (intOf n) = intOf n := Int.bmod_bmod

/-! ### The connection -/

/-- `sendfile` moves at most `most` bytes, and these are cut into pieces. -/
structure Link where
  most : Nat
  cut : CStr → List CStr
  pieces : ∀ bytes, Pieces (cut bytes)
  whole : ∀ bytes, (cut bytes).flatten = bytes

def Link.carry (L : Link) (bytes : CStr) : List CStr := L.cut (bytes.take L.most)

theorem Link.length_carry (L : Link) (bytes : CStr) : (L.carry bytes).flatten.length = min L.most bytes.length := by
  rw [Link.carry, L.whole, List.length_take]

/-- The pages of a file. -/
def pages (bytes : CStr) : List CStr :=
  if bytes = [] then [] else bytes.take pageSize :: pages (bytes.drop pageSize)
termination_by bytes.length
decreasing_by
  next hne =>
    have := List.length_pos_iff.2 hne
    rw [List.length_drop]
    unfold pageSize
    omega

theorem pages_spec (bytes : CStr) : Pieces (pages bytes) ∧ (pages bytes).flatten = bytes ∧ WholePages (pages bytes) := by
  induction bytes using pages.induct with
  | case1 =>
    rw [pages, if_pos rfl]
    exact ⟨List.forall_mem_nil _, rfl, List.forall_mem_nil _⟩
  | case2 bytes hne ih =>
    obtain ⟨hpieces, hflatten, hwhole⟩ := ih
    have hpos : 0 < bytes.length := List.length_pos_iff.2 hne
    have hlength : (bytes.take pageSize).length = min pageSize bytes.length := List.length_take
    rw [pages, if_neg hne]
    refine ⟨?_, ?_, ?_⟩
    · refine List.forall_mem_cons.2 ⟨⟨?_, ?_⟩, hpieces⟩
      · refine List.length_pos_iff.1 ?_
        rw [hlength]
        unfold pageSize
        omega
      · rw [hlength]
        exact Nat.min_le_left _ _
    · rw [List.flatten_cons, hflatten, List.take_append_drop]
    · by_cases hrest : pages (bytes.drop pageSize) = []
      · rw [hrest]
        exact List.forall_mem_nil _
      · refine (wholePages_cons hrest).2 ⟨?_, hwhole⟩
        have hdrop : bytes.drop pageSize ≠ [] := by
          intro hnil
          rw [hnil, pages, if_pos rfl] at hrest
          exact hrest rfl
        have hmore := List.length_pos_iff.2 hdrop
        rw [List.length_drop] at hmore
        rw [hlength]
        omega

def Link.paged (most : Nat) : Link where
  most := most
  cut := pages
  pieces bytes := (pages_spec bytes).1
  whole bytes := (pages_spec bytes).2.1

/-! ### What the loop keeps -/

section Loop
variable {announce : TransFile} {follow : TransFile → List CStr} {clientFd fd fileSize : Int} {fuel : Nat} {o r : Int}
  {s t : Receiving}

/-- The length of the file and the marks; and the loop ends no farther than the bytes that came. -/
theorem recvLoop_keeps (h : (recvLoop clientFd fd fileSize fuel o).run (Receiving.handler announce follow) s = some (r, t)) :
    t.file.length = s.file.length ∧ t.marked = s.marked ∧ o ≤ r ∧ r ≤ o + s.chunks.flatten.length := by
  induction fuel generalizing s o with
  | zero =>
    obtain ⟨rfl, rfl⟩ := Prod.mk.inj (Option.some.inj h)
    exact ⟨rfl, rfl, le_rfl, by omega⟩
  | succ fuel ih =>
    rw [recvLoop] at h
    split at h
    · let rest : Receiving := { s with chunks := s.chunks.tail }
      have hread : Receiving.handler announce follow (.recvBuf clientFd) s = some (s.chunks.headD [], rest) := rfl
      have hsum : s.chunks.flatten.length = (s.chunks.headD []).length + rest.chunks.flatten.length := by
        show s.chunks.flatten.length = _ + s.chunks.tail.flatten.length
        cases s.chunks <;> simp
      simp only [Prog.bind_eq, Os.recvBuf_bind, Prog.run_op, hread, Option.bind_some] at h
      split at h
      · obtain ⟨rfl, rfl⟩ := Prod.mk.inj (Option.some.inj h)
        exact ⟨rfl, rfl, le_rfl, by omega⟩
      · have hcount : 0 ≤ (if o + (s.chunks.headD []).length > fileSize then fileSize - o else (s.chunks.headD []).length) ∧
            (if o + (s.chunks.headD []).length > fileSize then fileSize - o else (s.chunks.headD []).length) ≤
              ((s.chunks.headD []).length : Int) := by
          split <;> omega
        generalize (if o + (s.chunks.headD []).length > fileSize then fileSize - o else _) = count at h hcount
        simp only [Os.mmapWrite_bind, Prog.run_op, Receiving.handler] at h
        split at h
        · obtain ⟨rfl, rfl⟩ := Prod.mk.inj (Option.some.inj h)
          exact ⟨rfl, rfl, le_rfl, by omega⟩
        split at h
        · cases h
        · obtain ⟨hlength, hmarked, hle, hr⟩ := ih h
          refine ⟨hlength.trans Bytes.length_overwrite, hmarked, by omega, hr.trans ?_⟩
          show o + _ + (rest.chunks.flatten.length : Int) ≤ _
          omega
    · obtain ⟨rfl, rfl⟩ := Prod.mk.inj (Option.some.inj h)
      exact ⟨rfl, rfl, le_rfl, by omega⟩

end Loop

/-! ### One transfer -/

/-- The local file of `puts_File`, and what it has sent. -/
structure Putting where
  file : CStr
  frames : List TransFile := []
  bytes : CStr := []

/-- What the operations of `puts_File` do, when the server answers with `reply`. -/
def Putting.handler (reply : TransFile) : (o : Op) → Putting → Option (Resp o × Putting)
  | .lseekEnd _, s => some ((s.file.length : Int), s)
  | .send _ train, s => some ((), { s with frames := s.frames ++ [train] })
  | .recv _, s => some (reply, s)
  | .sendfile _ _ offset count, s =>
    some ((), { s with bytes := s.bytes ++ (s.file.drop offset.toNat).take count.toNat })
  | _, _ => none

/-- The frames and the bytes that the server is sent. -/
def put (digest content : CStr) (reply : TransFile) : Option (List TransFile × CStr) :=
  ((putsFile digest 3 4).run (Putting.handler reply) { file := content }).map fun x => (x.2.frames, x.2.bytes)

/-- An upload of `content`, once `query_puts` has returned 1, to a file without any bytes: the file, and
the digests marked complete. -/
def upload (J : Jwt) (cwd strerror : CStr) (clientFd : Int) (token : TokenInfo) (L : Link) (digest content : CStr) :
    Option (CStr × List CStr) :=
  let header := (put digest content {}).elim {} fun x => x.1.headD {}
  let follow := fun reply => L.carry ((put digest content reply).elim [] Prod.snd)
  ((recvFileData J cwd clientFd header token strerror).run (Receiving.handler {} follow) {}).map fun x =>
    (x.2.file, x.2.marked)

/-- A download from `W` to a file without any bytes: `cur_size` at the end of the loop, and the file. -/
def download (W : Source) (L : Link) (fd socketFd : Int) : Option (Option Int × CStr) :=
  ((getsFile fd socketFd).run (Receiving.handler W.announce fun reply => L.carry (W.follow reply)) {}).map fun x =>
    (x.1.getLeft?, x.2.file)

/-- The uploads of `n` bytes that are marked complete have stored `n` bytes. -/
def UploadsWhole (most n : Nat) : Prop :=
  ∀ J cwd strerror clientFd token (L : Link) digest content file marked, L.most = most → content.length = n →
    upload J cwd strerror clientFd token L digest content = some (file, marked) → marked ≠ [] → file.length = n

/-- The downloads of `n` bytes that come to the end announced have stored `n` bytes. -/
def DownloadsWhole (most n : Nat) : Prop :=
  ∀ (W : Source) (L : Link) content fd socketFd file, W.Serves content → L.most = most → content.length = n →
    download W L fd socketFd = some (some (intOf n), file) → file.length = n

section Upload
variable {J : Jwt} {cwd strerror digest content : CStr} {clientFd : Int} {token : TokenInfo}

theorem put_eq (reply : TransFile) : put digest content reply =
    some ([{ data := digest, dataLength := intOf content.length }], if reply.flag = false then [] else
      (content.drop reply.dataLength.toNat).take ((content.length : Int) - reply.dataLength).toNat) := by
  unfold put putsFile
  simp only [Prog.bind_eq, Os.lseekEnd_bind, Prog.run_op, Putting.handler, Option.bind_some, Os.send_bind, Os.recv_bind]
  split
  · rfl
  · rfl

theorem put_bytes {reply : TransFile} (hflag : reply.flag = true) (hlength : reply.dataLength = 0) :
    (put digest content reply).elim [] Prod.snd = content := by
  have hbytes : (content.drop reply.dataLength.toNat).take ((content.length : Int) - reply.dataLength).toNat = content := by
    rw [hlength, Int.sub_zero, Int.toNat_natCast]
    exact List.take_length
  rw [put_eq, hbytes]
  exact if_neg (by simp [hflag])

/-- An end that begins to receive `m` bytes. -/
def Receiving.begun (m : Int) (sent : List TransFile) (chunks : List CStr) : Receiving where
  file := if m < 0 then [] else Bytes.resize '\x00' m.toNat []
  sent := sent
  chunks := chunks

theorem Receiving.length_begun (m : Int) (sent : List TransFile) (chunks : List CStr) :
    (begun m sent chunks).file.length = m.toNat := by
  show (if m < 0 then [] else Bytes.resize '\x00' m.toNat []).length = m.toNat
  split
  · next hneg => exact (Int.toNat_of_nonpos hneg.le).symm
  · exact Bytes.length_resize

theorem Receiving.begun_eq (m : Int) (sent : List TransFile) (chunks : List CStr) :
    (if m < 0 then ({ sent, chunks } : Receiving)
      else { file := Bytes.resize '\x00' m.toNat ([] : CStr), sent, chunks }) = begun m sent chunks := by
  unfold begun
  split <;> rfl

/-- `recv_file` from an empty file on: its loop, and the mark if the loop comes to the end. -/
theorem recvFileData_receiving {trans : TransFile} {follow : TransFile → List CStr} {m : Int}
    (hm : intOf trans.dataLength = m) :
    ((recvFileData J cwd clientFd trans token strerror).run (Receiving.handler {} follow) {}).map
      (fun x => (x.2.file, x.2.marked)) =
      ((recvLoop clientFd 3 m m.toNat 0).run (Receiving.handler {} follow)
        (.begun m [{ trans with flag := true, dataLength := 0 }] (follow { trans with flag := true, dataLength := 0 }))).map
        fun x => (x.2.file, if x.1 = m then x.2.marked ++ [trans.data] else x.2.marked) := by
  have hzero : pageFloor (([] : CStr).length : Int) = 0 := rfl
  have hint : intOf 0 = 0 := by decide
  have hopen : ¬ (3 : Int) < 0 := by decide
  unfold recvFileData
  simp only [hm, Prog.bind_eq, Os.openFile_bind, Os.lseekEnd_bind, Os.send_bind, Os.ftruncate_bind, Prog.run_op,
    Receiving.handler, Option.bind_some, hzero, hint, if_neg hopen, Int.sub_zero, Prog.run_bind, if_pos, List.nil_append,
    Receiving.begun_eq]
  cases (recvLoop clientFd 3 m m.toNat 0).run (Receiving.handler {} follow)
    (.begun m [{ trans with flag := true, dataLength := 0 }] (follow { trans with flag := true, dataLength := 0 })) with
  | none => rfl
  | some x =>
    by_cases hend : x.1 = m
    · simp only [Option.bind_some, Option.map_some, if_pos hend]
      rfl
    · simp only [Option.bind_some, Option.map_some, if_neg hend]
      rfl

/-- An upload is its loop, and the mark if the loop comes to the end. -/
theorem upload_eq (J : Jwt) (cwd strerror : CStr) (clientFd : Int) (token : TokenInfo) (L : Link) (digest content : CStr) :
    ∃ follow answer, upload J cwd strerror clientFd token L digest content =
    ((recvLoop clientFd 3 (intOf content.length) (intOf content.length).toNat 0).run (Receiving.handler {} follow)
      (.begun (intOf content.length) [answer] (L.carry content))).map
      fun x => (x.2.file, if x.1 = intOf content.length then x.2.marked ++ [digest] else x.2.marked) := by
  obtain ⟨m, hm⟩ : ∃ m, m = intOf content.length := ⟨_, rfl⟩
  have hint : intOf m = m := by rw [hm, intOf_intOf]
  have hheader : (put digest content {}).elim {} (fun x => x.1.headD {}) = { data := digest, dataLength := m } := by
    rw [put_eq, hm]
    rfl
  unfold upload
  rw [hheader, ← hm]
  refine ⟨fun reply => L.carry ((put digest content reply).elim [] Prod.snd), { data := digest, flag := true },
    (recvFileData_receiving hint).trans ?_⟩
  rw [put_bytes rfl rfl]

end Upload

section Download
variable {W : Source} {content : CStr}

theorem download_eq (h : W.Serves content) (L : Link) (fd socketFd : Int) : ∃ announce follow answer, download W L fd socketFd =
    ((recvLoop socketFd fd (intOf content.length) (intOf content.length).toNat 0).run (Receiving.handler announce follow)
      (.begun (intOf content.length) [answer] (L.carry content))).map fun x => (some x.1, x.2.file) := by
  obtain ⟨m, hm⟩ : ∃ m, m = intOf content.length := ⟨_, rfl⟩
  have hannounce : W.announce = { dataLength := m, flag := true } := by
    rw [Source.announce, h.send, hm]
    rfl
  have hzero : pageFloor (([] : CStr).length : Int) = 0 := rfl
  have hint : intOf 0 = 0 := by decide
  have hfollow : W.follow { flag := true } = content := h.follow (n := 0) rfl
  refine ⟨W.announce, fun reply => L.carry (W.follow reply), { flag := true }, ?_⟩
  rw [← hm]
  unfold download getsFile getsFileData
  simp only [hannounce, Prog.bind_eq, Os.recv_bind, Os.lseekEnd_bind, Os.send_bind, Os.ftruncate_bind, Prog.run_op,
    Receiving.handler, Option.bind_some, hzero, hint, Int.sub_zero, Prog.run_bind, if_pos, List.nil_append,
    Receiving.begun_eq, hfollow, Bool.true_eq_false, if_false]
  cases (recvLoop socketFd fd m m.toNat 0).run
    (Receiving.handler { dataLength := m, flag := true } fun reply => L.carry (W.follow reply))
    (.begun m [{ flag := true }] (L.carry content)) with
  | none => rfl
  | some x =>
    by_cases hless : x.1 < m
    · simp only [Option.bind_some, Option.map_some, if_pos hless]
      rfl
    · simp only [Option.bind_some, Option.map_some, if_neg hless]
      rfl

end Download

/-! ### Which lengths survive -/

/-- The length survives, or the other end takes it for a negative one or for one that never arrives. -/
def LengthFits (most n : Nat) : Prop := n < 2 ^ 32 ∨ 2 ^ 31 ≤ n % 2 ^ 32 ∨ most < n % 2 ^ 32

instance (most n : Nat) : Decidable (LengthFits most n) := inferInstanceAs (Decidable (_ ∨ _ ∨ _))

theorem intOf_natCast (n : Nat) : intOf n =
    if n % 2 ^ 32 < 2 ^ 31 then ((n % 2 ^ 32 : Nat) : Int) else ((n % 2 ^ 32 : Nat) : Int) - 2 ^ 32 := by
  unfold intOf
  rw [Int.bmod_def]
  split <;> split <;> omega

section Loop
variable {announce : TransFile} {follow : TransFile → List CStr} {clientFd fd : Int} {L : Link} {content : CStr}
  {sent : List TransFile} {t : Receiving} {most n : Nat}

theorem recvLoop_whole (hfits : LengthFits L.most content.length)
    (h : (recvLoop clientFd fd (intOf content.length) (intOf content.length).toNat 0).run (Receiving.handler announce follow)
      (.begun (intOf content.length) sent (L.carry content)) = some (intOf content.length, t)) :
    t.file.length = content.length := by
  obtain ⟨hlength, -, hle, hmost⟩ := recvLoop_keeps h
  have hcarry : (L.carry content).flatten.length = min L.most content.length := L.length_carry content
  rw [Receiving.length_begun] at hlength
  change intOf content.length ≤ 0 + ((L.carry content).flatten.length : Int) at hmost
  have hint := intOf_natCast content.length
  rw [hlength]
  split at hint
  · next hsmall =>
    rcases hfits with hlt | hneg | hcap
    · omega
    · omega
    · omega
  · omega

/-- Any other length ends the loop too early. -/
theorem recvLoop_wraps (hlength : content.length = n) (hfits : ¬ LengthFits most n) :
    ∃ t, (recvLoop clientFd fd (intOf n) (intOf n).toNat 0).run (Receiving.handler announce follow)
      (.begun (intOf n) sent ((Link.paged most).carry content)) = some (intOf n, t) ∧ t.file.length ≠ n := by
  obtain ⟨hbig, hsmall, hcap⟩ : 2 ^ 32 ≤ n ∧ n % 2 ^ 32 < 2 ^ 31 ∧ n % 2 ^ 32 ≤ most := by
    unfold LengthFits at hfits
    omega
  have hint : intOf n = (n % 2 ^ 32 : Nat) := by rw [intOf_natCast, if_pos hsmall]
  rw [hint]
  generalize hk : n % 2 ^ 32 = k at *
  obtain ⟨hpieces, hflatten, hwhole⟩ := pages_spec (content.take most)
  let s : Receiving := .begun k sent (pages (content.take most))
  have hfile : s.file.length = k := Receiving.length_begun k sent (pages (content.take most))
  have hchunks : s.chunks = pages (content.take most) := rfl
  have hsum : k ≤ 0 + s.chunks.flatten.length := by
    rw [hchunks, hflatten, List.length_take]
    omega
  rw [← hchunks] at hpieces hwhole
  have hfuel : k ≤ 0 + (k : Int).toNat := by omega
  obtain ⟨rest, hrun⟩ := recvLoop_wholePages hfile (fun _ => rfl) (Nat.zero_le k) hfuel hpieces hsum hwhole
  refine ⟨_, hrun, ?_⟩
  have hend := (recvLoop_keeps hrun).1
  omega

end Loop

theorem upload_wraps {most n : Nat} (hfits : ¬ LengthFits most n) : ¬ UploadsWhole most n := by
  intro hwhole
  obtain ⟨follow, answer, heq⟩ := upload_eq .unary [] [] 7 {} (.paged most) ['h'] (List.replicate n 'x')
  rw [List.length_replicate] at heq
  obtain ⟨t, hrun, hne⟩ := recvLoop_wraps List.length_replicate hfits
  rw [hrun] at heq
  refine hne (hwhole _ _ _ _ _ _ _ _ _ _ rfl List.length_replicate heq ?_)
  rw [if_pos rfl]
  exact List.append_ne_nil_of_right_ne_nil _ (List.cons_ne_nil _ _)

/-- The uploads and the downloads of `n` bytes that come to their end have stored `n` bytes exactly
when the length fits. -/
theorem lengths_survive_iff (most n : Nat) :
    (UploadsWhole most n ↔ LengthFits most n) ∧ (DownloadsWhole most n ↔ LengthFits most n) := by
  refine ⟨⟨?_, ?_⟩, ⟨?_, ?_⟩⟩
  · intro hwhole
    by_contra hfits
    exact upload_wraps hfits hwhole
  · intro hfits J cwd strerror clientFd token L digest content file marked hmost hlength hup hmarked
    subst hlength hmost
    obtain ⟨follow, answer, heq⟩ := upload_eq J cwd strerror clientFd token L digest content
    rw [heq] at hup
    obtain ⟨⟨r, t⟩, hrun, hx⟩ := Option.map_eq_some_iff.1 hup
    obtain ⟨rfl, hmark⟩ := Prod.mk.inj hx
    have hr : r = intOf content.length := by
      by_contra hne
      rw [if_neg hne, (recvLoop_keeps hrun).2.1] at hmark
      exact hmarked hmark.symm
    rw [hr] at hrun
    exact recvLoop_whole hfits hrun
  · intro hwhole
    by_contra hfits
    obtain ⟨announce, follow, answer, heq⟩ := download_eq (sharedFile_serves (List.replicate n 'x')) (.paged most) 3 4
    rw [List.length_replicate] at heq
    obtain ⟨t, hrun, hne⟩ := recvLoop_wraps List.length_replicate hfits
    rw [hrun, Option.map_some] at heq
    dsimp only at heq
    have hlength : t.file.length = n := hwhole (sharedFile (List.replicate n 'x')) (.paged most) (List.replicate n 'x') 3 4
      t.file (sharedFile_serves _) rfl List.length_replicate heq
    exact hne hlength
  · intro hfits W L content fd socketFd file hserves hmost hlength hdown
    subst hlength hmost
    obtain ⟨announce, follow, answer, heq⟩ := download_eq hserves L fd socketFd
    rw [heq] at hdown
    obtain ⟨⟨r, t⟩, hrun, hx⟩ := Option.map_eq_some_iff.1 hdown
    obtain ⟨hr, rfl⟩ := Prod.mk.inj hx
    have hr : r = intOf content.length := Option.some.inj hr
    rw [hr] at hrun
    exact recvLoop_whole hfits hrun

/-- Of 2^32 bytes none is stored, and the upload is marked complete at once. -/
theorem four_gibibytes_lost : ¬ ∀ n < 2 ^ 63, UploadsWhole 0x7ffff000 n ∧ DownloadsWhole 0x7ffff000 n := by
  intro h
  have hfits : ¬ LengthFits 0x7ffff000 (2 ^ 32) := by decide
  exact upload_wraps hfits (h (2 ^ 32) (by decide)).1

end Netdisk

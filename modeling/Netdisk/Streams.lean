import Netdisk.Client
import Netdisk.Lib.Bytes
import Netdisk.Upload

/-!
# How TCP cuts the stream

`recv_file` and `gets_File` receive with one and the same loop. It maps the file where the last piece
ended, and that works at the start of a page only: `received_iff_wholePages` says for which pieces the
loop comes to the end of the file.
-/

namespace Netdisk

/-! ### One end of a transfer -/

/-- The file that is received into, the frames that were sent, the pieces that are still to arrive, and
the digests that were marked complete. -/
structure Receiving where
  file : CStr := []
  sent : List TransFile := []
  chunks : List CStr := []
  marked : List CStr := []

/-- What the operations do: `announce` is the frame that arrives first, `follow` the pieces that the
other end sends after the answer to it. Every read brings the next piece. -/
def Receiving.handler (announce : TransFile) (follow : TransFile → List CStr) : (o : Op) → Receiving → Option (Resp o × Receiving)
  | .recv _, s => some (announce, s)
  | .openFile _ _, s => some (3, s)
  | .lseekEnd _, s => some ((s.file.length : Int), s)
  | .send _ train, s =>
    some ((), { s with sent := s.sent ++ [train], chunks := if s.sent = [] then follow train else s.chunks })
  | .ftruncate _ length, s =>
    some ((), if length < 0 then s else { s with file := Bytes.resize '\x00' length.toNat s.file })
  | .recvBuf _, s => some (s.chunks.headD [], { s with chunks := s.chunks.tail })
  | .mmapWrite _ offset bytes, s =>
    if offset < 0 ∨ offset % pageSize ≠ 0 then some (false, s)
    else if Store.pageEnd s.file.length < offset.toNat + bytes.length then none
    else some (true, { s with file := Bytes.overwrite offset.toNat bytes s.file })
  | .close _, s => some ((), s)
  | .getConnection, s => some (some 0, s)
  | .releaseConnection _, s => some ((), s)
  | .exec _ (.updateComplete h), s => some (0, { s with marked := s.marked ++ [h] })
  | _, _ => none

/-- Pieces that `recv` and `read` can deliver. -/
def Pieces (chunks : List CStr) : Prop := ∀ c ∈ chunks, c ≠ [] ∧ c.length ≤ 4096

/-- Every piece but the last fills a page. -/
def WholePages (chunks : List CStr) : Prop := ∀ c ∈ chunks.dropLast, c.length = pageSize

section Loop
variable {announce : TransFile} {follow : TransFile → List CStr} {clientFd fd : Int} {n o fuel : Nat} {s : Receiving}
  {c : CStr} {chunks : List CStr}

theorem le_pageEnd (n : Nat) : n ≤ Store.pageEnd n := by
  unfold Store.pageEnd pageSize
  omega

theorem wholePages_cons (hne : chunks ≠ []) : WholePages (c :: chunks) ↔ c.length = pageSize ∧ WholePages chunks := by
  rw [WholePages, List.dropLast_cons_of_ne_nil hne, List.forall_mem_cons]
  rfl

theorem Pieces.tail (h : Pieces (c :: chunks)) : Pieces chunks := fun d hd => h d (List.mem_cons_of_mem c hd)

/-- One round of the loop in the middle of the file. -/
theorem recvLoop_round (hfile : s.file.length = n) (hlt : o < n) (hc : c ≠ []) (hchunks : s.chunks = c :: chunks) :
    (recvLoop clientFd fd n (fuel + 1) o).run (Receiving.handler announce follow) s =
      if o % pageSize ≠ 0 then some ((o : Int), { s with chunks })
      else (recvLoop clientFd fd n fuel (o + (c.take (n - o)).length : Nat)).run (Receiving.handler announce follow)
        { s with file := Bytes.overwrite o (c.take (n - o)) s.file, chunks } := by
  have hlength : (c.take (n - o)).length = min (n - o) c.length := List.length_take
  have hcount : (if (o : Int) + c.length > n then (n : Int) - o else c.length) = ((c.take (n - o)).length : Int) := by
    rw [hlength]
    split <;> omega
  have htake : c.take (c.take (n - o)).length = c.take (n - o) := by
    rw [List.take_eq_take_iff, hlength]
    omega
  have hpage : ((o : Int) < 0 ∨ (o : Int) % pageSize ≠ 0) ↔ o % pageSize ≠ 0 := by
    unfold pageSize
    omega
  have hend : ¬ Store.pageEnd s.file.length < o + (c.take (n - o)).length := by
    have := le_pageEnd n
    rw [hfile, hlength]
    omega
  have hlt' : (o : Int) < n := Int.ofNat_lt.2 hlt
  rw [recvLoop, if_pos hlt']
  simp only [Prog.bind_eq, Os.recvBuf_bind, Prog.run_op, Receiving.handler, Option.bind_some, hchunks, List.headD_cons,
    List.tail_cons, if_neg hc, hcount, Int.toNat_natCast, htake, Os.mmapWrite_bind, hpage, if_neg hend]
  split
  · rfl
  · rfl

theorem recvLoop_end (clientFd fd n : Int) (fuel : Nat) : recvLoop clientFd fd n fuel n = .pure n := by
  cases fuel with
  | zero => rfl
  | succ fuel =>
    rw [recvLoop, if_neg (Int.lt_irrefl n)]
    rfl

/-- From the start of a page, whole pages fill the file. -/
theorem recvLoop_wholePages (hfile : s.file.length = n) (hpage : o < n → o % pageSize = 0) (ho : o ≤ n)
    (hfuel : n ≤ o + fuel) (hpieces : Pieces s.chunks) (hsum : n ≤ o + s.chunks.flatten.length)
    (hwhole : WholePages s.chunks) :
    ∃ rest, (recvLoop clientFd fd n fuel o).run (Receiving.handler announce follow) s =
      some ((n : Int), { s with file := s.file.take o ++ s.chunks.flatten.take (n - o), chunks := rest }) := by
  induction hchunks : s.chunks generalizing s o fuel with
  | nil =>
    rw [hchunks] at hsum
    obtain rfl : o = n := Nat.le_antisymm ho hsum
    subst hfile
    rw [recvLoop_end]
    exact ⟨s.chunks, by simp⟩
  | cons c chunks ih =>
    rw [hchunks] at hpieces hsum hwhole
    obtain rfl | hlt := Nat.eq_or_lt_of_le ho
    · subst hfile
      rw [recvLoop_end]
      exact ⟨s.chunks, by simp⟩
    obtain ⟨fuel, rfl⟩ : ∃ f, fuel = f + 1 := ⟨fuel - 1, by omega⟩
    obtain ⟨hc, hle⟩ := hpieces c (List.mem_cons_self ..)
    have hpos : 0 < c.length := List.length_pos_iff.2 hc
    have hlength : (c.take (n - o)).length = min (n - o) c.length := List.length_take
    simp only [List.flatten_cons, List.length_append] at hsum
    have hrest : WholePages chunks := by
      cases chunks with
      | nil => exact List.forall_mem_nil _
      | cons d chunks => exact ((wholePages_cons (List.cons_ne_nil d chunks)).1 hwhole).2
    -- a piece that does not reach the end of the file is followed by others, and fills its page
    have hnext : o + (c.take (n - o)).length < n → (o + (c.take (n - o)).length) % pageSize = 0 := by
      intro hless
      have hne : chunks ≠ [] := by
        rintro rfl
        simp only [List.flatten_nil, List.length_nil] at hsum
        omega
      have hfull : c.length = pageSize := ((wholePages_cons hne).1 hwhole).1
      have hpage := hpage hlt
      unfold pageSize at *
      omega
    let next : Receiving := { s with file := Bytes.overwrite o (c.take (n - o)) s.file, chunks }
    have hnextFile : next.file.length = n := Bytes.length_overwrite.trans hfile
    have hnextSum : n ≤ o + (c.take (n - o)).length + chunks.flatten.length := by omega
    have hnextFuel : n ≤ o + (c.take (n - o)).length + fuel := by omega
    obtain ⟨rest, hrun⟩ := ih hnextFile hnext (by omega) hnextFuel hpieces.tail hnextSum hrest rfl
    rw [recvLoop_round hfile hlt hc hchunks, if_neg (not_not.2 (hpage hlt)), hrun]
    have htake : next.file.take (o + (c.take (n - o)).length) = s.file.take o ++ c.take (n - o) :=
      Bytes.take_overwrite (by omega)
    have hflatten : (c ++ chunks.flatten).take (n - o) =
        c.take (n - o) ++ chunks.flatten.take (n - (o + (c.take (n - o)).length)) := by
      rw [List.take_append, hlength]
      congr 2
      omega
    exact ⟨rest, by rw [htake, List.flatten_cons, hflatten, List.append_assoc]⟩

/-- A piece that ends inside a page and is not the last one ends the loop. -/
theorem recvLoop_broken (hfile : s.file.length = n) (hpage : o % pageSize = 0) (hfuel : n ≤ o + fuel)
    (hpieces : Pieces s.chunks) (hsum : o + s.chunks.flatten.length = n) (hbroken : ¬ WholePages s.chunks) :
    ∃ m : Nat, m < n ∧ ∃ t, (recvLoop clientFd fd n fuel o).run (Receiving.handler announce follow) s = some ((m : Int), t) := by
  induction hchunks : s.chunks generalizing s o fuel with
  | nil =>
    rw [hchunks] at hbroken
    exact absurd (List.forall_mem_nil _) hbroken
  | cons c chunks ih =>
    rw [hchunks] at hpieces hsum hbroken
    obtain ⟨d, rest, rfl⟩ : ∃ d rest, chunks = d :: rest := by
      refine List.exists_cons_of_ne_nil ?_
      rintro rfl
      exact hbroken (List.forall_mem_nil _)
    obtain ⟨hc, hle⟩ := hpieces c (List.mem_cons_self ..)
    obtain ⟨hd, -⟩ := hpieces.tail d (List.mem_cons_self ..)
    have hcpos : 0 < c.length := List.length_pos_iff.2 hc
    have hdpos : 0 < d.length := List.length_pos_iff.2 hd
    simp only [List.flatten_cons, List.length_append] at hsum
    have hlt : o < n := by omega
    have htake : c.take (n - o) = c := List.take_of_length_le (by omega)
    obtain ⟨fuel, rfl⟩ : ∃ f, fuel = f + 1 := ⟨fuel - 1, by omega⟩
    let next : Receiving := { s with file := Bytes.overwrite o c s.file, chunks := d :: rest }
    have hnextFile : next.file.length = n := Bytes.length_overwrite.trans hfile
    rw [recvLoop_round hfile hlt hc hchunks, if_neg (not_not.2 hpage), htake]
    by_cases hfull : c.length = pageSize
    · have hnextPage : (o + c.length) % pageSize = 0 := by
        rw [hfull]
        unfold pageSize at *
        omega
      have hnextSum : o + c.length + (d :: rest).flatten.length = n := by
        simp only [List.flatten_cons, List.length_append]
        omega
      have hnextBroken : ¬ WholePages (d :: rest) := by
        intro hwhole
        exact hbroken ((wholePages_cons (List.cons_ne_nil d rest)).2 ⟨hfull, hwhole⟩)
      have hnextFuel : n ≤ o + c.length + fuel := by omega
      exact ih hnextFile hnextPage hnextFuel hpieces.tail hnextSum hnextBroken rfl
    · -- the next round finds the offset inside a page
      have hoff : (o + c.length) % pageSize ≠ 0 := by
        unfold pageSize at *
        omega
      have hnextLt : o + c.length < n := by omega
      obtain ⟨fuel, rfl⟩ : ∃ f, fuel = f + 1 := ⟨fuel - 1, by omega⟩
      refine ⟨o + c.length, hnextLt, ?_⟩
      rw [recvLoop_round hnextFile hnextLt hd rfl, if_pos hoff]
      exact ⟨_, rfl⟩

end Loop

/-- From the start of a page the loop of `recv_file` and `gets_File` comes to the end of the file, and
has stored what was sent, exactly when every piece but the last one fills a page. -/
theorem received_iff_wholePages (announce : TransFile) (follow : TransFile → List CStr) (clientFd fd : Int) (n o : Nat)
    (hpage : o % pageSize = 0) (ho : o ≤ n) (s : Receiving) (hfile : s.file.length = n) (hpieces : Pieces s.chunks)
    (hsum : o + s.chunks.flatten.length = n) :
    (∃ t, (recvLoop clientFd fd n (n - o) o).run (Receiving.handler announce follow) s = some ((n : Int), t) ∧
      t.file = s.file.take o ++ s.chunks.flatten) ↔ WholePages s.chunks := by
  have hfuel : n ≤ o + (n - o) := by omega
  constructor
  · rintro ⟨t, hrun, -⟩
    by_contra hbroken
    obtain ⟨m, hm, t', hrun'⟩ := recvLoop_broken hfile hpage hfuel hpieces hsum hbroken
    have heq : (n : Int) = m := (Prod.mk.inj (Option.some.inj (hrun.symm.trans hrun'))).1
    omega
  · intro hwhole
    obtain ⟨rest, hrun⟩ := recvLoop_wholePages hfile (fun _ => hpage) ho hfuel hpieces hsum.ge hwhole
    have htake : s.chunks.flatten.take (n - o) = s.chunks.flatten := List.take_of_length_le (by omega)
    exact ⟨_, hrun, by rw [htake]⟩

/-- A page in one piece, and the rest in another. -/
theorem received_iff_wholePages_two :
    let page : CStr := List.replicate pageSize 'a'
    ∃ t, (recvLoop 4 3 (pageSize + 1 : Nat) (pageSize + 1 - 0) (0 : Nat)).run (Receiving.handler {} fun _ => [])
        { file := List.replicate (pageSize + 1) '\x00', chunks := [page, ['b']] } = some (((pageSize + 1 : Nat) : Int), t) ∧
      t.file = page ++ ['b'] := by
  intro page
  have hpage : page.length = pageSize := List.length_replicate
  have hpieces : Pieces [page, ['b']] := by
    rintro c (_ | ⟨_, _ | ⟨_, ⟨⟩⟩⟩)
    · exact ⟨List.ne_nil_of_length_pos (by rw [hpage]; decide), hpage.le⟩
    · decide
  have hwhole : WholePages [page, ['b']] := List.forall_mem_singleton.2 hpage
  have hsum : 0 + [page, ['b']].flatten.length = pageSize + 1 := by simp [hpage]
  obtain ⟨t, hrun, hfile⟩ := (received_iff_wholePages {} (fun _ => []) 4 3 (pageSize + 1) 0 rfl (Nat.zero_le _)
    { file := List.replicate (pageSize + 1) '\x00', chunks := [page, ['b']] } List.length_replicate hpieces hsum).2 hwhole
  exact ⟨t, hrun, hfile⟩

/-- Two bytes in two pieces: the second one is thrown away. -/
theorem second_piece_lost : ¬ ∀ (clientFd fd : Int) (n o : Nat), n < 2 ^ 31 → o % pageSize = 0 → o ≤ n →
    ∀ s : Receiving, s.file.length = n → Pieces s.chunks → o + s.chunks.flatten.length = n →
    ∃ t, (recvLoop clientFd fd n (n - o) o).run (Receiving.handler {} fun _ => []) s = some ((n : Int), t) ∧
      t.file = s.file.take o ++ s.chunks.flatten := by
  intro h
  obtain ⟨t, hrun, -⟩ := h 4 3 2 0 (by decide) (by decide) (by decide)
    { file := ['\x00', '\x00'], chunks := [['a'], ['b']] } rfl (by simp [Pieces]) rfl
  have hend : (recvLoop 4 3 (2 : Nat) 2 (0 : Nat)).run (Receiving.handler {} fun _ => [])
      { file := ['\x00', '\x00'], chunks := [['a'], ['b']] } = some (1, { file := ['a', '\x00'] }) := by rfl
  cases hrun.symm.trans hend

end Netdisk

import Netdisk.Db.Mysql
import Netdisk.FileChange
import Netdisk.Lib.Bytes
import Mathlib.Logic.Function.Basic

/-!
# Upload sessions

Any number of calls of `recv_file`, one operation at a time in any order, over one database and one
file system. What the clients send, whether a file opens, the clock and the order of rows are the
`Choice` of each step. Descriptors are numbered without reuse.
-/

namespace Netdisk
open Runs

/-! ### Paths -/

/-- `real_path` of `recv_file`. -/
def realPath (cwd digest : CStr) : CStr := cwd ++ "/data".toList ++ "/".toList ++ digest

/-- Hexadecimal digits in upper case. -/
def IsHex (h : CStr) : Prop := ∀ c ∈ h, c.isDigit = true ∨ 'A' ≤ c ∧ c ≤ 'F'

instance (h : CStr) : Decidable (IsHex h) := List.decidableBAll ..

/-- A digest as `generate_digest` writes it. -/
def IsDigest (h : CStr) : Prop := h.length = 64 ∧ IsHex h

instance (h : CStr) : Decidable (IsDigest h) := inferInstanceAs (Decidable (_ ∧ _))

/-- No digest but, perhaps, `d` itself is stored in the file that `d` leads to. -/
def Unaliased (cwd d : CStr) : Prop :=
  ∀ h, IsDigest h → resolve (realPath cwd d) = resolve (realPath cwd h) → d = h

theorem IsHex.notMem {h : CStr} (hh : IsHex h) {c : Char} (hc : c.isDigit = false ∧ (c < 'A' ∨ 'F' < c)) :
    c ∉ h := by
  intro hmem
  rcases hh c hmem with hd | ⟨hA, hF⟩
  · rw [hc.1] at hd
    cases hd
  · rcases hc.2 with hlt | hlt
    · exact absurd hA (Char.not_le.2 hlt)
    · exact absurd hF (Char.not_le.2 hlt)

/-- Hexadecimal digits are a name as any other, or no name. -/
theorem IsHex.resolve {cwd h : CStr} (hh : IsHex h) :
    resolve (realPath cwd h) = Netdisk.resolve (cwd ++ "/data".toList) ++ if h = [] then [] else [h] := by
  have hslash : '/' ∉ h := hh.notMem (by decide)
  have hdot : '.' ∉ h := hh.notMem (by decide)
  have hone : h ≠ ['.'] := fun he => hdot (he ▸ List.mem_cons_self)
  have htwo : h ≠ ['.', '.'] := fun he => hdot (he ▸ List.mem_cons_self)
  have hname : ∀ dirs, enter dirs h = dirs ++ if h = [] then [] else [h] := fun dirs => by
    by_cases hnil : h = []
    · rw [enter, if_pos (.inl hnil), if_pos hnil, List.append_nil]
    · rw [enter, if_neg (not_or.2 ⟨hnil, hone⟩), if_neg htwo, if_neg hnil]
  have hpath : realPath cwd h = cwd ++ "/data".toList ++ '/' :: h := by simp [realPath]
  rw [hpath, Netdisk.resolve, pieces_snoc hslash, List.foldl_append, Netdisk.resolve]
  exact hname _

/-- They lead to no digest's file but their own. -/
theorem IsHex.unaliased {cwd d : CStr} (hd : IsHex d) : Unaliased cwd d := by
  intro h hh heq
  have hnil : h ≠ [] := fun he => by
    rw [he] at hh
    exact absurd hh.1 nofun
  rw [hd.resolve, hh.2.resolve, if_neg hnil] at heq
  have heq := List.append_cancel_left heq
  split at heq
  · cases heq
  · exact List.singleton_inj.1 heq

/-! ### The shared state -/

/-- What the environment decides in a step. -/
structure Choice where
  ord : RowOrder
  frame : TransFile := {}
  bytes : CStr := []
  opens : Bool := true
  now : Nat := 0

/-- The database, the files, the descriptors open on them, and for each session the frame it has
received, the frames it has sent and the bytes it has received. -/
structure Store where
  sql : Mysql := {}
  files : Path → Option CStr := fun _ => none
  fds : Int → Option Path := fun _ => none
  nextFd : Nat := 3
  header : Nat → Option TransFile := fun _ => none
  sent : Nat → List TransFile := fun _ => []
  received : Nat → CStr := fun _ => []

namespace Store

/-- The last byte of the last page of a file, which is as far as a mapping can be written. -/
def pageEnd (length : Nat) : Nat := (length + pageSize - 1) / pageSize * pageSize

variable (s : Store)

/-- The bytes behind a descriptor. -/
def contents (fd : Int) : Option CStr := (s.fds fd).bind s.files

/-- A change of the bytes behind a descriptor. -/
def modify (fd : Int) (f : CStr → CStr) : Store :=
  match s.fds fd with
  | some p => { s with files := Function.update s.files p ((s.files p).map f) }
  | none => s

/-- `open`. -/
def openFile (path : CStr) (creat opens : Bool) : Int × Store :=
  if opens && (creat || (s.files (resolve path)).isSome) then
    (s.nextFd, { s with
      files := Function.update s.files (resolve path) (some ((s.files (resolve path)).getD []))
      fds := Function.update s.fds s.nextFd (some (resolve path))
      nextFd := s.nextFd + 1 })
  else (-1, s)

/-- `mmap`, `memcpy`, `munmap`. The mapping fails unless it starts at a page; a write behind the
last page of the file ends the process. -/
def mmapWrite (fd offset : Int) (bytes : CStr) : Option (Bool × Store) :=
  match s.contents fd with
  | none => some (false, s)
  | some old =>
    if offset < 0 ∨ offset % pageSize ≠ 0 then some (false, s)
    else if pageEnd old.length < offset.toNat + bytes.length then none
    else some (true, s.modify fd (Bytes.overwrite offset.toNat bytes))

/-- The file that `open`, `ftruncate` or a write through a mapping reaches. -/
def target : Op → Option Path
  | .openFile path _ => some (resolve path)
  | .ftruncate fd _ | .mmapWrite fd _ _ => s.fds fd
  | _ => none

/-- What the operations of the session `i` do. -/
def handler (i : Nat) (w : Choice) : (o : Op) → Store → Option (Resp o × Store)
  | .recv _, s => some (w.frame, { s with header := Function.update s.header i (some w.frame) })
  | .recvBuf _, s =>
    if w.bytes.length ≤ 4096 then
      some (w.bytes, { s with received := Function.update s.received i (s.received i ++ w.bytes) })
    else none
  | .send _ train, s => some ((), { s with sent := Function.update s.sent i (s.sent i ++ [train]) })
  | .close fd, s => some ((), { s with fds := Function.update s.fds fd none })
  | .openFile path creat, s => some (s.openFile path creat w.opens)
  | .lseekEnd fd, s => some ((s.contents fd).elim (-1) fun bytes => bytes.length, s)
  | .ftruncate fd length, s => some ((), if length < 0 then s else s.modify fd (Bytes.resize '\x00' length.toNat))
  | .mmapWrite fd offset bytes, s => s.mmapWrite fd offset bytes
  | .time, s => some (w.now, s)
  | o, s => (s.sql.handler i w.ord o).map fun x => (x.1, { s with sql := x.2 })

section Lemmas
variable {s} {s' : Store} {i : Nat} {w : Choice} {o : Op} {r : Resp o}

theorem modify_eq {fd : Int} {f : CStr → CStr} :
    s.modify fd f = { s with sql := (s.modify fd f).sql, files := (s.modify fd f).files } := by
  unfold modify
  split <;> rfl

theorem modify_sql {fd : Int} {f : CStr → CStr} : (s.modify fd f).sql = s.sql := by
  unfold modify
  split <;> rfl

theorem files_modify {fd : Int} {f : CStr → CStr} {p : Path} (hp : s.fds fd ≠ some p) :
    (s.modify fd f).files p = s.files p := by
  unfold modify
  split
  · next q hq =>
    have hpq : p ≠ q := fun h => hp (h ▸ hq)
    exact Function.update_of_ne hpq _ _
  · rfl

theorem openFile_cases {path : CStr} {creat opens : Bool} {fd : Int}
    (h : s.openFile path creat opens = (fd, s')) :
    fd = -1 ∧ s' = s ∨ fd = s.nextFd ∧ s' = { s with
      files := Function.update s.files (resolve path) (some ((s.files (resolve path)).getD []))
      fds := Function.update s.fds s.nextFd (some (resolve path))
      nextFd := s.nextFd + 1 } := by
  unfold openFile at h
  split at h
  · obtain ⟨rfl, rfl⟩ := Prod.mk.inj h
    exact .inr ⟨rfl, rfl⟩
  · obtain ⟨rfl, rfl⟩ := Prod.mk.inj h
    exact .inl ⟨rfl, rfl⟩

theorem mmapWrite_cases {fd offset : Int} {bytes : CStr} {mapped : Bool}
    (h : s.mmapWrite fd offset bytes = some (mapped, s')) :
    mapped = false ∧ s' = s ∨
      mapped = true ∧ 0 ≤ offset ∧ offset % pageSize = 0 ∧ (s.contents fd).isSome ∧
        s' = s.modify fd (Bytes.overwrite offset.toNat bytes) := by
  unfold mmapWrite at h
  split at h
  · obtain ⟨rfl, rfl⟩ := Prod.mk.inj (Option.some.inj h)
    exact .inl ⟨rfl, rfl⟩
  · next old hold =>
    split at h
    · obtain ⟨rfl, rfl⟩ := Prod.mk.inj (Option.some.inj h)
      exact .inl ⟨rfl, rfl⟩
    · next hoff =>
      split at h
      · cases h
      · obtain ⟨rfl, rfl⟩ := Prod.mk.inj (Option.some.inj h)
        obtain ⟨hneg, hpage⟩ := not_or.1 hoff
        exact .inr ⟨rfl, not_lt.1 hneg, not_not.1 hpage, by simp [hold], rfl⟩

theorem handler_sql (ho : o.isSql = true) (h : handler i w o s = some (r, s')) :
    ∃ m, s.sql.handler i w.ord o = some (r, m) ∧ s' = { s with sql := m } := by
  have heq : handler i w o s = (s.sql.handler i w.ord o).map fun x => (x.1, { s with sql := x.2 }) := by
    cases o <;> first | rfl | cases ho
  rw [heq] at h
  obtain ⟨⟨r', m⟩, hm, hx⟩ := Option.map_eq_some_iff.1 h
  obtain ⟨rfl, rfl⟩ := Prod.mk.inj hx
  exact ⟨m, hm, rfl⟩


theorem handler_io (ho : o.isSql = false) (h : handler i w o s = some (r, s')) : s'.sql = s.sql := by
  cases o with
  | recv | send | close | lseekEnd | time =>
    obtain ⟨-, rfl⟩ := Prod.mk.inj (Option.some.inj h)
    rfl
  | recvBuf fd =>
    obtain ⟨-, h⟩ := Option.ite_none_right_eq_some.1 h
    obtain ⟨-, rfl⟩ := Prod.mk.inj (Option.some.inj h)
    rfl
  | openFile path creat => rcases openFile_cases (Option.some.inj h) with ⟨-, rfl⟩ | ⟨-, rfl⟩ <;> rfl
  | ftruncate fd length =>
    obtain ⟨-, rfl⟩ := Prod.mk.inj (Option.some.inj h)
    split
    · rfl
    · exact modify_sql
  | mmapWrite fd offset bytes =>
    rcases mmapWrite_cases h with ⟨-, rfl⟩ | ⟨-, -, -, -, rfl⟩
    · rfl
    · exact modify_sql
  | stat | sendfile | crash => cases h
  | _ => cases ho

theorem header_of_ne (h : handler i w o s = some (r, s')) (ho : ∀ fd, o ≠ .recv fd) : s'.header = s.header := by
  cases o with
  | recv fd => exact absurd rfl (ho fd)
  | recvBuf fd =>
    obtain ⟨-, h⟩ := Option.ite_none_right_eq_some.1 h
    obtain ⟨-, rfl⟩ := Prod.mk.inj (Option.some.inj h)
    rfl
  | openFile path creat => rcases openFile_cases (Option.some.inj h) with ⟨-, rfl⟩ | ⟨-, rfl⟩ <;> rfl
  | ftruncate fd length =>
    obtain ⟨-, rfl⟩ := Prod.mk.inj (Option.some.inj h)
    split
    · rfl
    · rw [modify_eq]
  | mmapWrite fd offset bytes =>
    rcases mmapWrite_cases h with ⟨-, rfl⟩ | ⟨-, -, -, -, rfl⟩
    · rfl
    · rw [modify_eq]
  | send | close | lseekEnd | time =>
    obtain ⟨-, rfl⟩ := Prod.mk.inj (Option.some.inj h)
    rfl
  | stat | sendfile | crash => cases h
  | _ =>
    obtain ⟨m, -, rfl⟩ := handler_sql rfl h
    rfl

/-- What the other sessions find: their own frames and bytes, and their descriptors, if not closed. -/
theorem handler_frame (h : handler i w o s = some (r, s')) :
    (∀ j ≠ i, s'.header j = s.header j ∧ s'.sent j = s.sent j ∧ s'.received j = s.received j) ∧
      s.nextFd ≤ s'.nextFd ∧ ∀ fd < (s.nextFd : Int), s'.fds fd = s.fds fd ∨ s'.fds fd = none := by
  have hsame : s' = { s with sql := s'.sql, files := s'.files } →
      (∀ j ≠ i, s'.header j = s.header j ∧ s'.sent j = s.sent j ∧ s'.received j = s.received j) ∧
        s.nextFd ≤ s'.nextFd ∧ ∀ fd < (s.nextFd : Int), s'.fds fd = s.fds fd ∨ s'.fds fd = none := by
    intro heq
    rw [heq]
    exact ⟨fun _ _ => ⟨rfl, rfl, rfl⟩, le_rfl, fun _ _ => .inl rfl⟩
  cases o with
  | recv fd =>
    obtain ⟨-, rfl⟩ := Prod.mk.inj (Option.some.inj h)
    exact ⟨fun j hj => ⟨Function.update_of_ne hj _ _, rfl, rfl⟩, le_rfl, fun _ _ => .inl rfl⟩
  | recvBuf fd =>
    obtain ⟨-, h⟩ := Option.ite_none_right_eq_some.1 h
    obtain ⟨-, rfl⟩ := Prod.mk.inj (Option.some.inj h)
    exact ⟨fun j hj => ⟨rfl, rfl, Function.update_of_ne hj _ _⟩, le_rfl, fun _ _ => .inl rfl⟩
  | send fd train =>
    obtain ⟨-, rfl⟩ := Prod.mk.inj (Option.some.inj h)
    exact ⟨fun j hj => ⟨rfl, Function.update_of_ne hj _ _, rfl⟩, le_rfl, fun _ _ => .inl rfl⟩
  | close fd =>
    obtain ⟨-, rfl⟩ := Prod.mk.inj (Option.some.inj h)
    refine ⟨fun _ _ => ⟨rfl, rfl, rfl⟩, le_rfl, fun fd' _ => ?_⟩
    by_cases heq : fd' = fd
    · subst heq
      exact .inr (Function.update_self _ _ _)
    · exact .inl (Function.update_of_ne heq _ _)
  | openFile path creat =>
    rcases openFile_cases (Option.some.inj h) with ⟨-, rfl⟩ | ⟨-, rfl⟩
    · exact hsame rfl
    · exact ⟨fun _ _ => ⟨rfl, rfl, rfl⟩, Nat.le_succ _, fun fd hfd => .inl (Function.update_of_ne (by omega) _ _)⟩
  | ftruncate fd length =>
    obtain ⟨-, heq⟩ := Prod.mk.inj (Option.some.inj h)
    refine hsame ?_
    rw [← heq]
    split
    · rfl
    · exact modify_eq
  | mmapWrite fd offset bytes =>
    rcases mmapWrite_cases h with ⟨-, rfl⟩ | ⟨-, -, -, -, heq⟩
    · exact hsame rfl
    · refine hsame ?_
      rw [heq]
      exact modify_eq
  | lseekEnd | time =>
    obtain ⟨-, rfl⟩ := Prod.mk.inj (Option.some.inj h)
    exact hsame rfl
  | stat | sendfile | crash => cases h
  | _ =>
    obtain ⟨m, -, rfl⟩ := handler_sql rfl h
    exact hsame rfl

/-- Every file but the one that the operation reaches is as it was. -/
theorem files_of_target {p : Path} (h : handler i w o s = some (r, s')) (hp : s.target o ≠ some p) :
    s'.files p = s.files p := by
  cases o with
  | recv | send | close | lseekEnd | time =>
    obtain ⟨-, rfl⟩ := Prod.mk.inj (Option.some.inj h)
    rfl
  | recvBuf fd =>
    obtain ⟨-, h⟩ := Option.ite_none_right_eq_some.1 h
    obtain ⟨-, rfl⟩ := Prod.mk.inj (Option.some.inj h)
    rfl
  | openFile path creat =>
    rcases openFile_cases (Option.some.inj h) with ⟨-, rfl⟩ | ⟨-, rfl⟩
    · rfl
    · have hne : p ≠ resolve path := fun heq => hp (congrArg some heq.symm)
      exact Function.update_of_ne hne _ _
  | ftruncate fd length =>
    obtain ⟨-, rfl⟩ := Prod.mk.inj (Option.some.inj h)
    split
    · rfl
    · exact files_modify hp
  | mmapWrite fd offset bytes =>
    rcases mmapWrite_cases h with ⟨-, rfl⟩ | ⟨-, -, -, -, rfl⟩
    · rfl
    · exact files_modify hp
  | stat | sendfile | crash => cases h
  | _ =>
    obtain ⟨m, -, rfl⟩ := handler_sql rfl h
    rfl

end Lemmas

end Store

/-- A call of `recv_file`, and the digest of the file that its client has, if it is honest. -/
structure UploadCall where
  clientFd : Int
  argument : CStr
  token : TokenInfo
  digest : CStr := []

variable (J : Jwt) (cwd strerror : CStr)

def UploadCall.prog (call : UploadCall) : Os Unit :=
  (recvFile J cwd call.clientFd call.argument call.token strerror).bind fun _ => .pure ()

abbrev UploadState := Threads osSig UploadCall Store

abbrev UploadAct := Threads.Act UploadCall Choice

/-- Sessions are started and take steps in any order. -/
abbrev UploadStep : UploadState → UploadAct → UploadState → Prop :=
  Threads.Step (UploadCall.prog J cwd strerror) Store.handler

/-- Some tables, and no session started. -/
def uploadInit (db : Db) : UploadState := { shared := { sql := { base := db } } }

/-- One registered user. -/
def oneUser : Db where
  user := [⟨1, ['u'], ['p']⟩]
  file := [{ id := 1, type := .dir, complete := true }]
  userFile := [⟨1, ['u'], 1, 1, none⟩]
  nextUser := 2
  nextFile := 2
  nextUserFile := 2

/-- The file row with that hash is marked complete. -/
def Store.Complete (s : Store) (h : CStr) : Prop :=
  ∃ f ∈ s.sql.committed.file, f.hash = some h ∧ f.complete = true

/-- The file that a digest is stored in. -/
def Store.stored (s : Store) (h : CStr) : Option CStr := s.files (resolve (realPath cwd h))

end Netdisk

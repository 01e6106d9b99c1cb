import Netdisk.UploadRows

/-!
# Stored files do not change once complete

`stored_of_undisturbed`: no step reaches the file of a complete row as long as digests are not
aliases of one another and none is marked complete while another session may still write to its
file.
-/

namespace Netdisk
open Runs

/-! ### The files -/

/-- The digests in use are not aliases, and a session's descriptor leads to the file of its digest. -/
structure Files (cwd : CStr) (s : Store) (ls : List Sess) : Prop where
  header : ∀ (i : Nat) (l : Sess) d, ls[i]? = some l → l.digest = some d →
    (s.header i).map TransFile.data = some d ∧ Unaliased cwd d
  fds : ∀ (i : Nat) d fd, ls[i]? = some (.writing d fd) →
    fd < s.nextFd ∧ (s.fds fd = none ∨ s.fds fd = some (resolve (realPath cwd d)))

/-- `G` of the sessions. -/
structure Kept (cwd : CStr) (s : Store) (ls : List (Hold × Sess)) : Prop where
  pool : Pooled s.sql (ls.map Prod.fst)
  rows : Rows s.sql.committed (ls.map Prod.snd)
  pending : PendingFits s.sql (ls.map Prod.snd)
  files : Files cwd s (ls.map Prod.snd)

section FilesStep
variable {cwd : CStr} {s s' : Store} {ls : List Sess} {i : Nat} {l l' : Sess}

theorem files_init : Files cwd s [] := ⟨nofun, nofun⟩

theorem Files.start (h : Files cwd s ls) : Files cwd s (ls ++ [.start]) := by
  have hold : ∀ (j : Nat) (k : Sess), (ls ++ [Sess.start])[j]? = some k → k ≠ .start → ls[j]? = some k := by
    intro j k hj hk
    rcases Threads.getElem?_snoc_cases hj with ⟨rfl, -⟩ | hj
    · exact absurd rfl hk
    · exact hj
  refine ⟨fun j k d hj hd => h.header j k d (hold j k hj ?_) hd, fun j d fd hj => h.fds j d fd (hold j _ hj nofun)⟩
  rintro rfl
  cases hd

/-- The session `i` moves on; the others see at most descriptors closed and a new one opened. -/
theorem Files.set (h : Files cwd s ls) (hi : ls[i]? = some l)
    (hheader : ∀ j ≠ i, s'.header j = s.header j) (hnext : s.nextFd ≤ s'.nextFd)
    (hfds : ∀ fd < (s.nextFd : Int), s'.fds fd = s.fds fd ∨ s'.fds fd = none)
    (hdigest : ∀ d, l'.digest = some d → (s'.header i).map TransFile.data = some d ∧ Unaliased cwd d)
    (hwriting : ∀ d fd, l' = .writing d fd →
      l = .writing d fd ∨ fd < s'.nextFd ∧ s'.fds fd = some (resolve (realPath cwd d))) :
    Files cwd s' (ls.set i l') := by
  have hkept : ∀ (j : Nat) d fd, ls[j]? = some (.writing d fd) →
      fd < s'.nextFd ∧ (s'.fds fd = none ∨ s'.fds fd = some (resolve (realPath cwd d))) := by
    intro j d fd hj
    obtain ⟨hlt, hfd⟩ := h.fds j d fd hj
    refine ⟨by omega, ?_⟩
    rcases hfds fd hlt with heq | hnone
    · rwa [heq]
    · exact .inl hnone
  refine ⟨fun j k d hj hd => ?_, fun j d fd hj => ?_⟩
  · rcases Threads.getElem?_set_cases hj with ⟨rfl, rfl⟩ | ⟨hne, hj⟩
    · exact hdigest d hd
    · rw [hheader j hne]
      exact h.header j k d hj hd
  · rcases Threads.getElem?_set_cases hj with ⟨rfl, hl'⟩ | ⟨hne, hj⟩
    · rcases hwriting d fd hl'.symm with rfl | ⟨hlt, hfd⟩
      · exact hkept j d fd hi
      · exact ⟨hlt, .inr hfd⟩
    · exact hkept j d fd hj

theorem Files.congr (h : Files cwd s ls) (hheader : s'.header = s.header) (hfds : s'.fds = s.fds)
    (hnext : s'.nextFd = s.nextFd) : Files cwd s' ls :=
  ⟨by rw [hheader]; exact h.header, by rw [hfds, hnext]; exact h.fds⟩

theorem Files.modify (h : Files cwd s ls) {fd : Int} {f : CStr → CStr} : Files cwd (s.modify fd f) ls := by
  rw [Store.modify_eq]
  exact h.congr rfl rfl rfl

theorem Files.ioStep {w : Choice} {o : Op} {r : Resp o} (h : Files cwd s ls) (hi : ls[i]? = some l)
    (hio : o.isSql = false) (hok : (sessProtocol cwd).ok l o)
    (hrecv : ∀ fd, o = .recv fd → Unaliased cwd w.frame.data) (hH : Store.handler i w o s = some (r, s')) :
    Files cwd s' (ls.set i ((sessProtocol cwd).next l o r)) := by
  have hsame : (sessProtocol cwd).next l o r = l → Files cwd s' ls →
      Files cwd s' (ls.set i ((sessProtocol cwd).next l o r)) := fun hl h' => by
    rwa [hl, Threads.set_self hi]
  cases o with
  | recv fd =>
    obtain rfl : l = .start := hok
    obtain ⟨rfl, rfl⟩ := Prod.mk.inj (Option.some.inj hH)
    refine h.set hi (fun j hj => Function.update_of_ne hj _ _) le_rfl (fun _ _ => .inl rfl) (fun d hd => ?_) nofun
    obtain rfl : w.frame.data = d := Option.some.inj hd
    exact ⟨by simp, hrecv fd rfl⟩
  | send | lseekEnd | time =>
    obtain ⟨-, rfl⟩ := Prod.mk.inj (Option.some.inj hH)
    exact hsame (by cases l <;> rfl) (h.congr rfl rfl rfl)
  | recvBuf fd =>
    obtain ⟨-, hH⟩ := Option.ite_none_right_eq_some.1 hH
    obtain ⟨-, rfl⟩ := Prod.mk.inj (Option.some.inj hH)
    exact hsame (by cases l <;> rfl) (h.congr rfl rfl rfl)
  | close fd =>
    obtain ⟨-, rfl⟩ := Prod.mk.inj (Option.some.inj hH)
    have hfds : ∀ fd' < (s.nextFd : Int), Function.update s.fds fd none fd' = s.fds fd' ∨
        Function.update s.fds fd none fd' = none := fun fd' _ => by
      by_cases heq : fd' = fd
      · exact .inr (by rw [heq, Function.update_self])
      · exact .inl (Function.update_of_ne heq _ _)
    have hdigest : ((sessProtocol cwd).next l (.close fd) r).digest = l.digest := by
      cases l with
      | writing d fd' =>
        rw [next_close]
        split <;> rfl
      | _ => rfl
    refine h.set hi (fun _ _ => rfl) le_rfl hfds (fun d hd => h.header i l d hi (hdigest ▸ hd)) fun d fd' hd => ?_
    cases l with
    | writing e fd'' =>
      rw [next_close] at hd
      split at hd
      · cases hd
      · exact .inl hd
    | _ => exact .inl hd
  | openFile path creat =>
    obtain ⟨d, rfl, rfl⟩ := hok
    have hd := h.header i _ d hi rfl
    rcases Store.openFile_cases (Option.some.inj hH) with ⟨rfl, rfl⟩ | ⟨rfl, rfl⟩
    · refine h.set hi (fun _ _ => rfl) le_rfl (fun _ _ => .inl rfl) (fun e he => ?_) nofun
      obtain rfl : d = e := Option.some.inj he
      exact hd
    · have hpos : ¬ (s.nextFd : Int) < 0 := by omega
      have hnext : (sessProtocol cwd).next (.passed d) (.openFile (realPath cwd d) creat) (s.nextFd : Int) =
          .writing d s.nextFd := by rw [next_open, if_neg hpos]
      rw [hnext]
      refine h.set hi (fun _ _ => rfl) (Nat.le_succ _) (fun fd hfd => .inl ?_) (fun e he => ?_) fun e fd he => .inr ?_
      · exact Function.update_of_ne (by omega) _ _
      · obtain rfl : d = e := Option.some.inj he
        exact hd
      · cases he
        exact ⟨Int.ofNat_lt.2 (Nat.lt_succ_self _), by simp⟩
  | ftruncate fd length =>
    obtain ⟨-, rfl⟩ := Prod.mk.inj (Option.some.inj hH)
    refine hsame (by cases l <;> rfl) ?_
    split
    · exact h
    · exact h.modify
  | mmapWrite fd offset bytes =>
    refine hsame (by cases l <;> rfl) ?_
    rcases Store.mmapWrite_cases hH with ⟨-, rfl⟩ | ⟨-, -, -, -, rfl⟩
    · exact h
    · exact h.modify
  | stat | sendfile | crash => cases hH
  | _ => cases hio

theorem Files.sqlStep {o : Op} {r : Resp o} {m : Mysql} (h : Files cwd s ls) (hi : ls[i]? = some l)
    (ho : o.isSql = true) :
    Files cwd { s with sql := m } (ls.set i ((sessProtocol cwd).next l o r)) := by
  have hnext : ((sessProtocol cwd).next l o r).digest = l.digest ∧
      ∀ d fd, (sessProtocol cwd).next l o r = .writing d fd → l = .writing d fd := by
    cases o with
    | selectFile c q =>
      cases l with
      | seen d =>
        rw [next_select]
        split <;> exact ⟨rfl, nofun⟩
      | _ => exact ⟨rfl, fun _ _ => id⟩
    | getConnection | releaseConnection | autocommit | commit | selectUser | selectUserFile | exec =>
      cases l <;> exact ⟨rfl, fun _ _ => id⟩
    | _ => cases ho
  exact h.set hi (fun _ _ => rfl) le_rfl (fun _ _ => .inl rfl) (fun d hd => h.header i l d hi (hnext.1 ▸ hd))
    fun d fd hd => .inl (hnext.2 d fd hd)

theorem sess_next_io {o : Op} {r : Resp o} (ho : o.isSql = false) :
    (∀ d, ((sessProtocol cwd).next l o r).Live d → l.Live d) ∧
      ∀ ch, l.Pends ch → ((sessProtocol cwd).next l o r).Pends ch := by
  cases l with
  | start =>
    cases o with
    | recv fd => exact ⟨fun _ => id, fun _ => False.elim⟩
    | _ => exact ⟨fun _ => id, fun _ => id⟩
  | seen d =>
    cases o with
    | selectFile => cases ho
    | _ => exact ⟨fun _ => id, fun _ => id⟩
  | passed d =>
    cases o with
    | openFile path creat =>
      rw [next_open]
      split
      · exact ⟨fun _ => False.elim, fun _ _ => trivial⟩
      · exact ⟨fun _ => id, fun _ _ => trivial⟩
    | _ => exact ⟨fun _ => id, fun _ => id⟩
  | writing d fd =>
    cases o with
    | close fd' =>
      rw [next_close]
      split
      · exact ⟨fun _ => False.elim, fun _ _ => trivial⟩
      · exact ⟨fun _ => id, fun _ => id⟩
    | _ => exact ⟨fun _ => id, fun _ => id⟩
  | closed d => cases o <;> exact ⟨fun _ => id, fun _ => id⟩

theorem PendingFits.set {m : Mysql} (h : PendingFits m ls) (hi : ls[i]? = some l)
    (hl : ∀ ch, l.Pends ch → l'.Pends ch) : PendingFits m (ls.set i l') := by
  intro c x j ch hx hmem
  obtain ⟨k, hk, hfits⟩ := h c x j ch hx hmem
  by_cases hji : j = i
  · subst hji
    obtain rfl := Option.some.inj (hi.symm.trans hk)
    exact ⟨l', List.getElem?_set_self (List.getElem?_eq_some_iff.1 hi).1, hl ch hfits⟩
  · exact ⟨k, by rwa [List.getElem?_set_ne (Ne.symm hji)], hfits⟩

end FilesStep

/-! ### Sessions that write no more -/

/-- Operations that may change a stored file or bring in a row for one. -/
def Op.stores : Op → Prop
  | .openFile .. | .ftruncate .. | .mmapWrite .. | .commit _ | .autocommit _ true | .exec _ (.insertFile ..) => True
  | _ => False

/-- Lookups in `file`. -/
def Op.looks : Op → Prop
  | .selectFile .. => True
  | _ => False

def Sess.retire (h : CStr) : Sess → Sess
  | .passed d => if d = h then .closed h else .passed d
  | .writing d fd => if d = h then .closed h else .writing d fd
  | l => l

section Retire
variable {cwd h : CStr} {s : Store} {l : Sess} {ls : List (Hold × Sess)}

theorem Sess.retire_cases : l.Live h ∧ l.retire h = .closed h ∨ ¬ l.Live h ∧ l.retire h = l := by
  cases l with
  | passed d =>
    by_cases hd : d = h
    · exact .inl ⟨hd, if_pos hd⟩
    · exact .inr ⟨hd, if_neg hd⟩
  | writing d fd =>
    by_cases hd : d = h
    · exact .inl ⟨hd, if_pos hd⟩
    · exact .inr ⟨hd, if_neg hd⟩
  | _ => exact .inr ⟨id, rfl⟩

theorem Sess.Live.digest (hl : l.Live h) : l.digest = some h := by
  cases l with
  | passed d | writing d fd => exact congrArg some hl
  | _ => exact hl.elim

theorem Sess.not_live_retire : ¬ (l.retire h).Live h := by
  rcases l.retire_cases (h := h) with ⟨-, heq⟩ | ⟨hl, heq⟩
  · rw [heq]
    exact id
  · rwa [heq]

/-- Sessions that may write to the file of `h` are counted as done with it. -/
theorem Kept.retire (hk : Kept cwd s ls) : Kept cwd s (ls.map (Prod.map id (Sess.retire h))) := by
  have hfst : (ls.map (Prod.map id (Sess.retire h))).map Prod.fst = ls.map Prod.fst := by simp
  have hsnd : (ls.map (Prod.map id (Sess.retire h))).map Prod.snd = (ls.map Prod.snd).map (Sess.retire h) := by simp
  have hget : ∀ (i : Nat) l', ((ls.map Prod.snd).map (Sess.retire h))[i]? = some l' →
      ∃ l, (ls.map Prod.snd)[i]? = some l ∧ (l' = .closed h ∧ l.Live h ∨ l' = l) := by
    intro i l' hi
    rw [List.getElem?_map] at hi
    obtain ⟨l, hl, rfl⟩ := Option.map_eq_some_iff.1 hi
    rcases l.retire_cases (h := h) with ⟨hlive, heq⟩ | ⟨-, heq⟩
    · exact ⟨l, hl, .inl ⟨heq, hlive⟩⟩
    · exact ⟨l, hl, .inr heq⟩
  refine ⟨hfst ▸ hk.pool, hsnd ▸ hk.rows.mono fun l' hl' d hd => ?_, hsnd ▸ fun c x i ch hx hch => ?_,
    hsnd ▸ ⟨fun i l' d hi hd => ?_, fun i d fd hi => ?_⟩⟩
  · obtain ⟨i, hi⟩ := List.mem_iff_getElem?.1 hl'
    obtain ⟨l, hl, ⟨rfl, -⟩ | rfl⟩ := hget i l' hi
    · exact hd.elim
    · exact ⟨_, List.mem_of_getElem? hl, hd⟩
  · obtain ⟨l, hl, hfits⟩ := hk.pending c x i ch hx hch
    refine ⟨l.retire h, by rw [List.getElem?_map, hl]; rfl, ?_⟩
    rcases l.retire_cases (h := h) with ⟨-, heq⟩ | ⟨-, heq⟩
    · rw [heq]
      trivial
    · rwa [heq]
  · obtain ⟨l, hl, ⟨rfl, hlive⟩ | rfl⟩ := hget i l' hi
    · exact hk.files.header i l d hl (hlive.digest.trans hd)
    · exact hk.files.header i _ d hl hd
  · obtain ⟨l, hl, ⟨heq, -⟩ | rfl⟩ := hget i _ hi
    · cases heq
    · exact hk.files.fds i d fd hl

theorem sess_ok_retire {o : Op} (hl : l.Live h ∨ l = .closed h) (hok : (sessProtocol cwd).ok l o)
    (ho : ¬ o.stores) : (sessProtocol cwd).ok (.closed h) o ∧ ¬ o.looks := by
  cases o with
  | recv fd =>
    obtain rfl : l = .start := hok
    exact absurd hl (by rintro (h | h) <;> cases h)
  | selectFile c q =>
    obtain ⟨d, rfl⟩ := hok
    exact absurd hl (by rintro (h | h) <;> cases h)
  | autocommit c mode =>
    cases mode with
    | true => exact absurd trivial ho
    | false => exact ⟨trivial, id⟩
  | exec c st =>
    cases st with
    | insertFile => exact absurd trivial ho
    | insertUserFile => exact ⟨nofun, id⟩
    | updateComplete h' =>
      obtain rfl : l = .closed h' := hok
      rcases hl with hl | hl
      · exact hl.elim
      · cases hl
        exact ⟨rfl, id⟩
    | _ => exact hok.elim
  | commit | openFile | ftruncate | mmapWrite => exact absurd trivial ho
  | selectUser | stat | sendfile => exact hok.elim
  | _ => exact ⟨trivial, id⟩

theorem sess_next_retire {o : Op} {r : Resp o} (hl : l.Live h ∨ l = .closed h) (ho : ¬ o.stores) :
    ((sessProtocol cwd).next l o r).Live h ∨ (sessProtocol cwd).next l o r = .closed h := by
  cases l with
  | passed d =>
    cases o with
    | openFile => exact absurd trivial ho
    | _ => exact hl
  | writing d fd =>
    obtain rfl : d = h := hl.resolve_right nofun
    cases o with
    | close fd' =>
      rw [next_close]
      split
      · exact .inr rfl
      · exact hl
    | _ => exact hl
  | closed d =>
    obtain rfl := Sess.closed.inj (hl.resolve_left id)
    cases o <;> exact .inr rfl
  | _ => exact absurd hl (by rintro (h | h) <;> cases h)

/-- A program that stores nothing before it looks again may go on as if its file were closed. -/
theorem wp_retire {hold : Hold} {p : Os Unit}
    (hwp : p.wp (connProtocol.prod (sessProtocol cwd)) (fun _ _ => True) (hold, l)) (hl : l.Live h)
    (hp : ¬ p.MayDo Op.stores Op.looks) :
    p.wp (connProtocol.prod (sessProtocol cwd)) (fun _ _ => True) (hold, .closed h) := by
  refine hwp.retire (R := fun l m => m = (l.1, .closed h) ∧ (l.2.Live h ∨ l.2 = .closed h)) ?_ ?_
    (fun _ _ _ _ _ => trivial) ⟨rfl, .inl hl⟩ hp
  · rintro ⟨hold, l⟩ _ (o : Op) ⟨rfl, hl⟩ ⟨hc, hs⟩ ho
    exact ⟨hc, (sess_ok_retire hl hs ho).1⟩
  · rintro ⟨hold, l⟩ _ (o : Op) r ⟨rfl, hl⟩ ⟨-, hok⟩ ho ⟨hc, hs⟩
    have hclosed : (sessProtocol cwd).next (.closed h) o r = .closed h := by cases o <;> rfl
    have hresp : (sessProtocol cwd).resp l o r := by
      cases o with
      | selectFile c q => cases q <;> exact hs
      | _ => trivial
    have hnext : ((sessProtocol cwd).next l o r).Live h ∨ (sessProtocol cwd).next l o r = .closed h :=
      sess_next_retire hl ho
    exact ⟨⟨hc, hresp⟩, .inr ⟨(sess_ok_retire hl hok ho).2, congrArg (Prod.mk _) hclosed, hnext⟩⟩

end Retire

/-! ### Runs -/

/-- A frame brings no alias of a digest; and when a digest is marked complete, no other session that
has received it may still write to its file, or bring in a row for it, without a look at the rows. -/
def Undisturbed (cwd : CStr) (s : UploadState) : UploadAct → Prop
  | .start _ => True
  | .exec i w => ∀ call o k, s.threads[i]? = some ⟨call, .op o k⟩ →
      (∀ fd, o = .recv fd → Unaliased cwd w.frame.data) ∧
      ∀ c h, o = .exec c (.updateComplete h) → IsDigest h → ∀ j ≠ i, ∀ t, s.threads[j]? = some t →
        (s.shared.header j).map TransFile.data = some h → ¬ t.rest.MayDo Op.stores Op.looks

/-- The step opens, truncates or writes the stored file of `h`. -/
def Hits (cwd h : CStr) (s : UploadState) : UploadAct → Prop
  | .start _ => False
  | .exec i _ => ∃ call o k, s.threads[i]? = some ⟨call, .op o k⟩ ∧
      s.shared.target o = some (resolve (realPath cwd h))

/-- Every session is inside its protocols. -/
abbrev UploadInv (cwd : CStr) : UploadState → Prop :=
  Threads.Guided (connProtocol.prod (sessProtocol cwd)) (fun _ _ => True) (Kept cwd)

section Runs
variable {J : Jwt} {cwd strerror h : CStr} {s t : UploadState} {a : UploadAct}

theorem Kept.start {sh : Store} {ls : List (Hold × Sess)} (hk : Kept cwd sh ls) :
    Kept cwd sh (ls ++ [(.idle, .start)]) := by
  have hfst : (ls ++ [(Hold.idle, Sess.start)]).map Prod.fst = ls.map Prod.fst ++ [.idle] := by simp
  have hsnd : (ls ++ [(Hold.idle, Sess.start)]).map Prod.snd = ls.map Prod.snd ++ [.start] := by simp
  refine ⟨hfst ▸ hk.pool.start, hsnd ▸ hk.rows.mono fun l hl d hd => ?_, hsnd ▸ fun c x i ch hx hch => ?_,
    hsnd ▸ hk.files.start⟩
  · rcases List.mem_append.1 hl with hl | hl
    · exact ⟨l, hl, hd⟩
    · obtain rfl := List.mem_singleton.1 hl
      exact hd.elim
  · obtain ⟨l, hl, hfits⟩ := hk.pending c x i ch hx hch
    exact ⟨l, by rwa [List.getElem?_append_left (List.getElem?_eq_some_iff.1 hl).1], hfits⟩

/-- What the step of a session keeps, once nobody may write to a file that it marks complete. -/
theorem Kept.exec {sh sh' : Store} {ls : List (Hold × Sess)} {i : Nat} {w : Choice} {o : Op} {l : Hold × Sess}
    {r : Resp o} (hk : Kept cwd sh ls) (hi : ls[i]? = some l)
    (hdone : ∀ c h, o = .exec c (.updateComplete h) → IsDigest h → ∀ k ∈ ls, ¬ k.2.Live h)
    (hok : (connProtocol.prod (sessProtocol cwd)).ok l o) (hrecv : ∀ fd, o = .recv fd → Unaliased cwd w.frame.data)
    (hH : Store.handler i w o sh = some (r, sh')) :
    (connProtocol.prod (sessProtocol cwd)).resp l o r ∧
      Kept cwd sh' (ls.set i ((connProtocol.prod (sessProtocol cwd)).next l o r)) := by
  obtain ⟨hold, l⟩ := l
  obtain ⟨hconn, hsess⟩ := hok
  have hfst : (ls.map Prod.fst)[i]? = some hold := by rw [List.getElem?_map, hi]; rfl
  have hsnd : (ls.map Prod.snd)[i]? = some l := by rw [List.getElem?_map, hi]; rfl
  cases ho : o.isSql with
  | true =>
    obtain ⟨m, hm, rfl⟩ := Store.handler_sql ho hH
    obtain ⟨hresp, hpool⟩ := hk.pool.step hfst hconn hm fun c name ho => by
      -- sessions look at no account
      subst ho
      exact hsess.elim
    obtain ⟨hresp', hrows, hpending⟩ := hk.rows.sqlStep hk.pending hsnd
      (fun c x hc hx => hk.pool.own hfst hconn hc hx) hsess
      (fun c h ho hh k hk => by
        obtain ⟨x, hx, rfl⟩ := List.mem_map.1 hk
        exact hdone c h ho hh x hx) hm
    refine ⟨⟨hresp, hresp'⟩, ?_, ?_, ?_, ?_⟩
    · rw [List.map_set]
      exact hpool
    · rw [List.map_set]
      exact hrows
    · rw [List.map_set]
      exact hpending
    · rw [List.map_set]
      exact hk.files.sqlStep hsnd ho
  | false =>
    obtain ⟨hresp, hnext⟩ : connProtocol.resp hold o r ∧ connProtocol.next hold o r = hold := conn_next_io ho
    have hsql := Store.handler_io ho hH
    obtain ⟨hlive, hpends⟩ : (∀ d, ((sessProtocol cwd).next l o r).Live d → l.Live d) ∧
      ∀ ch, l.Pends ch → ((sessProtocol cwd).next l o r).Pends ch := sess_next_io ho
    have hresp' : (sessProtocol cwd).resp l o r := by
      cases o with
      | selectFile => cases ho
      | _ => trivial
    refine ⟨⟨hresp, hresp'⟩, ?_, ?_, ?_, ?_⟩
    · rw [List.map_set, hsql, show ((connProtocol.prod (sessProtocol cwd)).next (hold, l) o r).1 = hold from hnext,
        Threads.set_self hfst]
      exact hk.pool
    · rw [List.map_set, hsql]
      refine hk.rows.mono fun k hk' d hd => ?_
      rcases List.mem_or_eq_of_mem_set hk' with hk' | rfl
      · exact ⟨k, hk', hd⟩
      · exact ⟨l, List.mem_of_getElem? hsnd, hlive d hd⟩
    · rw [List.map_set, hsql]
      exact hk.pending.set hsnd hpends
    · rw [List.map_set]
      exact hk.files.ioStep hsnd ho hsess hrecv hH

theorem uploadInv_init {db : Db} (hdb : ∀ f ∈ db.file, f.hash = none) : UploadInv cwd (uploadInit db) := by
  have hnone : ∀ f ∈ db.file, ∀ d, f.hash ≠ some d := fun f hf d hd => by
    rw [hdb f hf] at hd
    cases hd
  refine Threads.guided_init ⟨pooled_init, ⟨fun d _ f hf _ _ hfd => absurd hfd (hnone f hf d), nofun⟩, ?_, files_init⟩
  intro c x i ch hx hch
  obtain rfl := List.eq_of_mem_replicate (List.mem_of_getElem? hx)
  cases hch

theorem UploadInv.step (hs : UploadInv cwd s) (hC : Undisturbed cwd s a) (hst : UploadStep J cwd strerror s a t) :
    UploadInv cwd t := by
  cases a with
  | start call => exact hs.start hst call.wp fun ls hk => hk.start
  | exec i w =>
    obtain ⟨call, o, k, r, sh, hi, -, -⟩ := Threads.step_exec hst
    obtain ⟨hrecv, hdone⟩ := hC call o k hi
    -- sessions that may write to a file now marked complete will not do so: count them as done
    have hs' : Threads.Guided (connProtocol.prod (sessProtocol cwd)) (fun _ _ => True) (fun sh ls => Kept cwd sh ls ∧
        ∀ c h, o = .exec c (.updateComplete h) → IsDigest h → ∀ k ∈ ls, ¬ k.2.Live h) s := by
      by_cases hup : ∃ c h, o = .exec c (.updateComplete h) ∧ IsDigest h
      · obtain ⟨c, e, rfl, he⟩ := hup
        refine hs.relabel (Prod.map id (Sess.retire e)) (fun ls j th l hk hj hl hwp => ?_) fun ls hk => ⟨hk.retire, ?_⟩
        · rcases l.2.retire_cases (h := e) with ⟨hlive, heq⟩ | ⟨-, heq⟩
          · by_cases hji : j = i
            · subst hji
              obtain rfl := Option.some.inj (hi.symm.trans hj)
              have hclosed : l.2 = .closed e := hwp.1.2
              rw [hclosed] at hlive
              exact hlive.elim
            · have hheader := hk.files.header j l.2 e (by rw [List.getElem?_map, hl]; rfl) hlive.digest
              have hwp' := wp_retire hwp hlive (hdone c e rfl he j hji th hj hheader.1)
              rwa [← heq] at hwp'
          · have hsame : Prod.map id (Sess.retire e) l = l := Prod.ext rfl heq
            rwa [hsame]
        · rintro c' e' ho - k hk'
          obtain ⟨k, -, rfl⟩ := List.mem_map.1 hk'
          obtain rfl : e = e' := by cases ho; rfl
          exact Sess.not_live_retire
      · refine hs.relabel id (fun _ _ _ _ _ _ _ h => h) fun ls hk => ⟨by rwa [List.map_id], fun c h ho hh => ?_⟩
        exact absurd ⟨c, h, ho, hh⟩ hup
    refine hs'.exec hst fun ls call' o' k' l r sh ⟨hk, hdone'⟩ hl hi' hok hH => ?_
    cases hi.symm.trans hi'
    exact hk.exec hl hdone' hok hrecv hH

theorem UploadInv.not_hits (hs : UploadInv cwd s) (hh : IsDigest h) (hc : s.shared.Complete h) : ¬ Hits cwd h s a := by
  cases a with
  | start call => exact id
  | exec i w =>
    rintro ⟨call, o, k, hi, htarget⟩
    obtain ⟨ls, l, hk, hl, -, hok⟩ := hs.ok hi
    have hl' : (ls.map Prod.snd)[i]? = some l.2 := by rw [List.getElem?_map, hl]; rfl
    obtain ⟨f, hf, hfh, hfc⟩ := hc
    -- the session has the same digest, and may write: then the row is not complete
    have hlive : ∀ d, l.2.Live d → resolve (realPath cwd d) = resolve (realPath cwd h) → False := by
      intro d hd heq
      obtain rfl := (hk.files.header i l.2 d hl' hd.digest).2 h hh heq
      have hfalse := hk.rows.live l.2 (List.mem_of_getElem? hl') d hd hh f hf hfh
      rw [hfc] at hfalse
      cases hfalse
    have hwrite : ∀ d fd, l.2 = .writing d fd → s.shared.fds fd = some (resolve (realPath cwd h)) → False := by
      intro d fd hd hfd
      rcases (hk.files.fds i d fd (hl'.trans (congrArg some hd))).2 with hnone | hsome
      · rw [hnone] at hfd
        cases hfd
      · exact hlive d (hd ▸ rfl) (Option.some.inj (hsome.symm.trans hfd))
    cases o with
    | openFile path creat =>
      obtain ⟨d, hd, rfl⟩ := hok
      exact hlive d (hd ▸ rfl) (Option.some.inj htarget)
    | ftruncate fd length =>
      obtain ⟨d, hd⟩ := hok
      exact hwrite d fd hd htarget
    | mmapWrite fd offset bytes =>
      obtain ⟨d, hd⟩ := hok
      exact hwrite d fd hd htarget
    | _ => cases htarget

theorem stored_step (hst : UploadStep J cwd strerror s a t) (hh : ¬ Hits cwd h s a) :
    t.shared.stored cwd h = s.shared.stored cwd h := by
  cases a with
  | start call =>
    obtain rfl := Threads.step_start hst
    rfl
  | exec i w =>
    obtain ⟨call, o, k, r, sh, hi, hH, rfl⟩ := Threads.step_exec hst
    exact Store.files_of_target hH fun htarget => hh ⟨call, o, k, hi, htarget⟩

theorem complete_step (hst : UploadStep J cwd strerror s a t) (hc : s.shared.Complete h) : t.shared.Complete h := by
  cases a with
  | start call =>
    obtain rfl := Threads.step_start hst
    exact hc
  | exec i w =>
    obtain ⟨call, o, k, r, sh, hi, hH, rfl⟩ := Threads.step_exec hst
    cases ho : o.isSql with
    | true =>
      obtain ⟨m, hm, rfl⟩ := Store.handler_sql ho hH
      obtain ⟨-, ⟨new, hnew, -⟩, -⟩ := Mysql.handler_effect hm
      have hfile := (Mysql.handler_base hm).2.1
      have hcommitted : m.committed.file = (Mysql.replay s.shared.sql.committed new).file := by
        rw [Mysql.committed, hnew, Mysql.replay_file hfile, Mysql.replay_append, Mysql.committed]
      show ∃ f ∈ m.committed.file, _
      rw [hcommitted]
      exact Mysql.complete_replay hc
    | false =>
      have hsql := Store.handler_io ho hH
      show ∃ f ∈ sh.sql.committed.file, _
      rw [hsql]
      exact hc

/-- Once the row of a digest is complete, no step reaches its file, and the bytes stay what they are,
as long as the sessions do not disturb each other. -/
theorem stored_of_undisturbed (J : Jwt) (cwd strerror : CStr) (db : Db) (hdb : ∀ f ∈ db.file, f.hash = none)
    (r₁ r₂ : List (UploadAct × UploadState)) (hr : IsRun (UploadStep J cwd strerror) (uploadInit db) (r₁ ++ r₂))
    (hC : Meets (Undisturbed cwd) (uploadInit db) (r₁ ++ r₂)) (h : CStr) (hh : IsDigest h)
    (hc : (final (uploadInit db) r₁).shared.Complete h) :
    Meets (fun s a => ¬ Hits cwd h s a) (final (uploadInit db) r₁) r₂ ∧
      (final (uploadInit db) (r₁ ++ r₂)).shared.stored cwd h = (final (uploadInit db) r₁).shared.stored cwd h := by
  obtain ⟨hr₁, hr₂⟩ := isRun_append.1 hr
  obtain ⟨hC₁, hC₂⟩ := meets_append.1 hC
  have hinv : UploadInv cwd (final (uploadInit db) r₁) :=
    (hr₁.always (fun _ _ _ hs hC hst => hs.step hC hst) (uploadInv_init hdb) hC₁).final
  let I : UploadState → Prop := fun t => UploadInv cwd t ∧ t.shared.Complete h ∧
    t.shared.stored cwd h = (final (uploadInit db) r₁).shared.stored cwd h
  have keep : ∀ t a u, I t → Undisturbed cwd t a → UploadStep J cwd strerror t a u → I u :=
    fun t a u ⟨ht, hct, heq⟩ hC hst =>
      ⟨ht.step hC hst, complete_step hst hct, (stored_step hst (ht.not_hits hh hct)).trans heq⟩
  refine ⟨hr₂.meets keep (fun t a ht _ => ht.1.not_hits hh ht.2.1) ⟨hinv, hc, rfl⟩ hC₂, ?_⟩
  rw [final_append]
  exact (hr₂.always keep ⟨hinv, hc, rfl⟩ hC₂).final.2.2

end Runs

/-! ### Two runs -/

/-- The digest that the operation marks complete. -/
def Op.marks : Op → Option CStr
  | .exec _ (.updateComplete h) => some h
  | _ => none

/-- No session but `i` has received the digest. -/
def OnlyReceiver (s : UploadState) (i : Nat) (h : CStr) : Prop :=
  ∀ j < s.threads.length, j ≠ i → (s.shared.header j).map TransFile.data ≠ some h

instance (s : UploadState) (i : Nat) : DecidablePred (OnlyReceiver s i) := fun h => inferInstanceAs
  (Decidable (∀ j < s.threads.length, j ≠ i → (s.shared.header j).map TransFile.data ≠ some h))

/-- A digest is marked complete where no other session has received it. -/
def MarksAlone (s : UploadState) : UploadAct → Prop
  | .start _ => True
  | .exec i _ => s.Next i fun _ o => ∀ h ∈ Op.marks o, OnlyReceiver s i h

instance (s : UploadState) : DecidablePred (MarksAlone s)
  | .start _ => isTrue trivial
  | .exec i _ => inferInstanceAs (Decidable (s.Next i fun _ o => ∀ h ∈ Op.marks o, OnlyReceiver s i h))

theorem MarksAlone.undisturbed {cwd : CStr} {s : UploadState} {a : UploadAct} (h : MarksAlone s a)
    (hw : ∀ i w, a = .exec i w → Unaliased cwd w.frame.data) : Undisturbed cwd s a := by
  cases a with
  | start call => trivial
  | exec i w =>
    intro call o k hi
    refine ⟨fun _ _ => hw i w rfl, fun c d ho _ j hj t ht hheader => ?_⟩
    subst ho
    have hnext : s.Next i fun _ o => ∀ h ∈ Op.marks o, OnlyReceiver s i h := h
    exact absurd hheader (Threads.next_iff.1 hnext call _ k hi d rfl j (List.getElem?_eq_some_iff.1 ht).1 hj)

/-- One byte is uploaded as the digest of `A`s, then another session uploads one as that of `B`s. -/
theorem stored_of_undisturbed_two :
    let first := List.replicate 64 'A'
    let second := List.replicate 64 'B'
    let w (digest : CStr) : Choice := { ord := .stored, frame := { data := digest, dataLength := 1 }, bytes := ['x'] }
    let run := trace (Threads.step (UploadCall.prog .unary ['/'] []) Store.handler)
    let s := uploadInit oneUser
    let r₁ := run s (.start ⟨100, ['f', ' ', '/'], ⟨1, ['/', 'u']⟩, first⟩ :: List.replicate 25 (.exec 0 (w first)))
    let r₂ := run (final s r₁) (.start ⟨101, ['g', ' ', '/'], ⟨1, ['/', 'u']⟩, second⟩ :: List.replicate 25 (.exec 1 (w second)))
    (final s r₁).shared.Complete first ∧ (final s (r₁ ++ r₂)).shared.Complete second ∧
      Meets (fun s a => ¬ Hits ['/'] first s a) (final s r₁) r₂ ∧
      (final s (r₁ ++ r₂)).shared.stored ['/'] first = (final s r₁).shared.stored ['/'] first := by
  intro first second w run s r₁ r₂
  have hfirst : IsDigest first := by decide +kernel
  have hsecond : IsDigest second := by decide +kernel
  have hcomplete : (final s r₁).shared.Complete first := by
    show ∃ f ∈ (final s r₁).shared.sql.committed.file, _
    decide +kernel
  have hcomplete' : (final s (r₁ ++ r₂)).shared.Complete second := by
    show ∃ f ∈ (final s (r₁ ++ r₂)).shared.sql.committed.file, _
    decide +kernel
  have hr : IsRun (UploadStep .unary ['/'] []) s (r₁ ++ r₂) := isRun_trace_append (Threads.step _ _) s _ _
  have halone : Meets MarksAlone s (r₁ ++ r₂) := by decide +kernel
  have hnamed : Meets (fun _ a => ∀ i (w : Choice), a = Threads.Act.exec i w → Unaliased ['/'] w.frame.data) s (r₁ ++ r₂) := by
    refine meets_trace_append (fun a ha i w heq => ?_) (fun a ha i w heq => ?_) s <;> subst heq
    · cases List.eq_of_mem_replicate ((List.mem_cons.1 ha).resolve_left nofun)
      exact hfirst.2.unaliased
    · cases List.eq_of_mem_replicate ((List.mem_cons.1 ha).resolve_left nofun)
      exact hsecond.2.unaliased
  exact ⟨hcomplete, hcomplete', stored_of_undisturbed .unary ['/'] [] oneUser (by decide) r₁ r₂ hr
    ((halone.and hnamed).mono fun _ _ h => h.1.undisturbed h.2) first hfirst hcomplete⟩

/-- After the upload of one byte another client gives the digest as `./A…` and the length 0. -/
theorem complete_file_truncated : ¬ ∀ (J : Jwt) (cwd strerror : CStr) (db : Db) (r₁ r₂ : List (UploadAct × UploadState)),
    (∀ f ∈ db.file, f.hash = none) → IsRun (UploadStep J cwd strerror) (uploadInit db) (r₁ ++ r₂) →
    ∀ h, IsDigest h → (final (uploadInit db) r₁).shared.Complete h →
    (final (uploadInit db) (r₁ ++ r₂)).shared.stored cwd h = (final (uploadInit db) r₁).shared.stored cwd h := by
  intro hclaim
  let digest := List.replicate 64 'A'
  let w : Choice := { ord := .stored, frame := { data := digest, dataLength := 1 }, bytes := ['x'] }
  let w' : Choice := { ord := .stored, frame := { data := '.' :: '/' :: digest } }
  let run := trace (Threads.step (UploadCall.prog .unary ['/'] []) Store.handler)
  let s := uploadInit oneUser
  let r₁ := run s (.start ⟨100, ['f', ' ', '/'], ⟨1, ['/', 'u']⟩, digest⟩ :: List.replicate 25 (.exec 0 w))
  let r₂ := run (final s r₁) (.start ⟨101, ['g', ' ', '/'], ⟨1, ['/', 'u']⟩, []⟩ :: List.replicate 17 (.exec 1 w'))
  have hr : IsRun (UploadStep .unary ['/'] []) s (r₁ ++ r₂) := isRun_trace_append (Threads.step _ _) s _ _
  have hcomplete : (final s r₁).shared.Complete digest := by
    show ∃ f ∈ (final s r₁).shared.sql.committed.file, _
    decide +kernel
  have heq := hclaim .unary ['/'] [] oneUser r₁ r₂ (by decide) hr digest (by decide +kernel) hcomplete
  have hbefore : (final s r₁).shared.stored ['/'] digest = some ['x'] := by decide +kernel
  have hafter : (final s (r₁ ++ r₂)).shared.stored ['/'] digest = some [] := by decide +kernel
  rw [hbefore, hafter] at heq
  cases heq

end Netdisk

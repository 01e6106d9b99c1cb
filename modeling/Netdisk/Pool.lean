import Netdisk.Db.Mysql

/-!
# Connections go back clean

The protocol that every database operation is meant to keep with its connection (`connProtocol`),
that they keep it but for one path of `user_register`, and what follows for the pool when that path
is not taken: `clean_of_findsNoAccount`.
-/

namespace Netdisk
open Runs

/-- The database operations that the pool serves. -/
inductive SqlCall
  | getUser (userName : CStr)
  | userRegister (rand account password : CStr)
  | queryCd (path : CStr) (userId : Nat)
  | queryLs (path : CStr) (userId : Nat)
  | queryLl (path : CStr) (userId : Nat)
  | queryMkdir (path dirName : CStr) (userId : Nat)
  | queryPuts (path fileName hashValue : CStr) (userId : Nat)
  | queryGets (path fileName : CStr) (userId : Nat)
  | queryUpdate (hashValue : CStr)
  | queryRemove (path fileName : CStr) (userId : Nat)
deriving DecidableEq

/-- The call, its result dropped. -/
def SqlCall.prog (C : Crypt) : SqlCall → Os Unit
  | .getUser userName => (Netdisk.getUser userName).bind fun _ => .pure ()
  | .userRegister rand account password => (Netdisk.userRegister C rand account password).bind fun _ => .pure ()
  | .queryCd path userId => (Netdisk.queryCd path userId).bind fun _ => .pure ()
  | .queryLs path userId => (Netdisk.queryLs path userId).bind fun _ => .pure ()
  | .queryLl path userId => (Netdisk.queryLl path userId).bind fun _ => .pure ()
  | .queryMkdir path dirName userId => (Netdisk.queryMkdir path dirName userId).bind fun _ => .pure ()
  | .queryPuts path fileName hash userId => (Netdisk.queryPuts path fileName hash userId).bind fun _ => .pure ()
  | .queryGets path fileName userId => (Netdisk.queryGets path fileName userId).bind fun _ => .pure ()
  | .queryUpdate hash => (Netdisk.queryUpdate hash).bind fun _ => .pure ()
  | .queryRemove path fileName userId => (Netdisk.queryRemove path fileName userId).bind fun _ => .pure ()

/-- What a call holds of the pool: nothing, or a connection with autocommit on or off. -/
inductive Hold
  | idle
  | auto (c : Conn)
  | manual (c : Conn)
deriving DecidableEq

def Hold.conn : Hold → Option Conn
  | .idle => none
  | .auto c | .manual c => some c

/-- One connection at a time, released with autocommit on. With autocommit off a lookup in `user`
has to be ready for an empty answer only. -/
def connProtocol : Prog.Protocol osSig Hold where
  ok
    | .idle, .getConnection => True
    | .auto c, .releaseConnection c' => c' = c
    | .auto c, .autocommit c' mode => c' = c ∧ mode = false
    | .manual c, .autocommit c' mode => c' = c ∧ mode = true
    | .manual c, .commit c' => c' = c
    | .auto c, .exec c' _ | .manual c, .exec c' _ => c' = c
    | .auto c, .selectUser c' _ | .manual c, .selectUser c' _ => c' = c
    | .auto c, .selectUserFile c' _ | .manual c, .selectUserFile c' _ => c' = c
    | .auto c, .selectFile c' _ | .manual c, .selectFile c' _ => c' = c
    | _, o => o.isSql = false
  resp
    | _, .getConnection, r => r ≠ none
    | .manual _, .selectUser _ _, r => r = []
    | _, _, _ => True
  next
    | .idle, .getConnection, some c => .auto c
    | .auto _, .releaseConnection _, _ => .idle
    | .auto c, .autocommit _ _, _ => .manual c
    | .manual c, .autocommit _ _, _ => .auto c
    | l, _, _ => l

theorem conn_eq_of_ok {l : Hold} {o : Op} {c : Conn} (hok : connProtocol.ok l o) (hc : o.conn = some c) : l.conn = some c := by
  cases l with
  | idle => cases o <;> cases hc <;> exact absurd hok nofun
  | auto c' =>
    cases o <;> cases hc <;>
      first | exact congrArg some hok.symm | exact congrArg some hok.1.symm | exact absurd hok nofun
  | manual c' =>
    cases o <;> cases hc <;>
      first | exact congrArg some hok.symm | exact congrArg some hok.1.symm | exact absurd hok nofun

/-- `connProtocol` without a lookup in `user` while autocommit is off, so that any answer is fine. -/
def borrowProtocol : Prog.Protocol osSig Hold where
  ok
    | .manual _, .selectUser .. => False
    | l, o => connProtocol.ok l o
  resp
    | _, .getConnection, r => r ≠ none
    | _, _, _ => True
  next := connProtocol.next

/-- The call holds nothing before and after, and gives back what it borrows as it was. -/
def Borrows {α : Type} (p : Os α) : Prop := p.wp borrowProtocol (fun l _ => l = .idle) .idle

/-- The call is given to the protocol and takes it from `idle` to `idle`. -/
def Returns {α : Type} (p : Os α) : Prop := p.wp connProtocol (fun l _ => l = .idle) .idle

section Wp
variable {α : Type} {post : Hold → α → Prop} {c : Conn}

theorem wp_getConnection {k : Option Conn → Os α} :
    (Prog.op (S := osSig) .getConnection k).wp connProtocol post .idle ↔
      ∀ c, (k (some c)).wp connProtocol post (.auto c) := by
  simp only [Prog.wp_op, connProtocol, true_and]
  refine ⟨fun h c => h (some c) (Option.some_ne_none c), fun h r hr => ?_⟩
  obtain ⟨c, rfl⟩ := Option.ne_none_iff_exists'.1 hr
  exact h c

theorem wp_crash {l : Hold} : (Os.crash : Os α).wp connProtocol post l := by
  refine ⟨?_, fun e => nomatch (e : Empty)⟩
  cases l <;> rfl

theorem Returns.bind {β : Type} {p : Os α} {k : α → Os β} {post : Hold → β → Prop} (h : Returns p)
    (hk : ∀ a, (k a).wp connProtocol post .idle) : (p.bind k).wp connProtocol post .idle := by
  exact Prog.wp.bind h fun l a hl => hl ▸ hk a

end Wp

section Borrow
variable {α β : Type} {post : Hold → α → Prop}

theorem borrow_getConnection {k : Option Conn → Os α} :
    (Prog.op (S := osSig) .getConnection k).wp borrowProtocol post .idle ↔
      ∀ c, (k (some c)).wp borrowProtocol post (.auto c) := by
  simp only [Prog.wp_op, borrowProtocol, connProtocol, true_and]
  refine ⟨fun h c => h (some c) (Option.some_ne_none c), fun h r hr => ?_⟩
  obtain ⟨c, rfl⟩ := Option.ne_none_iff_exists'.1 hr
  exact h c

theorem borrow_crash {l : Hold} : (Os.crash : Os α).wp borrowProtocol post l := by
  refine ⟨?_, fun e => nomatch (e : Empty)⟩
  cases l <;> rfl

theorem Borrows.bind {p : Os α} {k : α → Os β} {post : Hold → β → Prop} (h : Borrows p)
    (hk : ∀ a, (k a).wp borrowProtocol post .idle) : (p.bind k).wp borrowProtocol post .idle := by
  exact Prog.wp.bind h fun l a hl => hl ▸ hk a

theorem conn_ok_of_borrow {l : Hold} {o : Op} (hok : borrowProtocol.ok l o) : connProtocol.ok l o := by
  cases l <;> cases o <;> first | exact hok | cases hok

theorem Borrows.returns {p : Os α} (h : Borrows p) : Returns p := by
  have hstep : ∀ (l m : Hold) (o : Op), l = m → borrowProtocol.ok l o → connProtocol.ok m o ∧
      ∀ r, connProtocol.resp m o r → borrowProtocol.resp l o r ∧ borrowProtocol.next l o r = connProtocol.next m o r := by
    rintro l m o rfl hok
    refine ⟨conn_ok_of_borrow hok, fun r hr => ⟨?_, rfl⟩⟩
    cases o with
    | getConnection => exact hr
    | _ => trivial
  exact Prog.wp.simulate hstep (fun _ _ _ hm hl => hm.symm.trans hl) rfl h

end Borrow

theorem queryCd_borrows (path : CStr) (u : Nat) : Borrows (queryCd path u) := by
  simp only [Borrows, queryCd, Os.getConnection_bind, Prog.bind_eq, borrow_getConnection]
  intro c
  simp only [Os.selectUserFile_bind, Prog.wp_op, borrowProtocol, connProtocol]
  refine ⟨trivial, fun rows _ => ?_⟩
  cases rows with
  | nil => simp
  | cons file files =>
    cases spliteFileName path with
    | none => exact borrow_crash
    | some names => simp

theorem getUser_borrows (name : CStr) : Borrows (getUser name) := by
  simp only [Borrows, getUser, Os.getConnection_bind, Prog.bind_eq, borrow_getConnection]
  intro c
  simp only [Os.selectUser_bind, Prog.wp_op, borrowProtocol, connProtocol]
  refine ⟨trivial, fun rows _ => ?_⟩
  split <;> simp

theorem queryLs_borrows (path : CStr) (u : Nat) : Borrows (queryLs path u) := by
  refine (queryCd_borrows path u).bind fun d => ?_
  split
  · rfl
  · simp only [Os.getConnection_bind, Prog.bind_eq, borrow_getConnection]
    intro c
    simp [borrowProtocol, connProtocol]

theorem queryLl_borrows (path : CStr) (u : Nat) : Borrows (queryLl path u) := by
  refine (queryCd_borrows path u).bind fun d => ?_
  split
  · rfl
  · simp only [Os.getConnection_bind, Prog.bind_eq, borrow_getConnection]
    intro c
    simp [borrowProtocol, connProtocol]

theorem queryMkdir_borrows (path dirName : CStr) (u : Nat) : Borrows (queryMkdir path dirName u) := by
  refine (queryCd_borrows path u).bind fun d => ?_
  split
  · rfl
  · simp only [Os.getConnection_bind, Prog.bind_eq, borrow_getConnection]
    intro c
    simp only [Os.selectUserFile_bind, Prog.wp_op, borrowProtocol, connProtocol]
    refine ⟨trivial, fun rows _ => ?_⟩
    split <;> simp

theorem queryPuts_borrows (path fileName hash : CStr) (u : Nat) : Borrows (queryPuts path fileName hash u) := by
  refine (queryCd_borrows path u).bind fun d => ?_
  split
  · rfl
  split
  · rfl
  · simp only [Os.getConnection_bind, Prog.bind_eq, borrow_getConnection]
    intro c
    simp only [Os.selectUserFile_bind, Prog.wp_op, borrowProtocol, connProtocol]
    refine ⟨trivial, fun rows _ => ?_⟩
    cases rows with
    | cons sameName rest =>
      simp only [Os.selectFile_bind, Prog.wp_op]
      refine ⟨trivial, fun files _ => ?_⟩
      cases files with
      | nil => exact borrow_crash
      | cons file files => simp
    | nil =>
      simp only [Os.selectFile_bind, Prog.wp_op]
      refine ⟨trivial, fun files _ => ?_⟩
      cases files with
      | nil => simp
      | cons file files => simp

theorem queryGets_borrows (path fileName : CStr) (u : Nat) : Borrows (queryGets path fileName u) := by
  refine (queryCd_borrows path u).bind fun d => ?_
  split
  · rfl
  split
  · rfl
  · simp only [Os.getConnection_bind, Prog.bind_eq, borrow_getConnection]
    intro c
    simp only [Os.selectFile_bind, Prog.wp_op, borrowProtocol, connProtocol]
    refine ⟨trivial, fun files _ => ?_⟩
    cases files with
    | nil => simp
    | cons file files =>
      dsimp only
      split <;> simp

theorem queryUpdate_borrows (hash : CStr) : Borrows (queryUpdate hash) := by
  simp only [Borrows, queryUpdate, Os.getConnection_bind, Prog.bind_eq, borrow_getConnection]
  intro c
  simp [borrowProtocol, connProtocol]

theorem queryRemove_borrows (path fileName : CStr) (u : Nat) : Borrows (queryRemove path fileName u) := by
  refine (queryCd_borrows path u).bind fun d => ?_
  split
  · rfl
  · simp only [Os.getConnection_bind, Prog.bind_eq, borrow_getConnection]
    intro c
    simp only [Os.selectUserFile_bind, Prog.wp_op, borrowProtocol, connProtocol]
    refine ⟨trivial, fun rows _ => ?_⟩
    cases rows with
    | nil => simp
    | cons row rows =>
      simp only [Os.selectFile_bind, Prog.wp_op]
      refine ⟨trivial, fun files _ => ?_⟩
      cases files with
      | nil => exact borrow_crash
      | cons file files =>
        dsimp only
        split
        · simp
        split
        · simp only [Prog.wp_op]
          refine ⟨trivial, fun children _ => ?_⟩
          split <;> simp
        · simp

theorem userRegister_returns (C : Crypt) (rand account password : CStr) :
    Returns (userRegister C rand account password) := by
  simp only [Returns, userRegister, Os.getConnection_bind, Prog.bind_eq, wp_getConnection]
  intro c
  simp [connProtocol]

theorem SqlCall.wp (C : Crypt) (call : SqlCall) :
    (call.prog C).wp connProtocol (fun l _ => l = .idle) .idle := by
  have hdrop : ∀ {α : Type} {p : Os α}, Returns p →
      (p.bind fun _ => .pure ()).wp connProtocol (fun l _ => l = .idle) .idle := fun h => h.bind fun _ => rfl
  cases call with
  | getUser name => exact hdrop (getUser_borrows name).returns
  | userRegister rand account password => exact hdrop (userRegister_returns C rand account password)
  | queryCd path u => exact hdrop (queryCd_borrows path u).returns
  | queryLs path u => exact hdrop (queryLs_borrows path u).returns
  | queryLl path u => exact hdrop (queryLl_borrows path u).returns
  | queryMkdir path name u => exact hdrop (queryMkdir_borrows path name u).returns
  | queryPuts path name hash u => exact hdrop (queryPuts_borrows path name hash u).returns
  | queryGets path name u => exact hdrop (queryGets_borrows path name u).returns
  | queryUpdate hash => exact hdrop (queryUpdate_borrows hash).returns
  | queryRemove path name u => exact hdrop (queryRemove_borrows path name u).returns

/-! ### The pool -/

/-- The connection of a hold of the call `i`. -/
def Hold.Owns (i : Nat) : Hold → Slot → Prop
  | .idle, _ => False
  | .auto _, x => x.inUse = true ∧ x.autocommit = true ∧ x.pending = []
  | .manual _, x => x.inUse = true ∧ x.autocommit = false ∧ ∀ ch ∈ x.pending, ch.1 = i

/-- Every connection in use belongs to one call, the others are clean, and each change is published
or pending on some connection. -/
structure Pooled (m : Mysql) (ls : List Hold) : Prop where
  available : m.available = m.connects.countP fun x => !x.inUse
  free : ∀ (c : Conn) (x : Slot), m.connects[c]? = some x → x.inUse = false →
    x.autocommit = true ∧ x.pending = []
  owned : ∀ (c : Conn) (x : Slot), m.connects[c]? = some x → x.inUse = true →
    ∃ (i : Nat) (l : Hold), ls[i]? = some l ∧ l.conn = some c
  holds : ∀ (i : Nat) (l : Hold) (c : Conn), ls[i]? = some l → l.conn = some c →
    ∃ x, m.connects[c]? = some x ∧ l.Owns i x
  single : ∀ (i j : Nat) (l l' : Hold) (c : Conn), ls[i]? = some l → ls[j]? = some l' →
    l.conn = some c → l'.conn = some c → i = j
  saved : ∀ ch ∈ m.executed, ch ∈ m.published ∨
    ∃ (c : Conn) (x : Slot), m.connects[c]? = some x ∧ ch ∈ x.pending

theorem Hold.Owns.inUse {i : Nat} {l : Hold} {x : Slot} (h : l.Owns i x) : x.inUse = true := by
  cases l with
  | idle => exact h.elim
  | auto c => exact h.1
  | manual c => exact h.1

section Pooled
variable {m m' : Mysql} {ls : List Hold} {i : Nat} {l l' : Hold} {c : Conn} {x x' : Slot}

theorem pooled_init {db : Db} : Pooled { base := db } [] where
  available := rfl
  free c x hx _ := by
    obtain rfl := List.eq_of_mem_replicate (List.mem_of_getElem? hx)
    exact ⟨rfl, rfl⟩
  owned c x hx hu := by
    obtain rfl := List.eq_of_mem_replicate (List.mem_of_getElem? hx)
    cases hu
  holds := nofun
  single := nofun
  saved := nofun

theorem Pooled.start (h : Pooled m ls) : Pooled m (ls ++ [.idle]) := by
  -- a call that holds a connection is one of the old ones
  have hold : ∀ (i : Nat) (l : Hold) (c : Conn), (ls ++ [Hold.idle])[i]? = some l → l.conn = some c → ls[i]? = some l := by
    intro i l c hi hc
    rcases Threads.getElem?_snoc_cases hi with ⟨rfl, -⟩ | hi
    · cases hc
    · exact hi
  refine { h with owned := fun c x hx hu => ?_, holds := fun i l c hi hc => h.holds i l c (hold i l c hi hc) hc,
                  single := fun i j l l' c hi hj hc hc' =>
                    h.single i j l l' c (hold i l c hi hc) (hold j l' c hj hc') hc hc' }
  obtain ⟨i, l, hi, hc⟩ := h.owned c x hx hu
  exact ⟨i, l, by rw [List.getElem?_append_left (List.getElem?_eq_some_iff.1 hi).1]; exact hi, hc⟩

/-- One call takes, changes or gives back the connection `c`. -/
theorem Pooled.move (h : Pooled m ls) (hi : ls[i]? = some l) (hx : m.connects[c]? = some x)
    (hconn : m'.connects = m.connects.set c x')
    (hl : l.conn = some c ∨ l.conn = none ∧ x.inUse = false)
    (hl' : l'.conn = some c ∧ l'.Owns i x' ∨
      l'.conn = none ∧ x'.inUse = false ∧ x'.autocommit = true ∧ x'.pending = [])
    (havail : m'.available + (if x.inUse then 0 else 1) = m.available + (if x'.inUse then 0 else 1))
    (hpub : m.published ⊆ m'.published)
    (hpend : ∀ ch ∈ x.pending, ch ∈ m'.published ∨ ch ∈ x'.pending)
    (hexec : ∀ ch ∈ m'.executed, ch ∈ m.executed ∨ ch ∈ m'.published ∨ ch ∈ x'.pending) :
    Pooled m' (ls.set i l') := by
  have hc : c < m.connects.length := (List.getElem?_eq_some_iff.1 hx).1
  have hil : i < ls.length := (List.getElem?_eq_some_iff.1 hi).1
  have hslot : ∀ c' y, m'.connects[c']? = some y → c' = c ∧ y = x' ∨ c' ≠ c ∧ m.connects[c']? = some y := by
    intro c' y hy
    rw [hconn, List.getElem?_set] at hy
    split at hy
    · next heq => exact .inl ⟨heq.symm, by simpa [hc, heq ▸ hc] using hy.symm⟩
    · next hne => exact .inr ⟨Ne.symm hne, hy⟩
  have hkept : ∀ c' y, c' ≠ c → m.connects[c']? = some y → m'.connects[c']? = some y := by
    intro c' y hne hy
    rw [hconn, List.getElem?_set_ne hne.symm]
    exact hy
  have hnew : m'.connects[c]? = some x' := by rw [hconn, List.getElem?_set_self hc]
  have hls : ∀ j k, (ls.set i l')[j]? = some k → j = i ∧ k = l' ∨ j ≠ i ∧ ls[j]? = some k :=
    fun j k hj => Threads.getElem?_set_cases hj
  -- no other call holds `c`
  have hother : ∀ j k, j ≠ i → ls[j]? = some k → k.conn ≠ some c := by
    intro j k hne hj hk
    rcases hl with hl | ⟨-, hfree⟩
    · exact hne (h.single j i k l c hj hi hk hl)
    · obtain ⟨y, hy, hown⟩ := h.holds j k c hj hk
      obtain rfl := Option.some.inj (hx.symm.trans hy)
      exact absurd (hown.inUse.symm.trans hfree) nofun
  refine ⟨?_, fun c' y hy hu => ?_, fun c' y hy hu => ?_, fun j k c' hj hk => ?_,
    fun j₁ j₂ k₁ k₂ c' h₁ h₂ hc₁ hc₂ => ?_, fun ch hch => ?_⟩
  · have hget : m.connects[c] = x := (List.getElem?_eq_some_iff.1 hx).2
    have hpos : x.inUse = false → 0 < m.connects.countP fun x => !x.inUse := fun hu =>
      List.countP_pos_iff.2 ⟨x, List.mem_of_getElem? hx, by simp [hu]⟩
    have hcount := h.available
    rw [hconn, List.countP_set hc, hget]
    generalize (m.connects.countP fun x => !x.inUse) = n at hcount hpos ⊢
    cases hu : x.inUse <;> cases hu' : x'.inUse <;> simp [hu, hu'] at havail hpos ⊢ <;> omega
  · rcases hslot c' y hy with ⟨rfl, rfl⟩ | ⟨hne, hy⟩
    · rcases hl' with ⟨-, hown⟩ | ⟨-, -, hclean⟩
      · exact absurd (hown.inUse.symm.trans hu) nofun
      · exact hclean
    · exact h.free c' y hy hu
  · rcases hslot c' y hy with ⟨rfl, rfl⟩ | ⟨hne, hy⟩
    · rcases hl' with ⟨hc', -⟩ | ⟨-, hu', -⟩
      · exact ⟨i, l', by rw [List.getElem?_set_self hil], hc'⟩
      · exact absurd (hu.symm.trans hu') nofun
    · obtain ⟨j, k, hj, hk⟩ := h.owned c' y hy hu
      have hji : j ≠ i := by
        rintro rfl
        obtain rfl := Option.some.inj (hi.symm.trans hj)
        rcases hl with hl | ⟨hl, -⟩
        · exact hne (Option.some.inj (hk.symm.trans hl))
        · exact absurd (hk.symm.trans hl) nofun
      exact ⟨j, k, by rw [List.getElem?_set_ne hji.symm]; exact hj, hk⟩
  · rcases hls j k hj with ⟨rfl, rfl⟩ | ⟨hji, hj⟩
    · rcases hl' with ⟨hc', hown⟩ | ⟨hnone, -⟩
      · obtain rfl := Option.some.inj (hc'.symm.trans hk)
        exact ⟨x', hnew, hown⟩
      · exact absurd (hk.symm.trans hnone) nofun
    · obtain ⟨y, hy, hown⟩ := h.holds j k c' hj hk
      exact ⟨y, hkept c' y (fun heq => hother j k hji hj (heq ▸ hk)) hy, hown⟩
  · have hnew_other : ∀ j k, j ≠ i → ls[j]? = some k → k.conn = some c' → l'.conn = some c' → False := by
      intro j k hji hj hk hc'
      rcases hl' with ⟨hlc, -⟩ | ⟨hnone, -⟩
      · exact hother j k hji hj ((Option.some.inj (hc'.symm.trans hlc)) ▸ hk)
      · exact absurd (hc'.symm.trans hnone) nofun
    rcases hls j₁ k₁ h₁ with ⟨rfl, rfl⟩ | ⟨hne₁, hj₁⟩ <;> rcases hls j₂ k₂ h₂ with ⟨rfl, rfl⟩ | ⟨hne₂, hj₂⟩
    · rfl
    · exact (hnew_other j₂ k₂ hne₂ hj₂ hc₂ hc₁).elim
    · exact (hnew_other j₁ k₁ hne₁ hj₁ hc₁ hc₂).elim
    · exact h.single j₁ j₂ k₁ k₂ c' hj₁ hj₂ hc₁ hc₂
  · have hpending : ch ∈ m'.published ∨ ch ∈ x'.pending →
        ch ∈ m'.published ∨ ∃ (c : Conn) (x : Slot), m'.connects[c]? = some x ∧ ch ∈ x.pending :=
      Or.imp_right fun hch => ⟨c, x', hnew, hch⟩
    rcases hexec ch hch with hch | hch
    · rcases h.saved ch hch with hch | ⟨c', y, hy, hch⟩
      · exact .inl (hpub hch)
      · by_cases hne : c' = c
        · subst hne
          obtain rfl := Option.some.inj (hx.symm.trans hy)
          exact hpending (hpend ch hch)
        · exact .inr ⟨c', y, hkept c' y hne hy, hch⟩
    · exact hpending hch

theorem Mysql.slot_eq (hx : m.connects[c]? = some x) : m.slot c = x := by
  rw [Mysql.slot, List.getD_eq_getElem?_getD, hx, Option.getD_some]

theorem Mysql.releaseConnection_eq (hx : m.connects[c]? = some x) : m.releaseConnection c =
    { m with connects := m.connects.set c { x with inUse := false }, available := m.available + 1 } := by
  rw [Mysql.releaseConnection, if_pos (List.getElem?_eq_some_iff.1 hx).1, Mysql.slot_eq hx]; rfl

theorem Mysql.exec_auto (hx : m.connects[c]? = some x) (hauto : x.autocommit = true) (st : Db.Stmt) :
    m.exec i c st = { m with
      base := m.base.draw st
      executed := m.executed ++ [(i, (m.base.change st).1)]
      published := m.published ++ [(i, (m.base.change st).1)] } := by
  simp [Mysql.exec, Mysql.slot, hx, hauto]

theorem Mysql.exec_manual (hx : m.connects[c]? = some x) (hauto : x.autocommit = false) (st : Db.Stmt) :
    m.exec i c st = { m with
      base := m.base.draw st
      executed := m.executed ++ [(i, (m.base.change st).1)]
      connects := m.connects.set c { x with pending := x.pending ++ [(i, (m.base.change st).1)] } } := by
  simp [Mysql.exec, Mysql.slot, Mysql.setSlot, hx, hauto]

theorem Mysql.commit_eq (hx : m.connects[c]? = some x) : m.commit c =
    { m with connects := m.connects.set c { x with pending := [] }, published := m.published ++ x.pending } := by
  rw [Mysql.commit, Mysql.slot_eq hx]; rfl

theorem Mysql.autocommit_true (hx : m.connects[c]? = some x) : m.autocommit c true =
    { m with
      connects := m.connects.set c { x with pending := [], autocommit := true }
      published := m.published ++ x.pending } := by
  have hlt := (List.getElem?_eq_some_iff.1 hx).1
  simp [Mysql.autocommit, Mysql.commit_eq hx, Mysql.setSlot, Mysql.slot, hlt]

theorem Mysql.autocommit_false (hx : m.connects[c]? = some x) : m.autocommit c false =
    { m with connects := m.connects.set c { x with autocommit := false } } := by
  simp [Mysql.autocommit, Mysql.setSlot, Mysql.slot_eq hx]

/-- The steps of a call that holds nothing. -/
theorem Pooled.take (h : Pooled m ls) (hi : ls[i]? = some .idle) {r : Option Conn}
    (hH : m.getConnection = some (r, m')) : ∃ c, r = some c ∧ Pooled m' (ls.set i (.auto c)) := by
  unfold Mysql.getConnection at hH
  split at hH
  · cases hH
  · next havail =>
    cases hfind : m.connects.findIdx? fun x => !x.inUse with
    | none =>
      -- a positive `available` counts a free connection
      have hnone := List.findIdx?_eq_none_iff.1 hfind
      rw [h.available, List.countP_eq_zero] at havail
      exact absurd (fun x hx => by simp [hnone x hx]) havail
    | some c =>
      rw [hfind] at hH
      obtain ⟨rfl, rfl⟩ := Prod.mk.inj (Option.some.inj hH)
      obtain ⟨hlt, hfree, -⟩ := List.findIdx?_eq_some_iff_getElem.1 hfind
      have hx : m.connects[c]? = some m.connects[c] := List.getElem?_eq_getElem hlt
      have hfree : m.connects[c].inUse = false := by simpa using hfree
      have hclean := h.free c _ hx hfree
      have hconn : (m.setSlot c { m.slot c with inUse := true }).connects =
          m.connects.set c { m.connects[c] with inUse := true } := by rw [Mysql.slot_eq hx]; rfl
      refine ⟨c, rfl, h.move hi hx hconn (.inr ⟨rfl, hfree⟩) (.inl ⟨rfl, rfl, hclean⟩) ?_
        (List.Subset.refl _) (fun ch hch => .inr hch) fun ch hch => .inl hch⟩
      simp [hfree]
      omega

theorem Pooled.stepAuto (h : Pooled m ls) (hi : ls[i]? = some (.auto c)) {ord : RowOrder} {o : Op} {r : Resp o}
    (hok : connProtocol.ok (.auto c) o) (hH : Mysql.handler i ord o m = some (r, m')) :
    connProtocol.resp (.auto c) o r ∧ Pooled m' (ls.set i (connProtocol.next (.auto c) o r)) := by
  obtain ⟨x, hx, hu, hauto, hpend⟩ := h.holds i _ c hi rfl
  have hnone : ∀ {P : Nat × Db.Change → Prop}, ∀ ch ∈ x.pending, P ch := fun ch hch => by
    rw [hpend] at hch; cases hch
  cases o with
  | releaseConnection c' =>
    obtain rfl : c' = c := hok
    obtain ⟨-, rfl⟩ := Prod.mk.inj (Option.some.inj hH)
    rw [Mysql.releaseConnection_eq hx]
    exact ⟨trivial, h.move hi hx rfl (.inl rfl) (.inr ⟨rfl, rfl, hauto, hpend⟩) (by simp [hu])
      (List.Subset.refl _) hnone fun ch hch => .inl hch⟩
  | autocommit c' mode =>
    obtain ⟨rfl, rfl⟩ : c' = c ∧ mode = false := hok
    obtain ⟨-, rfl⟩ := Prod.mk.inj (Option.some.inj hH)
    rw [Mysql.autocommit_false hx]
    exact ⟨trivial, h.move hi hx rfl (.inl rfl) (.inl ⟨rfl, hu, rfl, hnone⟩) rfl
      (List.Subset.refl _) hnone fun ch hch => .inl hch⟩
  | exec c' st =>
    obtain rfl : c' = c := hok
    obtain ⟨-, rfl⟩ := Prod.mk.inj (Option.some.inj hH)
    rw [Mysql.exec_auto hx hauto]
    refine ⟨trivial, h.move hi hx (Threads.set_self hx).symm (.inl rfl) (.inl ⟨rfl, hu, hauto, hpend⟩) rfl
      (List.subset_append_left _ _) hnone fun ch hch => ?_⟩
    rcases List.mem_append.1 hch with hch | hch
    · exact .inl hch
    · exact .inr (.inl (List.mem_append_right _ hch))
  | selectUser c' name =>
    obtain ⟨-, rfl⟩ := Prod.mk.inj (Option.some.inj hH)
    exact ⟨trivial, (Threads.set_self hi).symm ▸ h⟩
  | selectUserFile c' q =>
    obtain ⟨-, rfl⟩ := Prod.mk.inj (Option.some.inj hH)
    exact ⟨trivial, (Threads.set_self hi).symm ▸ h⟩
  | selectFile c' q =>
    obtain ⟨-, rfl⟩ := Prod.mk.inj (Option.some.inj hH)
    exact ⟨trivial, (Threads.set_self hi).symm ▸ h⟩
  | _ => exact absurd ((Mysql.isSql_of_handler hH).symm.trans hok) nofun

theorem Pooled.stepManual (h : Pooled m ls) (hi : ls[i]? = some (.manual c)) {ord : RowOrder} {o : Op}
    {r : Resp o} (hok : connProtocol.ok (.manual c) o) (hH : Mysql.handler i ord o m = some (r, m'))
    (hnew : ∀ c name, o = .selectUser c name → (m.slot c).autocommit = false →
      ∀ y ∈ (m.view c).user, y.name ≠ name) :
    connProtocol.resp (.manual c) o r ∧ Pooled m' (ls.set i (connProtocol.next (.manual c) o r)) := by
  obtain ⟨x, hx, hu, hauto, hmine⟩ := h.holds i _ c hi rfl
  have hpub : ∀ ch ∈ x.pending, ch ∈ m.published ++ x.pending ∨ ch ∈ ([] : List (Nat × Db.Change)) :=
    fun ch hch => .inl (List.mem_append_right _ hch)
  cases o with
  | autocommit c' mode =>
    obtain ⟨rfl, rfl⟩ : c' = c ∧ mode = true := hok
    obtain ⟨-, rfl⟩ := Prod.mk.inj (Option.some.inj hH)
    rw [Mysql.autocommit_true hx]
    exact ⟨trivial, h.move hi hx rfl (.inl rfl) (.inl ⟨rfl, hu, rfl, rfl⟩) rfl
      (List.subset_append_left _ _) hpub fun ch hch => .inl hch⟩
  | commit c' =>
    obtain rfl : c' = c := hok
    obtain ⟨-, rfl⟩ := Prod.mk.inj (Option.some.inj hH)
    rw [Mysql.commit_eq hx]
    exact ⟨trivial, h.move hi hx rfl (.inl rfl) (.inl ⟨rfl, hu, hauto, nofun⟩) rfl
      (List.subset_append_left _ _) hpub fun ch hch => .inl hch⟩
  | exec c' st =>
    obtain rfl : c' = c := hok
    obtain ⟨-, rfl⟩ := Prod.mk.inj (Option.some.inj hH)
    rw [Mysql.exec_manual hx hauto]
    refine ⟨trivial, h.move hi hx rfl (.inl rfl) (.inl ⟨rfl, hu, hauto, fun ch hch => ?_⟩) rfl
      (List.Subset.refl _) (fun ch hch => .inr (List.mem_append_left _ hch)) fun ch hch => ?_⟩
    · rcases List.mem_append.1 hch with hch | hch
      · exact hmine ch hch
      · exact congrArg Prod.fst (List.mem_singleton.1 hch)
    · rcases List.mem_append.1 hch with hch | hch
      · exact .inl hch
      · exact .inr (.inr (List.mem_append_right _ hch))
  | selectUser c' name =>
    obtain rfl : c' = c := hok
    obtain ⟨rfl, rfl⟩ := Prod.mk.inj (Option.some.inj hH)
    refine ⟨?_, (Threads.set_self hi).symm ▸ h⟩
    have hauto' : (m.slot c').autocommit = false := (congrArg Slot.autocommit (Mysql.slot_eq hx)).trans hauto
    exact Db.selectUser_eq_nil.2 (hnew c' name rfl hauto')
  | selectUserFile c' q =>
    obtain ⟨-, rfl⟩ := Prod.mk.inj (Option.some.inj hH)
    exact ⟨trivial, (Threads.set_self hi).symm ▸ h⟩
  | selectFile c' q =>
    obtain ⟨-, rfl⟩ := Prod.mk.inj (Option.some.inj hH)
    exact ⟨trivial, (Threads.set_self hi).symm ▸ h⟩
  | _ => exact absurd ((Mysql.isSql_of_handler hH).symm.trans hok) nofun

theorem Pooled.step (h : Pooled m ls) (hi : ls[i]? = some l) {ord : RowOrder} {o : Op} {r : Resp o}
    (hok : connProtocol.ok l o) (hH : Mysql.handler i ord o m = some (r, m'))
    (hnew : ∀ c name, o = .selectUser c name → (m.slot c).autocommit = false →
      ∀ y ∈ (m.view c).user, y.name ≠ name) :
    connProtocol.resp l o r ∧ Pooled m' (ls.set i (connProtocol.next l o r)) := by
  cases l with
  | idle =>
    cases o with
    | getConnection =>
      obtain ⟨c, rfl, h'⟩ := h.take hi hH
      exact ⟨nofun, h'⟩
    | _ => exact absurd ((Mysql.isSql_of_handler hH).symm.trans hok) nofun
  | auto c => exact h.stepAuto hi hok hH
  | manual c => exact h.stepManual hi hok hH hnew

theorem conn_next_io {o : Op} {r : Resp o} (ho : o.isSql = false) :
    connProtocol.resp l o r ∧ connProtocol.next l o r = l := by
  cases l <;> cases o <;> first | exact ⟨trivial, rfl⟩ | cases ho

/-- What is pending on a connection that a call uses was done by that call. -/
theorem Pooled.own (h : Pooled m ls) (hi : ls[i]? = some l) {o : Op} (hok : connProtocol.ok l o)
    (hc : o.conn = some c) (hx : m.connects[c]? = some x) : ∀ ch ∈ x.pending, ch.1 = i := by
  have hl : l.conn = some c := conn_eq_of_ok hok hc
  obtain ⟨y, hy, hown⟩ := h.holds i l c hi hl
  obtain rfl := Option.some.inj (hx.symm.trans hy)
  cases l with
  | idle => cases hl
  | auto c' =>
    intro ch hch
    rw [hown.2.2] at hch
    cases hch
  | manual c' => exact hown.2.2

end Pooled

/-! ### Runs -/

abbrev PoolState := Threads osSig SqlCall Mysql

abbrev PoolAct := Threads.Act SqlCall RowOrder

/-- Calls are started and take steps in any order. -/
abbrev PoolStep (C : Crypt) : PoolState → PoolAct → PoolState → Prop :=
  Threads.Step (SqlCall.prog C) Mysql.handler

/-- All connections free, with autocommit on, and no call started. -/
def poolInit : PoolState := { shared := {} }

/-- Connections in the pool are clean, and what a call that has returned did is part of what every
connection shows. -/
structure Clean (s : PoolState) : Prop where
  free : ∀ x ∈ s.shared.connects, x.inUse = false → x.autocommit = true ∧ x.pending = []
  visible : ∀ i call change, s.threads[i]? = some ⟨call, .pure ()⟩ → (i, change) ∈ s.shared.executed →
    (i, change) ∈ s.shared.published

/-- If the step is a lookup of an account with autocommit off, which is the one of `user_register`,
no such account is found. -/
def FindsNoAccount (s : PoolState) : PoolAct → Prop
  | .start _ => True
  | .exec i _ => ∀ call c name k, s.threads[i]? = some ⟨call, .op (.selectUser c name) k⟩ →
      (s.shared.slot c).autocommit = false → ∀ x ∈ (s.shared.view c).user, x.name ≠ name

/-- The connection and the account of a lookup in `user`. -/
def Op.account : Op → Option (Conn × CStr)
  | .selectUser c name => some (c, name)
  | _ => none

theorem findsNoAccount_exec {s : PoolState} {i : Nat} {ord : RowOrder} : FindsNoAccount s (.exec i ord) ↔
    s.Next i fun _ o => ∀ x ∈ Op.account o,
      (s.shared.slot x.1).autocommit = false → ∀ user ∈ (s.shared.view x.1).user, user.name ≠ x.2 := by
  rw [Threads.next_iff]
  constructor
  · intro h call o k hi x hx
    cases o <;> cases hx
    exact h call _ _ k hi
  · intro h call c name k hi
    exact h call _ k hi (c, name) rfl

instance (s : PoolState) : DecidablePred (FindsNoAccount s)
  | .start _ => isTrue trivial
  | .exec _ _ => decidable_of_iff _ findsNoAccount_exec.symm

/-- Every call is inside the protocol, and the pool agrees with what the calls hold. -/
abbrev PoolInv : PoolState → Prop := Threads.Guided connProtocol (fun l _ => l = .idle) Pooled

theorem PoolInv.clean {s : PoolState} (h : PoolInv s) : Clean s where
  free x hx hu := by
    obtain ⟨ls, -, -, hpool⟩ := h
    obtain ⟨c, hc⟩ := List.mem_iff_getElem?.1 hx
    exact hpool.free c x hc hu
  visible i call change hi hch := by
    obtain ⟨ls, l, hpool, hl, rfl⟩ := h.finished hi
    refine (hpool.saved _ hch).resolve_right ?_
    rintro ⟨c, x, hx, hmem⟩
    -- a connection with pending changes belongs to the call that made them
    cases hu : x.inUse with
    | false =>
      rw [(hpool.free c x hx hu).2] at hmem
      cases hmem
    | true =>
      obtain ⟨j, l, hj, hc⟩ := hpool.owned c x hx hu
      obtain ⟨y, hy, hown⟩ := hpool.holds j l c hj hc
      obtain rfl := Option.some.inj (hx.symm.trans hy)
      cases l with
      | idle => cases hc
      | auto c' =>
        rw [hown.2.2] at hmem
        cases hmem
      | manual c' =>
        obtain rfl : i = j := hown.2.2 _ hmem
        exact absurd (hl.symm.trans hj) nofun

theorem PoolInv.step {C : Crypt} {s t : PoolState} {a : PoolAct} (h : PoolInv s) (hC : FindsNoAccount s a)
    (hst : PoolStep C s a t) : PoolInv t := by
  cases a with
  | start call => exact h.start hst (call.wp C) fun ls hpool => hpool.start
  | exec i ord =>
    refine h.exec hst fun ls call o k l r sh hpool hl hi hok hH => hpool.step hl hok hH fun c name ho => ?_
    subst ho
    exact hC call c name k hi

/-- Connections go back clean, and changes are seen, in every state of a run in which no call of
`user_register` finds its account. -/
theorem clean_of_findsNoAccount (C : Crypt) (r : List (PoolAct × PoolState)) (hr : IsRun (PoolStep C) poolInit r)
    (hC : Meets FindsNoAccount poolInit r) : Always Clean poolInit r :=
  (hr.always (I := PoolInv) (fun _ _ _ h hC hst => h.step hC hst) (Threads.guided_init pooled_init) hC).mono
    fun _ => PoolInv.clean

/-- Two threads in turn, each to the end of its nine operations. -/
def inTurn : List PoolAct :=
  [.start (.userRegister [] ['a'] ['p']), .start (.userRegister [] ['b'] ['q'])] ++
    (List.replicate 9 [.exec 0 .stored, .exec 1 .stored]).flatten

/-- Two accounts are registered at once, each call to its end. -/
theorem clean_of_findsNoAccount_two :
    let r := trace (Threads.step (SqlCall.prog .plain) Mysql.handler) poolInit inTurn
    Always Clean poolInit r ∧ (final poolInit r).threads.map (·.rest.head) = [none, none] :=
  ⟨clean_of_findsNoAccount .plain _ (isRun_trace ..) (by decide +kernel), by decide +kernel⟩

/-- The account is registered twice: the second call leaves its connection with autocommit off. -/
theorem taken_account_leaks : ¬ ∀ C s, Reaches (PoolStep C) poolInit s → Clean s := by
  intro h
  let s := final poolInit (trace (Threads.step (SqlCall.prog .plain) Mysql.handler) poolInit
    ([.start (.userRegister [] ['a'] ['p']), .start (.userRegister [] ['a'] ['p'])] ++
      List.replicate 9 (.exec 0 .stored) ++ List.replicate 4 (.exec 1 .stored)))
  have hs := h .plain s (.of_trace _ poolInit _)
  have hfree : (⟨false, false, []⟩ : Slot) ∈ s.shared.connects := by decide
  exact absurd (hs.free _ hfree rfl).1 nofun

end Netdisk

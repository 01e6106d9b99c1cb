import Netdisk.Pool

/-!
# No connection is lost

The pool under calls that take any of their branches: what the database answers is left open, and
only `get_connection` and `release_connection` mean something. `log` keeps who took and gave back
which connection. Each call holds one connection at a time and gives it back once
(`SqlCall.holdsOne`), so nothing is lost: `conserved_of_reaches`.
-/

namespace Netdisk
open Runs

/-- What a call does to the pool. -/
inductive PoolOp
  | get (connect : Option Conn)
  | release (connect : Conn)
deriving DecidableEq

/-- The pool with the calls of `get_connection` and `release_connection` so far, each with the
number of the call it comes from. -/
structure PoolLog where
  pool : Mysql := {}
  log : List (Nat × PoolOp) := []
deriving DecidableEq

namespace PoolLog

/-- The connections that call `i` has got, in their order. -/
def acquired (s : PoolLog) (i : Nat) : List Conn :=
  s.log.filterMap fun
    | (j, .get (some c)) => if j = i then some c else none
    | _ => none

/-- The connections that call `i` has given back. -/
def released (s : PoolLog) (i : Nat) : List Conn :=
  s.log.filterMap fun
    | (j, .release c) => if j = i then some c else none
    | _ => none

/-- Call `i` has got `c` more often than it gave it back. -/
def Held (s : PoolLog) (i : Nat) (c : Conn) : Prop := (s.released i).count c < (s.acquired i).count c

/-- The operations of call `i`; a statement is answered by `answer`. -/
def handler (i : Nat) (answer : (o : Op) → Option (Resp o)) : (o : Op) → PoolLog → Option (Resp o × PoolLog)
  | .getConnection, s => s.pool.getConnection.map fun x => (x.1, ⟨x.2, s.log ++ [(i, .get x.1)]⟩)
  | .releaseConnection c, s => some ((), ⟨s.pool.releaseConnection c, s.log ++ [(i, .release c)]⟩)
  | o, s => if o.isSql then (answer o).map fun r => (r, s) else none

end PoolLog

abbrev ConserveState := Threads osSig SqlCall PoolLog

abbrev ConserveAct := Threads.Act SqlCall ((o : Op) → Option (Resp o))

abbrev ConserveStep (C : Crypt) : ConserveState → ConserveAct → ConserveState → Prop :=
  Threads.Step (SqlCall.prog C) PoolLog.handler

def conserveInit : ConserveState := { shared := {} }

/-- The account of the pool: the counter is right, no `get_connection` has returned `NULL`, every call
has given back what it got but for the last one, which it alone holds, a call that has returned has
given back all, and without a call in progress every connection is there. -/
structure Conserved (s : ConserveState) : Prop where
  counted : s.shared.pool.available = s.shared.pool.connects.countP fun x => !x.inUse
  bound : s.shared.pool.available ≤ maxPoolSize
  found : ∀ i, (i, PoolOp.get none) ∉ s.shared.log
  one : ∀ i, ∃ held : Option Conn, s.shared.acquired i = s.shared.released i ++ held.toList
  apart : ∀ i j c, s.shared.Held i c → s.shared.Held j c → i = j
  returned : ∀ (i : Nat) call, s.threads[i]? = some ⟨call, .pure ()⟩ → s.shared.released i = s.shared.acquired i
  idle : (∀ t ∈ s.threads, t.rest = .pure ()) → s.shared.pool.available = maxPoolSize

/-! ### What every call keeps to -/

/-- One connection at a time; only the connection held is used and given back. -/
def holdProtocol : Prog.Protocol osSig (Option Conn) where
  ok
    | l, .getConnection => l = none
    | l, o => o.conn = none ∨ o.conn = l
  resp
    | _, .getConnection, r => r ≠ none
    | _, _, _ => True
  next
    | _, .getConnection, r => r
    | _, .releaseConnection _, _ => none
    | l, _, _ => l

/-- The call holds nothing before and after. -/
def HoldsOne {α : Type} (p : Os α) : Prop := p.wp holdProtocol (fun l _ => l = none) none

section Wp
variable {α β : Type} {post : Option Conn → α → Prop}

theorem hold_getConnection {k : Option Conn → Os α} :
    (Prog.op (S := osSig) .getConnection k).wp holdProtocol post none ↔
      ∀ c, (k (some c)).wp holdProtocol post (some c) := by
  simp only [Prog.wp_op, holdProtocol, true_and]
  refine ⟨fun h c => h (some c) (Option.some_ne_none c), fun h r hr => ?_⟩
  obtain ⟨c, rfl⟩ := Option.ne_none_iff_exists'.1 hr
  exact h c

theorem HoldsOne.bind {p : Os α} {k : α → Os β} {post : Option Conn → β → Prop} (h : HoldsOne p)
    (hk : ∀ a, (k a).wp holdProtocol post none) : (p.bind k).wp holdProtocol post none := by
  exact Prog.wp.bind h fun l a hl => hl ▸ hk a

end Wp

theorem Borrows.holdsOne {α : Type} {p : Os α} (h : Borrows p) : HoldsOne p := by
  have hstep : ∀ (l : Hold) (m : Option Conn) (o : Op), l.conn = m → borrowProtocol.ok l o → holdProtocol.ok m o ∧
      ∀ r, holdProtocol.resp m o r → borrowProtocol.resp l o r ∧ (borrowProtocol.next l o r).conn = holdProtocol.next m o r := by
    rintro l m o rfl hok
    have hconn : o ≠ .getConnection → holdProtocol.ok l.conn o := fun ho => by
      have heq : o.conn = none ∨ o.conn = l.conn := by
        cases hc : o.conn with
        | none => exact .inl rfl
        | some c => exact .inr (conn_eq_of_ok (conn_ok_of_borrow hok) hc).symm
      cases o <;> first | exact heq | exact absurd rfl ho
    cases o with
    | getConnection =>
      cases l with
      | idle =>
        refine ⟨rfl, fun r hr => ⟨hr, ?_⟩⟩
        obtain ⟨c, rfl⟩ := Option.ne_none_iff_exists'.1 hr
        rfl
      | auto c | manual c => cases hok
    | _ =>
      refine ⟨hconn nofun, fun r _ => ⟨trivial, ?_⟩⟩
      cases l <;> first | rfl | cases hok
  exact Prog.wp.simulate (R := fun l m => l.conn = m) hstep (fun _ _ _ hm hl => by rw [← hm, hl]; rfl) rfl h

theorem userRegister_holdsOne (C : Crypt) (rand account password : CStr) :
    HoldsOne (userRegister C rand account password) := by
  simp only [HoldsOne, userRegister, Os.getConnection_bind, Prog.bind_eq, hold_getConnection]
  intro c
  simp only [Os.autocommit_bind, Os.selectUser_bind, Prog.wp_op, holdProtocol]
  refine ⟨.inr rfl, fun _ _ => ⟨.inr rfl, fun rows _ => ?_⟩⟩
  split <;> simp [Op.conn]

theorem SqlCall.holdsOne (C : Crypt) (call : SqlCall) :
    (call.prog C).wp holdProtocol (fun l _ => l = none) none := by
  have hdrop : ∀ {α : Type} {p : Os α}, HoldsOne p →
      (p.bind fun _ => .pure ()).wp holdProtocol (fun l _ => l = none) none := fun h => h.bind fun _ => rfl
  cases call with
  | getUser name => exact hdrop (getUser_borrows name).holdsOne
  | userRegister rand account password => exact hdrop (userRegister_holdsOne C rand account password)
  | queryCd path u => exact hdrop (queryCd_borrows path u).holdsOne
  | queryLs path u => exact hdrop (queryLs_borrows path u).holdsOne
  | queryLl path u => exact hdrop (queryLl_borrows path u).holdsOne
  | queryMkdir path name u => exact hdrop (queryMkdir_borrows path name u).holdsOne
  | queryPuts path name hash u => exact hdrop (queryPuts_borrows path name hash u).holdsOne
  | queryGets path name u => exact hdrop (queryGets_borrows path name u).holdsOne
  | queryUpdate hash => exact hdrop (queryUpdate_borrows hash).holdsOne
  | queryRemove path name u => exact hdrop (queryRemove_borrows path name u).holdsOne

/-! ### The log -/

namespace PoolLog
variable {s : PoolLog} {m : Mysql} {i j : Nat} {c : Conn}

theorem acquired_get : (PoolLog.mk m (s.log ++ [(i, .get (some c))])).acquired j =
    s.acquired j ++ if i = j then [c] else [] := by
  simp only [acquired, List.filterMap_append]
  split <;> simp [*]

theorem released_get : (PoolLog.mk m (s.log ++ [(i, .get (some c))])).released j = s.released j := by
  simp [released, List.filterMap_append]

theorem acquired_release : (PoolLog.mk m (s.log ++ [(i, .release c)])).acquired j = s.acquired j := by
  simp [acquired, List.filterMap_append]

theorem released_release : (PoolLog.mk m (s.log ++ [(i, .release c)])).released j =
    s.released j ++ if i = j then [c] else [] := by
  simp only [released, List.filterMap_append]
  split <;> simp [*]

theorem handler_other {s' : PoolLog} {answer : (o : Op) → Option (Resp o)} {o : Op} {r : Resp o}
    (h : handler i answer o s = some (r, s')) (hget : o ≠ .getConnection)
    (hrelease : ∀ c, o ≠ .releaseConnection c) : s' = s := by
  have heq : handler i answer o s = if o.isSql then (answer o).map fun r => (r, s) else none := by
    cases o <;> first | rfl | exact absurd rfl hget | exact absurd rfl (hrelease _)
  rw [heq] at h
  obtain ⟨-, h⟩ := Option.ite_none_right_eq_some.1 h
  obtain ⟨r', -, hpair⟩ := Option.map_eq_some_iff.1 h
  exact (Prod.mk.inj hpair).2.symm

end PoolLog

/-! ### The invariant -/

/-- A call that holds a connection, as the pool invariant has it; nothing switches autocommit here. -/
def holdOf : Option Conn → Hold
  | none => .idle
  | some c => .auto c

/-- The pool agrees with what the calls hold, and what they hold is what the log says. -/
structure Accounted (s : PoolLog) (ls : List (Option Conn)) : Prop where
  pooled : Pooled s.pool (ls.map holdOf)
  length : s.pool.connects.length = maxPoolSize
  found : ∀ i, (i, PoolOp.get none) ∉ s.log
  log : ∀ i, s.acquired i = s.released i ++ (ls.getD i none).toList

section Accounted
variable {s s' : PoolLog} {ls : List (Option Conn)} {i j : Nat} {c : Conn}

theorem accounted_init : Accounted {} [] where
  pooled := pooled_init
  length := rfl
  found := nofun
  log _ := rfl

theorem Accounted.start (h : Accounted s ls) : Accounted s (ls ++ [none]) where
  pooled := by
    rw [List.map_append]
    exact h.pooled.start
  length := h.length
  found := h.found
  log i := by
    have hget : (ls ++ [none]).getD i none = ls.getD i none := by
      simp only [List.getD_eq_getElem?_getD]
      rcases Nat.lt_or_ge i ls.length with hlt | hge
      · rw [List.getElem?_append_left hlt]
      · rw [List.getElem?_eq_none hge, List.getElem?_append_right hge]
        cases i - ls.length <;> rfl
    rw [hget, h.log i]

theorem getElem?_holdOf (hi : ls[i]? = some (some c)) : (ls.map holdOf)[i]? = some (.auto c) := by
  rw [List.getElem?_map, hi]
  rfl

theorem getD_set_self {l : Option Conn} (hi : i < ls.length) : (ls.set i l).getD j none = if i = j then l else ls.getD j none := by
  simp only [List.getD_eq_getElem?_getD, List.getElem?_set]
  split <;> rfl

theorem Mysql.getConnection_length {m m' : Mysql} {r : Option Conn} (h : m.getConnection = some (r, m')) :
    m'.connects.length = m.connects.length := by
  unfold Mysql.getConnection at h
  split at h
  · cases h
  split at h <;>
  · obtain ⟨-, rfl⟩ := Prod.mk.inj (Option.some.inj h)
    simp [Mysql.setSlot]

theorem Mysql.releaseConnection_length {m : Mysql} : (m.releaseConnection c).connects.length = m.connects.length := by
  unfold Mysql.releaseConnection
  split <;> simp [Mysql.setSlot]

theorem Accounted.get (h : Accounted s ls) (hi : ls[i]? = some none) {r : Option Conn} {m : Mysql}
    (hH : s.pool.getConnection = some (r, m)) :
    r ≠ none ∧ Accounted ⟨m, s.log ++ [(i, .get r)]⟩ (ls.set i r) := by
  have hlt : i < ls.length := (List.getElem?_eq_some_iff.1 hi).1
  have hidle : (ls.map holdOf)[i]? = some .idle := by rw [List.getElem?_map, hi]; rfl
  obtain ⟨c, rfl, hpooled⟩ := h.pooled.take hidle hH
  refine ⟨nofun, ⟨?_, (Mysql.getConnection_length hH).trans h.length, fun j hj => ?_, fun j => ?_⟩⟩
  · rw [List.map_set]
    exact hpooled
  · rcases List.mem_append.1 hj with hj | hj
    · exact h.found j hj
    · cases List.mem_singleton.1 hj
  · rw [PoolLog.acquired_get, PoolLog.released_get, getD_set_self hlt, h.log j]
    split
    · next heq =>
      subst heq
      have hnone : ls.getD i none = none := by rw [List.getD_eq_getElem?_getD, hi]; rfl
      rw [hnone]
      simp
    · rw [List.append_nil]

theorem Accounted.release (h : Accounted s ls) (hi : ls[i]? = some (some c)) :
    Accounted ⟨s.pool.releaseConnection c, s.log ++ [(i, .release c)]⟩ (ls.set i none) := by
  have hlt : i < ls.length := (List.getElem?_eq_some_iff.1 hi).1
  have hstep : Mysql.handler i .stored (.releaseConnection c) s.pool = some ((), s.pool.releaseConnection c) := rfl
  have hok : connProtocol.ok (.auto c) (.releaseConnection c) := rfl
  have hpooled := (h.pooled.stepAuto (getElem?_holdOf hi) hok hstep).2
  refine ⟨?_, Mysql.releaseConnection_length.trans h.length, fun j hj => ?_, fun j => ?_⟩
  · rw [List.map_set]
    exact hpooled
  · rcases List.mem_append.1 hj with hj | hj
    · exact h.found j hj
    · cases List.mem_singleton.1 hj
  · rw [PoolLog.acquired_release, PoolLog.released_release, getD_set_self hlt, h.log j]
    split
    · next heq =>
      subst heq
      have hsome : ls.getD i none = some c := by rw [List.getD_eq_getElem?_getD, hi]; rfl
      rw [hsome]
      simp
    · rw [List.append_nil]

theorem Accounted.step (h : Accounted s ls) {l : Option Conn} (hi : ls[i]? = some l) {answer : (o : Op) → Option (Resp o)}
    {o : Op} {r : Resp o} (hok : holdProtocol.ok l o) (hH : PoolLog.handler i answer o s = some (r, s')) :
    holdProtocol.resp l o r ∧ Accounted s' (ls.set i (holdProtocol.next l o r)) := by
  cases o with
  | getConnection =>
    obtain rfl : l = none := hok
    obtain ⟨⟨r', m⟩, hget, heq⟩ := Option.map_eq_some_iff.1 hH
    obtain ⟨rfl, rfl⟩ := Prod.mk.inj heq
    exact h.get hi hget
  | releaseConnection c =>
    obtain rfl : some c = l := hok.resolve_left nofun
    obtain ⟨-, rfl⟩ := Prod.mk.inj (Option.some.inj hH)
    exact ⟨trivial, h.release hi⟩
  | _ =>
    obtain rfl := PoolLog.handler_other hH nofun nofun
    exact ⟨trivial, (Threads.set_self hi).symm ▸ h⟩

theorem Accounted.held (h : Accounted s ls) (hheld : s.Held i c) : ls[i]? = some (some c) := by
  rw [PoolLog.Held, h.log i, List.count_append] at hheld
  have hmem : c ∈ (ls.getD i none).toList := List.count_pos_iff.1 (by omega)
  rw [List.getD_eq_getElem?_getD] at hmem
  cases hi : ls[i]? with
  | none => simp [hi] at hmem
  | some l => simpa [hi] using hmem

end Accounted

/-! ### Runs -/

abbrev ConserveInv : ConserveState → Prop := Threads.Guided holdProtocol (fun l _ => l = none) Accounted

theorem ConserveInv.conserved {s : ConserveState} (h : ConserveInv s) : Conserved s := by
  obtain ⟨ls, hls, hall, hacc⟩ := h
  refine ⟨hacc.pooled.available, ?_, hacc.found, fun i => ⟨_, hacc.log i⟩, fun i j c hi hj => ?_,
    fun i call hi => ?_, fun hidle => ?_⟩
  · rw [hacc.pooled.available]
    exact List.countP_le_length.trans_eq hacc.length
  · exact hacc.pooled.single i j _ _ c (getElem?_holdOf (hacc.held hi)) (getElem?_holdOf (hacc.held hj)) rfl rfl
  · rw [hls, List.getElem?_map] at hi
    obtain ⟨⟨t, l⟩, hil, ht⟩ := Option.map_eq_some_iff.1 hi
    obtain rfl : t = ⟨call, .pure ()⟩ := ht
    obtain rfl : l = none := hall _ (List.mem_of_getElem? hil)
    have hnone : (ls.map Prod.snd).getD i none = none := by
      rw [List.getD_eq_getElem?_getD, List.getElem?_map, hil]
      rfl
    rw [hacc.log i, hnone]
    simp
  · -- a connection in use belongs to a call in progress
    rw [hacc.pooled.available, ← hacc.length, List.countP_eq_length]
    intro x hx
    obtain ⟨c, hc⟩ := List.mem_iff_getElem?.1 hx
    cases hu : x.inUse with
    | false => rfl
    | true =>
      obtain ⟨i, l, hi, hconn⟩ := hacc.pooled.owned c x hc hu
      rw [List.getElem?_map, List.getElem?_map] at hi
      obtain ⟨l', hl', rfl⟩ := Option.map_eq_some_iff.1 hi
      obtain ⟨⟨t, k⟩, hik, rfl⟩ := Option.map_eq_some_iff.1 hl'
      have ht : t ∈ s.threads := by
        rw [hls]
        exact List.mem_map_of_mem (List.mem_of_getElem? hik)
      have hwp := hall _ (List.mem_of_getElem? hik)
      rw [hidle t ht] at hwp
      obtain rfl : k = none := hwp
      cases hconn

theorem ConserveInv.step {C : Crypt} {s t : ConserveState} {a : ConserveAct} (h : ConserveInv s)
    (hst : ConserveStep C s a t) : ConserveInv t := by
  cases a with
  | start call => exact h.start hst (call.holdsOne C) fun ls hacc => hacc.start
  | exec i answer => exact h.exec hst fun ls call o k l r sh hacc hl hi hok hH => hacc.step hl hok hH

/-- Whatever the calls are and the database answers, the pool loses no connection and gives none
twice. -/
theorem conserved_of_reaches (C : Crypt) (s : ConserveState) (hs : Reaches (ConserveStep C) conserveInit s) :
    Conserved s :=
  ConserveInv.conserved (hs.inv (I := ConserveInv) (fun _ _ _ h hst => h.step hst) (Threads.guided_init accounted_init))

/-- The accounts of that name are `users`, and every other statement goes through. -/
def withAccounts (users : List User) : (o : Op) → Option (Resp o)
  | .selectUser .. => some users
  | .exec .. => some 1
  | .autocommit .. | .commit _ => some ()
  | _ => none

/-- Two threads register one account. The second one looks when the first has been committed, finds it
and returns early. -/
def registeredTwice : List ConserveAct :=
  [.start (.userRegister [] ['a'] ['p']), .start (.userRegister [] ['a'] ['q']), .exec 0 (withAccounts []),
    .exec 1 (withAccounts []), .exec 1 (withAccounts [])] ++ List.replicate 6 (.exec 0 (withAccounts [])) ++
    List.replicate 2 (.exec 1 (withAccounts [⟨1, ['a'], ['p']⟩])) ++ List.replicate 2 (.exec 0 (withAccounts []))

theorem conserved_of_reaches_two :
    let s := final conserveInit (trace (Threads.step (SqlCall.prog .plain) PoolLog.handler) conserveInit registeredTwice)
    Conserved s ∧ s.threads.map (·.rest.head) = [none, none] ∧
      s.shared.log = [(0, .get (some 0)), (1, .get (some 1)), (1, .release 1), (0, .release 0)] :=
  ⟨conserved_of_reaches .plain _ (.of_trace _ conserveInit _), by decide +kernel, by decide +kernel⟩

end Netdisk

import Netdisk.DealSql
import Netdisk.Lib.Threads
import Mathlib.Data.List.Induction

/-!
# The connection pool (`database.c`)

The database as the threads of the server share it. A statement that runs on a connection with
autocommit off stays pending there: the connection itself sees it, the others do not until
`mysql_commit`. Every change carries the number of the call that made it.
-/

namespace Netdisk

/-- `Connection`, with what the database keeps for it. -/
structure Slot where
  inUse : Bool := false
  autocommit : Bool := true
  pending : List (Nat × Db.Change) := []
deriving DecidableEq

/-- `MAX_POOL_SIZE` -/
def maxPoolSize : Nat := 4

/-- The pool and the tables behind it: the tables at the start, in `base`, and the changes since
then, `published` those that every connection sees, in their order, and `executed` those of all
statements. The `auto_increment` values in `base` are the current ones, which no transaction holds
back. -/
structure Mysql where
  base : Db := {}
  published : List (Nat × Db.Change) := []
  executed : List (Nat × Db.Change) := []
  connects : List Slot := List.replicate maxPoolSize {}
  available : Nat := maxPoolSize
deriving DecidableEq

namespace Mysql

def replay (db : Db) (changes : List (Nat × Db.Change)) : Db := changes.foldl (fun db x => db.apply x.2) db

variable (m : Mysql)

def slot (c : Conn) : Slot := m.connects.getD c {}

/-- The tables as everyone sees them. -/
def committed : Db := replay m.base m.published

/-- The tables as the connection sees them. -/
def view (c : Conn) : Db := replay m.committed (m.slot c).pending

def setSlot (c : Conn) (x : Slot) : Mysql := { m with connects := m.connects.set c x }

/-- `get_connection`, once the lock is taken; it waits while nothing is available. -/
def getConnection : Option (Option Conn × Mysql) :=
  if m.available = 0 then none
  else match m.connects.findIdx? fun x => !x.inUse with
    | some c => some (some c, { m.setSlot c { m.slot c with inUse := true } with available := m.available - 1 })
    | none => some (none, m)

/-- `release_connection`. -/
def releaseConnection (c : Conn) : Mysql :=
  if c < m.connects.length then
    { m.setSlot c { m.slot c with inUse := false } with available := m.available + 1 }
  else m

/-- `mysql_commit`. -/
def commit (c : Conn) : Mysql :=
  { m.setSlot c { m.slot c with pending := [] } with published := m.published ++ (m.slot c).pending }

/-- `mysql_autocommit`; switching it on ends the transaction. -/
def autocommit (c : Conn) (mode : Bool) : Mysql :=
  let m := if mode then m.commit c else m
  m.setSlot c { m.slot c with autocommit := mode }

/-- A statement of the call `i`. -/
def exec (i : Nat) (c : Conn) (st : Db.Stmt) : Mysql :=
  let x := (i, (m.base.change st).1)
  let m := { m with base := m.base.draw st, executed := m.executed ++ [x] }
  if (m.slot c).autocommit then { m with published := m.published ++ [x] }
  else m.setSlot c { m.slot c with pending := (m.slot c).pending ++ [x] }

/-- What the operations of the call `i` do; a select delivers its rows in the order `ord`. -/
def handler (i : Nat) (ord : RowOrder) : (o : Op) → Mysql → Option (Resp o × Mysql)
  | .getConnection, m => m.getConnection
  | .releaseConnection c, m => some ((), m.releaseConnection c)
  | .autocommit c mode, m => some ((), m.autocommit c mode)
  | .commit c, m => some ((), m.commit c)
  | .selectUser c name, m => some ((m.view c).selectUser ord name, m)
  | .selectUserFile c q, m => some ((m.view c).selectUserFile ord q, m)
  | .selectFile c q, m => some ((m.view c).selectFile ord q, m)
  | .exec c st, m => some ((m.base.change st).2, m.exec i c st)
  | _, _ => none

variable {m}

theorem isSql_of_handler {i : Nat} {ord : RowOrder} {o : Op} {x : Resp o × Mysql}
    (h : handler i ord o m = some x) : o.isSql = true := by
  cases o <;> first | rfl | cases h

/-- The rows of `file` follow from those at the start and the changes alone. -/
theorem replay_file {db db' : Db} (h : db'.file = db.file) (changes : List (Nat × Db.Change)) :
    (replay db' changes).file = (replay db changes).file := by
  induction changes generalizing db db' with
  | nil => exact h
  | cons x changes ih =>
    exact ih (Db.apply_file h x.2)

theorem replay_addUserFile {db : Db} {changes : List (Nat × Db.Change)}
    (h : ∀ ch ∈ changes, ∃ r, ch.2 = .addUserFile r) : (replay db changes).file = db.file := by
  induction changes generalizing db with
  | nil => rfl
  | cons ch changes ih =>
    obtain ⟨⟨r, hr⟩, hrest⟩ := List.forall_mem_cons.1 h
    refine (ih hrest).trans ?_
    show (db.apply ch.2).file = db.file
    rw [hr]
    rfl

theorem complete_replay {db : Db} {h : CStr} {changes : List (Nat × Db.Change)}
    (hc : ∃ f ∈ db.file, f.hash = some h ∧ f.complete = true) :
    ∃ f ∈ (replay db changes).file, f.hash = some h ∧ f.complete = true := by
  induction changes generalizing db with
  | nil => exact hc
  | cons x changes ih => exact ih (Db.complete_apply hc x.2)

theorem replay_append (db : Db) (xs ys : List (Nat × Db.Change)) :
    replay db (xs ++ ys) = replay (replay db xs) ys := List.foldl_append

/-- A step of the call `i` through `o` makes the change visible to every connection: it ends the
transaction that holds the change, or its statement takes effect at once. -/
def Publishes (m : Mysql) (i : Nat) (o : Op) (ch : Nat × Db.Change) : Prop :=
  (∃ c x, (o = .commit c ∨ o = .autocommit c true) ∧ m.connects[c]? = some x ∧ ch ∈ x.pending) ∨
    ∃ c st, o = .exec c st ∧ ch = (i, (m.base.change st).1)

/-- What a step leaves pending was so before, or is the change of its own statement. -/
def Retains (m m' : Mysql) (i : Nat) (o : Op) : Prop :=
  ∀ (c : Conn) (y : Slot) ch, m'.connects[c]? = some y → ch ∈ y.pending →
    (∃ x, m.connects[c]? = some x ∧ ch ∈ x.pending) ∨ ∃ st, o = .exec c st ∧ ch = (i, (m.base.change st).1)

theorem getElem?_setSlot {c c' : Conn} {x y : Slot} (h : (m.setSlot c x).connects[c']? = some y) :
    c' = c ∧ y = x ∧ c < m.connects.length ∨ m.connects[c']? = some y := by
  rw [setSlot, List.getElem?_set] at h
  split at h
  · next heq =>
    subst heq
    split at h
    · next hlt => exact .inl ⟨rfl, (Option.some.inj h).symm, hlt⟩
    · cases h
  · exact .inr h

theorem slot_of_lt {c : Conn} (h : c < m.connects.length) : m.connects[c]? = some (m.slot c) := by
  rw [slot, List.getD_eq_getElem?_getD, List.getElem?_eq_getElem h]
  rfl

/-- Setting a slot to one with no more pending than before. -/
theorem retains_setSlot {c : Conn} {x : Slot} {i : Nat} {o : Op} (hx : x.pending ⊆ (m.slot c).pending) :
    Retains m (m.setSlot c x) i o := by
  intro c' y ch hy hch
  rcases getElem?_setSlot hy with ⟨rfl, rfl, hlt⟩ | hy
  · exact .inl ⟨_, slot_of_lt hlt, hx hch⟩
  · exact .inl ⟨y, hy, hch⟩

theorem mem_slot_pending {c : Conn} {ch : Nat × Db.Change} (h : ch ∈ (m.slot c).pending) :
    ∃ x, m.connects[c]? = some x ∧ ch ∈ x.pending := by
  rcases Nat.lt_or_ge c m.connects.length with hlt | hge
  · exact ⟨_, slot_of_lt hlt, h⟩
  · rw [slot, List.getD_eq_getElem?_getD, List.getElem?_eq_none hge] at h
    cases h

/-- What a step changes: of the tables at the start only the counters, the changes that everyone sees at
their end. -/
theorem handler_effect {i : Nat} {ord : RowOrder} {o : Op} {r : Resp o} {m' : Mysql}
    (h : handler i ord o m = some (r, m')) :
    (m'.base = m.base ∨ ∃ c st, o = .exec c st ∧ m'.base = m.base.draw st) ∧ (∃ new, m'.published = m.published ++ new ∧ ∀ ch ∈ new, m.Publishes i o ch) ∧
      Retains m m' i o := by
  have hsame : ∃ new, m.published = m.published ++ new ∧ ∀ ch ∈ new, m.Publishes i o ch :=
    ⟨[], (List.append_nil _).symm, nofun⟩
  cases o with
  | getConnection =>
    change m.getConnection = some (r, m') at h
    unfold getConnection at h
    split at h
    · cases h
    split at h
    · obtain ⟨-, rfl⟩ := Prod.mk.inj (Option.some.inj h)
      exact ⟨.inl rfl, hsame, retains_setSlot (List.Subset.refl _)⟩
    · obtain ⟨-, rfl⟩ := Prod.mk.inj (Option.some.inj h)
      exact ⟨.inl rfl, hsame, fun c y ch hy hch => .inl ⟨y, hy, hch⟩⟩
  | releaseConnection c =>
    obtain ⟨-, rfl⟩ := Prod.mk.inj (Option.some.inj h)
    unfold releaseConnection
    split
    · exact ⟨.inl rfl, hsame, retains_setSlot (List.Subset.refl _)⟩
    · exact ⟨.inl rfl, hsame, fun c y ch hy hch => .inl ⟨y, hy, hch⟩⟩
  | autocommit c mode =>
    obtain ⟨-, rfl⟩ := Prod.mk.inj (Option.some.inj h)
    cases mode with
    | false => exact ⟨.inl rfl, hsame, retains_setSlot (List.Subset.refl _)⟩
    | true =>
      refine ⟨.inl rfl, ⟨(m.slot c).pending, rfl, fun ch hch => ?_⟩, fun c' y ch hy hch => ?_⟩
      · obtain ⟨x, hx, hmem⟩ := mem_slot_pending hch
        exact .inl ⟨c, x, .inr rfl, hx, hmem⟩
      · rcases getElem?_setSlot hy with ⟨rfl, rfl, hlt⟩ | hy
        · have hnil : ((m.commit c').slot c').pending = [] := by
            have hlt' : c' < m.connects.length := by simpa [commit, setSlot] using hlt
            simp [slot, commit, setSlot, hlt']
          change ch ∈ ((m.commit c').slot c').pending at hch
          rw [hnil] at hch
          cases hch
        · exact retains_setSlot (c := c) (x := { m.slot c with pending := [] }) (List.nil_subset _) c' y ch hy hch
  | commit c =>
    obtain ⟨-, rfl⟩ := Prod.mk.inj (Option.some.inj h)
    refine ⟨.inl rfl, ⟨(m.slot c).pending, rfl, fun ch hch => ?_⟩, ?_⟩
    · obtain ⟨x, hx, hmem⟩ := mem_slot_pending hch
      exact .inl ⟨c, x, .inl rfl, hx, hmem⟩
    · exact retains_setSlot (c := c) (x := { m.slot c with pending := [] }) (List.nil_subset _)
  | exec c st =>
    obtain ⟨-, rfl⟩ := Prod.mk.inj (Option.some.inj h)
    unfold exec
    dsimp only
    split
    · exact ⟨.inr ⟨c, st, rfl, rfl⟩, ⟨[_], rfl, fun ch hch => .inr ⟨c, st, rfl, List.mem_singleton.1 hch⟩⟩,
        fun c y ch hy hch => .inl ⟨y, hy, hch⟩⟩
    · refine ⟨.inr ⟨c, st, rfl, rfl⟩, hsame, fun c' y ch hy hch => ?_⟩
      rcases getElem?_setSlot hy with ⟨rfl, rfl, hlt⟩ | hy
      · rcases List.mem_append.1 hch with hch | hch
        · exact .inl ⟨_, slot_of_lt hlt, hch⟩
        · exact .inr ⟨st, rfl, List.mem_singleton.1 hch⟩
      · exact .inl ⟨y, hy, hch⟩
  | selectUser c name =>
    obtain ⟨-, rfl⟩ := Prod.mk.inj (Option.some.inj h)
    exact ⟨.inl rfl, hsame, fun c y ch hy hch => .inl ⟨y, hy, hch⟩⟩
  | selectUserFile c q =>
    obtain ⟨-, rfl⟩ := Prod.mk.inj (Option.some.inj h)
    exact ⟨.inl rfl, hsame, fun c y ch hy hch => .inl ⟨y, hy, hch⟩⟩
  | selectFile c q =>
    obtain ⟨-, rfl⟩ := Prod.mk.inj (Option.some.inj h)
    exact ⟨.inl rfl, hsame, fun c y ch hy hch => .inl ⟨y, hy, hch⟩⟩
  | _ => cases h

theorem handler_base {i : Nat} {ord : RowOrder} {o : Op} {r : Resp o} {m' : Mysql}
    (h : handler i ord o m = some (r, m')) : m'.base.user = m.base.user ∧ m'.base.file = m.base.file ∧
      m'.base.userFile = m.base.userFile := by
  rcases (handler_effect h).1 with heq | ⟨c, st, -, heq⟩
  · rw [heq]
    exact ⟨rfl, rfl, rfl⟩
  · rw [heq]
    cases st <;> exact ⟨rfl, rfl, rfl⟩

theorem handler_executed {i : Nat} {ord : RowOrder} {o : Op} {r : Resp o} {m' : Mysql}
    (h : handler i ord o m = some (r, m')) :
    m'.executed = m.executed ∨ ∃ c st, o = .exec c st ∧ m'.executed = m.executed ++ [(i, (m.base.change st).1)] := by
  cases o with
  | getConnection =>
    change m.getConnection = some (r, m') at h
    unfold getConnection at h
    split at h
    · cases h
    split at h <;>
    · obtain ⟨-, rfl⟩ := Prod.mk.inj (Option.some.inj h)
      exact .inl rfl
  | releaseConnection c =>
    obtain ⟨-, rfl⟩ := Prod.mk.inj (Option.some.inj h)
    unfold releaseConnection
    split <;> exact .inl rfl
  | autocommit c mode =>
    obtain ⟨-, rfl⟩ := Prod.mk.inj (Option.some.inj h)
    cases mode <;> exact .inl rfl
  | exec c st =>
    obtain ⟨-, rfl⟩ := Prod.mk.inj (Option.some.inj h)
    refine .inr ⟨c, st, rfl, ?_⟩
    unfold exec
    dsimp only
    split <;> rfl
  | commit | selectUser | selectUserFile | selectFile =>
    obtain ⟨-, rfl⟩ := Prod.mk.inj (Option.some.inj h)
    exact .inl rfl
  | _ => cases h

/-- Whatever is visible or pending was executed. -/
structure Logged (m : Mysql) : Prop where
  published : ∀ ch ∈ m.published, ch ∈ m.executed
  pending : ∀ (c : Conn) x, m.connects[c]? = some x → ∀ ch ∈ x.pending, ch ∈ m.executed

theorem Logged.step {i : Nat} {ord : RowOrder} {o : Op} {r : Resp o} {m' : Mysql} (hm : m.Logged)
    (h : handler i ord o m = some (r, m')) : m'.Logged := by
  obtain ⟨-, ⟨new, hnew, hpub⟩, hret⟩ := handler_effect h
  have hgrow : ∀ ch ∈ m.executed, ch ∈ m'.executed := fun ch hch => by
    rcases handler_executed h with heq | ⟨c, st, -, heq⟩
    · rw [heq]
      exact hch
    · rw [heq]
      exact List.mem_append_left _ hch
  have hown : ∀ c st, o = .exec c st → (i, (m.base.change st).1) ∈ m'.executed := fun c st ho => by
    rcases handler_executed h with heq | ⟨c', st', ho', heq⟩
    · subst ho
      have hlen : (m.exec i c st).executed = m.executed ++ [(i, (m.base.change st).1)] := by
        unfold exec
        dsimp only
        split <;> rfl
      obtain ⟨-, rfl⟩ := Prod.mk.inj (Option.some.inj h)
      rw [hlen]
      exact List.mem_append_right _ (List.mem_singleton_self _)
    · cases ho.symm.trans ho'
      rw [heq]
      exact List.mem_append_right _ (List.mem_singleton_self _)
  refine ⟨fun ch hch => ?_, fun c y hy ch hch => ?_⟩
  · rw [hnew] at hch
    rcases List.mem_append.1 hch with hch | hch
    · exact hgrow ch (hm.published ch hch)
    · rcases hpub ch hch with ⟨c, x, -, hx, hmem⟩ | ⟨c, st, ho, rfl⟩
      · exact hgrow ch (hm.pending c x hx ch hmem)
      · exact hown c st ho
  · rcases hret c y ch hy hch with ⟨x, hx, hmem⟩ | ⟨st, ho, rfl⟩
    · exact hgrow ch (hm.pending c x hx ch hmem)
    · exact hown c st ho

/-- A complete row was so at the start, came in complete, or was marked. -/
theorem complete_origin {db : Db} {changes : List (Nat × Db.Change)} {f : File} {h : CStr}
    (hf : f ∈ (replay db changes).file) (hfh : f.hash = some h) (hfc : f.complete = true) :
    (∃ g ∈ db.file, g.hash = some h) ∨ ∃ x ∈ changes, x.2 = .complete h ∨
      ∃ g : File, x.2 = .addFile g ∧ g.complete = true := by
  induction changes using List.reverseRecOn generalizing f with
  | nil => exact .inl ⟨f, hf, hfh⟩
  | append_singleton changes x ih =>
    rw [replay_append] at hf
    have hlast : x ∈ changes ++ [x] := List.mem_append_right _ (List.mem_singleton_self x)
    have hold : ∀ g ∈ (replay db changes).file, g.hash = some h → g.complete = true →
        (∃ g ∈ db.file, g.hash = some h) ∨ ∃ x' ∈ changes ++ [x], x'.2 = .complete h ∨
          ∃ g : File, x'.2 = .addFile g ∧ g.complete = true := fun g hg hgh hgc =>
      (ih hg hgh hgc).imp_right fun ⟨x', hx', hch⟩ => ⟨x', List.mem_append_left _ hx', hch⟩
    change f ∈ ((replay db changes).apply x.2).file at hf
    cases hx : x.2 with
    | addFile g =>
      rw [hx] at hf
      rcases List.mem_append.1 hf with hf | hf
      · exact hold f hf hfh hfc
      · obtain rfl := List.mem_singleton.1 hf
        exact .inr ⟨x, hlast, .inr ⟨f, hx, hfc⟩⟩
    | complete e =>
      rw [hx] at hf
      obtain ⟨g, hg, rfl⟩ := List.mem_map.1 hf
      by_cases hge : g.hash = some e
      · rw [if_pos hge] at hfh
        obtain rfl : e = h := Option.some.inj (hge.symm.trans hfh)
        exact .inr ⟨x, hlast, .inl hx⟩
      · rw [if_neg hge] at hfh hfc
        exact hold g hg hfh hfc
    | addUser | addUserFile | unlink =>
      rw [hx] at hf
      exact hold f hf hfh hfc

end Mysql

end Netdisk

import Netdisk.TaskQueueSpec
import Netdisk.Lib.Runs

/-!
# Runs of the task queue

The queue under any sequence of `enqueue` and `dequeue`, with the tasks it has accepted and handed
out. `refines_iff_sparesHead`: it is a faithful list of its tasks along a run exactly as long as no
`dequeue` finds what it wants at the head while something waits behind it.
-/

namespace Netdisk
open Linked

/-! ### Runs -/

/-- The queue with the tasks it has accepted and handed out so far. `faulted` is set by a step that
reads a freed node (or `NULL`, or the dead `temp`). -/
structure QueueRun where
  queue : TaskQueue
  accepted : List Task := []
  returned : List Task := []
  faulted : Bool := false
deriving DecidableEq

inductive QueueAct
  | enqueue (netfd : Int) (train : TransFile)
  | dequeue (short : Bool)
deriving DecidableEq

namespace QueueRun
open Runs TaskQueue

/-- The queue that `init_thread_pool` leaves: nothing in it, room for `maxSize` tasks. -/
def init (maxSize : Int) : QueueRun := { queue := { maxSize := maxSize } }

def act (s : QueueRun) : QueueAct → Option QueueRun
  | .enqueue netfd train =>
    if s.faulted then none
    else match s.queue.enqueue netfd train with
      | none => some { s with faulted := true }
      | some (ret, q) => some { s with
          queue := q
          accepted := if ret = 0 then s.accepted ++ [⟨netfd, train⟩] else s.accepted }
  | .dequeue short =>
    if s.faulted || s.queue.waits short then none
    else match s.queue.dequeue short with
      | none => some { s with faulted := true }
      | some (ret, train, q) => some { s with
          queue := q
          returned := s.returned ++ (train.map fun t => ⟨ret, t⟩).toList }

abbrev Step (s : QueueRun) (a : QueueAct) (t : QueueRun) : Prop := s.act a = some t

/-- What the queue owes its users: a chain of live nodes from `head` to `tail`, as long as
`queue_size` says, with the right count of short tasks, and no task lost or handed out twice. -/
def Refines (s : QueueRun) : Prop :=
  s.faulted = false ∧ ∃ l : List (Ptr × Node),
    s.queue.queueSize = l.length ∧
    (0 < s.queue.queueSize → Chain s.queue.heap s.queue.head l ∧ s.queue.tail = lastPtr .null l) ∧
    s.queue.shortCommandSize = ((tasks l).countP fun t => !t.train.isLong) ∧
    (s.returned ++ tasks l).Perm s.accepted

/-- No `dequeue` takes the task at the head by the search (a short task for the short thread, a
long one for another thread) while more than one task waits. -/
def SparesHead (s : QueueRun) : QueueAct → Prop
  | .enqueue _ _ => True
  | .dequeue short => s.queue.queueSize ≤ 1 ∨
      ∀ n, load s.queue.heap s.queue.head = some n → wanted short n.train = false

/-- `Refines` with the distinctness of the addresses, which makes it inductive. -/
def Inv (s : QueueRun) : Prop :=
  s.faulted = false ∧ ∃ l, s.queue.Holds l ∧ (s.returned ++ tasks l).Perm s.accepted

variable {s t : QueueRun}

theorem Inv.refines (h : s.Inv) : s.Refines := by
  obtain ⟨hf, l, hl, hperm⟩ := h
  refine ⟨hf, l, hl.size, fun hpos => ?_, hl.short, hperm⟩
  have hne : l ≠ [] := by rintro rfl; simp [hl.size] at hpos
  exact ⟨hl.chain hne, hl.tail hne⟩

theorem init_inv (maxSize : Int) : (init maxSize).Inv :=
  ⟨rfl, [], ⟨rfl, rfl, by simp, by simp, by simp⟩, .refl _⟩

theorem act_enqueue {netfd ret : Int} {train : TransFile} {q : TaskQueue} (hf : s.faulted = false)
    (heq : s.queue.enqueue netfd train = some (ret, q)) :
    s.act (.enqueue netfd train) = some { s with
      queue := q
      accepted := if ret = 0 then s.accepted ++ [⟨netfd, train⟩] else s.accepted } := by
  simp [act, hf, heq]

theorem act_dequeue {short : Bool} {ret : Int} {train : TransFile} {q : TaskQueue}
    (hf : s.faulted = false) (hw : s.queue.waits short = false)
    (heq : s.queue.dequeue short = some (ret, some train, q)) :
    s.act (.dequeue short) = some { s with queue := q, returned := s.returned ++ [⟨ret, train⟩] } := by
  simp [act, hf, hw, heq]

theorem Inv.enqueue {netfd : Int} {train : TransFile} (h : s.Inv)
    (hst : Step s (.enqueue netfd train) t) : t.Inv := by
  obtain ⟨hf, l, hl, hperm⟩ := h
  by_cases hmax : s.queue.queueSize = s.queue.maxSize
  · obtain rfl := Option.some.inj ((act_enqueue hf (enqueue_full hmax netfd train)).symm.trans hst)
    exact ⟨hf, l, hl, hperm⟩
  · obtain ⟨q', l', heq, hl', htasks, -⟩ := hl.enqueue_room hmax netfd train
    obtain rfl := Option.some.inj ((act_enqueue hf heq).symm.trans hst)
    refine ⟨hf, l', hl', ?_⟩
    rw [htasks, ← List.append_assoc]
    exact hperm.append_right _

theorem dequeue_enabled {short : Bool} (hst : Step s (.dequeue short) t) :
    s.faulted = false ∧ s.queue.waits short = false := by
  simp only [Step, act] at hst
  split at hst
  · cases hst
  · next h => simpa using h

/-- After a good call of `dequeue` the invariant holds with the shorter list. -/
theorem Inv.handOut {short : Bool} {n : Node} {q' : TaskQueue} {l l' : List (Ptr × Node)}
    (hst : Step s (.dequeue short) t) (hdeq : s.queue.dequeue short = some (n.netfd, some n.train, q'))
    (hl' : q'.Holds l') (htasks : (n.task :: tasks l').Perm (tasks l))
    (hperm : (s.returned ++ tasks l).Perm s.accepted) : t.Inv := by
  obtain ⟨hf, hw⟩ := dequeue_enabled hst
  obtain rfl := Option.some.inj ((act_dequeue hf hw hdeq).symm.trans hst)
  refine ⟨hf, l', hl', ?_⟩
  have hmove : (s.returned ++ [n.task] ++ tasks l').Perm (s.returned ++ tasks l) := by
    rw [List.append_assoc]
    exact htasks.append_left _
  exact hmove.trans hperm

/-- A queue of at least one task whose head pointer is dead is not what `Refines` asks for. -/
theorem not_refines_of_dead (hpos : 0 < s.queue.queueSize) (hdead : load s.queue.heap s.queue.head = none) :
    ¬ s.Refines := by
  rintro ⟨-, l, hsize, hchain, -, -⟩
  have hne : l ≠ [] := by rintro rfl; simp [hsize] at hpos
  obtain ⟨⟨a, m⟩, l', rfl⟩ := List.exists_cons_of_ne_nil hne
  have hlive := (hchain hpos).1.head_read
  rw [hdead] at hlive
  cases hlive

/-- The head is not of the caller's kind: some task behind it is taken, or else the head by a
thread other than the short one. -/
theorem Inv.dequeue_spared {short : Bool} {p : Ptr} {n : Node} {l : List (Ptr × Node)}
    (hl : s.queue.Holds ((p, n) :: l)) (hperm : (s.returned ++ tasks ((p, n) :: l)).Perm s.accepted)
    (hn : wanted short n.train = false) (hst : Step s (.dequeue short) t) : t.Inv := by
  cases hfind : l.find? fun x => wanted short x.2.train with
  | some x =>
    obtain ⟨hx, l₁, l₂, rfl, hl₁⟩ := List.find?_eq_some_iff_append.1 hfind
    obtain ⟨q', l', hdeq, hl', htasks, -⟩ := Holds.dequeue_behind ((p, n) :: l₁) hl (by simp)
      (List.forall_mem_cons.2 ⟨hn, by simpa using hl₁⟩) hx
    refine Inv.handOut hst hdeq hl' ?_ hperm
    rw [htasks]
    have hmid : tasks (((p, n) :: l₁) ++ x :: l₂) = tasks ((p, n) :: l₁) ++ x.2.task :: tasks l₂ := by simp [tasks]
    have happ : tasks (((p, n) :: l₁) ++ l₂) = tasks ((p, n) :: l₁) ++ tasks l₂ := by simp [tasks]
    rw [← List.cons_append, hmid, happ]
    exact List.perm_middle.symm
  | none =>
    have hnone : ∀ x ∈ (p, n) :: l, wanted short x.2.train = false :=
      List.forall_mem_cons.2 ⟨hn, by simpa using hfind⟩
    cases short with
    | false =>
      obtain ⟨q', hdeq, hl', -⟩ := hl.dequeue_head hnone
      exact Inv.handOut hst hdeq hl' (.refl _) hperm
    | true =>
      -- the short thread does not get here: `short_command_size` would be 0
      have hzero : s.queue.shortCommandSize = 0 := by
        rw [hl.short, List.countP_eq_zero.2 ?_]
        · rfl
        · intro k hk
          obtain ⟨x, hx, rfl⟩ := List.mem_map.1 hk
          simpa [wanted, Node.task] using hnone x hx
      have hw := (dequeue_enabled hst).2
      simp [waits, hzero] at hw

/-- One call of `dequeue` keeps the invariant if it spares the head, and breaks the queue if not. -/
theorem Inv.dequeue_cases {short : Bool} (h : s.Inv) (hst : Step s (.dequeue short) t) :
    (t.Inv ∧ SparesHead s (.dequeue short)) ∨ (¬ t.Refines ∧ ¬ SparesHead s (.dequeue short)) := by
  obtain ⟨hf, l, hl, hperm⟩ := h
  obtain ⟨-, hw⟩ := dequeue_enabled hst
  cases l with
  | nil => simp [waits, hl.size] at hw
  | cons x l =>
    obtain ⟨p, n⟩ := x
    have hhead : load s.queue.heap s.queue.head = some n := (hl.chain (by simp)).head_read
    cases hn : wanted short n.train with
    | false =>
      refine .inl ⟨Inv.dequeue_spared hl hperm hn hst, .inr fun m hm => ?_⟩
      rw [hhead] at hm
      exact Option.some.inj hm ▸ hn
    | true =>
      rcases eq_or_ne l [] with rfl | hne
      · obtain ⟨q', hdeq, hl', -⟩ := hl.dequeue_only hn
        exact .inl ⟨Inv.handOut hst hdeq hl' (.refl _) hperm, .inl (by simp [hl.size])⟩
      · obtain ⟨q', hdeq, hpos, hdead⟩ := hl.dequeue_first hne hn
        obtain rfl := Option.some.inj ((act_dequeue hf hw hdeq).symm.trans hst)
        refine .inr ⟨not_refines_of_dead hpos hdead, ?_⟩
        rintro (hsize | hspare)
        · have hlen := List.length_pos_of_ne_nil hne
          have hcons := hl.size
          rw [List.length_cons] at hcons
          omega
        · simpa [hn] using hspare n hhead

/-- From the empty queue, the queue is a faithful list of its tasks in every state of a run exactly
when no call of `dequeue` in the run takes the head of a longer queue by its search. -/
theorem refines_iff_sparesHead (maxSize : Int) (r : List (QueueAct × QueueRun))
    (hr : IsRun Step (init maxSize) r) :
    Always Refines (init maxSize) r ↔ Meets SparesHead (init maxSize) r := by
  refine hr.always_iff (I := Inv) (fun s => Inv.refines) ?_ ?_ (init_inv maxSize)
  · rintro s (⟨netfd, train⟩ | short) t hI hC hst
    · exact hI.enqueue hst
    · exact (hI.dequeue_cases hst).elim And.left fun h => absurd hC h.2
  · rintro s (⟨netfd, train⟩ | short) t hI hC hst
    · exact absurd trivial hC
    · exact (hI.dequeue_cases hst).elim (fun h => absurd h.2 hC) And.left

/-- Three tasks, of which the short thread takes the middle one. -/
theorem refines_iff_sparesHead_three :
    let r := trace act (init 12)
      [.enqueue 7 { commandNo := 5 }, .enqueue 8 { commandNo := 1 }, .enqueue 9 { commandNo := 6 }, .dequeue true]
    Always Refines (init 12) r ↔ Meets SparesHead (init 12) r :=
  refines_iff_sparesHead 12 _ (isRun_trace ..)

/-- Two uploads wait and a long thread takes the first: `head` still points to its freed node. -/
theorem head_dangles : ¬ ∀ s, Reaches Step (init 12) s → s.Refines := by
  intro h
  have hr := Reaches.of_trace act (init 12)
    [.enqueue 7 { commandNo := 5 }, .enqueue 8 { commandNo := 5 }, .dequeue false]
  exact not_refines_of_dead (by decide) (by decide) (h _ hr)

end QueueRun

end Netdisk

import Netdisk.TaskQueueSpec
import Netdisk.Lib.Runs

/-!
# Shutting the pool down (`threadPool.c`, `thread.c`)

The workers with the queue as the list that `enqueue` and `dequeue` are meant to keep: `select` says
which task a thread takes, and `Holds.dequeue_select` that `dequeue` takes this one. The short
thread may leave with long tasks in the queue; another thread leaves an empty queue, and nothing
comes after it.
-/

namespace Netdisk
open Runs TaskQueue

/-- The exit test of the search loop of `dequeue`. -/
def Task.wantedBy (short : Bool) (t : Task) : Bool := wanted short t.train

/-- The task a thread takes and the tasks it leaves: the first one of its kind, or, for a thread
other than the short one, the first one of all. -/
def select (short : Bool) (tasks : List Task) : Option (Task × List Task) :=
  match tasks.find? (Task.wantedBy short) with
  | some t => some (t, tasks.eraseP (Task.wantedBy short))
  | none => if short then none else match tasks with
    | t :: rest => some (t, rest)
    | [] => none

/-- The wait condition of `thread()` on a list of tasks. -/
def waitsOn (short : Bool) (tasks : List Task) : Bool :=
  tasks.length == 0 || (short && tasks.countP (fun t => !t.train.isLong) == 0)

section Select
variable {short : Bool} {tasks rest : List Task} {t : Task}

theorem select_nil : select short [] = none := by cases short <;> rfl

theorem select_wanted {l₁ l₂ : List Task} (hl₁ : ∀ x ∈ l₁, x.wantedBy short = false) (ht : t.wantedBy short = true) :
    select short (l₁ ++ t :: l₂) = some (t, l₁ ++ l₂) := by
  have hnone : ∀ x ∈ l₁, ¬ x.wantedBy short = true := fun x hx => by simp [hl₁ x hx]
  have hfind : (l₁ ++ t :: l₂).find? (Task.wantedBy short) = some t :=
    List.find?_eq_some_iff_append.2 ⟨ht, l₁, l₂, rfl, fun x hx => by simp [hl₁ x hx]⟩
  rw [select.eq_def, hfind, List.eraseP_append_right _ hnone, List.eraseP_cons_of_pos ht]

theorem select_head (hl : ∀ x ∈ t :: rest, x.wantedBy false = false) : select false (t :: rest) = some (t, rest) := by
  have hfind : (t :: rest).find? (Task.wantedBy false) = none := List.find?_eq_none.2 fun x hx => by simp [hl x hx]
  rw [select.eq_def, hfind]
  rfl

theorem select_perm (h : select short tasks = some (t, rest)) : (t :: rest).Perm tasks := by
  unfold select at h
  split at h
  · next hfind =>
    obtain ⟨rfl, rfl⟩ := Prod.mk.inj (Option.some.inj h)
    have hmem : ∃ x ∈ tasks, x.wantedBy short = true := ⟨_, List.mem_of_find?_eq_some hfind, List.find?_some hfind⟩
    obtain ⟨x, l₁, l₂, hl₁, hx, rfl, herase⟩ := List.exists_of_eraseP hmem.choose_spec.1 hmem.choose_spec.2
    have hsame := List.find?_eq_some_iff_append.2 ⟨hx, l₁, l₂, rfl, fun y hy => by simpa using hl₁ y hy⟩
    obtain rfl := Option.some.inj (hsame.symm.trans hfind)
    rw [herase]
    exact List.perm_middle.symm
  · split at h
    · cases h
    · split at h
      · obtain ⟨rfl, rfl⟩ := Prod.mk.inj (Option.some.inj h)
        exact .refl _
      · cases h

theorem TaskQueue.Holds.waits_eq {q : TaskQueue} {l : List (Ptr × Node)} (h : q.Holds l) :
    q.waits short = waitsOn short (TaskQueue.tasks l) := by
  have hlen : decide (q.queueSize ≤ 0) = ((TaskQueue.tasks l).length == 0) := by
    rw [h.size, Bool.eq_iff_iff]
    simp [TaskQueue.tasks]
  have hshort : (q.shortCommandSize == 0) = ((TaskQueue.tasks l).countP (fun t => !t.train.isLong) == 0) := by
    rw [h.short, Bool.eq_iff_iff]
    simp only [beq_iff_eq]
    omega
  rw [TaskQueue.waits, waitsOn, hlen, hshort]

theorem tasks_wanted {l : List (Ptr × Node)} (hl : ∀ x ∈ l, wanted short x.2.train = false) :
    ∀ t ∈ TaskQueue.tasks l, t.wantedBy short = false := by
  intro t ht
  obtain ⟨x, hx, rfl⟩ := List.mem_map.1 ht
  exact hl x hx

/-- `dequeue` takes what `select` says, unless the first of several tasks is of the caller's kind. -/
theorem TaskQueue.Holds.dequeue_select {q : TaskQueue} {l : List (Ptr × Node)} (h : q.Holds l)
    (hw : q.waits short = false) (hspare : l.length ≤ 1 ∨ ∀ x ∈ l.head?, wanted short x.2.train = false) :
    ∃ q' l' t, q.dequeue short = some (t.netfd, some t.train, q') ∧ q'.Holds l' ∧
      select short (TaskQueue.tasks l) = some (t, TaskQueue.tasks l') := by
  cases l with
  | nil => simp [h.waits_eq, waitsOn, TaskQueue.tasks] at hw
  | cons x l =>
    obtain ⟨p, n⟩ := x
    cases hn : wanted short n.train with
    | true =>
      have hl : l = [] := by
        rcases hspare with hlen | hhead
        · exact List.length_eq_zero_iff.1 (by simpa using hlen)
        · exact absurd (hn.symm.trans (hhead (p, n) rfl)) (by decide)
      subst hl
      obtain ⟨q', hdeq, hl', -⟩ := h.dequeue_only hn
      exact ⟨q', [], n.task, hdeq, hl', select_wanted (List.forall_mem_nil _) hn⟩
    | false =>
      cases hfind : l.find? fun x => wanted short x.2.train with
      | some x =>
        obtain ⟨hx, l₁, l₂, rfl, hl₁⟩ := List.find?_eq_some_iff_append.1 hfind
        have hl₁ : ∀ y ∈ (p, n) :: l₁, wanted short y.2.train = false :=
          List.forall_mem_cons.2 ⟨hn, by simpa using hl₁⟩
        obtain ⟨q', l', hdeq, hl', htasks, -⟩ := Holds.dequeue_behind ((p, n) :: l₁) h (by simp) hl₁ hx
        have hsplit : TaskQueue.tasks ((p, n) :: l₁ ++ x :: l₂) =
            TaskQueue.tasks ((p, n) :: l₁) ++ x.2.task :: TaskQueue.tasks l₂ := by simp [TaskQueue.tasks]
        refine ⟨q', l', x.2.task, hdeq, hl', ?_⟩
        rw [← List.cons_append, hsplit, select_wanted (t := x.2.task) (tasks_wanted hl₁) hx, htasks]
        simp [TaskQueue.tasks]
      | none =>
        have hnone : ∀ x ∈ (p, n) :: l, wanted short x.2.train = false :=
          List.forall_mem_cons.2 ⟨hn, by simpa using hfind⟩
        cases short with
        | false =>
          obtain ⟨q', hdeq, hl', -⟩ := h.dequeue_head hnone
          exact ⟨q', l, n.task, hdeq, hl', select_head (tasks_wanted hnone)⟩
        | true =>
          -- no short task waits
          have hzero : (TaskQueue.tasks ((p, n) :: l)).countP (fun t => !t.train.isLong) = 0 :=
            List.countP_eq_zero.2 fun y hy => by simpa [Task.wantedBy, wanted] using tasks_wanted hnone y hy
          rw [h.waits_eq, waitsOn, hzero] at hw
          simp at hw

end Select

/-! ### The pool -/

/-- Where a worker is in the loop of `thread()`. -/
inductive WorkerAt
  /-- About to test the wait condition, or waiting in it. -/
  | top
  | serving (task : Task)
  | exited
deriving DecidableEq

/-- `PthreadPool`, with the tasks that went in and out so far: `handed` by `dequeue` to a worker,
`served` by a worker to their end. -/
structure PthreadPool where
  workers : List WorkerAt
  q : List Task := []
  maxSize : Nat
  exit : Bool := false
  enqueued : List Task := []
  handed : List (Nat × Task) := []
  served : List (Nat × Task) := []
deriving DecidableEq

inductive PoolEvent
  | enqueue (task : Task)
  /-- `work_process_quit` sets the flag. -/
  | quit
  /-- Worker `i` has the lock: it leaves, waits, or takes a task. -/
  | lock (i : Nat)
  /-- Worker `i` is through with its task. -/
  | finish (i : Nat)
deriving DecidableEq

namespace PthreadPool

/-- `init_thread_pool`. -/
def init (num : Nat) : PthreadPool := { workers := List.replicate num .top, maxSize := 3 * num }

/-- Whether worker `i` is `short_thread`. -/
def isShort (i : Nat) : Bool := i == 0

def event (s : PthreadPool) : PoolEvent → Option PthreadPool
  | .enqueue task =>
    if s.exit then none
    else if s.q.length = s.maxSize then some s
    else some { s with q := s.q ++ [task], enqueued := s.enqueued ++ [task] }
  | .quit => some { s with exit := true }
  | .lock i =>
    if s.workers[i]? ≠ some .top then none
    else if waitsOn (isShort i) s.q then
      if s.exit then some { s with workers := s.workers.set i .exited } else some s
    else match select (isShort i) s.q with
      | none => some s
      | some (task, rest) => some { s with
          q := rest
          workers := s.workers.set i (.serving task)
          handed := s.handed ++ [(i, task)] }
  | .finish i => match s.workers[i]? with
    | some (.serving task) => some { s with
        workers := s.workers.set i .top
        served := s.served ++ [(i, task)] }
    | _ => none

abbrev Step (s : PthreadPool) (a : PoolEvent) (t : PthreadPool) : Prop := s.event a = some t

/-- The tasks of worker `i` in a log. -/
def ofWorker (i : Nat) (log : List (Nat × Task)) : List Task := (log.filter fun x => x.1 == i).map Prod.snd

/-- What a worker has in hand. -/
def hand : Option WorkerAt → List Task
  | some (.serving task) => [task]
  | _ => []

/-- The queue as it is meant to be left: a worker that has exited has served all it was handed, and
when all have, nothing waits and each task that was enqueued has been handed out once. -/
structure Drained (s : PthreadPool) : Prop where
  inHand : ∀ i, s.workers[i]? = some .exited → ofWorker i s.handed = ofWorker i s.served
  empty : (∀ w ∈ s.workers, w = .exited) → s.q.length = 0 ∧ (s.handed.map Prod.snd).Perm s.enqueued

/-- Every task is queued or handed out, every task handed out is in hand or served, and a thread
other than the short one leaves only when nothing can come any more. -/
structure Inv (num : Nat) (s : PthreadPool) : Prop where
  length : s.workers.length = num
  conserved : (s.handed.map Prod.snd ++ s.q).Perm s.enqueued
  hand : ∀ i, ofWorker i s.handed = ofWorker i s.served ++ hand s.workers[i]?
  left : ∀ i, 0 < i → s.workers[i]? = some .exited → s.exit = true ∧ s.q = []

variable {num : Nat} {s t : PthreadPool} {i : Nat} {task : Task}

theorem ofWorker_append (log log' : List (Nat × Task)) : ofWorker i (log ++ log') = ofWorker i log ++ ofWorker i log' := by
  simp [ofWorker]

theorem ofWorker_self : ofWorker i [(i, task)] = [task] := by simp [ofWorker]

theorem ofWorker_ne {j : Nat} (h : j ≠ i) : ofWorker i [(j, task)] = [] := by simp [ofWorker, h]

theorem inv_init (num : Nat) : Inv num (init num) where
  length := List.length_replicate
  conserved := .refl _
  hand i := by
    rcases Nat.lt_or_ge i num with hlt | hge
    · simp [init, ofWorker, hlt, PthreadPool.hand]
    · simp [init, ofWorker, Nat.not_lt.2 hge, PthreadPool.hand]
  left i _ h := by
    rw [init] at h
    cases List.eq_of_mem_replicate (List.mem_of_getElem? h)

/-- A worker that is elsewhere afterwards, the queue no longer than before. -/
theorem Inv.move (h : Inv num s) {w : WorkerAt} (hi : i < s.workers.length) (hworkers : t.workers = s.workers.set i w)
    (hexit : t.exit = s.exit) (hq : s.q = [] → t.q = [])
    (hconserved : (t.handed.map Prod.snd ++ t.q).Perm t.enqueued)
    (hhand : ∀ j, ofWorker j t.handed = ofWorker j t.served ++ PthreadPool.hand t.workers[j]?)
    (hleft : w = .exited → 0 < i → s.exit = true ∧ s.q = []) : Inv num t where
  length := by rw [hworkers, List.length_set, h.length]
  conserved := hconserved
  hand := hhand
  left j hj hw := by
    rw [hexit]
    rw [hworkers] at hw
    rcases eq_or_ne j i with rfl | hne
    · rw [List.getElem?_set_self hi] at hw
      have hl := hleft (Option.some.inj hw) hj
      exact ⟨hl.1, hq hl.2⟩
    · rw [List.getElem?_set_ne hne.symm] at hw
      have hl := h.left j hj hw
      exact ⟨hl.1, hq hl.2⟩

theorem getElem?_set_hand {w : WorkerAt} {j : Nat} (hi : i < s.workers.length) :
    PthreadPool.hand (s.workers.set i w)[j]? = if j = i then PthreadPool.hand (some w) else PthreadPool.hand s.workers[j]? := by
  rcases eq_or_ne j i with rfl | hne
  · rw [List.getElem?_set_self hi, if_pos rfl]
  · rw [List.getElem?_set_ne hne.symm, if_neg hne]

theorem Inv.lock (h : Inv num s) (hst : Step s (.lock i) t) : Inv num t := by
  simp only [Step, event] at hst
  split at hst
  · cases hst
  next htop =>
  have htop : s.workers[i]? = some .top := not_not.1 htop
  have hi : i < s.workers.length := (List.getElem?_eq_some_iff.1 htop).1
  have hnone : PthreadPool.hand s.workers[i]? = [] := by rw [htop]; rfl
  split at hst
  · next hwaits =>
    split at hst
    · next hexit =>
      obtain rfl := Option.some.inj hst
      refine h.move hi rfl rfl id h.conserved (fun j => ?_) fun _ hpos => ⟨hexit, ?_⟩
      · rw [h.hand j, getElem?_set_hand hi]
        split
        · next heq => rw [heq, hnone]; rfl
        · rfl
      · -- only the short thread waits for more than an empty queue
        have hshort : isShort i = false := by simp [isShort, Nat.pos_iff_ne_zero.1 hpos]
        rw [hshort, waitsOn] at hwaits
        exact List.length_eq_zero_iff.1 (by simpa using hwaits)
    · exact Option.some.inj hst ▸ h
  · split at hst
    · exact Option.some.inj hst ▸ h
    · next task rest hselect =>
      obtain rfl := Option.some.inj hst
      have hperm := select_perm hselect
      refine h.move hi rfl rfl (fun hq => ?_) ?_ (fun j => ?_) nofun
      · rw [hq, select_nil] at hselect
        cases hselect
      · rw [List.map_append, List.append_assoc]
        exact (hperm.append_left _).trans h.conserved
      · rw [ofWorker_append, h.hand j, getElem?_set_hand hi]
        split
        · next heq => rw [heq, hnone, ofWorker_self, List.append_nil]; rfl
        · next hne => rw [ofWorker_ne (Ne.symm hne), List.append_nil]

theorem Inv.finish (h : Inv num s) (hst : Step s (.finish i) t) : Inv num t := by
  simp only [Step, event] at hst
  split at hst
  · next task hserving =>
    obtain rfl := Option.some.inj hst
    have hi : i < s.workers.length := (List.getElem?_eq_some_iff.1 hserving).1
    refine h.move hi rfl rfl id h.conserved (fun j => ?_) nofun
    rw [ofWorker_append, h.hand j, getElem?_set_hand hi]
    split
    · next heq => rw [heq, hserving, ofWorker_self]; simp [PthreadPool.hand]
    · next hne => rw [ofWorker_ne (Ne.symm hne), List.append_nil]
  · cases hst

theorem Inv.step {a : PoolEvent} (h : Inv num s) (hst : Step s a t) : Inv num t := by
  cases a with
  | enqueue task =>
    simp only [Step, event] at hst
    split at hst
    · cases hst
    next hexit =>
    split at hst
    · exact Option.some.inj hst ▸ h
    · obtain rfl := Option.some.inj hst
      refine ⟨h.length, ?_, h.hand, fun i hi hw => absurd (h.left i hi hw).1 hexit⟩
      rw [← List.append_assoc]
      exact h.conserved.append_right _
  | quit =>
    obtain rfl := Option.some.inj hst
    exact ⟨h.length, h.conserved, h.hand, fun i hi hw => ⟨rfl, (h.left i hi hw).2⟩⟩
  | lock i => exact h.lock hst
  | finish i => exact h.finish hst

theorem Inv.drained (h : Inv num s) (hnum : 2 ≤ num) : Drained s where
  inHand i hi := by
    rw [h.hand i, hi]
    exact List.append_nil _
  empty hall := by
    -- worker 1 is not the short thread
    obtain ⟨w, hw⟩ : ∃ w, s.workers[1]? = some w :=
      ⟨_, List.getElem?_eq_getElem (show 1 < s.workers.length by rw [h.length]; exact hnum)⟩
    obtain rfl := hall w (List.mem_of_getElem? hw)
    have hq := (h.left 1 Nat.one_pos hw).2
    refine ⟨by rw [hq]; rfl, ?_⟩
    have hconserved := h.conserved
    rwa [hq, List.append_nil] at hconserved

/-- A worker exits with no task in hand, and when all workers of a pool of at least two have exited,
every task that was ever enqueued has been handed out exactly once. -/
theorem drained_of_reaches (num : Nat) (hnum : 2 ≤ num) (s : PthreadPool) (hs : Reaches Step (init num) s) :
    Drained s ∧ ∀ (a : PoolEvent) (t : PthreadPool) (i : Nat), Step s a t → s.workers[i]? ≠ some .exited →
      t.workers[i]? = some .exited → s.workers[i]? = some .top := by
  have h : Inv num s := hs.inv (fun _ _ _ h hst => h.step hst) (inv_init num)
  refine ⟨h.drained hnum, fun a t i hst hs ht => ?_⟩
  cases a with
  | enqueue task =>
    simp only [Step, event] at hst
    split at hst
    · cases hst
    split at hst <;>
    · obtain rfl := Option.some.inj hst
      exact absurd ht hs
  | quit =>
    obtain rfl := Option.some.inj hst
    exact absurd ht hs
  | lock j =>
    simp only [Step, event] at hst
    split at hst
    · cases hst
    next htop =>
    have hset : ∀ w, (s.workers.set j w)[i]? = some .exited → s.workers[i]? = some .top := by
      intro w hw
      rcases eq_or_ne j i with rfl | hne
      · exact not_not.1 htop
      · rw [List.getElem?_set_ne hne] at hw
        exact absurd hw hs
    split at hst
    · split at hst
      · obtain rfl := Option.some.inj hst
        exact hset _ ht
      · exact absurd (Option.some.inj hst ▸ ht) hs
    · split at hst
      · exact absurd (Option.some.inj hst ▸ ht) hs
      · obtain rfl := Option.some.inj hst
        exact hset _ ht
  | finish j =>
    simp only [Step, event] at hst
    split at hst
    · next task hserving =>
      obtain rfl := Option.some.inj hst
      rcases eq_or_ne j i with rfl | hne
      · rw [List.getElem?_set_self (List.getElem?_eq_some_iff.1 hserving).1] at ht
        cases ht
      · rw [List.getElem?_set_ne hne] at ht
        exact absurd ht hs
    · cases hst

/-- Two workers: the short one leaves while an upload waits, the other one takes it. -/
theorem drained_of_reaches_two :
    let s := final (init 2) (trace event (init 2) [.enqueue ⟨7, { commandNo := 5 }⟩, .quit, .lock 0, .lock 1, .finish 1, .lock 1])
    (∀ w ∈ s.workers, w = .exited) ∧ Drained s := by
  intro s
  exact ⟨by decide, (drained_of_reaches 2 (Nat.le_refl 2) s (.of_trace event (init 2) _)).1⟩

end PthreadPool

end Netdisk

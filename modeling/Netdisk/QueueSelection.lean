import Netdisk.TaskQueueSpec

/-!
# What `dequeue` selects

Any call of `dequeue` on a well-formed queue, the one included that leaves `head` dangling: which task
is handed out, and what becomes of the two counters.
-/

namespace Netdisk
open Linked

namespace TaskQueue
variable {q q' : TaskQueue} {l l₁ l₂ : List (Ptr × Node)} {short : Bool} {n : Node}

/-- The nodes `l`, at least one, lead from `head` to `tail`, and the counters fit. -/
structure WellFormed (q : TaskQueue) (l : List (Ptr × Node)) : Prop where
  nonempty : l ≠ []
  chain : Chain q.heap q.head l
  size : q.queueSize = l.length
  tail : q.tail = lastPtr .null l
  short : q.shortCommandSize = (tasks l).countP fun t => !t.train.isLong

theorem WellFormed.holds (h : q.WellFormed l) : q.Holds l where
  size := h.size
  short := h.short
  chain _ := h.chain
  tail _ := h.tail
  nodup := h.chain.nodup rfl

theorem Holds.wellFormed (h : q.Holds l) (hne : l ≠ []) : q.WellFormed l where
  nonempty := hne
  chain := h.chain hne
  size := h.size
  tail := h.tail hne
  short := h.short

theorem dequeue_counts {fd : Int} {train : TransFile} (h : q.dequeue short = some (fd, some train, q')) :
    q'.queueSize = q.queueSize - 1 ∧
      q'.shortCommandSize = if train.isLong then q.shortCommandSize else q.shortCommandSize - 1 := by
  unfold dequeue at h
  split at h
  · cases h
  obtain ⟨⟨prev, cur⟩, -, h⟩ := Option.bind_eq_some_iff.1 h
  obtain ⟨-, -, h⟩ := Option.bind_eq_some_iff.1 h
  dsimp only at h
  split at h
  · obtain ⟨c, -, h⟩ := Option.bind_eq_some_iff.1 h
    cases h
    exact ⟨rfl, rfl⟩
  split at h
  · obtain ⟨c, -, h⟩ := Option.bind_eq_some_iff.1 h
    split at h
    · cases h
      exact ⟨rfl, rfl⟩
    · obtain ⟨heap, -, h⟩ := Option.bind_eq_some_iff.1 h
      cases h
      exact ⟨rfl, rfl⟩
  · cases h

/-- The first wanted task is handed out, wherever it is. -/
theorem Holds.dequeue_earliest {a : Ptr} (h : q.Holds (l₁ ++ (a, n) :: l₂))
    (hl₁ : ∀ x ∈ l₁, wanted short x.2.train = false) (hn : wanted short n.train = true) :
    ∃ q', q.dequeue short = some (n.netfd, some n.train, q') := by
  by_cases hfirst : l₁ = []
  · subst hfirst
    by_cases honly : l₂ = []
    · subst honly
      obtain ⟨q', hdeq, -⟩ := h.dequeue_only hn
      exact ⟨q', hdeq⟩
    · obtain ⟨q', hdeq, -⟩ := h.dequeue_first honly hn
      exact ⟨q', hdeq⟩
  · obtain ⟨q', l', hdeq, -⟩ := Holds.dequeue_behind l₁ h hfirst hl₁ hn
    exact ⟨q', hdeq⟩

/-- The short thread finds no short task. -/
theorem Holds.dequeue_refused (h : q.Holds l) (hne : l ≠ []) (hl : ∀ x ∈ l, wanted true x.2.train = false) :
    q.dequeue true = some (-1, none, q) := by
  rw [← List.append_nil l] at h hne
  obtain ⟨cur, hcur, hhead, hsearch, hlog⟩ := Holds.dequeue_eq l [] h hne hl (by simp)
  obtain rfl : cur = .null := by simpa using hcur
  simp [dequeue, hhead, hsearch, hlog]

theorem find?_tasks (p : Task → Bool) {t : Task} (h : (tasks l).find? p = some t) :
    ∃ l₁ a n l₂, l = l₁ ++ (a, n) :: l₂ ∧ n.task = t ∧ p n.task = true ∧ ∀ x ∈ l₁, p x.2.task = false := by
  rw [tasks, List.find?_map, Option.map_eq_some_iff] at h
  obtain ⟨⟨a, n⟩, hfind, rfl⟩ := h
  obtain ⟨hn, l₁, l₂, rfl, hl₁⟩ := List.find?_eq_some_iff_append.1 hfind
  exact ⟨l₁, a, n, l₂, rfl, rfl, hn, fun x hx => by simpa using hl₁ x hx⟩

theorem find?_tasks_none (p : Task → Bool) (h : (tasks l).find? p = none) : ∀ x ∈ l, p x.2.task = false := by
  intro x hx
  have := List.find?_eq_none.1 h x.2.task (List.mem_map_of_mem hx)
  simpa using this

theorem wanted_short (train : TransFile) : wanted true train = !train.isLong := by
  unfold wanted
  cases train.isLong <;> rfl

theorem wanted_long (train : TransFile) : wanted false train = train.isLong := by
  unfold wanted
  cases train.isLong <;> rfl

theorem WellFormed.dequeue_short {t : Task} (h : q.WellFormed l) (ht : (tasks l).find? (fun t => !t.train.isLong) = some t) :
    ∃ q', q.dequeue true = some (t.netfd, some t.train, q') ∧ q'.queueSize = q.queueSize - 1 ∧
      q'.shortCommandSize = q.shortCommandSize - 1 := by
  obtain ⟨l₁, a, n, l₂, rfl, rfl, hn, hl₁⟩ := find?_tasks _ ht
  have hbefore : ∀ x ∈ l₁, wanted true x.2.train = false := fun x hx => (wanted_short _).trans (hl₁ x hx)
  obtain ⟨q', hdeq⟩ := h.holds.dequeue_earliest hbefore ((wanted_short _).trans hn)
  obtain ⟨hsize, hcount⟩ := dequeue_counts hdeq
  have hlong : n.train.isLong = false := by simpa [Node.task] using hn
  rw [hlong] at hcount
  exact ⟨q', hdeq, hsize, hcount⟩

theorem WellFormed.dequeue_refused_iff (h : q.WellFormed l) :
    (∃ train, q.dequeue true = some (-1, train, q)) ↔ (tasks l).find? (fun t => !t.train.isLong) = none := by
  constructor
  · rintro ⟨train, hdeq⟩
    by_contra hsome
    obtain ⟨t, ht⟩ := Option.ne_none_iff_exists'.1 hsome
    obtain ⟨q', hdeq', hsize, -⟩ := h.dequeue_short ht
    -- the queue would have stayed as long as it was
    obtain rfl : q = q' := (Prod.mk.inj (Prod.mk.inj (Option.some.inj (hdeq.symm.trans hdeq'))).2).2
    omega
  · intro hnone
    refine ⟨none, h.holds.dequeue_refused h.nonempty fun x hx => ?_⟩
    exact (wanted_short _).trans (find?_tasks_none _ hnone x hx)

theorem WellFormed.dequeue_long (h : q.WellFormed l) :
    ∃ t q', ((tasks l).find? (·.train.isLong)).or (tasks l).head? = some t ∧
      q.dequeue false = some (t.netfd, some t.train, q') ∧ q'.queueSize = q.queueSize - 1 ∧
      q'.shortCommandSize = if t.train.isLong then q.shortCommandSize else q.shortCommandSize - 1 := by
  cases hfind : (tasks l).find? (·.train.isLong) with
  | some t =>
    obtain ⟨l₁, a, n, l₂, rfl, rfl, hn, hl₁⟩ := find?_tasks _ hfind
    have hbefore : ∀ x ∈ l₁, wanted false x.2.train = false := fun x hx => (wanted_long _).trans (hl₁ x hx)
    obtain ⟨q', hdeq⟩ := h.holds.dequeue_earliest hbefore ((wanted_long _).trans hn)
    exact ⟨n.task, q', rfl, hdeq, dequeue_counts hdeq⟩
  | none =>
    obtain ⟨⟨p, n⟩, rest, rfl⟩ := List.exists_cons_of_ne_nil h.nonempty
    obtain ⟨q', hdeq, -⟩ := h.holds.dequeue_head fun x hx => (wanted_long _).trans (find?_tasks_none _ hfind x hx)
    exact ⟨n.task, q', rfl, hdeq, dequeue_counts hdeq⟩

theorem WellFormed.enqueue_room (h : q.WellFormed l) (hroom : q.queueSize < q.maxSize) (netfd : Int) (train : TransFile) :
    ∃ q' l', q.enqueue netfd train = some (0, q') ∧ q'.WellFormed l' ∧ tasks l' = tasks l ++ [⟨netfd, train⟩] := by
  obtain ⟨q', l', heq, hl', htasks, -⟩ := h.holds.enqueue_room hroom.ne netfd train
  have hne : l' ≠ [] := by
    rintro rfl
    exact List.append_ne_nil_of_right_ne_nil (tasks l) (List.cons_ne_nil _ _) htasks.symm
  exact ⟨q', l', heq, hl'.wellFormed hne, htasks⟩

/-- What `dequeue` and `enqueue` do on a well-formed queue. -/
theorem dequeue_selects (q : TaskQueue) (l : List (Ptr × Node)) (h : q.WellFormed l) :
    (∀ t, (tasks l).find? (fun t => !t.train.isLong) = some t → ∃ q', q.dequeue true = some (t.netfd, some t.train, q') ∧
      q'.queueSize = q.queueSize - 1 ∧ q'.shortCommandSize = q.shortCommandSize - 1) ∧
    ((∃ train, q.dequeue true = some (-1, train, q)) ↔ (tasks l).find? (fun t => !t.train.isLong) = none) ∧
    (∃ t q', ((tasks l).find? (·.train.isLong)).or (tasks l).head? = some t ∧
      q.dequeue false = some (t.netfd, some t.train, q') ∧ q'.queueSize = q.queueSize - 1 ∧
      q'.shortCommandSize = if t.train.isLong then q.shortCommandSize else q.shortCommandSize - 1) ∧
    (∀ netfd train, q.queueSize < q.maxSize → ∃ q' l', q.enqueue netfd train = some (0, q') ∧ q'.WellFormed l' ∧
      tasks l' = tasks l ++ [⟨netfd, train⟩]) ∧
    (∀ netfd train, q.queueSize = q.maxSize → q.enqueue netfd train = some (-1, q)) := by
  refine ⟨fun t ht => h.dequeue_short ht, h.dequeue_refused_iff, h.dequeue_long, ?_, ?_⟩
  · exact fun netfd train hroom => h.enqueue_room hroom netfd train
  · exact fun netfd train hfull => enqueue_full hfull netfd train

/-- The nodes of three tasks that wait, in their order. -/
def threeNodes (first second third : TransFile) : List (Ptr × Node) :=
  [(.node 0, ⟨first, 7, .node 1⟩), (.node 1, ⟨second, 8, .node 2⟩), (.node 2, ⟨third, 9, .null⟩)]

def three (first second third : TransFile) : TaskQueue where
  heap := (threeNodes first second third).map fun x => .live x.2
  head := .node 0
  tail := .node 2
  queueSize := 3
  maxSize := 4
  shortCommandSize := (tasks (threeNodes first second third)).countP fun t => !t.train.isLong

theorem wellFormed_three (first second third : TransFile) :
    (three first second third).WellFormed (threeNodes first second third) :=
  ⟨List.cons_ne_nil _ _, ⟨rfl, rfl, rfl, rfl, rfl, rfl, rfl⟩, rfl, rfl, rfl⟩

/-- Behind a `puts` the short thread finds the `ls`, the other threads take the `puts`; behind an `ls` they find it. -/
theorem dequeue_selects_three :
    let puts : TransFile := { commandNo := 5 }
    let gets : TransFile := { commandNo := 6 }
    let ls : TransFile := { commandNo := 1 }
    (∃ q', (three puts ls gets).dequeue true = some (8, some ls, q') ∧ q'.queueSize = 2 ∧ q'.shortCommandSize = 0) ∧
    (∃ q', (three puts ls gets).dequeue false = some (7, some puts, q') ∧ q'.queueSize = 2 ∧ q'.shortCommandSize = 1) ∧
    (∃ q', (three ls puts ls).dequeue false = some (8, some puts, q') ∧ q'.queueSize = 2 ∧ q'.shortCommandSize = 2) ∧
    (∃ train, (three puts gets puts).dequeue true = some (-1, train, three puts gets puts)) := by
  intro puts gets ls
  have hmixed := dequeue_selects _ _ (wellFormed_three puts ls gets)
  have hshort := dequeue_selects _ _ (wellFormed_three ls puts ls)
  refine ⟨hmixed.1 ⟨8, ls⟩ rfl, ?_, ?_, (dequeue_selects _ _ (wellFormed_three puts gets puts)).2.1.2 rfl⟩
  · obtain ⟨t, q', ht, hdeq, hsize, hcount⟩ := hmixed.2.2.1
    obtain rfl : ⟨7, puts⟩ = t := Option.some.inj ht
    exact ⟨q', hdeq, hsize, hcount⟩
  · obtain ⟨t, q', ht, hdeq, hsize, hcount⟩ := hshort.2.2.1
    obtain rfl : ⟨8, puts⟩ = t := Option.some.inj ht
    exact ⟨q', hdeq, hsize, hcount⟩

end TaskQueue

end Netdisk

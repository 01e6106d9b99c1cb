import Netdisk.TaskQueue
import Netdisk.Lib.Linked
import Mathlib.Data.List.Nodup
import Mathlib.Data.List.Perm.Subperm

/-!
# What one call does to a well-formed queue

`TaskQueue.Holds q l`: the nodes `l` are linked from `head` to `tail`, all live, and the counters
fit. `enqueue` appends to `l` or refuses. `dequeue` has one spec lemma for each way it can find its
task: by default at the head (`dequeue_head`), behind another node (`dequeue_behind`), as the only
node (`dequeue_only`), and, where it leaves `head` dangling, as the first of several
(`dequeue_first`).
-/

namespace Netdisk
open Linked

/-! ### The heap -/

section Heap
variable {heap : List Cell} {p q : Ptr} {n : Node}

theorem load_lt {a : Nat} (h : load heap (.node a) = some n) : a < heap.length := by
  by_contra ha
  simp [load, List.getElem?_eq_none (Nat.le_of_not_lt ha)] at h

theorem exists_of_load (h : load heap p = some n) : ∃ a, p = .node a ∧ a < heap.length := by
  cases p with
  | node a => exact ⟨a, rfl, load_lt h⟩
  | null => cases h
  | temp => cases h

theorem load_ne_null (h : load heap p = some n) : p ≠ .null := by rintro rfl; cases h

theorem load_ne_temp (h : load heap p = some n) : p ≠ .temp := by rintro rfl; cases h

theorem load_append (c : Cell) (h : load heap p = some n) : load (heap ++ [c]) p = load heap p := by
  obtain ⟨a, rfl, ha⟩ := exists_of_load h
  simp [load, List.getElem?_append_left ha]

theorem load_new (n : Node) : load (heap ++ [.live n]) (.node heap.length) = some n := by
  simp [load]

theorem load_set_ne {a : Nat} (c : Cell) (h : p ≠ .node a) : load (heap.set a c) p = load heap p := by
  cases p with
  | node b =>
    have hb : a ≠ b := fun hab => h (by rw [hab])
    simp [load, List.getElem?_set_ne hb]
  | null => rfl
  | temp => rfl

theorem load_free_self : load (free heap p) p = none := by
  cases p with
  | node a =>
    by_cases ha : a < heap.length
    · simp [load, free, ha]
    · simp [load, free, ha]
  | null => rfl
  | temp => rfl

theorem load_free_ne (h : p ≠ q) : load (free heap q) p = load heap p := by
  cases q with
  | node a => exact load_set_ne _ h
  | null => rfl
  | temp => rfl

theorem storeNext_spec (q : Ptr) (h : load heap p = some n) :
    ∃ heap', storeNext heap p q = some heap' ∧ load heap' p = some { n with next := q } ∧
      ∀ p', p' ≠ p → load heap' p' = load heap p' := by
  obtain ⟨a, rfl, ha⟩ := exists_of_load h
  refine ⟨heap.set a (.live { n with next := q }), by simp [storeNext, h], by simp [load, ha], ?_⟩
  exact fun p' hp' => load_set_ne _ hp'

end Heap

namespace TaskQueue
variable {q q' : TaskQueue} {l l₁ l₂ l₃ : List (Ptr × Node)} {short : Bool}

/-- From `p` the nodes of `l` follow one another, all of them live, and the last one has no next. -/
abbrev Chain (heap : List Cell) (p : Ptr) (l : List (Ptr × Node)) : Prop :=
  Seg (load heap) Node.next p l .null

/-- The tasks that the nodes of a chain carry, in order. -/
def tasks (l : List (Ptr × Node)) : List Task := l.map fun x => x.2.task

/-- `l` is what the queue really holds: its nodes with their addresses, from `head` to `tail`. An
empty queue says nothing of `head` and `tail`, which dangle in it. -/
structure Holds (q : TaskQueue) (l : List (Ptr × Node)) : Prop where
  size : q.queueSize = l.length
  short : q.shortCommandSize = (tasks l).countP fun t => !t.train.isLong
  chain : l ≠ [] → Chain q.heap q.head l
  tail : l ≠ [] → q.tail = lastPtr .null l
  nodup : (l.map Prod.fst).Nodup

theorem Holds.live (h : q.Holds l) {x : Ptr × Node} (hx : x ∈ l) : load q.heap x.1 = some x.2 :=
  (h.chain (List.ne_nil_of_mem hx)).read_mem hx

theorem Holds.length_le (h : q.Holds l) : l.length ≤ q.heap.length := by
  have hsub : l.map Prod.fst ⊆ (List.range q.heap.length).map Ptr.node := by
    intro p hp
    obtain ⟨x, hx, rfl⟩ := List.mem_map.1 hp
    obtain ⟨a, ha, hlt⟩ := exists_of_load (h.live hx)
    exact List.mem_map.2 ⟨a, List.mem_range.2 hlt, ha.symm⟩
  simpa using (h.nodup.subperm hsub).length_le

/-! ### The loops of `dequeue` -/

theorem search_eq {heap : List Cell} {head prev cur m : Ptr} (hl₁ : ∀ x ∈ l₁, wanted short x.2.train = false)
    (hs₁ : Seg (load heap) Node.next cur l₁ m)
    (hm : m = .null ∨ ∃ n, load heap m = some n ∧ wanted short n.train = true)
    (hprev : nextOf heap head prev = some cur)
    (fuel : Nat) (hf : l₁.length < fuel) :
    search heap head short fuel prev cur = some (lastPtr prev l₁, m) := by
  induction l₁ generalizing prev cur fuel with
  | nil =>
    obtain ⟨fuel, rfl⟩ : ∃ k, fuel = k + 1 := ⟨fuel - 1, by simp at hf; omega⟩
    obtain rfl : cur = m := hs₁
    rcases hm with rfl | ⟨n, hn, hw⟩
    · simp [search]
    · simp [search, load_ne_null hn, hn, hw]
  | cons x l₁ ih =>
    obtain ⟨fuel, rfl⟩ : ∃ k, fuel = k + 1 := ⟨fuel - 1, by simp at hf; omega⟩
    obtain ⟨a, n⟩ := x
    obtain ⟨rfl, hn, hs⟩ := seg_cons.1 hs₁
    have hw : wanted short n.train = false := hl₁ _ (List.mem_cons_self ..)
    have hcur : cur ≠ .temp := load_ne_temp hn
    have hrest := ih (fun y hy => hl₁ y (by simp [hy])) hs (show nextOf heap head cur = _ by simp [nextOf, hcur, hn])
      fuel (by simpa using hf)
    rw [lastPtr_cons, ← hrest]
    simp [search, load_ne_null hn, hn, hw, hprev]

theorem logLoop_eq {heap : List Cell} {p : Ptr} (h : Chain heap p l) (fuel : Nat) (hf : l.length < fuel) :
    logLoop heap fuel p = some () := by
  induction l generalizing p fuel with
  | nil =>
    obtain ⟨fuel, rfl⟩ : ∃ k, fuel = k + 1 := ⟨fuel - 1, by simp at hf; omega⟩
    obtain rfl : p = .null := h
    simp [logLoop]
  | cons x l ih =>
    obtain ⟨fuel, rfl⟩ : ∃ k, fuel = k + 1 := ⟨fuel - 1, by simp at hf; omega⟩
    obtain ⟨a, n⟩ := x
    obtain ⟨rfl, hn, hs⟩ := seg_cons.1 h
    simp [logLoop, load_ne_null hn, hn, ih hs fuel (by simpa using hf)]

/-! ### One call -/

theorem enqueue_full (h : q.queueSize = q.maxSize) (netfd : Int) (train : TransFile) :
    q.enqueue netfd train = some (-1, q) := by
  simp [enqueue, h]

theorem enqueue_empty (hmax : q.queueSize ≠ q.maxSize) (h0 : q.queueSize = 0) (netfd : Int)
    (train : TransFile) :
    q.enqueue netfd train = some (0, { q with
      heap := q.heap ++ [.live ⟨train, netfd, .null⟩]
      head := .node q.heap.length
      tail := .node q.heap.length
      queueSize := q.queueSize + 1
      shortCommandSize := if train.isLong then q.shortCommandSize else q.shortCommandSize + 1 }) := by
  simp [enqueue, h0, h0 ▸ hmax]

theorem enqueue_behind (hmax : q.queueSize ≠ q.maxSize) (h0 : q.queueSize ≠ 0) {netfd : Int}
    {train : TransFile} {heap : List Cell}
    (hst : storeNext (q.heap ++ [.live ⟨train, netfd, .null⟩]) q.tail (.node q.heap.length) = some heap) :
    q.enqueue netfd train = some (0, { q with
      heap := heap
      tail := .node q.heap.length
      queueSize := q.queueSize + 1
      shortCommandSize := if train.isLong then q.shortCommandSize else q.shortCommandSize + 1 }) := by
  simp [enqueue, hmax, h0, hst]

theorem Holds.enqueue_room (h : q.Holds l) (hmax : q.queueSize ≠ q.maxSize) (netfd : Int)
    (train : TransFile) :
    ∃ q' l', q.enqueue netfd train = some (0, q') ∧ q'.Holds l' ∧
      tasks l' = tasks l ++ [⟨netfd, train⟩] ∧ q'.maxSize = q.maxSize := by
  have hnew : ∀ x ∈ l, x.1 ≠ .node q.heap.length := by
    intro x hx hnode
    have hlive := h.live hx
    rw [hnode] at hlive
    exact absurd (load_lt hlive) (Nat.lt_irrefl _)
  have hshort : (if train.isLong then q.shortCommandSize else q.shortCommandSize + 1) =
      ((tasks l ++ [(⟨netfd, train⟩ : Task)]).countP fun t => !t.train.isLong : Nat) := by
    rw [h.short, List.countP_append]
    cases htr : train.isLong <;> simp [htr]
  set node : Node := ⟨train, netfd, .null⟩ with hnode
  rcases List.eq_nil_or_concat' l with rfl | ⟨l₀, ⟨p, n⟩, rfl⟩
  · have hsize : q.queueSize = 0 := h.size
    refine ⟨_, [(.node q.heap.length, node)], enqueue_empty hmax hsize .., ⟨?_, ?_, ?_, ?_, ?_⟩,
      rfl, rfl⟩
    · simp [hsize]
    · exact hshort
    · exact fun _ => seg_cons.2 ⟨rfl, load_new _, rfl⟩
    · exact fun _ => rfl
    · simp
  · have hp : load (q.heap ++ [.live node]) p = some n := by
      have hlive := h.live (x := (p, n)) (by simp)
      rw [load_append _ hlive, hlive]
    have htail : q.tail = p := by rw [h.tail (by simp)]; simp
    have hsize : q.queueSize ≠ 0 := by rw [h.size]; simp; omega
    obtain ⟨heap', hst, hp', hother⟩ := storeNext_spec (.node q.heap.length) hp
    have htasks : tasks (l₀ ++ [(p, { n with next := .node q.heap.length })] ++
        [(.node q.heap.length, node)]) = tasks (l₀ ++ [(p, n)]) ++ [⟨netfd, train⟩] := by
      simp [tasks, Node.task, hnode]
    refine ⟨_, l₀ ++ [(p, { n with next := .node q.heap.length })] ++ [(.node q.heap.length, node)],
      enqueue_behind hmax hsize (by rw [htail]; exact hst), ⟨?_, ?_, ?_, ?_, ?_⟩, htasks, rfl⟩
    · simp [h.size]; omega
    · rw [htasks]; exact hshort
    · intro _
      have hseg : Seg (load heap') Node.next q.head
          (l₀ ++ [(p, { n with next := .node q.heap.length })]) (.node q.heap.length) := by
        refine (h.chain (by simp)).relink hp' fun x hx => ?_
        have hnd := h.nodup
        rw [List.map_append, List.nodup_append] at hnd
        rw [hother _ (hnd.2.2 _ (List.mem_map_of_mem hx) _ (by simp)), load_append _ (h.live (by simp [hx]))]
      refine hseg.append (seg_cons.2 ⟨rfl, ?_, rfl⟩)
      rw [hother _ (hnew (p, n) (by simp)).symm, load_new]
    · exact fun _ => lastPtr_concat.symm
    · have hnd := h.nodup
      rw [List.map_append, List.nodup_append]
      refine ⟨by simpa using hnd, by simp, ?_⟩
      intro a ha b hb
      obtain ⟨x, hx, rfl⟩ := List.mem_map.1 ha
      obtain rfl : b = .node q.heap.length := by simpa using hb
      rcases List.mem_append.1 hx with hx | hx
      · exact hnew x (by simp [hx])
      · obtain rfl : x = (p, _) := by simpa using hx
        exact hnew (p, n) (by simp)

theorem chain_ne_null {heap : List Cell} {p : Ptr} (h : Chain heap p l) (hne : l ≠ []) : p ≠ .null := by
  obtain ⟨⟨a, n⟩, l', rfl⟩ := List.exists_cons_of_ne_nil hne
  exact load_ne_null h.head_read

/-- What `dequeue` does on a good queue, before it looks at what the search loop found. -/
theorem Holds.dequeue_eq (l₁ l₂ : List (Ptr × Node)) (h : q.Holds (l₁ ++ l₂)) (hne : l₁ ++ l₂ ≠ [])
    (hl₁ : ∀ x ∈ l₁, wanted short x.2.train = false)
    (hl₂ : ∀ x ∈ l₂.head?, wanted short x.2.train = true) :
    ∃ cur, (l₂ = [] ∧ cur = .null ∨ ∃ n l₃, l₂ = (cur, n) :: l₃) ∧ q.head ≠ .null ∧
      search q.heap q.head short (q.heap.length + 1) .temp q.head = some (lastPtr .temp l₁, cur) ∧
      logLoop q.heap (q.heap.length + 1) q.head = some () := by
  have hc := h.chain hne
  have hlen := h.length_le
  have hhead : q.head ≠ .null := chain_ne_null hc hne
  obtain ⟨m, hs₁, hs₂⟩ := seg_append.1 hc
  have hm : (l₂ = [] ∧ m = .null ∨ ∃ n l₃, l₂ = (m, n) :: l₃) ∧
      (m = .null ∨ ∃ n, load q.heap m = some n ∧ wanted short n.train = true) := by
    cases l₂ with
    | nil => exact ⟨.inl ⟨rfl, hs₂⟩, .inl hs₂⟩
    | cons x l₃ =>
      obtain ⟨a, n⟩ := x
      obtain ⟨rfl, hn, -⟩ := seg_cons.1 hs₂
      exact ⟨.inr ⟨n, l₃, rfl⟩, .inr ⟨n, hn, hl₂ _ rfl⟩⟩
  refine ⟨m, hm.1, hhead, search_eq hl₁ hs₁ hm.2 (by simp [nextOf]) _ ?_, logLoop_eq hc _ ?_⟩
  · simp at hlen; omega
  · omega


theorem Holds.detach {prev cur : Ptr} {c : Node} (hsize : q.queueSize = l.length + 1)
    (hshort : q.shortCommandSize = (c.task :: tasks l).countP fun t => !t.train.isLong)
    (hchain : l ≠ [] → Chain q.heap q.head l)
    (htail : l ≠ [] → (if c.next = .null then prev else q.tail) = lastPtr .null l)
    (hnd : (cur :: l.map Prod.fst).Nodup) : (q.detach prev cur c).Holds l := by
  obtain ⟨hcur, hnd⟩ := List.nodup_cons.1 hnd
  refine ⟨?_, ?_, fun hne => (hchain hne).congr fun x hx => load_free_ne ?_, htail, hnd⟩
  · simp [TaskQueue.detach, hsize]
  · rw [List.countP_cons] at hshort
    cases hc : c.train.isLong <;> simp [TaskQueue.detach, hc, hshort, Node.task]
  · rintro rfl
    exact hcur (List.mem_map_of_mem hx)

/-- No task of its kind waits: a thread other than the short one takes the head. -/
theorem Holds.dequeue_head {p : Ptr} {n : Node} (h : q.Holds ((p, n) :: l))
    (hl : ∀ x ∈ (p, n) :: l, wanted false x.2.train = false) :
    ∃ q', q.dequeue false = some (n.netfd, some n.train, q') ∧ q'.Holds l ∧ q'.maxSize = q.maxSize := by
  obtain ⟨cur, hcur, hhead, hsearch, hlog⟩ :=
    Holds.dequeue_eq ((p, n) :: l) [] (by simpa using h) (by simp) hl (by simp)
  obtain rfl : cur = .null := by simpa using hcur
  obtain ⟨rfl, hload, hrest⟩ := seg_cons.1 (h.chain (by simp))
  refine ⟨{ q with head := n.next }.detach (lastPtr .temp ((q.head, n) :: l)) q.head n,
    by simp [dequeue, hhead, hsearch, hlog, hload], Holds.detach ?_ ?_ ?_ ?_ ?_, rfl⟩
  · simp [h.size]
  · exact h.short
  · exact fun _ => hrest
  · intro hne
    rw [if_neg (chain_ne_null hrest hne), h.tail (by simp)]
    exact (lastPtr_append hne : lastPtr .null ([(q.head, n)] ++ l) = _)
  · exact h.nodup

/-- The wanted task is not the head: it is unlinked from behind its predecessor. -/
theorem Holds.dequeue_behind {a : Ptr} {n : Node} (l₁ : List (Ptr × Node)) (h : q.Holds (l₁ ++ (a, n) :: l₂)) (hne : l₁ ≠ [])
    (hl₁ : ∀ x ∈ l₁, wanted short x.2.train = false) (hn : wanted short n.train = true) :
    ∃ q' l', q.dequeue short = some (n.netfd, some n.train, q') ∧ q'.Holds l' ∧
      tasks l' = tasks (l₁ ++ l₂) ∧ q'.maxSize = q.maxSize := by
  obtain ⟨cur, hcur, hhead, hsearch, hlog⟩ :=
    Holds.dequeue_eq l₁ ((a, n) :: l₂) h (by simp) hl₁ (by simpa using hn)
  obtain rfl : a = cur := by simpa using hcur
  obtain ⟨l₀, ⟨p, m⟩, rfl⟩ := List.eq_nil_or_concat' l₁ |>.resolve_left hne
  have hc := h.chain (by simp)
  obtain ⟨c, hs₁, hs₂⟩ := seg_append.1 hc
  obtain ⟨rfl, hload, hs₂⟩ := seg_cons.1 hs₂
  have hp : load q.heap p = some m := hs₁.read_mem (by simp)
  have hnd := h.nodup
  obtain ⟨heap', hst, hp', hother⟩ := storeNext_spec n.next hp
  rw [lastPtr_concat] at hsearch
  have hnd : ((l₀ ++ [(p, m)]).map Prod.fst ++ c :: l₂.map Prod.fst).Nodup := by
    simpa using h.nodup
  obtain ⟨hnd₁, hnd₂, hdisj⟩ := List.nodup_append.1 hnd
  set m' : Node := { m with next := n.next }
  have hchain : Chain heap' q.head (l₀ ++ [(p, m')] ++ l₂) := by
    refine (hs₁.relink hp' fun x hx => hother _ ?_).append (hs₂.congr fun x hx => hother _ ?_)
    · rw [List.map_append, List.nodup_append] at hnd₁
      exact hnd₁.2.2 _ (List.mem_map_of_mem hx) _ (by simp)
    · exact (hdisj p (by simp) _ (List.mem_cons_of_mem _ (List.mem_map_of_mem hx))).symm
  refine ⟨{ q with heap := heap' }.detach p c n, l₀ ++ [(p, m')] ++ l₂,
    by simp [dequeue, hhead, hsearch, hlog, hload, load_ne_null hload, load_ne_temp hp, hst],
    Holds.detach ?_ ?_ ?_ ?_ ?_, ?_, rfl⟩
  · simp [h.size]; omega
  · rw [h.short]
    simp [tasks, Node.task, m', List.countP_append, List.countP_cons]
    omega
  · exact fun _ => hchain
  · intro _
    rcases eq_or_ne l₂ [] with rfl | hl₂
    · rw [if_pos (show n.next = .null from hs₂), List.append_nil, lastPtr_concat]
    · have hlast : lastPtr .null (l₀ ++ [(p, m)] ++ (c, n) :: l₂) = lastPtr .null l₂ := by
        rw [List.append_cons]
        exact lastPtr_append hl₂
      rw [if_neg (chain_ne_null hs₂ hl₂), h.tail (by simp), hlast, lastPtr_append hl₂]
  · rw [List.nodup_middle] at hnd
    simpa using hnd
  · simp [tasks, Node.task, m']


/-- The wanted task is the only one: the queue is empty afterwards, whatever `head` points to. -/
theorem Holds.dequeue_only {a : Ptr} {n : Node} (h : q.Holds [(a, n)]) (hn : wanted short n.train = true) :
    ∃ q', q.dequeue short = some (n.netfd, some n.train, q') ∧ q'.Holds [] ∧ q'.maxSize = q.maxSize := by
  obtain ⟨cur, hcur, hhead, hsearch, hlog⟩ :=
    Holds.dequeue_eq [] [(a, n)] h (by simp) (by simp) (by simpa using hn)
  obtain rfl : a = cur := by simpa using hcur
  have hload := h.live (x := (a, n)) (by simp)
  refine ⟨q.detach .temp a n, by simp [dequeue, hhead, hsearch, hlog, hload, load_ne_null hload],
    Holds.detach ?_ h.short (by simp) (by simp) (by simp), rfl⟩
  simp [h.size]

/-- The wanted task is the head and others follow: `head` is left pointing to the freed node. -/
theorem Holds.dequeue_first {a : Ptr} {n : Node} (h : q.Holds ((a, n) :: l)) (hne : l ≠ [])
    (hn : wanted short n.train = true) :
    ∃ q', q.dequeue short = some (n.netfd, some n.train, q') ∧ 0 < q'.queueSize ∧
      load q'.heap q'.head = none := by
  obtain ⟨cur, hcur, hhead, hsearch, hlog⟩ :=
    Holds.dequeue_eq [] ((a, n) :: l) h (by simp) (by simp) (by simpa using hn)
  obtain rfl : a = cur := by simpa using hcur
  obtain ⟨rfl, hload, -⟩ := seg_cons.1 (h.chain (by simp))
  have hlen := List.length_pos_of_ne_nil hne
  refine ⟨q.detach .temp q.head n, by simp [dequeue, hhead, hsearch, hlog, hload], ?_, ?_⟩
  · simp [TaskQueue.detach, h.size]; omega
  · simp [TaskQueue.detach, load_free_self]

end TaskQueue

end Netdisk

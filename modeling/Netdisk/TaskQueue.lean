import Netdisk.Wire

/-!
# The task queue (`taskQueue.c`)

Nodes live in a heap of cells that remembers which ones were freed; `head`, `tail` and `next` are
pointers into it, to nothing, or to the dummy node `temp` on the stack of `dequeue`. Every access
goes through `load` and `store`, which fail on a freed cell: `none` is a step that has touched one.
-/

namespace Netdisk

inductive Ptr
  | null
  | node (addr : Nat)
  /-- The stack node of a call of `dequeue`; dangling once that call has returned. -/
  | temp
deriving DecidableEq

structure Node where
  train : TransFile
  netfd : Int
  next : Ptr
deriving DecidableEq

inductive Cell
  | live (n : Node)
  | freed
deriving DecidableEq

/-- `TaskQueue` together with the heap its nodes live in. -/
structure TaskQueue where
  heap : List Cell := []
  head : Ptr := .null
  tail : Ptr := .null
  queueSize : Int := 0
  maxSize : Int
  shortCommandSize : Int := 0
deriving DecidableEq

/-- What a node carries: the descriptor and the frame read from it. -/
structure Task where
  netfd : Int
  train : TransFile
deriving DecidableEq

def Node.task (n : Node) : Task := ⟨n.netfd, n.train⟩

def load (heap : List Cell) : Ptr → Option Node
  | .node a => match heap[a]? with
    | some (.live n) => some n
    | _ => none
  | _ => none

/-- `p->next = q`. -/
def storeNext (heap : List Cell) (p q : Ptr) : Option (List Cell) :=
  match p, load heap p with
  | .node a, some n => some (heap.set a (.live { n with next := q }))
  | _, _ => none

def free (heap : List Cell) : Ptr → List Cell
  | .node a => heap.set a .freed
  | _ => heap

namespace TaskQueue

/-- `enqueue`: the returned code and the new queue. -/
def enqueue (q : TaskQueue) (netfd : Int) (train : TransFile) : Option (Int × TaskQueue) :=
  if q.queueSize = q.maxSize then some (-1, q)
  else do
    let fdNode := Ptr.node q.heap.length
    let heap := q.heap ++ [.live ⟨train, netfd, .null⟩]
    let q ← if q.queueSize = 0 then some { q with heap := heap, head := fdNode }
      else do
        let heap ← storeNext heap q.tail fdNode
        some { q with heap := heap }
    some (0, { q with
      tail := fdNode
      queueSize := q.queueSize + 1
      shortCommandSize := if train.isLong then q.shortCommandSize else q.shortCommandSize + 1 })

/-- The exit test of the search loop: a long task for any thread but the short one, a short task
for the short thread. -/
def wanted (short : Bool) (train : TransFile) : Bool :=
  if train.isLong then !short else short

/-- `prev->next`; `head` is the value of `temp.next`. -/
def nextOf (heap : List Cell) (head prev : Ptr) : Option Ptr :=
  if prev = .temp then some head else (load heap prev).map Node.next

/-- The search loop `while(cur!=NULL)`. -/
def search (heap : List Cell) (head : Ptr) (short : Bool) : Nat → Ptr → Ptr → Option (Ptr × Ptr)
  | 0, _, _ => none
  | fuel + 1, prev, cur =>
    if cur = .null then some (prev, cur)
    else do
      let c ← load heap cur
      if wanted short c.train then some (prev, cur)
      else do
        let prev ← nextOf heap head prev
        search heap head short fuel prev c.next

/-- The loop over `test_node` that logs every `command_no`. -/
def logLoop (heap : List Cell) : Nat → Ptr → Option Unit
  | 0, _ => none
  | fuel + 1, testNode =>
    if testNode = .null then some ()
    else do
      let n ← load heap testNode
      logLoop heap fuel n.next

/-- The end of `dequeue`, once `cur` (with content `c`) is unlinked and `prev` was before it. -/
def detach (q : TaskQueue) (prev cur : Ptr) (c : Node) : TaskQueue :=
  { q with
    heap := free q.heap cur
    tail := if c.next = .null then prev else q.tail
    queueSize := q.queueSize - 1
    shortCommandSize := if c.train.isLong then q.shortCommandSize else q.shortCommandSize - 1 }

/-- `dequeue`, called by the short thread or by another one: the returned descriptor, the frame
copied to `train` (none when nothing was copied) and the new queue. -/
def dequeue (q : TaskQueue) (short : Bool) : Option (Int × Option TransFile × TaskQueue) :=
  if q.head = .null then some (-1, none, q)
  else do
    let fuel := q.heap.length + 1
    let (prev, cur) ← search q.heap q.head short fuel .temp q.head
    logLoop q.heap fuel q.head
    if cur = .null ∧ short = false then do
      -- no long task: the other threads take the head
      let c ← load q.heap q.head
      some (c.netfd, some c.train, { q with head := c.next }.detach prev q.head c)
    else if cur ≠ .null then do
      let c ← load q.heap cur
      -- behind the dummy node this assigns `temp.next`, and `queue->head` stays as it was
      let heap ← if prev = .temp then some q.heap else storeNext q.heap prev c.next
      some (c.netfd, some c.train, { q with heap := heap }.detach prev cur c)
    else some (-1, none, q)

/-- The wait condition of `thread()`: no task, or none that the short thread may take. -/
def waits (q : TaskQueue) (short : Bool) : Bool :=
  q.queueSize ≤ 0 || (short && q.shortCommandSize == 0)

end TaskQueue

end Netdisk

import Netdisk.HandBack
import Netdisk.Lib.Tally
import Netdisk.Lib.Threads
import Netdisk.Shutdown
import Mathlib.Tactic.Abel

/-!
# Where a descriptor is (`main.c`, `thread.c`)

A client's descriptor goes from the epoll set through the hands of the main loop into the queue, from
there to a worker, and back through the pipe. `placed_of_handsOn`: none is lost on the way as long as
there is room in the queue, `dequeue` leaves it whole, and what a worker does with a connection fits the
number of the command.
-/

namespace Netdisk
open Runs Tally

/-! ### The main loop and the workers -/

/-- A task in the hands of a worker: what has been done for it, and what is still to do. -/
structure Hand where
  task : Task
  log : Log := []
  rest : Os TokenInfo

/-- The variables of `thread`. -/
structure Worker where
  token : TokenInfo
  hand : Option Hand := none

structure Server where
  q : TaskQueue
  /-- The connections that are accepted and not closed. -/
  opened : List Int := []
  epoll : List Int := []
  /-- What the main loop has taken out of the epoll set. -/
  reading : Option Int := none
  workers : List Worker
  pipe : List Int := []

inductive ServerAct
  | accept (newFd : Int)
  /-- `epoll_wait` reports a client, `remove_node` -/
  | ready (clientFd : Int)
  /-- `recv_num <= 0` -/
  | hangUp
  /-- A frame is received and goes to `enqueue`. -/
  | frame (train : TransFile)
  /-- The main loop reads the pipe. -/
  | add
  /-- Worker `i` calls `dequeue`. -/
  | take (i : Nat) (rand : CStr)
  /-- Worker `i` makes one call. -/
  | call (i : Nat) (e : Prog.Event osSig)
  /-- Worker `i` is through with its task. -/
  | finish (i : Nat)

namespace Server

/-- `init_work_condition`; nobody sets the `token` of a worker. -/
def init (tokens : List TokenInfo) : Server where
  q := { maxSize := 3 * tokens.length }
  workers := tokens.map fun token => { token }

/-- What becomes of the connections when a task's handler makes a call. Files have other descriptors
than connections, so it closes its own one or none, and that once. -/
def closeBy (opened : List Int) (h : Hand) (e : Prog.Event osSig) : List Int :=
  if (e.op : Op) = .close h.task.netfd ∧ h.log.closed h.task.netfd = false then opened.erase h.task.netfd else opened

def act (E : Env) (s : Server) : ServerAct → Option Server
  | .accept newFd =>
    if s.reading = none ∧ newFd ∉ s.opened then
      some { s with opened := newFd :: s.opened, epoll := newFd :: s.epoll }
    else none
  | .ready clientFd =>
    if s.reading = none ∧ clientFd ∈ s.epoll then
      some { s with epoll := s.epoll.erase clientFd, reading := some clientFd }
    else none
  | .hangUp => s.reading.map fun fd => { s with reading := none, opened := s.opened.erase fd }
  | .frame train => s.reading.bind fun fd => (s.q.enqueue fd train).map fun x => { s with q := x.2, reading := none }
  | .add => match s.reading, s.pipe with
    -- `epoll_ctl` fails on a closed descriptor and on one that is there already
    | none, fd :: pipe => if fd ∈ s.opened ∧ fd ∉ s.epoll then some { s with epoll := fd :: s.epoll, pipe } else none
    | _, _ => none
  | .take i rand => s.workers[i]?.bind fun w =>
    if w.hand.isSome ∨ s.q.waits (PthreadPool.isShort i) = true then none
    else (s.q.dequeue (PthreadPool.isShort i)).map fun
      | (fd, some train, q) => { s with
          q
          workers := s.workers.set i { w with hand := some { task := ⟨fd, train⟩, rest := serve E rand fd train w.token } } }
      | (_, none, q) => { s with q }
  | .call i e => s.workers[i]?.bind fun w => w.hand.bind fun h => (h.rest.step e).map fun rest => { s with
      opened := closeBy s.opened h e
      workers := s.workers.set i { w with hand := some { h with log := h.log ++ [e], rest } } }
  | .finish i => s.workers[i]?.bind fun w => w.hand.bind fun h => match h.rest with
    | .pure token => some { s with
        workers := s.workers.set i { token }
        pipe := if handsBack h.task.train then s.pipe ++ [h.task.netfd] else s.pipe }
    | .op .. => none

abbrev Step (E : Env) (s : Server) (a : ServerAct) (t : Server) : Prop := s.act E a = some t

end Server

/-! ### The places -/

/-- The tasks from `p` on, `n` of them at most, as far as the nodes are live. -/
def TaskQueue.walk (heap : List Cell) : (n : Nat) → Ptr → List Task
  | 0, _ => []
  | n + 1, p => match load heap p with
    | some node => node.task :: walk heap n node.next
    | none => []

/-- What `head`, `next` and `queue_size` lead to. -/
def TaskQueue.contents (q : TaskQueue) : List Task := walk q.heap q.queueSize.toNat q.head

/-- The connection in a worker's hands, if it has not closed it. -/
def Worker.holds (w : Worker) : Multiset Int :=
  match w.hand with
  | some h => if h.log.closed h.task.netfd then 0 else {h.task.netfd}
  | none => 0

/-- The epoll set, the hands of the main loop, the queue, the hands of the workers, the pipe. -/
def Server.places (s : Server) : Multiset Int :=
  ↑s.epoll + ↑s.reading.toList + ↑(s.q.contents.map (·.netfd)) + tally Worker.holds s.workers + ↑s.pipe

/-- Every open connection is in exactly one place. -/
def Server.Placed (s : Server) : Prop := ∀ fd ∈ s.opened, s.places.count fd = 1

instance (s : Server) : Decidable s.Placed := inferInstanceAs (Decidable (∀ fd ∈ s.opened, s.places.count fd = 1))

/-- There is room for a frame; `dequeue` does not take the first of several tasks by its search; and a
task whose connection the handler has closed, and no other, is one of `puts` or `gets` by its number. -/
def HandsOn (E : Env) (s : Server) : ServerAct → Prop
  | .frame _ => s.q.queueSize ≠ s.q.maxSize
  | .take i _ => s.q.queueSize ≤ 1 ∨
      ∀ n, load s.q.heap s.q.head = some n → TaskQueue.wanted (PthreadPool.isShort i) n.train = false
  | .finish i => ∀ (w : Worker) (h : Hand) (token : TokenInfo), s.workers[i]? = some w → w.hand = some h →
      h.rest = .pure token → (h.task.train.isLong = true ↔ Transfers E h.task.train h.log)
  | _ => True

theorem Log.closed_snoc {fd : Int} {log : Log} {e : Prog.Event osSig} :
    Log.closed fd (log ++ [e]) = (log.closed fd || decide ((e.op : Op) = .close fd)) := by
  simp [Log.closed]

theorem Worker.holds_free {w : Worker} (h : w.hand = none) : w.holds = 0 := by rw [Worker.holds, h]

theorem Worker.holds_hand {w : Worker} {hand : Hand} (h : w.hand = some hand) :
    w.holds = if hand.log.closed hand.task.netfd then 0 else {hand.task.netfd} := by rw [Worker.holds, h]

/-! ### The queue as a list -/

section Contents
variable {q : TaskQueue} {l : List (Ptr × Node)}

theorem TaskQueue.walk_eq {heap : List Cell} {p : Ptr} (h : Chain heap p l) : walk heap l.length p = tasks l := by
  induction l generalizing p with
  | nil => rfl
  | cons x l ih =>
    obtain ⟨a, n⟩ := x
    obtain ⟨rfl, hn, hs⟩ := Linked.seg_cons.1 h
    rw [List.length_cons, walk, hn]
    exact congrArg (n.task :: ·) (ih hs)

theorem TaskQueue.Holds.contents_eq (h : q.Holds l) : q.contents = tasks l := by
  rw [contents, h.size, Int.toNat_natCast]
  rcases eq_or_ne l [] with rfl | hne
  · rfl
  · exact walk_eq (h.chain hne)

end Contents

/-! ### No connection is lost -/

namespace Server
variable {E : Env} {s t : Server}

/-- The queue is whole, every open connection has its place, and a worker with a task in its hands is
somewhere in `serve`. -/
structure Inv (E : Env) (s : Server) : Prop where
  queue : ∃ l, s.q.Holds l
  places : s.places = ↑s.opened
  nodup : s.opened.Nodup
  serving : ∀ (i : Nat) (w : Worker) (h : Hand), s.workers[i]? = some w → w.hand = some h → ∃ rand token, ∀ log token',
    h.rest.Does log token' → (serve E rand h.task.netfd h.task.train token).Does (h.log ++ log) token'

theorem Inv.placed (h : Inv E s) : s.Placed := by
  intro fd hfd
  rw [h.places, Multiset.coe_count]
  exact List.count_eq_one_of_mem h.nodup hfd

theorem init_inv (tokens : List TokenInfo) : Inv E (init tokens) where
  queue := ⟨[], rfl, rfl, by simp, by simp, by simp⟩
  places := by
    have htally : tally Worker.holds (tokens.map fun token => ({ token } : Worker)) = 0 := by
      induction tokens with
      | nil => rfl
      | cons token tokens ih =>
        rw [List.map_cons, tally_cons, ih]
        rfl
    have hworkers : (init tokens).workers = tokens.map fun token => ({ token } : Worker) := rfl
    rw [Server.places, hworkers, htally]
    rfl
  nodup := List.nodup_nil
  serving := fun i w h hw hhand => by
    obtain ⟨token, -, rfl⟩ := List.mem_map.1 (List.mem_of_getElem? hw)
    cases hhand

theorem Inv.accept {newFd : Int} (h : Inv E s) (hst : Step E s (.accept newFd) t) : Inv E t := by
  obtain ⟨⟨-, hnew⟩, ht⟩ := Option.ite_none_right_eq_some.1 hst
  obtain rfl := Option.some.inj ht
  refine ⟨h.queue, ?_, List.nodup_cons.2 ⟨hnew, h.nodup⟩, h.serving⟩
  rw [Server.places, ← Multiset.cons_coe, ← Multiset.cons_coe, ← h.places, Server.places]
  simp only [Multiset.cons_add]

theorem coe_erase {l : List Int} {fd : Int} (h : fd ∈ l) : (↑l : Multiset Int) = {fd} + ↑(l.erase fd) :=
  Multiset.coe_eq_coe.2 (List.perm_cons_erase h)

theorem Inv.ready {clientFd : Int} (h : Inv E s) (hst : Step E s (.ready clientFd) t) : Inv E t := by
  obtain ⟨⟨hreading, hmem⟩, ht⟩ := Option.ite_none_right_eq_some.1 hst
  obtain rfl := Option.some.inj ht
  refine ⟨h.queue, ?_, h.nodup, h.serving⟩
  rw [← h.places, Server.places, Server.places, hreading, coe_erase hmem]
  simp only [Option.toList_some, Option.toList_none, Multiset.coe_singleton, Multiset.coe_nil]
  abel

theorem Inv.hangUp (h : Inv E s) (hst : Step E s .hangUp t) : Inv E t := by
  obtain ⟨fd, hreading, rfl⟩ := Option.map_eq_some_iff.1 hst
  have hplaces := h.places
  rw [Server.places, hreading] at hplaces
  have hmem : fd ∈ s.opened := by
    rw [← Multiset.mem_coe, ← hplaces]
    simp
  refine ⟨h.queue, add_left_cancel (a := {fd}) ?_, h.nodup.erase fd, h.serving⟩
  rw [← coe_erase hmem, ← hplaces, Server.places]
  simp only [Option.toList_some, Option.toList_none, Multiset.coe_singleton, Multiset.coe_nil]
  abel

theorem Inv.frame {train : TransFile} (h : Inv E s) (hroom : s.q.queueSize ≠ s.q.maxSize) (hst : Step E s (.frame train) t) :
    Inv E t := by
  obtain ⟨fd, hreading, ht⟩ := Option.bind_eq_some_iff.1 hst
  obtain ⟨l, hl⟩ := h.queue
  obtain ⟨q', l', heq, hl', htasks, -⟩ := hl.enqueue_room hroom fd train
  rw [heq] at ht
  obtain rfl := Option.some.inj ht
  refine ⟨⟨l', hl'⟩, ?_, h.nodup, h.serving⟩
  rw [← h.places, Server.places, Server.places, hreading, hl.contents_eq, hl'.contents_eq, htasks, List.map_append, ← Multiset.coe_add]
  simp only [Option.toList_some, Option.toList_none, Multiset.coe_singleton, Multiset.coe_nil, List.map_cons, List.map_nil]
  abel

theorem Inv.add (h : Inv E s) (hst : Step E s .add t) : Inv E t := by
  simp only [Step, act] at hst
  split at hst
  · next fd pipe hreading hpipe =>
    obtain ⟨-, ht⟩ := Option.ite_none_right_eq_some.1 hst
    obtain rfl := Option.some.inj ht
    refine ⟨h.queue, ?_, h.nodup, h.serving⟩
    rw [← h.places, Server.places, Server.places, hpipe, ← Multiset.cons_coe, ← Multiset.cons_coe, ← Multiset.singleton_add,
      ← Multiset.singleton_add fd ↑pipe]
    abel
  · cases hst

/-- The worker's part of the state changes, and what it holds moves to or from elsewhere. -/
theorem Inv.worker {i : Nat} {w w' : Worker} (h : Inv E s) (hw : s.workers[i]? = some w) {q : TaskQueue} {opened pipe : List Int}
    (hq : ∃ l, q.Holds l) (hnodup : opened.Nodup)
    (hmoved : (↑(q.contents.map (·.netfd)) + w'.holds + ↑pipe + ↑s.opened : Multiset Int) =
      ↑(s.q.contents.map (·.netfd)) + w.holds + ↑s.pipe + ↑opened)
    (hserving : ∀ h, w'.hand = some h → ∃ rand token, ∀ log token', h.rest.Does log token' →
      (serve E rand h.task.netfd h.task.train token).Does (h.log ++ log) token') :
    Inv E { s with q, opened, pipe, workers := s.workers.set i w' } where
  queue := hq
  places := by
    have hplaces := h.places
    have hset := tally_set (f := Worker.holds) hw w'
    rw [Server.places] at hplaces ⊢
    ext fd
    have hplaces := congrArg (Multiset.count fd) hplaces
    have hset := congrArg (Multiset.count fd) hset
    have hmoved := congrArg (Multiset.count fd) hmoved
    simp only [Multiset.count_add] at hplaces hset hmoved ⊢
    omega
  nodup := hnodup
  serving := fun j x hand hx hhand => by
    rcases Threads.getElem?_set_cases hx with ⟨rfl, rfl⟩ | ⟨-, hx⟩
    · exact hserving hand hhand
    · exact h.serving j x hand hx hhand

theorem Inv.take {i : Nat} {rand : CStr} (h : Inv E s)
    (hspare : s.q.queueSize ≤ 1 ∨ ∀ n, load s.q.heap s.q.head = some n → TaskQueue.wanted (PthreadPool.isShort i) n.train = false)
    (hst : Step E s (.take i rand) t) : Inv E t := by
  obtain ⟨w, hw, ht⟩ := Option.bind_eq_some_iff.1 hst
  obtain ⟨hfree, ht⟩ := Option.ite_none_left_eq_some.1 ht
  obtain ⟨hhand, hwaits⟩ := not_or.1 hfree
  obtain ⟨l, hl⟩ := h.queue
  have hhead : l.length ≤ 1 ∨ ∀ x ∈ l.head?, TaskQueue.wanted (PthreadPool.isShort i) x.2.train = false := by
    refine hspare.imp (fun hsize => ?_) fun hspare x hx => ?_
    · rw [hl.size] at hsize
      omega
    · obtain ⟨p, n⟩ := x
      obtain ⟨l, rfl⟩ := List.head?_eq_some_iff.1 hx
      exact hspare n (hl.chain (by simp)).head_read
  obtain ⟨q', l', task, hdeq, hl', hselect⟩ := hl.dequeue_select (Bool.not_eq_true _ ▸ hwaits) hhead
  rw [hdeq] at ht
  obtain rfl := Option.some.inj ht
  have hperm := (select_perm hselect).map (·.netfd)
  refine h.worker hw ⟨l', hl'⟩ h.nodup ?_ fun hand hhand' => ?_
  · have hcontents : (↑(s.q.contents.map (·.netfd)) : Multiset Int) = {task.netfd} + ↑(q'.contents.map (·.netfd)) := by
      rw [hl.contents_eq, hl'.contents_eq]
      exact Multiset.coe_eq_coe.2 hperm.symm
    have hfree : w.holds = 0 := Worker.holds_free (by simpa using hhand)
    show (↑(q'.contents.map (·.netfd)) + {task.netfd} + ↑s.pipe + ↑s.opened : Multiset Int) = _
    rw [hcontents, hfree]
    abel
  · obtain rfl := Option.some.inj hhand'
    exact ⟨rand, w.token, fun log token' hdoes => hdoes⟩

theorem Inv.call {i : Nat} {e : Prog.Event osSig} (h : Inv E s) (hst : Step E s (.call i e) t) : Inv E t := by
  obtain ⟨w, hw, ht⟩ := Option.bind_eq_some_iff.1 hst
  obtain ⟨hand, hhand, ht⟩ := Option.bind_eq_some_iff.1 ht
  obtain ⟨rest, hrest, rfl⟩ := Option.map_eq_some_iff.1 ht
  have hserving : ∀ hand', some { hand with log := hand.log ++ [e], rest } = some hand' → ∃ rand token, ∀ log token',
      hand'.rest.Does log token' → (serve E rand hand'.task.netfd hand'.task.train token).Does (hand'.log ++ log) token' := by
    rintro _ ⟨⟩
    obtain ⟨rand, token, hdoes⟩ := h.serving i w hand hw hhand
    refine ⟨rand, token, fun log token' hlog => ?_⟩
    show (serve E rand hand.task.netfd hand.task.train token).Does (hand.log ++ [e] ++ log) token'
    rw [List.append_assoc]
    exact hdoes _ token' (.of_step hrest hlog)
  have hholds := Worker.holds_hand hhand
  by_cases hclose : (e.op : Op) = .close hand.task.netfd ∧ hand.log.closed hand.task.netfd = false
  · rw [if_neg (by simp [hclose.2])] at hholds
    have hmem : hand.task.netfd ∈ s.opened := by
      rw [← Multiset.mem_coe, ← h.places, Server.places]
      have htally : hand.task.netfd ∈ tally Worker.holds s.workers :=
        mem_tally.2 ⟨w, List.mem_of_getElem? hw, by simp [hholds]⟩
      simp [htally]
    have hopened : closeBy s.opened hand e = s.opened.erase hand.task.netfd := if_pos hclose
    rw [hopened]
    refine h.worker hw h.queue (h.nodup.erase _) ?_ hserving
    rw [hholds, Worker.holds_hand rfl, if_pos (by simp [Log.closed_snoc, hclose.1]), coe_erase hmem]
    abel
  · have hopened : closeBy s.opened hand e = s.opened := if_neg hclose
    rw [hopened]
    refine h.worker hw h.queue h.nodup ?_ hserving
    have hsame : (hand.log ++ [e]).closed hand.task.netfd = hand.log.closed hand.task.netfd := by
      rw [Log.closed_snoc]
      cases hlog : hand.log.closed hand.task.netfd with
      | true => rfl
      | false => exact decide_eq_false fun heq => hclose ⟨heq, hlog⟩
    rw [hholds, Worker.holds_hand rfl]
    dsimp only
    rw [hsame]

theorem Inv.finish {i : Nat} (h : Inv E s) (hfits : HandsOn E s (.finish i)) (hst : Step E s (.finish i) t) : Inv E t := by
  obtain ⟨w, hw, ht⟩ := Option.bind_eq_some_iff.1 hst
  obtain ⟨hand, hhand, ht⟩ := Option.bind_eq_some_iff.1 ht
  obtain ⟨rand, token₀, hdoes⟩ := h.serving i w hand hw hhand
  cases hrest : hand.rest with
  | op o k =>
    rw [hrest] at ht
    cases ht
  | pure token =>
    rw [hrest] at ht hdoes
    obtain rfl := Option.some.inj ht
    have hlog := hdoes [] token (.pure token)
    rw [List.append_nil] at hlog
    have hclosed := (closed_iff_transfers hlog).trans (hfits w hand token hw hhand hrest).symm
    refine h.worker hw h.queue h.nodup ?_ nofun
    rw [Worker.holds_hand hhand, Worker.holds_free rfl, handsBack]
    cases hlong : hand.task.train.isLong with
    | true =>
      rw [if_pos (hclosed.2 hlong)]
      rfl
    | false =>
      have hopen : ¬ hand.log.closed hand.task.netfd = true := fun hc => by simp [hclosed.1 hc] at hlong
      rw [if_neg hopen]
      simp only [Bool.not_false, if_true, ← Multiset.coe_add, Multiset.coe_singleton]
      abel

theorem Inv.step {a : ServerAct} (h : Inv E s) (hC : HandsOn E s a) (hst : Step E s a t) : Inv E t := by
  cases a with
  | accept newFd => exact h.accept hst
  | ready clientFd => exact h.ready hst
  | hangUp => exact h.hangUp hst
  | frame train => exact h.frame hC hst
  | add => exact h.add hst
  | take i rand => exact h.take hC hst
  | call i e => exact h.call hst
  | finish i => exact h.finish hC hst

/-- In every run whose steps all hand their connections on, every state has each open connection in
exactly one place. -/
theorem placed_of_handsOn {tokens : List TokenInfo} {r : List (ServerAct × Server)} (hr : IsRun (Step E) (init tokens) r)
    (hC : Meets (HandsOn E) (init tokens) r) : Always Placed (init tokens) r :=
  (hr.always (I := Inv E) (fun _ _ _ => Inv.step) (init_inv tokens) hC).mono fun _ => Inv.placed

/-- One worker answers a request whose token is refused. -/
def refusal (commandNo : Int) : List ServerAct :=
  [.accept 4, .ready 4, .frame { data := "ls".toList, dataLength := 2, commandNo, token := "x".toList }, .take 1 [],
    .call 1 ⟨.time, (1 : Nat)⟩,
    .call 1 ⟨.send 4 { data := utf8 "请重新登录", dataLength := (utf8 "请重新登录").length }, ()⟩, .finish 1]

theorem placed_of_handsOn_refusal :
    Always Placed (init [{}, {}]) (trace (act .plain) (init [{}, {}]) (refusal 1)) := by
  refine placed_of_handsOn (E := .plain) (isRun_trace ..) ⟨trivial, trivial, (by decide : (0 : Int) ≠ 6), ?_, trivial, trivial, ?_, trivial⟩
  · exact .inl (by decide : (1 : Int) ≤ 1)
  · intro w h token hw hhand hrest
    obtain rfl := Option.some.inj hw
    obtain rfl := Option.some.inj hhand
    refine iff_of_false nofun ?_
    rintro ⟨⟨now, info, hnow, hinfo⟩, -⟩
    obtain rfl := Option.some.inj hnow
    exact absurd (hinfo.symm.trans (by decide +kernel : Env.plain.jwt.verifyToken 1 ['x'] = none)) nofun

/-- The connection of a request with the number of `puts` is neither closed nor handed back when the
token is refused. -/
theorem abandoned : ¬ ∀ E tokens s, Reaches (Step E) (init tokens) s → s.Placed := by
  intro h
  have hlost := h .plain [{}, {}] _ (.of_trace (act .plain) _ (refusal 5))
  revert hlost
  decide +kernel

end Server

end Netdisk

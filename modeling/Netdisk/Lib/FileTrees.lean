import Netdisk.Lib.Runs

/-!
# Trees of files of many users

What a store of files is for, apart from any way of keeping one. Every user has a tree of directories
and files; a path is the list of the names on it, the first of which is that of the user's home. Files
hold contents, which are shared, and a content is whole or not yet. `Step` says what each call does to
the trees and what it answers.
-/

namespace FileTrees
open Runs

/-- What a path leads to. -/
inductive Node (κ : Type*)
  | dir
  | file (content : κ)

/-- The trees, and for each content that is there whether it is whole. -/
structure State (υ ν κ : Type*) where
  node : υ → List ν → Option (Node κ)
  content : κ → Option Bool
  top : ∀ u, node u [] = none
  above : ∀ {u p n}, p ≠ [] → node u (p ++ [n]) ≠ none → node u p = some .dir
  home : ∀ {u n n'}, node u [n] ≠ none → node u [n'] ≠ none → n = n'
  homeDir : ∀ {u n x}, node u [n] = some x → x = .dir
  owner : ∀ {u v n}, node u [n] ≠ none → node v [n] ≠ none → u = v
  there : ∀ {u p c}, node u p = some (.file c) → content c ≠ none

inductive Call (υ ν κ : Type*)
  | register (name : ν)
  | mkdir (user : υ) (path : List ν) (name : ν)
  | put (user : υ) (path : List ν) (name : ν) (content : κ)
  | finish (content : κ)
  | remove (user : υ) (path : List ν) (name : ν)

inductive Answer (υ : Type*)
  /-- Registered as this user. -/
  | user (u : υ)
  | done
  /-- There is something else of that name. -/
  | taken
  /-- The path does not lead to a directory. -/
  | nowhere
  /-- The file is recorded, and its content is whole already. -/
  | whole
  /-- The file is recorded, and its content is yet to be sent. -/
  | pending
  | missing
  /-- A directory that is not empty. -/
  | full

variable {υ ν κ : Type*}

open Classical in
/-- The trees with something else at one place. -/
noncomputable def setNode (node : υ → List ν → Option (Node κ)) (u : υ) (q : List ν) (x : Option (Node κ)) :
    υ → List ν → Option (Node κ) :=
  fun v r => if v = u ∧ r = q then x else node v r

section SetNode
variable {node : υ → List ν → Option (Node κ)} {u v : υ} {q r : List ν} {x : Option (Node κ)}

theorem setNode_self : setNode node u q x u q = x := by
  classical exact if_pos ⟨rfl, rfl⟩

theorem setNode_of_ne (h : ¬ (v = u ∧ r = q)) : setNode node u q x v r = node v r := by
  classical exact if_neg h

theorem setNode_nil {p : List ν} {n : ν} : setNode node u (p ++ [n]) x v [] = node v [] := by
  refine setNode_of_ne ?_
  rintro ⟨-, heq⟩
  exact absurd heq.symm (List.append_ne_nil_of_right_ne_nil p (List.cons_ne_nil n []))

/-- The homes are not below anything. -/
theorem setNode_home {p : List ν} {n m : ν} (hp : p ≠ []) : setNode node u (p ++ [n]) x v [m] = node v [m] := by
  refine setNode_of_ne ?_
  rintro ⟨-, heq⟩
  obtain ⟨hnil, -⟩ := List.append_inj' (List.nil_append [m] ▸ heq : [] ++ [m] = p ++ [n]) rfl
  exact hp hnil.symm

/-- What is there either is new or was there. -/
theorem eq_of_setNode {y : Option (Node κ)} (h : setNode node u q x v r = y) :
    v = u ∧ r = q ∧ x = y ∨ ¬ (v = u ∧ r = q) ∧ node v r = y := by
  by_cases hq : v = u ∧ r = q
  · rcases hq with ⟨rfl, rfl⟩
    rw [setNode_self] at h
    exact .inl ⟨rfl, rfl, h⟩
  · rw [setNode_of_ne hq] at h
    exact .inr ⟨hq, h⟩

end SetNode

namespace State

variable {s : State υ ν κ} {u v : υ} {p q : List ν} {n m : ν} {c d : κ}

/-- No users, no files. -/
def empty : State υ ν κ where
  node _ _ := none
  content _ := none
  top _ := rfl
  above _ h := absurd rfl h
  home h := absurd rfl h
  homeDir := nofun
  owner h := absurd rfl h
  there := nofun

theorem node_ne_nil {x : Node κ} (h : s.node u p = some x) : p ≠ [] := by
  rintro rfl
  rw [s.top] at h
  cases h

/-- A user with a home. -/
noncomputable def register (s : State υ ν κ) (u : υ) (n : ν) (hu : ∀ p, s.node u p = none)
    (hn : ∀ v, s.node v [n] = none) : State υ ν κ where
  node := setNode s.node u [n] (some .dir)
  content := s.content
  top v := (setNode_nil (p := [])).trans (s.top v)
  above {v p m} hp h := by
    by_cases hv : v = u
    · subst hv
      rw [setNode_of_ne ?_] at h
      · exact absurd (hu _) h
      · rintro ⟨-, heq⟩
        obtain ⟨hnil, -⟩ := List.append_inj' (List.nil_append [n] ▸ heq : p ++ [m] = [] ++ [n]) rfl
        exact hp hnil
    · rw [setNode_of_ne fun h => hv h.1] at h ⊢
      exact s.above hp h
  home {v m m'} h h' := by
    by_cases hv : v = u
    · subst hv
      have hname : ∀ m, setNode s.node v [n] (some .dir) v [m] ≠ none → m = n := by
        intro m hm
        by_contra hne
        rw [setNode_of_ne fun h => hne (List.singleton_inj.1 h.2)] at hm
        exact hm (hu _)
      rw [hname m h, hname m' h']
    · rw [setNode_of_ne fun h => hv h.1] at h h'
      exact s.home h h'
  homeDir {v m x} h := by
    rcases eq_of_setNode h with ⟨-, -, hx⟩ | ⟨-, hx⟩
    · exact (Option.some.inj hx).symm
    · exact s.homeDir hx
  owner {v w m} h h' := by
    have hcase : ∀ v, setNode s.node u [n] (some .dir) v [m] ≠ none → v = u ∧ m = n ∨ m ≠ n ∧ s.node v [m] ≠ none := by
      intro v hv
      by_cases hm : m = n
      · subst hm
        by_cases hvu : v = u
        · exact .inl ⟨hvu, rfl⟩
        · rw [setNode_of_ne fun h => hvu h.1] at hv
          exact absurd (hn v) hv
      · rw [setNode_of_ne fun h => hm (List.singleton_inj.1 h.2)] at hv
        exact .inr ⟨hm, hv⟩
    rcases hcase v h with ⟨rfl, hm⟩ | ⟨hm, hv⟩ <;> rcases hcase w h' with ⟨rfl, hm'⟩ | ⟨hm', hw⟩
    · rfl
    · exact absurd hm hm'
    · exact absurd hm' hm
    · exact s.owner hv hw
  there {v p c} h := by
    rcases eq_of_setNode h with ⟨-, -, hx⟩ | ⟨-, hx⟩
    · cases hx
    · exact s.there hx

/-- One entry more in a directory. -/
noncomputable def add (s : State υ ν κ) (u : υ) (p : List ν) (n : ν) (x : Node κ) (hp : s.node u p = some .dir)
    (hfree : s.node u (p ++ [n]) = none) (hx : ∀ c, x = .file c → s.content c ≠ none) : State υ ν κ where
  node := setNode s.node u (p ++ [n]) (some x)
  content := s.content
  top v := setNode_nil.trans (s.top v)
  above {v q m} hq h := by
    have hdir : s.node v q = some .dir := by
      rcases Option.ne_none_iff_exists'.1 h with ⟨y, hy⟩
      rcases eq_of_setNode hy with ⟨rfl, heq, -⟩ | ⟨-, hy⟩
      · obtain ⟨rfl, -⟩ := List.append_inj' heq rfl
        exact hp
      · exact s.above hq (hy ▸ Option.some_ne_none y)
    rw [setNode_of_ne ?_]
    · exact hdir
    · rintro ⟨rfl, rfl⟩
      rw [hfree] at hdir
      cases hdir
  home {v m m'} h h' := by
    rw [setNode_home (node_ne_nil hp)] at h h'
    exact s.home h h'
  homeDir {v m y} h := by
    rw [setNode_home (node_ne_nil hp)] at h
    exact s.homeDir h
  owner {v w m} h h' := by
    rw [setNode_home (node_ne_nil hp)] at h h'
    exact s.owner h h'
  there {v q c} h := by
    rcases eq_of_setNode h with ⟨-, -, heq⟩ | ⟨-, heq⟩
    · exact hx c (Option.some.inj heq)
    · exact s.there heq

/-- An entry less, with nothing below it; homes stay. -/
noncomputable def erase (s : State υ ν κ) (u : υ) (p : List ν) (n : ν) (hp : p ≠ [])
    (hempty : ∀ m, s.node u (p ++ [n] ++ [m]) = none) : State υ ν κ where
  node := setNode s.node u (p ++ [n]) none
  content := s.content
  top v := setNode_nil.trans (s.top v)
  above {v q m} hq h := by
    have hold : s.node v (q ++ [m]) ≠ none := by
      intro hnone
      by_cases hv : v = u ∧ q ++ [m] = p ++ [n]
      · rcases hv with ⟨rfl, heq⟩
        rw [heq, setNode_self] at h
        exact h rfl
      · rw [setNode_of_ne hv] at h
        exact h hnone
    rw [setNode_of_ne ?_]
    · exact s.above hq hold
    · rintro ⟨rfl, rfl⟩
      exact hold (hempty m)
  home {v m m'} h h' := by
    rw [setNode_home hp] at h h'
    exact s.home h h'
  homeDir {v m x} h := by
    rw [setNode_home hp] at h
    exact s.homeDir h
  owner {v w m} h h' := by
    rw [setNode_home hp] at h h'
    exact s.owner h h'
  there {v q c} h := by
    rcases eq_of_setNode h with ⟨-, -, hx⟩ | ⟨-, hx⟩
    · cases hx
    · exact s.there hx

open Classical in
/-- A content that is there from now on. -/
noncomputable def record (s : State υ ν κ) (c : κ) : State υ ν κ where
  node := s.node
  content := Function.update s.content c (some ((s.content c).getD false))
  top := s.top
  above := s.above
  home := s.home
  homeDir := s.homeDir
  owner := s.owner
  there {u p d} h := by
    by_cases hd : d = c
    · rw [hd, Function.update_self]
      exact Option.some_ne_none _
    · rw [Function.update_of_ne hd]
      exact s.there h

open Classical in
/-- A content that is whole from now on. -/
noncomputable def finish (s : State υ ν κ) (c : κ) : State υ ν κ where
  node := s.node
  content := Function.update s.content c (some true)
  top := s.top
  above := s.above
  home := s.home
  homeDir := s.homeDir
  owner := s.owner
  there {u p d} h := by
    by_cases hd : d = c
    · rw [hd, Function.update_self]
      exact Option.some_ne_none true
    · rw [Function.update_of_ne hd]
      exact s.there h

/-- What the giver of a content is told about it. -/
def receipt (s : State υ ν κ) (c : κ) : Answer υ := if s.content c = some true then .whole else .pending

/-- The content that is delivered for a file. -/
def get (s : State υ ν κ) (u : υ) (p : List ν) (n : ν) : Option κ :=
  match s.node u (p ++ [n]) with
  | some (.file c) => if s.content c = some true then some c else none
  | _ => none

/-- A directory shows its directories and its whole files. -/
def Listed (s : State υ ν κ) (u : υ) (p : List ν) (n : ν) : Prop :=
  s.node u (p ++ [n]) = some .dir ∨ ∃ c, s.node u (p ++ [n]) = some (.file c) ∧ s.content c = some true

theorem content_record : (s.record c).content c = some ((s.content c).getD false) := by
  simp [record]

theorem content_record_of_ne (h : d ≠ c) : (s.record c).content d = s.content d := by
  classical exact Function.update_of_ne h ..

theorem content_record_of_some {b : Bool} (h : s.content d = some b) : (s.record c).content d = some b := by
  by_cases hd : d = c
  · rw [← hd, content_record, h, Option.getD_some]
  · rw [content_record_of_ne hd, h]

theorem content_record_of_there (h : s.content c ≠ none) : (s.record c).content d = s.content d := by
  obtain ⟨b, hb⟩ := Option.ne_none_iff_exists'.1 h
  by_cases hd : d = c
  · rw [hd, hb]
    exact content_record_of_some hb
  · exact content_record_of_ne hd

theorem content_finish : (s.finish c).content c = some true := by
  simp [finish]

theorem content_finish_of_ne (h : d ≠ c) : (s.finish c).content d = s.content d := by
  classical exact Function.update_of_ne h ..

theorem receipt_eq_whole : s.receipt c = (.whole : Answer υ) ↔ s.content c = some true := by
  rw [receipt]
  split
  · next h => exact iff_of_true rfl h
  · next h => exact iff_of_false nofun h

theorem receipt_of_some {b : Bool} (h : s.content c = some b) : s.receipt c = (if b then .whole else .pending : Answer υ) := by
  rw [receipt, h]
  cases b <;> rfl

theorem get_eq_some : s.get u p n = some c ↔ s.node u (p ++ [n]) = some (.file c) ∧ s.content c = some true := by
  rw [get]
  split
  · next d hd =>
    rw [hd]
    constructor
    · intro h
      split at h
      · next hc =>
        obtain rfl := Option.some.inj h
        exact ⟨rfl, hc⟩
      · cases h
    · rintro ⟨heq, hc⟩
      cases heq
      exact if_pos hc
  · next hno =>
    refine iff_of_false nofun ?_
    rintro ⟨heq, -⟩
    exact hno c heq

end State

/-- What a call does to the trees, with its answer. -/
inductive Step : State υ ν κ → Call υ ν κ × Answer υ → State υ ν κ → Prop
  | register {s u n} (hu : ∀ p, s.node u p = none) (hn : ∀ v, s.node v [n] = none) :
    Step s (.register n, .user u) (s.register u n hu hn)
  | registered {s u n} : s.node u [n] ≠ none → Step s (.register n, .taken) s
  | mkdir {s u p n} (hp : s.node u p = some .dir) (hfree : s.node u (p ++ [n]) = none) :
    Step s (.mkdir u p n, .done) (s.add u p n .dir hp hfree nofun)
  | mkdirTaken {s u p n} : s.node u p = some .dir → s.node u (p ++ [n]) ≠ none → Step s (.mkdir u p n, .taken) s
  | mkdirNowhere {s u p n} : s.node u p ≠ some .dir → Step s (.mkdir u p n, .nowhere) s
  | put {s u p n c} (hp : s.node u p = some .dir) (hfree : s.node u (p ++ [n]) = none) :
    Step s (.put u p n c, s.receipt c) ((s.record c).add u p n (.file c) hp hfree
      fun _ h => by rw [← Node.file.inj h, State.content_record]; exact Option.some_ne_none _)
  | putSame {s u p n c} : s.node u (p ++ [n]) = some (.file c) → Step s (.put u p n c, s.receipt c) s
  | putTaken {s u p n c} : s.node u p = some .dir → s.node u (p ++ [n]) ≠ none →
    s.node u (p ++ [n]) ≠ some (.file c) → Step s (.put u p n c, .taken) s
  | putNowhere {s u p n c} : s.node u p ≠ some .dir → Step s (.put u p n c, .nowhere) s
  | finish {s c} : s.content c ≠ none → Step s (.finish c, .done) (s.finish c)
  | finishNothing {s c} : s.content c = none → Step s (.finish c, .done) s
  | remove {s u p n} (hp : p ≠ []) (hempty : ∀ m, s.node u (p ++ [n] ++ [m]) = none) :
    s.node u (p ++ [n]) ≠ none → Step s (.remove u p n, .done) (s.erase u p n hp hempty)
  | removeMissing {s u p n} : s.node u (p ++ [n]) = none → Step s (.remove u p n, .missing) s
  | removeFull {s u p n m} : s.node u (p ++ [n] ++ [m]) ≠ none → Step s (.remove u p n, .full) s

section Steps
variable {s s' : State υ ν κ} {i : Call υ ν κ × Answer υ} {u : υ} {p q : List ν} {n : ν} {c : κ} {x : Node κ}
  {r : List ((Call υ ν κ × Answer υ) × State υ ν κ)}

/-- What is there stays until it is removed, by name. -/
theorem Step.node_eq (h : Step s i s') (hx : s.node u q = some x) :
    s'.node u q = some x ∨ ∃ p n, q = p ++ [n] ∧ i = (.remove u p n, .done) := by
  have hset : ∀ {v r y}, s.node v r = none → setNode s.node v r y u q = some x := by
    intro v r y hfree
    rw [setNode_of_ne ?_]
    · exact hx
    · rintro ⟨rfl, rfl⟩
      rw [hfree] at hx
      cases hx
  cases h with
  | register hu hn => exact .inl (hset (hn _))
  | mkdir hp hfree | put hp hfree => exact .inl (hset hfree)
  | @remove v p n hp hempty hthere =>
    by_cases hq : u = v ∧ q = p ++ [n]
    · rcases hq with ⟨rfl, rfl⟩
      exact .inr ⟨p, n, rfl, rfl⟩
    · exact .inl ((setNode_of_ne hq).trans hx)
  | _ => exact .inl hx

/-- A whole content stays whole. -/
theorem Step.content_eq (h : Step s i s') (hc : s.content c = some true) : s'.content c = some true := by
  cases h with
  | put => exact State.content_record_of_some hc
  | @finish d hd =>
    by_cases hcd : c = d
    · rw [hcd, State.content_finish]
    · rw [State.content_finish_of_ne hcd, hc]
  | _ => exact hc

/-- A put that is accepted leaves the file there. -/
theorem Step.node_of_put {a : Answer υ} (h : Step s (.put u p n c, a) s') (ha : a = .whole ∨ a = .pending) :
    s'.node u (p ++ [n]) = some (.file c) ∧ (a = .whole → s'.content c = some true) := by
  rcases h with _ | _ | _ | _ | _ | ⟨hp, hfree⟩ | hsame | _ | _
  · exact ⟨setNode_self, fun hw => State.content_record_of_some (State.receipt_eq_whole.1 hw)⟩
  · exact ⟨hsame, State.receipt_eq_whole.1⟩
  all_goals rcases ha with ha | ha <;> cases ha

/-- A file that is there is delivered from the time its content is whole until it is removed. -/
theorem get_of_run (hr : IsRun Step s r) (hx : s.node u (p ++ [n]) = some (.file c))
    (hc : s.content c = some true ∨ (.finish c, .done) ∈ r.map Prod.fst)
    (hkept : (.remove u p n, .done) ∉ r.map Prod.fst) : (final s r).get u p n = some c := by
  induction r generalizing s with
  | nil =>
    rcases hc with hc | hc
    · exact State.get_eq_some.2 ⟨hx, hc⟩
    · cases hc
  | cons y r ih =>
    obtain ⟨i, t⟩ := y
    obtain ⟨hstep, hr⟩ := hr
    rw [List.map_cons, List.mem_cons, not_or] at hkept
    have hx' : t.node u (p ++ [n]) = some (.file c) := by
      rcases hstep.node_eq hx with hx' | ⟨p', n', heq, hi⟩
      · exact hx'
      · obtain ⟨rfl, hn⟩ := List.append_inj' heq rfl
        obtain rfl := List.singleton_inj.1 hn
        exact absurd hi.symm hkept.1
    refine ih hr hx' ?_ hkept.2
    rcases hc with hc | hc
    · exact .inl (hstep.content_eq hc)
    rcases List.mem_cons.1 hc with hi | hc
    · have hi : (Call.finish c, Answer.done) = i := hi
      subst hi
      cases hstep with
      | finish => exact .inl State.content_finish
      | finishNothing hnone => exact absurd hnone (s.there hx)
    · exact .inr hc

end Steps

end FileTrees

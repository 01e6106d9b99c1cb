import Netdisk.Lib.Prog
import Netdisk.Lib.Runs

/-!
# Threads over a shared state

Calls are started at any time and run as interaction programs, one operation at a time in any
order; an operation acts on the shared state through a handler that may refuse it (the thread has
to wait) and may consult the label of the step. `Guided` is the shape of the invariants: every
thread keeps to a protocol from its own local state, and a relation between the shared state and
all the local states holds. `Guided.start` and `Guided.exec` are the rules for the two steps.
-/

universe w

/-- A call and what is left to do of it. -/
structure Thread (S : Sig) (A : Type) where
  call : A
  rest : Prog S Unit

structure Threads (S : Sig) (A σ : Type) where
  shared : σ
  threads : List (Thread S A) := []

namespace Threads

/-! ### The list of local states -/

section Locals
variable {α : Type*} {ls : List α} {i j : Nat} {a b : α}

theorem getElem?_set_cases (h : (ls.set i a)[j]? = some b) : j = i ∧ b = a ∨ j ≠ i ∧ ls[j]? = some b := by
  rw [List.getElem?_set] at h
  split at h
  · next heq =>
    split at h
    · exact .inl ⟨heq.symm, (Option.some.inj h).symm⟩
    · cases h
  · next hne => exact .inr ⟨Ne.symm hne, h⟩

theorem getElem?_snoc_cases (h : (ls ++ [a])[j]? = some b) : b = a ∧ j = ls.length ∨ ls[j]? = some b := by
  rcases Nat.lt_or_ge j ls.length with hlt | hge
  · exact .inr (by rwa [List.getElem?_append_left hlt] at h)
  · rw [List.getElem?_append_right hge] at h
    have hj := (List.getElem?_eq_some_iff.1 h).1
    have hlen : [a].length = 1 := rfl
    exact .inl ⟨List.mem_singleton.1 (List.mem_of_getElem? h), by omega⟩

theorem set_self (h : ls[i]? = some a) : ls.set i a = ls := by
  obtain ⟨hlt, rfl⟩ := List.getElem?_eq_some_iff.1 h
  exact List.set_getElem_self hlt

end Locals

/-! ### Steps -/

inductive Act (A : Type) (W : Type w)
  | start (call : A)
  | exec (i : Nat) (w : W)

variable {S : Sig} {A σ L : Type} {W : Type w}

section Step
variable (prog : A → Prog S Unit) (H : Nat → W → (o : S.Op) → σ → Option (S.Resp o × σ))

def step (s : Threads S A σ) : Act A W → Option (Threads S A σ)
  | .start a => some { s with threads := s.threads ++ [⟨a, prog a⟩] }
  | .exec i w => s.threads[i]?.bind fun t => match t.rest with
    | .pure _ => none
    | .op o k => (H i w o s.shared).map fun x => ⟨x.2, s.threads.set i ⟨t.call, k x.1⟩⟩

abbrev Step (s : Threads S A σ) (a : Act A W) (t : Threads S A σ) : Prop := step prog H s a = some t

variable {prog H} {s t : Threads S A σ}

theorem step_start {a : A} (h : Step prog H s (.start a) t) :
    t = { s with threads := s.threads ++ [⟨a, prog a⟩] } := (Option.some.inj h).symm

theorem step_exec {i : Nat} {w : W} (h : Step prog H s (.exec i w) t) :
    ∃ a o k r sh, s.threads[i]? = some ⟨a, .op o k⟩ ∧ H i w o s.shared = some (r, sh) ∧
      t = ⟨sh, s.threads.set i ⟨a, k r⟩⟩ := by
  obtain ⟨⟨a, rest⟩, hi, h⟩ := Option.bind_eq_some_iff.1 h
  cases rest with
  | pure u => cases h
  | op o k =>
    obtain ⟨⟨r, sh⟩, hH, rfl⟩ := Option.map_eq_some_iff.1 h
    exact ⟨a, o, k, r, sh, hi, hH, rfl⟩

end Step

/-! ### The next operation -/

section Next
variable {s : Threads S A σ} {i : Nat} {P : A → S.Op → Prop}

/-- What thread `i` is to do next, if it is not through, is as `P` says of its call. -/
def Next (s : Threads S A σ) (i : Nat) (P : A → S.Op → Prop) : Prop :=
  ∀ t ∈ s.threads[i]?, ∀ o ∈ t.rest.head, P t.call o

instance [∀ a o, Decidable (P a o)] : Decidable (s.Next i P) :=
  inferInstanceAs (Decidable (∀ t ∈ s.threads[i]?, ∀ o ∈ t.rest.head, P t.call o))

theorem next_iff : s.Next i P ↔ ∀ a o k, s.threads[i]? = some ⟨a, .op o k⟩ → P a o := by
  constructor
  · intro h a o k hi
    exact h _ hi o rfl
  · rintro h ⟨a, rest⟩ hi o ho
    cases rest with
    | pure u => cases ho
    | op o' k =>
      obtain rfl : o' = o := Option.some.inj ho
      exact h a o' k hi

end Next

/-- Every thread is in a local state from which it keeps to the protocol, and `G` relates the
shared state to these. -/
def Guided (P : Prog.Protocol S L) (post : L → Unit → Prop) (G : σ → List L → Prop)
    (s : Threads S A σ) : Prop :=
  ∃ ls : List (Thread S A × L), s.threads = ls.map Prod.fst ∧
    (∀ x ∈ ls, x.1.rest.wp P post x.2) ∧ G s.shared (ls.map Prod.snd)

/-! ### Rules -/

section Rules
variable {P : Prog.Protocol S L} {post : L → Unit → Prop} {G G' : σ → List L → Prop} {s t : Threads S A σ}

theorem guided_init {sh : σ} (h : G sh []) : Guided (A := A) P post G ⟨sh, []⟩ :=
  ⟨[], rfl, nofun, h⟩

theorem Guided.start {prog : A → Prog S Unit} {H : Nat → W → (o : S.Op) → σ → Option (S.Resp o × σ)}
    {a : A} {l : L} (h : Guided P post G s) (hst : Step prog H s (.start a) t)
    (hwp : (prog a).wp P post l) (hG : ∀ ls, G s.shared ls → G s.shared (ls ++ [l])) : Guided P post G t := by
  obtain ⟨ls, hls, hall, hglob⟩ := h
  obtain rfl := step_start hst
  refine ⟨ls ++ [(⟨a, prog a⟩, l)], by simp [hls], fun x hx => ?_, by simpa using hG _ hglob⟩
  rcases List.mem_append.1 hx with hx | hx
  · exact hall x hx
  · obtain rfl := List.mem_singleton.1 hx
    exact hwp

theorem Guided.exec {prog : A → Prog S Unit} {H : Nat → W → (o : S.Op) → σ → Option (S.Resp o × σ)}
    {i : Nat} {w : W} (h : Guided P post G s) (hst : Step prog H s (.exec i w) t)
    (hG : ∀ ls a o k l r sh, G s.shared ls → ls[i]? = some l → s.threads[i]? = some ⟨a, .op o k⟩ →
      P.ok l o → H i w o s.shared = some (r, sh) → P.resp l o r ∧ G' sh (ls.set i (P.next l o r))) :
    Guided P post G' t := by
  obtain ⟨ls, hls, hall, hglob⟩ := h
  obtain ⟨a, o, k, r, sh, hi, hH, rfl⟩ := step_exec hst
  rw [hls, List.getElem?_map] at hi
  obtain ⟨⟨t, l⟩, hil, ht⟩ := Option.map_eq_some_iff.1 hi
  obtain rfl : t = ⟨a, .op o k⟩ := ht
  have hwp := hall _ (List.mem_of_getElem? hil)
  obtain ⟨hresp, hglob'⟩ := hG _ a o k l r sh hglob (by rw [List.getElem?_map, hil]; rfl)
    (by rw [hls, List.getElem?_map, hil]; rfl) hwp.1 hH
  refine ⟨ls.set i (⟨a, k r⟩, P.next l o r), by rw [hls, List.map_set], fun x hx => ?_, ?_⟩
  · rcases List.mem_or_eq_of_mem_set hx with hx | rfl
    · exact hall x hx
    · exact hwp.2 r hresp
  · rwa [List.map_set]

/-- Local states may be replaced by others that the threads keep to the protocol from as well. -/
theorem Guided.relabel (h : Guided P post G s) (f : L → L)
    (hwp : ∀ ls (i : Nat) (t : Thread S A) l, G s.shared ls → s.threads[i]? = some t → ls[i]? = some l →
      t.rest.wp P post l → t.rest.wp P post (f l))
    (hG : ∀ ls, G s.shared ls → G' s.shared (ls.map f)) : Guided P post G' s := by
  obtain ⟨ls, hls, hall, hglob⟩ := h
  refine ⟨ls.map fun x => (x.1, f x.2), by simp [hls], fun x hx => ?_, ?_⟩
  · obtain ⟨y, hy, rfl⟩ := List.mem_map.1 hx
    obtain ⟨i, hi⟩ := List.mem_iff_getElem?.1 hy
    have hthread : s.threads[i]? = some y.1 := by rw [hls, List.getElem?_map, hi]; rfl
    have hlocal : (ls.map Prod.snd)[i]? = some y.2 := by rw [List.getElem?_map, hi]; rfl
    exact hwp _ i y.1 y.2 hglob hthread hlocal (hall y hy)
  · have hmap : (ls.map fun x => (x.1, f x.2)).map Prod.snd = (ls.map Prod.snd).map f := by simp
    rw [hmap]
    exact hG _ hglob

theorem Guided.ok {i : Nat} {a : A} {o : S.Op} {k : S.Resp o → Prog S Unit} (h : Guided P post G s)
    (hi : s.threads[i]? = some ⟨a, .op o k⟩) : ∃ ls l, G s.shared ls ∧ ls[i]? = some l ∧ P.ok l o := by
  obtain ⟨ls, hls, hall, hglob⟩ := h
  rw [hls, List.getElem?_map] at hi
  obtain ⟨⟨t, l⟩, hil, ht⟩ := Option.map_eq_some_iff.1 hi
  obtain rfl : t = ⟨a, .op o k⟩ := ht
  exact ⟨_, l, hglob, by rw [List.getElem?_map, hil]; rfl, (hall _ (List.mem_of_getElem? hil)).1⟩

/-- A finished thread is in a local state that its protocol allows to end in. -/
theorem Guided.finished {i : Nat} {a : A} (h : Guided P post G s) (hi : s.threads[i]? = some ⟨a, .pure ()⟩) :
    ∃ ls l, G s.shared ls ∧ ls[i]? = some l ∧ post l () := by
  obtain ⟨ls, hls, hall, hglob⟩ := h
  rw [hls, List.getElem?_map] at hi
  obtain ⟨⟨t, l⟩, hil, ht⟩ := Option.map_eq_some_iff.1 hi
  obtain rfl : t = ⟨a, .pure ()⟩ := ht
  exact ⟨_, l, hglob, by rw [List.getElem?_map, hil]; rfl, hall _ (List.mem_of_getElem? hil)⟩

end Rules

end Threads

import Mathlib.Data.Option.Basic

/-!
# Interaction programs

`Prog S α` is a program that performs operations of the interface `S` and returns an `α`; nothing is
said about what the operations do. `run` gives them a meaning on a state, one response each, and
fails when the handler does. `wp` reads a program against a `Protocol`: a small automaton that says
which operations are allowed in which local state, whatever the responses.
-/

/-- Operations and what each of them returns. -/
structure Sig where
  Op : Type
  Resp : Op → Type

inductive Prog (S : Sig) (α : Type) : Type
  | pure (a : α)
  | op (o : S.Op) (k : S.Resp o → Prog S α)

namespace Prog

variable {S : Sig} {σ L α β : Type}

def bind : Prog S α → (α → Prog S β) → Prog S β
  | .pure a, f => f a
  | .op o k, f => .op o fun r => (k r).bind f

instance : Monad (Prog S) where
  pure := .pure
  bind := bind

/-- One operation. -/
def perform (o : S.Op) : Prog S (S.Resp o) := .op o .pure

theorem bind_pure (p : Prog S α) : p.bind .pure = p := by
  induction p with
  | pure a => rfl
  | op o k ih => exact congrArg (op o) (funext ih)

theorem bind_assoc {γ : Type} (p : Prog S α) (f : α → Prog S β) (g : β → Prog S γ) :
    (p.bind f).bind g = p.bind fun a => (f a).bind g := by
  induction p with
  | pure a => rfl
  | op o k ih => exact congrArg (op o) (funext ih)

instance : LawfulMonad (Prog S) :=
  LawfulMonad.mk' _ bind_pure (fun _ _ => rfl) bind_assoc

@[simp] theorem pure_eq (a : α) : (Pure.pure a : Prog S α) = .pure a := rfl

@[simp] theorem bind_eq (p : Prog S α) (f : α → Prog S β) : (p >>= f) = p.bind f := rfl

@[simp] theorem pure_bind (a : α) (f : α → Prog S β) : (Prog.pure a).bind f = f a := rfl

@[simp] theorem op_bind (o : S.Op) (k : S.Resp o → Prog S α) (f : α → Prog S β) :
    (op o k).bind f = op o fun r => (k r).bind f := rfl

@[simp] theorem perform_bind (o : S.Op) (f : S.Resp o → Prog S β) : (perform o).bind f = op o f := rfl

/-! ### Running -/

/-- The result and the final state under a handler of the operations, or `none` if it refuses one. -/
def run (H : (o : S.Op) → σ → Option (S.Resp o × σ)) : Prog S α → σ → Option (α × σ)
  | .pure a, s => some (a, s)
  | .op o k, s => (H o s).bind fun x => (k x.1).run H x.2

section Run
variable {H : (o : S.Op) → σ → Option (S.Resp o × σ)} {s : σ}

@[simp] theorem run_pure (a : α) : (Prog.pure a).run H s = some (a, s) := rfl

@[simp] theorem run_op (o : S.Op) (k : S.Resp o → Prog S α) :
    (op o k).run H s = (H o s).bind fun x => (k x.1).run H x.2 := rfl

@[simp] theorem run_perform (o : S.Op) : (perform o).run H s = H o s := by
  cases h : H o s <;> simp [perform, h]

theorem run_bind (p : Prog S α) (f : α → Prog S β) :
    (p.bind f).run H s = (p.run H s).bind fun x => (f x.1).run H x.2 := by
  induction p generalizing s with
  | pure a => rfl
  | op o k ih => cases h : H o s <;> simp [h, ih]

end Run

/-! ### Protocols -/

/-- What a program may do from each local state, which responses it has to be ready for, and the
local state that each of them leads to. -/
structure Protocol (S : Sig) (L : Type) where
  ok : L → S.Op → Prop
  resp : L → (o : S.Op) → S.Resp o → Prop
  next : L → (o : S.Op) → S.Resp o → L

/-- From the local state the program keeps to the protocol and ends in `post`. -/
def wp (P : Protocol S L) (post : L → α → Prop) : Prog S α → L → Prop
  | .pure a, ℓ => post ℓ a
  | .op o k, ℓ => P.ok ℓ o ∧ ∀ r, P.resp ℓ o r → (k r).wp P post (P.next ℓ o r)

section Wp
variable {P : Protocol S L} {post post' : L → α → Prop} {ℓ : L}

@[simp] theorem wp_pure (a : α) : (Prog.pure a).wp P post ℓ ↔ post ℓ a := Iff.rfl

@[simp] theorem wp_op (o : S.Op) (k : S.Resp o → Prog S α) :
    (op o k).wp P post ℓ ↔ P.ok ℓ o ∧ ∀ r, P.resp ℓ o r → (k r).wp P post (P.next ℓ o r) := Iff.rfl

theorem wp_bind {post : L → β → Prop} (p : Prog S α) (f : α → Prog S β) :
    (p.bind f).wp P post ℓ ↔ p.wp P (fun ℓ a => (f a).wp P post ℓ) ℓ := by
  induction p generalizing ℓ with
  | pure a => rfl
  | op o k ih => simp only [op_bind, wp_op, ih]

theorem wp.mono {p : Prog S α} (h : p.wp P post ℓ) (hpost : ∀ ℓ a, post ℓ a → post' ℓ a) :
    p.wp P post' ℓ := by
  induction p generalizing ℓ with
  | pure a => exact hpost _ _ h
  | op o k ih => exact ⟨h.1, fun r hr => ih r (h.2 r hr)⟩

theorem wp.bind {mid : L → α → Prop} {post : L → β → Prop} {p : Prog S α} {f : α → Prog S β} (h : p.wp P mid ℓ)
    (hf : ∀ l a, mid l a → (f a).wp P post l) : (p.bind f).wp P post ℓ :=
  (wp_bind p f).2 (h.mono hf)

/-- A program that keeps to a protocol keeps to every other one that allows as much, and asks for no
more responses, in the local states that `R` relates. -/
theorem wp.simulate {M : Type} {Q : Protocol S M} {postQ : M → α → Prop} {R : L → M → Prop}
    (hstep : ∀ l m o, R l m → P.ok l o → Q.ok m o ∧
      ∀ r, Q.resp m o r → P.resp l o r ∧ R (P.next l o r) (Q.next m o r))
    (hpost : ∀ l m a, R l m → post l a → postQ m a) {m : M} (hR : R ℓ m) {p : Prog S α} (h : p.wp P post ℓ) :
    p.wp Q postQ m := by
  induction p generalizing ℓ m with
  | pure a => exact hpost ℓ m a hR h
  | op o k ih =>
    obtain ⟨hok, hnext⟩ := hstep ℓ m o hR h.1
    refine ⟨hok, fun r hr => ?_⟩
    obtain ⟨hr', hR'⟩ := hnext r hr
    exact ih r hR' (h.2 r hr')

/-- Two protocols kept side by side. -/
def Protocol.prod {M : Type} (P : Protocol S L) (Q : Protocol S M) : Protocol S (L × M) where
  ok l o := P.ok l.1 o ∧ Q.ok l.2 o
  resp l o r := P.resp l.1 o r ∧ Q.resp l.2 o r
  next l o r := (P.next l.1 o r, Q.next l.2 o r)

theorem wp.prod {M : Type} {Q : Protocol S M} {postQ : M → α → Prop} {m : M} {p : Prog S α}
    (h : p.wp P post ℓ) (hQ : p.wp Q postQ m) :
    p.wp (P.prod Q) (fun l a => post l.1 a ∧ postQ l.2 a) (ℓ, m) := by
  induction p generalizing ℓ m with
  | pure a => exact ⟨h, hQ⟩
  | op o k ih => exact ⟨⟨h.1, hQ.1⟩, fun r hr => ih r (h.2 r hr.1) (hQ.2 r hr.2)⟩

end Wp

/-! ### Transcripts -/

/-- An operation that was performed, and its response. -/
structure Event (S : Sig) where
  op : S.Op
  resp : S.Resp op

/-- With these responses the program performs these operations and returns `a`. -/
inductive Does : Prog S α → List (Event S) → α → Prop
  | pure (a : α) : Does (.pure a) [] a
  | op {o : S.Op} {k : S.Resp o → Prog S α} {log : List (Event S)} {a : α} (r : S.Resp o) :
    Does (k r) log a → Does (.op o k) (⟨o, r⟩ :: log) a

/-- With these responses the program performs these operations and comes to one of `halt`. -/
inductive Stops (halt : S.Op → Prop) : Prog S α → List (Event S) → Prop
  | halt {o : S.Op} {k : S.Resp o → Prog S α} : halt o → Stops halt (.op o k) []
  | op {o : S.Op} {k : S.Resp o → Prog S α} {log : List (Event S)} (r : S.Resp o) :
    Stops halt (k r) log → Stops halt (.op o k) (⟨o, r⟩ :: log)

/-- The program returns, or comes to one of `halt`. -/
def Traces (halt : S.Op → Prop) (p : Prog S α) (log : List (Event S)) : Option α → Prop
  | some a => p.Does log a
  | none => p.Stops halt log

/-- What the program returns at the end of a transcript, if it is one of its transcripts. -/
def replay [DecidableEq S.Op] : Prog S α → List (Event S) → Option α
  | .pure a, [] => some a
  | .op o k, ⟨o', r⟩ :: log => if h : o' = o then (k (h ▸ r)).replay log else none
  | _, _ => none

/-- One operation and its response, and what is left of the program. -/
def step [DecidableEq S.Op] : Prog S α → Event S → Option (Prog S α)
  | .op o k, ⟨o', r⟩ => if h : o' = o then some (k (h ▸ r)) else none
  | .pure _, _ => none

/-- The operations of a transcript are allowed, and lead from one local state to another. -/
def Protocol.Accepts (P : Protocol S L) : L → List (Event S) → L → Prop
  | l, [], m => l = m
  | l, ⟨o, r⟩ :: log, m => P.ok l o ∧ P.Accepts (P.next l o r) log m

section Does
variable {log : List (Event S)}

theorem does_pure {a b : α} : (Prog.pure a : Prog S α).Does log b ↔ log = [] ∧ b = a := by
  constructor
  · rintro ⟨⟩
    exact ⟨rfl, rfl⟩
  · rintro ⟨rfl, rfl⟩
    exact .pure _

theorem does_op {o : S.Op} {k : S.Resp o → Prog S α} {a : α} :
    (op o k).Does log a ↔ ∃ r rest, log = ⟨o, r⟩ :: rest ∧ (k r).Does rest a := by
  constructor
  · rintro (_ | ⟨r, h⟩)
    exact ⟨r, _, rfl, h⟩
  · rintro ⟨r, rest, rfl, h⟩
    exact .op r h

theorem does_bind {p : Prog S α} {f : α → Prog S β} {b : β} :
    (p.bind f).Does log b ↔ ∃ a l₁ l₂, log = l₁ ++ l₂ ∧ p.Does l₁ a ∧ (f a).Does l₂ b := by
  induction p generalizing log with
  | pure a =>
    constructor
    · exact fun h => ⟨a, [], log, rfl, .pure a, h⟩
    · rintro ⟨_, _, l₂, rfl, ⟨⟩, h⟩
      exact h
  | op o k ih =>
    constructor
    · rintro (_ | ⟨r, h⟩)
      obtain ⟨a, l₁, l₂, rfl, h₁, h₂⟩ := (ih r).1 h
      exact ⟨a, ⟨o, r⟩ :: l₁, l₂, rfl, .op r h₁, h₂⟩
    · rintro ⟨a, _, l₂, rfl, _ | ⟨r, h₁⟩, h₂⟩
      exact .op r ((ih r).2 ⟨a, _, l₂, rfl, h₁, h₂⟩)

theorem Does.of_replay [DecidableEq S.Op] {p : Prog S α} {a : α} (h : p.replay log = some a) : p.Does log a := by
  induction p generalizing log with
  | pure b =>
    cases log with
    | nil => exact Option.some.inj h ▸ .pure b
    | cons e log => cases h
  | op o k ih =>
    cases log with
    | nil => cases h
    | cons e log =>
      obtain ⟨o', r⟩ := e
      rw [replay] at h
      split at h
      · next heq =>
        subst heq
        exact .op r (ih r h)
      · cases h

theorem Does.of_step [DecidableEq S.Op] {p p' : Prog S α} {e : Event S} {a : α} (h : p.step e = some p')
    (hd : p'.Does log a) : p.Does (e :: log) a := by
  obtain ⟨o', r⟩ := e
  cases p with
  | pure b => cases h
  | op o k =>
    rw [step] at h
    split at h
    · next heq =>
      subst heq
      obtain rfl := Option.some.inj h
      exact .op r hd
    · cases h

/-- The responses decide what a program does, and how long. -/
theorem Does.unique {p : Prog S α} {l₁ l₂ l₁' l₂' : List (Event S)} {a a' : α} (h : p.Does l₁ a) (h' : p.Does l₁' a')
    (heq : l₁ ++ l₂ = l₁' ++ l₂') : l₁ = l₁' ∧ a = a' := by
  induction h generalizing l₁' with
  | pure a =>
    cases h'
    exact ⟨rfl, rfl⟩
  | op r _ ih =>
    obtain ⟨r', rest, rfl, hrest⟩ := does_op.1 h'
    obtain ⟨heq₁, heq₂⟩ := List.cons.inj heq
    obtain rfl : r = r' := by simpa using heq₁
    obtain ⟨rfl, rfl⟩ := ih hrest heq₂
    exact ⟨rfl, rfl⟩

/-- What a program does, if it keeps to a protocol that is ready for the responses. -/
theorem wp.accepts_of {P : Protocol S L} {post : L → α → Prop} {R : Event S → Prop} (hresp : ∀ l o r, R ⟨o, r⟩ → P.resp l o r)
    {p : Prog S α} {l : L} {a : α} (h : p.wp P post l) (hd : p.Does log a) (hlog : ∀ e ∈ log, R e) :
    ∃ m, P.Accepts l log m ∧ post m a := by
  induction hd generalizing l with
  | pure a => exact ⟨l, rfl, h⟩
  | @op o k log a r _ ih =>
    obtain ⟨hr, hlog⟩ := List.forall_mem_cons.1 hlog
    obtain ⟨m, hacc, hpost⟩ := ih (h.2 r (hresp l o r hr)) hlog
    exact ⟨m, ⟨h.1, hacc⟩, hpost⟩

theorem wp.accepts {P : Protocol S L} {post : L → α → Prop} (hresp : ∀ l o r, P.resp l o r) {p : Prog S α} {l : L} {a : α}
    (h : p.wp P post l) (hd : p.Does log a) : ∃ m, P.Accepts l log m ∧ post m a :=
  h.accepts_of (R := fun _ => True) (fun l o r _ => hresp l o r) hd fun _ _ => trivial

theorem stops_bind {halt : S.Op → Prop} {p : Prog S α} {f : α → Prog S β} :
    (p.bind f).Stops halt log ↔ p.Stops halt log ∨ ∃ a l₁ l₂, log = l₁ ++ l₂ ∧ p.Does l₁ a ∧ (f a).Stops halt l₂ := by
  induction p generalizing log with
  | pure a =>
    constructor
    · exact fun h => .inr ⟨a, [], log, rfl, .pure a, h⟩
    · rintro (h | ⟨_, _, l₂, rfl, ⟨⟩, h⟩)
      · cases h
      · exact h
  | op o k ih =>
    constructor
    · rintro (ho | ⟨r, h⟩)
      · exact .inl (.halt ho)
      · obtain h | ⟨a, l₁, l₂, rfl, h₁, h₂⟩ := (ih r).1 h
        · exact .inl (.op r h)
        · exact .inr ⟨a, ⟨o, r⟩ :: l₁, l₂, rfl, .op r h₁, h₂⟩
    · rintro ((ho | ⟨r, h⟩) | ⟨a, _, l₂, rfl, _ | ⟨r, h₁⟩, h₂⟩)
      · exact .halt ho
      · exact .op r ((ih r).2 (.inl h))
      · exact .op r ((ih r).2 (.inr ⟨a, _, l₂, rfl, h₁, h₂⟩))

theorem wp.accepts_stops {P : Protocol S L} {post : L → α → Prop} (hresp : ∀ l o r, P.resp l o r) {halt : S.Op → Prop}
    {p : Prog S α} {l : L} (h : p.wp P post l) (hd : p.Stops halt log) : ∃ m, P.Accepts l log m := by
  induction hd generalizing l with
  | halt _ => exact ⟨l, rfl⟩
  | @op o k log r _ ih =>
    obtain ⟨m, hacc⟩ := ih (h.2 r (hresp l o r))
    exact ⟨m, h.1, hacc⟩

theorem traces_pure {halt : S.Op → Prop} {a : α} {res : Option α} :
    (Prog.pure a : Prog S α).Traces halt log res ↔ log = [] ∧ res = some a := by
  cases res with
  | some b => simp [Traces, does_pure]
  | none =>
    constructor
    · rintro ⟨⟩
    · rintro ⟨-, ⟨⟩⟩

theorem traces_op {halt : S.Op → Prop} {o : S.Op} {k : S.Resp o → Prog S α} {res : Option α} (ho : ¬ halt o)
    (h : (op o k).Traces halt log res) : ∃ r log', log = ⟨o, r⟩ :: log' ∧ (k r).Traces halt log' res := by
  cases res with
  | some a =>
    obtain _ | ⟨r, h⟩ := h
    exact ⟨r, _, rfl, h⟩
  | none =>
    obtain ho' | ⟨r, h⟩ := h
    · exact absurd ho' ho
    · exact ⟨r, _, rfl, h⟩

theorem traces_bind {halt : S.Op → Prop} {p : Prog S α} {f : α → Prog S β} {res : Option β} :
    (p.bind f).Traces halt log res ↔
      res = none ∧ p.Stops halt log ∨ ∃ a l₁ l₂, log = l₁ ++ l₂ ∧ p.Does l₁ a ∧ (f a).Traces halt l₂ res := by
  cases res with
  | some b => simp [Traces, does_bind]
  | none => simp [Traces, stops_bind]

/-- What is done on the way, if the program keeps to a protocol that is ready for every response. -/
theorem wp.accepts_traces {P : Protocol S L} {post : L → α → Prop} (hresp : ∀ l o r, P.resp l o r) {halt : S.Op → Prop}
    {p : Prog S α} {l : L} {res : Option α} (h : p.wp P post l) (hd : p.Traces halt log res) : ∃ m, P.Accepts l log m := by
  cases res with
  | some a => exact (h.accepts hresp hd).imp fun _ => And.left
  | none => exact h.accepts_stops hresp hd

end Does

/-! ### What is still to come -/

/-- The operation that comes next, if the program is not over. -/
def head : Prog S α → Option S.Op
  | .pure _ => none
  | .op o _ => some o

/-- Whatever the responses, the program does operations of `A` only. -/
def Only (A : S.Op → Prop) : Prog S α → Prop
  | .pure _ => True
  | .op o k => A o ∧ ∀ r, (k r).Only A

section Only
variable {A : S.Op → Prop}

@[simp] theorem only_pure (a : α) : (Prog.pure a : Prog S α).Only A ↔ True := Iff.rfl

@[simp] theorem only_op (o : S.Op) (k : S.Resp o → Prog S α) :
    (op o k).Only A ↔ A o ∧ ∀ r, (k r).Only A := Iff.rfl

theorem Only.bind {p : Prog S α} {f : α → Prog S β} (h : p.Only A) (hf : ∀ a, (f a).Only A) : (p.bind f).Only A := by
  induction p with
  | pure a => exact hf a
  | op o k ih => exact ⟨h.1, fun r => ih r (h.2 r)⟩

theorem Only.mono {B : S.Op → Prop} (hAB : ∀ o, A o → B o) {p : Prog S α} (h : p.Only A) : p.Only B := by
  induction p with
  | pure a => trivial
  | op o k ih => exact ⟨hAB o h.1, fun r => ih r (h.2 r)⟩

theorem Only.does {p : Prog S α} {log : List (Event S)} {a : α} (h : p.Only A) (hd : p.Does log a) : ∀ e ∈ log, A e.op := by
  induction hd with
  | pure a => nofun
  | op r _ ih => exact List.forall_mem_cons.2 ⟨h.1, ih (h.2 r)⟩

theorem Only.stops {halt : S.Op → Prop} {p : Prog S α} {log : List (Event S)} (h : p.Only A) (hd : p.Stops halt log) :
    ∀ e ∈ log, A e.op := by
  induction hd with
  | halt _ => nofun
  | op r _ ih => exact List.forall_mem_cons.2 ⟨h.1, ih (h.2 r)⟩

theorem Only.traces {halt : S.Op → Prop} {p : Prog S α} {log : List (Event S)} {res : Option α} (h : p.Only A)
    (hd : p.Traces halt log res) : ∀ e ∈ log, A e.op := by
  cases res with
  | some a => exact h.does hd
  | none => exact h.stops hd

theorem Only.wp {P : Protocol S L} {ℓ : L} (hA : ∀ o, A o → P.ok ℓ o ∧ ∀ r, P.next ℓ o r = ℓ) {p : Prog S α}
    (h : p.Only A) : p.wp P (fun l _ => l = ℓ) ℓ := by
  induction p with
  | pure a => rfl
  | op o k ih =>
    obtain ⟨hok, hnext⟩ := hA o h.1
    refine ⟨hok, fun r _ => ?_⟩
    rw [hnext r]
    exact ih r (h.2 r)

/-- A handler that does to a part of its state what another does: the program runs there alike. -/
theorem Only.run_embed {τ : Type} {H : (o : S.Op) → σ → Option (S.Resp o × σ)} {H' : (o : S.Op) → τ → Option (S.Resp o × τ)}
    (emb : σ → τ) (hH : ∀ o, A o → ∀ s, H' o (emb s) = (H o s).map fun x => (x.1, emb x.2)) {p : Prog S α}
    (h : p.Only A) (s : σ) : p.run H' (emb s) = (p.run H s).map fun x => (x.1, emb x.2) := by
  induction p generalizing s with
  | pure a => rfl
  | op o k ih =>
    rw [run_op, run_op, hH o h.1 s]
    cases H o s with
    | none => rfl
    | some x => exact ih x.1 (h.2 x.1) x.2

/-- Handlers that agree on what the program may do run it alike. -/
theorem Only.run_congr {H H' : (o : S.Op) → σ → Option (S.Resp o × σ)} (hH : ∀ o, A o → ∀ s, H o s = H' o s)
    {p : Prog S α} (h : p.Only A) (s : σ) : p.run H s = p.run H' s := by
  have hid : ∀ o, A o → ∀ s, H o s = (H' o s).map fun x => (x.1, x.2) := fun o ho s => by
    rw [hH o ho s]
    exact Option.map_id'.symm
  exact (h.run_embed (fun s => s) hid s).trans Option.map_id'

end Only

/-- Some responses lead the program to an operation of `hit` without one of `stop` before it. -/
def MayDo (hit stop : S.Op → Prop) : Prog S α → Prop
  | .pure _ => False
  | .op o k => hit o ∨ ¬ stop o ∧ ∃ r, (k r).MayDo hit stop

section MayDo
variable {hit stop : S.Op → Prop}

@[simp] theorem not_mayDo_pure (a : α) : ¬ (Prog.pure a : Prog S α).MayDo hit stop := id

theorem not_mayDo_op {o : S.Op} {k : S.Resp o → Prog S α} (h : ¬ (op o k).MayDo hit stop) :
    ¬ hit o ∧ (¬ stop o → ∀ r, ¬ (k r).MayDo hit stop) :=
  ⟨fun ho => h (.inl ho), fun hs r hr => h (.inr ⟨hs, r, hr⟩)⟩

theorem Only.not_mayDo {p : Prog S α} (h : p.Only fun o => ¬ hit o) : ¬ p.MayDo hit stop := by
  induction p with
  | pure a => exact not_mayDo_pure a
  | op o k ih =>
    rintro (ho | ⟨-, r, hr⟩)
    · exact h.1 ho
    · exact ih r (h.2 r) hr

/-- A program that does nothing of `hit` any more before it comes to `stop` may be moved to another
local state, if that one forbids only what `hit` names and the two states run side by side, or meet
at `stop`. -/
theorem wp.retire {P : Protocol S L} {post : L → α → Prop} {R : L → L → Prop}
    (hok : ∀ l m o, R l m → P.ok l o → ¬ hit o → P.ok m o)
    (hnext : ∀ l m o r, R l m → P.ok l o → ¬ hit o → P.resp m o r → P.resp l o r ∧
      (P.next m o r = P.next l o r ∨ ¬ stop o ∧ R (P.next l o r) (P.next m o r)))
    (hpost : ∀ l m a, R l m → post l a → post m a) {p : Prog S α} {l m : L} (hR : R l m)
    (h : p.wp P post l) (hp : ¬ p.MayDo hit stop) : p.wp P post m := by
  induction p generalizing l m with
  | pure a => exact hpost l m a hR h
  | op o k ih =>
    obtain ⟨hhit, hrest⟩ := not_mayDo_op hp
    refine ⟨hok l m o hR h.1 hhit, fun r hr => ?_⟩
    obtain ⟨hr', heq | ⟨hstop, hR'⟩⟩ := hnext l m o r hR h.1 hhit hr
    · rw [heq]
      exact h.2 r hr'
    · exact ih r hR' (h.2 r hr') (hrest hstop r)

end MayDo

end Prog

import Netdisk.Lib.Prog

/-!
# Programs that may fault

An interface with one more operation, `fault`, that never returns. `lift` is a program as it is in the
larger interface, `erase` reads a fault as an operation of the interface that never returns either, and
`Safe` says that no fault is reached whatever responses a protocol allows.
-/

/-- The interface with a fault, `none`. -/
def Sig.withFault (S : Sig) : Sig where
  Op := Option S.Op
  Resp
    | none => Empty
    | some o => S.Resp o

namespace Prog
variable {S : Sig} {L α β : Type}

def fault : Prog S.withFault α := .op (S := S.withFault) none fun e => nomatch (e : Empty)

/-- The program in the larger interface, where it does not fault. -/
def lift : Prog S α → Prog S.withFault α
  | .pure a => .pure a
  | .op o k => .op (S := S.withFault) (some o) fun r => (k r).lift

/-- A fault as the operation `stop`. -/
def erase (stop : S.Op) (hstop : S.Resp stop → False) : Prog S.withFault α → Prog S α
  | .pure a => .pure a
  | .op none _ => .op stop fun r => (hstop r).elim
  | .op (some o) k => .op o fun r => (k r).erase stop hstop

section Erase
variable {stop : S.Op} {hstop : S.Resp stop → False}

theorem erase_lift (p : Prog S α) : p.lift.erase stop hstop = p := by
  induction p with
  | pure a => rfl
  | op o k ih => exact congrArg (op o) (funext ih)

theorem erase_bind (p : Prog S.withFault α) (f : α → Prog S.withFault β) :
    (p.bind f).erase stop hstop = (p.erase stop hstop).bind fun a => (f a).erase stop hstop := by
  induction p with
  | pure a => rfl
  | op o k ih =>
    cases o with
    | none => exact congrArg (op stop) (funext fun r => (hstop r).elim)
    | some o => exact congrArg (op o) (funext ih)

end Erase

/-- The protocol in the larger interface, with no fault. -/
def Protocol.faultFree (P : Protocol S L) : Protocol S.withFault L where
  ok
    | _, none => False
    | l, some o => P.ok l o
  resp
    | _, none, _ => True
    | l, some o, r => P.resp l o r
  next
    | l, none, _ => l
    | l, some o, r => P.next l o r

/-- From the local state no fault is reached. -/
def Safe (P : Protocol S L) (l : L) (p : Prog S.withFault α) : Prop := p.wp P.faultFree (fun _ _ => True) l

section Safe
variable {P : Protocol S L} {l : L}

theorem not_safe_fault : ¬ (fault : Prog S.withFault α).Safe P l := fun h => h.1

theorem wp_lift {post : L → α → Prop} (p : Prog S α) : p.lift.wp P.faultFree post l ↔ p.wp P post l := by
  induction p generalizing l with
  | pure a => rfl
  | op o k ih => exact and_congr_right fun _ => forall_congr' fun r => imp_congr_right fun _ => ih r

/-- A program that does not fault, and then one that may. -/
theorem safe_lift_bind (p : Prog S α) (f : α → Prog S.withFault β) :
    (p.lift.bind f).Safe P l ↔ p.wp P (fun l a => (f a).Safe P l) l :=
  (wp_bind p.lift f).trans (wp_lift p)

theorem safe_bind_pure (p : Prog S.withFault α) (g : α → β) : (p.bind fun a => .pure (g a)).Safe P l ↔ p.Safe P l :=
  wp_bind p _

/-- Where the protocol allows everything, there is nothing else to fear. -/
theorem wp_of_ok (hok : ∀ l o, P.ok l o) (p : Prog S α) : p.wp P (fun _ _ => True) l := by
  induction p generalizing l with
  | pure a => trivial
  | op o k ih => exact ⟨hok l o, fun r _ => ih r⟩

theorem safe_lift (hok : ∀ l o, P.ok l o) (p : Prog S α) : p.lift.Safe P l := (wp_lift p).2 (wp_of_ok hok p)

end Safe

end Prog

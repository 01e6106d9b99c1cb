import Netdisk.Bcrypt.Passwords
import Netdisk.WorkPath

/-!
# Who can log in

`accepted` reads off a run which registrations found their names free. In every state of the run the
table of users is these registrations, with a hash in the place of each password, and a login succeeds
with the passwords that have the hash of the one that was registered (`login_iff_accepted`).
-/

namespace Netdisk
open Runs

/-- The account, the random string and the password of a request that registers. -/
def registration : RowOrder × Nat × Request → Option (CStr × CStr × CStr)
  | (_, _, .call (.userRegister rand account password)) => some (account, rand, password)
  | (_, _, .login rand frame) =>
    if frame.commandNo = 0 then some ((parseRequest frame.data).1, rand, (parseRequest frame.data).2) else none
  | _ => none

/-- The registrations among the steps that found no user of the name. -/
def accepted : Served → List ((RowOrder × Nat × Request) × Served) → List (CStr × CStr × CStr)
  | _, [] => []
  | s, (i, t) :: r => (registration i).toList.filter (fun x => s.db.user.all (·.name ≠ x.1)) ++ accepted t r

section Registered

variable {J : Jwt} {C : Crypt} {fd : Int} {s t : Served} {i : RowOrder × Nat × Request}

/-- The columns of a user that a registration fills in. -/
def hashed (C : Crypt) (x : CStr × CStr × CStr) : CStr × CStr := (x.1, encryptPassword C x.2.1 x.2.2)

def credentials (db : Db) : List (CStr × CStr) := db.user.map fun u => (u.name, u.password)

theorem credentials_register (db : Db) (account word : CStr) :
    credentials (((db.exec (.insertUser account word)).exec .insertDir).exec
      (.insertUserFile account db.nextUser db.nextFile none)) = credentials db ++ [(account, word)] := by
  have hrows : (db.user ++ [(⟨db.nextUser, account, word⟩ : User)]).map (fun u => (u.name, u.password)) =
      credentials db ++ [(account, word)] := List.map_append
  exact hrows

/-- The new rows of one registration. -/
def newRows (C : Crypt) (db : Db) (x : CStr × CStr × CStr) : List (CStr × CStr) :=
  ([x].filter fun x => db.user.all (·.name ≠ x.1)).map (hashed C)

theorem newRows_free {db : Db} {x : CStr × CStr × CStr} (h : ∀ y ∈ db.user, y.name ≠ x.1) :
    newRows C db x = [hashed C x] := by
  rw [newRows, List.filter_cons_of_pos (by simpa using h), List.filter_nil, List.map_singleton]

theorem newRows_taken {db : Db} {x : CStr × CStr × CStr} (h : ∃ y ∈ db.user, y.name = x.1) : newRows C db x = [] := by
  rw [newRows, List.filter_cons_of_neg (by simpa using h), List.filter_nil, List.map_nil]

/-- `userRegister_reply`, on the users alone. -/
theorem credentials_reply {db db' : Db} {ord : RowOrder} {now : Nat} {rand account password : CStr} {ret : Int}
    (h : (userRegister C rand account password).run (Db.reply ord now) db = some (ret, db')) :
    credentials db' = credentials db ++ newRows C db (account, rand, password) := by
  rcases @userRegister_reply C db ord now rand account password with ⟨htaken, hrun⟩ | ⟨hfree, hrun⟩
  · obtain ⟨-, rfl⟩ := Prod.mk.inj (Option.some.inj (hrun.symm.trans h))
    rw [newRows_taken htaken, List.append_nil]
  · obtain ⟨-, rfl⟩ := Prod.mk.inj (Option.some.inj (hrun.symm.trans h))
    rw [newRows_free hfree, credentials_register]
    rfl

theorem Db.call_userRegister {db db' : Db} {ord : RowOrder} {rand account password : CStr}
    (h : Db.Step C db (ord, .userRegister rand account password) db') :
    credentials db' = credentials db ++ newRows C db (account, rand, password) := by
  obtain ⟨⟨ret, db'⟩, hrun, rfl⟩ := Option.map_eq_some_iff.1 h
  by_cases hu : db.selectUser ord account = []
  · simp [Db.Call.prog, userRegister, Db.handler, hu] at hrun
    obtain ⟨-, rfl⟩ := hrun
    rw [newRows_free (Db.selectUser_eq_nil.1 hu)]
    exact credentials_register _ _ _
  · have htaken := Db.selectUser_eq_nil.not.1 hu
    push Not at htaken
    simp [Db.Call.prog, userRegister, Db.handler, hu] at hrun
    obtain ⟨-, rfl⟩ := hrun
    rw [newRows_taken htaken, List.append_nil]

/-- After the registration itself, a registering frame changes nothing. -/
theorem checkUserLogin_register {db db' : Db} {ord : RowOrder} {now : Nat} {rand : CStr} {frame : TransFile} {ret : Int}
    {token : TokenInfo} (hno : frame.commandNo = 0)
    (h : (checkUserLogin J C rand fd frame {}).run (Db.reply ord now) db = some ((ret, token), db')) :
    ∃ r, (userRegister C rand (parseRequest frame.data).1 (parseRequest frame.data).2).run (Db.reply ord now) db =
      some (r, db') := by
  unfold checkUserLogin at h
  cases hwords : loginWords frame.data with
  | none =>
    rw [hwords] at h
    cases h
  | some args =>
    obtain ⟨userName, userPwd⟩ := args
    have hargs := (loginWords_eq_some.1 hwords).1
    have hparse : parseRequest frame.data = (userName, userPwd) := by simp [parseRequest, hargs]
    rw [hwords] at h
    simp only [Prog.bind_eq] at h
    rw [if_pos hno, Prog.run_bind] at h
    obtain ⟨⟨r, db₁⟩, hreg, h⟩ := Option.bind_eq_some_iff.1 h
    rw [hparse]
    refine ⟨r, hreg.trans ?_⟩
    dsimp only at h
    split at h
    · split at h
      · simp [Prog.run_bind, sendMessage_reply] at h
        rw [h.2]
      split at h
      · simp [Prog.run_bind, sendMessage_reply] at h
        rw [h.2]
      · simp at h
        rw [h.2]
    · simp [Prog.run_bind, sendMessage_reply] at h
      rw [h.2]

theorem Db.Effect.credentials {db db' : Db} {ord : RowOrder} {call : Db.Call} (h : Db.Effect db ord call db')
    (hcall : ∀ rand account password, call ≠ .userRegister rand account password) :
    credentials db' = credentials db := by
  cases h with
  | register word hfree => exact absurd rfl (hcall _ _ _)
  | _ => rfl

theorem credentials_step (hst : RequestStep J C fd s i t) :
    credentials t.db = credentials s.db ++
      ((registration i).toList.filter fun x => s.db.user.all (·.name ≠ x.1)).map (hashed C) := by
  obtain ⟨ord, now, req⟩ := i
  cases req with
  | call call =>
    obtain ⟨db, hcall, rfl⟩ := Option.map_eq_some_iff.1 hst
    cases call with
    | userRegister rand account password => exact Db.call_userRegister hcall
    | _ => exact ((Db.Step.effect hcall).credentials (by simp)).trans (List.append_nil _).symm
  | login rand frame =>
    obtain ⟨hno, hst⟩ := Option.ite_none_right_eq_some.1 hst
    obtain ⟨⟨⟨ret, token⟩, db⟩, hrun, rfl⟩ := Option.map_eq_some_iff.1 hst
    rw [registration]
    by_cases hzero : frame.commandNo = 0
    · obtain ⟨r, hreg⟩ := checkUserLogin_register hzero hrun
      rw [if_pos hzero]
      exact credentials_reply hreg
    · rw [if_neg hzero]
      rcases (checkUserLogin_reply hno hrun).1 with rfl | ⟨hzero', -⟩
      · exact (List.append_nil _).symm
      · exact absurd hzero' hzero
  | cd k argument =>
    obtain ⟨x, hx, hst⟩ := Option.bind_eq_some_iff.1 hst
    obtain ⟨⟨⟨ret, token⟩, db⟩, hrun, rfl⟩ := Option.map_eq_some_iff.1 hst
    obtain ⟨rfl, -⟩ := changeDir_reply hrun
    exact (List.append_nil _).symm

/-- The users after a run are those before it and the registrations that it accepted. -/
theorem credentials_run {r : List ((RowOrder × Nat × Request) × Served)} (hr : IsRun (RequestStep J C fd) s r) :
    credentials (final s r).db = credentials s.db ++ (accepted s r).map (hashed C) := by
  induction r generalizing s with
  | nil => exact (List.append_nil _).symm
  | cons x r ih =>
    obtain ⟨i, t⟩ := x
    obtain ⟨hst, hr⟩ := hr
    rw [final, ih hr, credentials_step hst, accepted, List.map_append, List.append_assoc]

/-- No name is registered twice. -/
theorem nodup_step (h : ((credentials s.db).map Prod.fst).Nodup) (hst : RequestStep J C fd s i t) :
    ((credentials t.db).map Prod.fst).Nodup := by
  rw [credentials_step hst, List.map_append]
  cases registration i with
  | none => simpa using h
  | some x =>
    change ((credentials s.db).map Prod.fst ++ (newRows C s.db x).map Prod.fst).Nodup
    by_cases hfree : ∀ y ∈ s.db.user, y.name ≠ x.1
    · rw [newRows_free hfree]
      refine List.Nodup.append h (List.nodup_singleton _) ?_
      simp only [credentials, List.map_map]
      intro a ha hax
      obtain ⟨y, hy, rfl⟩ := List.mem_map.1 ha
      exact hfree y hy (List.mem_singleton.1 hax)
    · push Not at hfree
      rw [newRows_taken hfree, List.map_nil, List.append_nil]
      exact h

theorem nodup_run {r : List ((RowOrder × Nat × Request) × Served)} (hr : IsRun (RequestStep J C fd) {} r) :
    ((credentials (final {} r).db).map Prod.fst).Nodup :=
  (hr.always (I := fun s : Served => ((credentials s.db).map Prod.fst).Nodup) (C := fun _ _ => True)
    (fun _ _ _ h _ hst => nodup_step h hst) List.nodup_nil (Meets.of_forall (fun _ _ => trivial) _ _)).final

end Registered

/-! ### A login -/

section Login

variable {J : Jwt} {C : Crypt} {fd : Int} {db : Db} {ord : RowOrder} {now : Nat} {rand : CStr} {frame : TransFile}
  {name pwd : CStr}

/-- What a login answers, and the token it gives. -/
def answer (C : Crypt) (name pwd : CStr) : List User → Int × TokenInfo
  | [] => (1, {})
  | user :: _ => if matchPassword C pwd user.password = true then (0, ⟨user.id, '/' :: name⟩) else (1, {})

theorem checkUserLogin_login (hno : frame.commandNo = 1)
    (hwords : loginWords frame.data = some (name, pwd)) :
    (checkUserLogin J C rand fd frame {}).run (Db.reply ord now) db =
      some (answer C name pwd (db.selectUser ord name), db) := by
  have hone : frame.commandNo ≠ 0 := by
    rw [hno]
    decide
  unfold checkUserLogin
  rw [hwords]
  simp only [Prog.bind_eq]
  rw [if_neg hone, if_pos hno, Prog.run_bind]
  cases hu : db.selectUser ord name with
  | nil => simp [getUser, Db.reply, Db.handler, hu, Prog.run_bind, sendMessage_reply, answer]
  | cons user users =>
    have hget : (getUser name).run (Db.reply ord now) db = some (some (user :: users), db) := by
      simp [getUser, Db.reply, Db.handler, hu]
    rw [hget, Option.bind_some]
    dsimp only
    by_cases hmatch : matchPassword C pwd user.password = true
    · rw [if_neg (by simp [hmatch])]
      simp [Prog.run_bind, sendMessage_reply, answer, hmatch]
    · rw [if_pos (by simpa using hmatch)]
      simp [Prog.run_bind, sendMessage_reply, answer, hmatch]

theorem mem_selectUser {u : User} : u ∈ db.selectUser ord name ↔ u ∈ db.user ∧ u.name = name := by
  simp [Db.selectUser]

/-- Names are unique: the row that is looked at is the one of the name. -/
theorem answer_iff (hnodup : ((credentials db).map Prod.fst).Nodup) :
    (answer C name pwd (db.selectUser ord name)).1 = 0 ↔
      ∃ word, (name, word) ∈ credentials db ∧ matchPassword C pwd word = true := by
  have hmem : ∀ u ∈ db.user, (u.name, u.password) ∈ credentials db := fun u hu => List.mem_map_of_mem hu
  cases hsel : db.selectUser ord name with
  | nil =>
    refine iff_of_false (by simp [answer]) ?_
    rintro ⟨word, hword, -⟩
    obtain ⟨u, hu, heq⟩ := List.mem_map.1 hword
    obtain ⟨rfl, rfl⟩ := Prod.mk.inj heq
    exact Db.selectUser_eq_nil.1 hsel u hu rfl
  | cons u us =>
    obtain ⟨hu, rfl⟩ := mem_selectUser.1 (hsel ▸ List.mem_cons_self)
    have hword : ∀ word, (u.name, word) ∈ credentials db → word = u.password := by
      intro word h
      exact congrArg Prod.snd (List.inj_on_of_nodup_map hnodup h (hmem u hu) rfl)
    constructor
    · intro h
      refine ⟨u.password, hmem u hu, ?_⟩
      by_contra hmatch
      rw [answer, if_neg hmatch] at h
      exact absurd h (by decide)
    · rintro ⟨word, hcred, hmatch⟩
      rw [hword word hcred] at hmatch
      rw [answer, if_pos hmatch]

end Login

/-- A login succeeds with a password exactly when a registration of that name was accepted earlier in the
run, with a password of the same hash under the salt drawn for it; the first 72 bytes are enough. The order
in which rows are delivered makes no difference, and no table changes. -/
theorem login_iff_accepted (J : Jwt) (fd : Int) (r : List ((RowOrder × Nat × Request) × Served))
    (hr : IsRun (RequestStep J BF.bcrypt fd) {} r) (ord : RowOrder) (now : Nat) (rand : CStr) (frame : TransFile)
    (name pwd : CStr) (hno : frame.commandNo = 1)
    (hwords : loginWords frame.data = some (name, pwd)) :
    ∃ ret token, (checkUserLogin J BF.bcrypt rand fd frame {}).run (Db.reply ord now) (final {} r).db =
        some ((ret, token), (final {} r).db) ∧
      (ret = 0 ↔ ∃ drawn password, (name, drawn, password) ∈ accepted {} r ∧ 16 ≤ drawn.length ∧
        BF.kept pwd drawn = BF.kept password drawn) ∧
      ∀ drawn password, (name, drawn, password) ∈ accepted {} r → 16 ≤ drawn.length → BF.IsString password →
        BF.IsString pwd → pwd.take 72 = password.take 72 → ret = 0 := by
  have hiff : (answer BF.bcrypt name pwd ((final {} r).db.selectUser ord name)).1 = 0 ↔
      ∃ drawn password, (name, drawn, password) ∈ accepted {} r ∧ 16 ≤ drawn.length ∧
        BF.kept pwd drawn = BF.kept password drawn := by
    refine (answer_iff (nodup_run hr)).trans ?_
    rw [credentials_run hr]
    constructor
    · rintro ⟨word, hword, hmatch⟩
      obtain ⟨⟨a, drawn, password⟩, hx, heq⟩ := List.mem_map.1 hword
      obtain ⟨rfl, rfl⟩ := Prod.mk.inj heq
      exact ⟨drawn, password, hx, BF.matchPassword_iff.1 hmatch⟩
    · rintro ⟨drawn, password, hx, hkept⟩
      exact ⟨_, List.mem_map_of_mem hx, BF.matchPassword_iff.2 hkept⟩
  refine ⟨_, _, checkUserLogin_login hno hwords, hiff, fun drawn password hx hdrawn hpassword hpwd h72 => ?_⟩
  exact hiff.2 ⟨drawn, password, hx, hdrawn, BF.kept_congr hpassword hpwd h72⟩

end Netdisk

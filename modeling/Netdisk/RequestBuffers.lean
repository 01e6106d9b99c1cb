import Netdisk.Client
import Netdisk.RemoveSpace
import Netdisk.Worker

/-!
# The buffers that a request is copied into

The strings that `connect_with_client`, `check_user_login` and `get_user_path` copy into buffers of a
fixed size, or of the size that the frame gives, on the way into a handler.
-/

namespace Netdisk

inductive RequestBuffer where
  | cmd | argument | userName | userPwd | userPath
deriving DecidableEq

/-- Its size in bytes. -/
def RequestBuffer.size (frame : TransFile) : RequestBuffer → Nat
  | cmd => 10
  | argument => frame.dataLength.toNat
  | userName => 100
  | userPwd => 100
  | userPath => 1024

/-- A `strcpy` or `sprintf` of `text`. -/
structure Copy where
  buffer : RequestBuffer
  text : CStr
deriving DecidableEq

/-- The text fits with its terminator. -/
def Copy.Fits (frame : TransFile) (c : Copy) : Prop := c.text.length + 1 ≤ c.buffer.size frame

instance (frame : TransFile) (c : Copy) : Decidable (c.Fits frame) := inferInstanceAs (Decidable (_ ≤ _))

/-- The copies of `connect_with_client`. -/
def connectCopies (frame : TransFile) : List Copy :=
  let data := removeSpace frame.data
  match spliteArgument data with
  | some (cmd, argument) => [⟨.cmd, cmd⟩, ⟨.argument, argument⟩]
  | none => [⟨.cmd, data⟩]

/-- The copies of `check_user_login`. -/
def loginCopies (frame : TransFile) : List Copy :=
  match spliteArgument (removeSpace frame.data) with
  | some (userName, userPwd) => [⟨.userName, userName⟩, ⟨.userPwd, userPwd⟩]
  | none => []

/-- A work path as a token carries it. -/
structure WorkPath where
  text : CStr
  absolute : text.head? = some '/'
  short : text.length ≤ 1023

/-- What `get_user_path` writes to `user_path` first. -/
def joined (argument : CStr) (token : TokenInfo) : Option CStr :=
  match argument with
  | [] => some token.workpath
  | c :: _ => do
    let res ← spliteFileName token.workpath
    some (if c = '/' then '/' :: res.headD [] ++ argument else token.workpath ++ '/' :: argument)

/-- The argument with which the command's handler calls `get_user_path`. -/
def pathArgument : Command → CStr → Option CStr
  | .cd, argument | .ls, argument | .ll, argument | .mkdir, argument | .rm, argument => some argument
  | .pwd, _ => none
  | .puts, argument => (spliteArgument argument).map Prod.snd
  | .gets, argument => (spliteArgument argument).map Prod.fst

/-- All copies from the frame up to the handler's path. -/
def requestCopies (frame : TransFile) (token : TokenInfo) : List Copy :=
  let path := do
    let (command, argument) ← dispatch frame.data
    let argument ← pathArgument command argument
    joined argument token
  connectCopies frame ++ (path.map (⟨.userPath, ·⟩)).toList

/-- The sprintf of a path, relative or absolute, in 1023 bytes. -/
def ShortPath (argument workpath : CStr) : Prop :=
  if argument.head? = some '/' then 1 + (workpath.tail.takeWhile (· ≠ '/')).length + argument.length ≤ 1023
  else workpath.length + 1 + argument.length ≤ 1023

/-- The line's first word has 9 bytes at most, and the path of its command is short, unless it has none. -/
def ShortRequest (command workpath : CStr) : Prop :=
  ((removeSpace command).takeWhile (· ≠ ' ')).length ≤ 9 ∧
    ∀ c argument path, dispatch command = some (c, argument) → pathArgument c argument = some path →
      path ≠ [] → ShortPath path workpath

section Lengths
variable {s a b argument workpath : CStr} {prev : Option Char} {userId : Nat}

theorem getUserPath_joined (token : TokenInfo) (hargument : argument ≠ []) :
    getUserPath argument token = (joined argument token).map simplifyPath := by
  obtain ⟨c, argument, rfl⟩ := List.exists_cons_of_ne_nil hargument
  unfold getUserPath joined
  cases spliteFileName token.workpath <;> rfl

theorem spliteArgument_none (hs : ' ' ∉ s) : spliteArgument s = none := by
  have hall : ∀ x ∈ s, decide (x ≠ ' ') = true := fun x hx => decide_eq_true fun h => hs (h ▸ hx)
  rw [spliteArgument, List.dropWhile_eq_nil_iff.2 hall]

theorem spliteArgument_space (ha : ' ' ∉ a) : spliteArgument (a ++ ' ' :: b) = some (a, b.dropWhile (· = ' ')) := by
  rw [spliteArgument, dropWhile_split ha, takeWhile_split ha]
  simp

/-- The words are shorter than the string by the space between them. -/
theorem length_spliteArgument (h : spliteArgument s = some (a, b)) :
    a = s.takeWhile (· ≠ ' ') ∧ a.length + 1 + b.length ≤ s.length := by
  by_cases hs : ' ' ∈ s
  · obtain ⟨w, t, rfl, hw⟩ := List.eq_append_cons_of_mem hs
    rw [spliteArgument_space hw] at h
    obtain ⟨rfl, rfl⟩ := Prod.mk.inj (Option.some.inj h)
    have hle := (List.dropWhile_sublist (l := t) (· = ' ')).length_le
    rw [takeWhile_split hw, List.length_append, List.length_cons]
    exact ⟨rfl, by omega⟩
  · rw [spliteArgument_none hs] at h
    cases h

theorem headD_pieces (cur rest : CStr) : (pieces cur rest).headD [] = cur ++ rest.takeWhile (· ≠ '/') := by
  induction rest generalizing cur with
  | nil => simp [pieces]
  | cons c rest ih =>
    rw [pieces]
    split
    · next hc => simp [hc]
    · next hc =>
      have htake : (c :: rest).takeWhile (· ≠ '/') = c :: rest.takeWhile (· ≠ '/') := by simp [hc]
      rw [ih, htake, List.append_assoc, List.singleton_append]

theorem forall_mem_pair {α : Type} {P : α → Prop} {x y : α} : (∀ z ∈ [x, y], P z) ↔ P x ∧ P y := by simp

/-- The command and the argument fit if the first word does: the argument's buffer is as long as the line. -/
theorem connectCopies_fit (command : CStr) (i : Nat) (globalToken : CStr) :
    (∀ c ∈ connectCopies (commandFrame command i globalToken), c.Fits (commandFrame command i globalToken)) ↔
      ((removeSpace command).takeWhile (· ≠ ' ')).length ≤ 9 := by
  have hline := (removeSpace_sublist command).length_le
  unfold connectCopies
  dsimp only [commandFrame]
  by_cases hspace : ' ' ∈ removeSpace command
  · obtain ⟨w, t, hdata, hw⟩ := List.eq_append_cons_of_mem hspace
    have hsplit : spliteArgument (removeSpace command) = some (w, t.dropWhile (· = ' ')) := by
      rw [hdata, spliteArgument_space hw]
    obtain ⟨hword, hlen⟩ := length_spliteArgument hsplit
    rw [hsplit, ← hword]
    simp only [forall_mem_pair, Copy.Fits, RequestBuffer.size, Int.toNat_natCast]
    omega
  · have hword : (removeSpace command).takeWhile (· ≠ ' ') = removeSpace command :=
      List.takeWhile_eq_self_iff.2 fun x hx => decide_eq_true fun h => hspace (h ▸ hx)
    rw [spliteArgument_none hspace, hword]
    simp only [List.forall_mem_singleton, Copy.Fits, RequestBuffer.size]
    omega

/-- `user_path` has room for the work path, and for a short path. -/
theorem joined_fits (argument : CStr) (userId : Nat) (workpath : WorkPath) :
    ∃ text, joined argument { userId := userId, workpath := workpath.text } = some text ∧
      (text.length + 1 ≤ 1024 ↔ (argument ≠ [] → ShortPath argument workpath.text)) := by
  obtain ⟨text, habsolute, hshort⟩ := workpath
  obtain ⟨rest, rfl⟩ := List.head?_eq_some_iff.1 habsolute
  cases argument with
  | nil => exact ⟨_, rfl, iff_of_true (Nat.succ_le_succ hshort) fun h => absurd rfl h⟩
  | cons c argument =>
    have hjoined : joined (c :: argument) { userId := userId, workpath := '/' :: rest } =
        some (if c = '/' then '/' :: (pieces [] rest).headD [] ++ c :: argument else '/' :: rest ++ '/' :: c :: argument) := by
      rw [joined, spliteFileName_cons]
      rfl
    refine ⟨_, hjoined, ?_⟩
    simp only [ShortPath, List.head?_cons, Option.some.injEq, List.tail_cons, headD_pieces, List.nil_append, ne_eq,
      reduceCtorEq, not_false_eq_true, forall_const]
    by_cases hc : c = '/'
    · simp only [hc, if_true, List.length_append, List.length_cons]
      omega
    · simp only [hc, if_false, List.length_append, List.length_cons]
      omega

theorem requestCopies_fit (command : CStr) (i : Nat) (globalToken : CStr) (userId : Nat) (workpath : WorkPath) :
    (∀ c ∈ requestCopies (commandFrame command i globalToken) { userId := userId, workpath := workpath.text },
      c.Fits (commandFrame command i globalToken)) ↔ ShortRequest command workpath.text := by
  unfold requestCopies
  dsimp only
  rw [List.forall_mem_append, connectCopies_fit, ShortRequest]
  refine and_congr_right fun _ => ?_
  show (∀ c ∈ (Option.map _ ((dispatch command).bind fun x => (pathArgument x.1 x.2).bind fun a => joined a _)).toList, _) ↔ _
  cases hcommand : dispatch command with
  | none => exact iff_of_true nofun nofun
  | some x =>
    obtain ⟨c, argument⟩ := x
    cases hpath : pathArgument c argument with
    | none =>
      simp only [Option.bind_some, hpath, Option.bind_none]
      refine iff_of_true nofun fun c' argument' path hc' hpath' => ?_
      obtain ⟨rfl, rfl⟩ := Prod.mk.inj (Option.some.inj hc')
      rw [hpath] at hpath'
      cases hpath'
    | some path =>
      obtain ⟨text, htext, hfits⟩ := joined_fits path userId workpath
      simp only [Option.bind_some, hpath, htext, Option.map_some, Option.toList_some, List.forall_mem_singleton]
      refine hfits.trans ⟨?_, fun h => h c argument path rfl hpath⟩
      intro h c' argument' path' hc' hpath'
      obtain ⟨rfl, rfl⟩ := Prod.mk.inj (Option.some.inj hc')
      rw [hpath] at hpath'
      obtain rfl := Option.some.inj hpath'
      exact h

theorem loginCopies_fit (frame : TransFile) : (∀ c ∈ loginCopies frame, c.Fits frame) ↔
    ∀ userName userPwd, spliteArgument (removeSpace frame.data) = some (userName, userPwd) →
      userName.length ≤ 99 ∧ userPwd.length ≤ 99 := by
  unfold loginCopies
  cases spliteArgument (removeSpace frame.data) with
  | none => exact iff_of_true nofun nofun
  | some words =>
    obtain ⟨userName, userPwd⟩ := words
    simp only [forall_mem_pair, Copy.Fits, RequestBuffer.size, Option.some.injEq, Prod.mk.injEq]
    constructor
    · rintro h _ _ ⟨rfl, rfl⟩
      omega
    · intro h
      have := h userName userPwd ⟨rfl, rfl⟩
      omega

end Lengths

/-- A line of the client fits all buffers of the server, up to the handler's path, exactly if it is short, and
a login frame exactly if both its words have 99 bytes at most. -/
theorem copies_fit_iff (command globalToken : CStr) (i userId : Nat) (workpath : WorkPath) (login : TransFile) :
    ((∀ c ∈ requestCopies (commandFrame command i globalToken) { userId := userId, workpath := workpath.text },
      c.Fits (commandFrame command i globalToken)) ↔ ShortRequest command workpath.text) ∧
    ((∀ c ∈ loginCopies login, c.Fits login) ↔
      ∀ userName userPwd, spliteArgument (removeSpace login.data) = some (userName, userPwd) →
        userName.length ≤ 99 ∧ userPwd.length ≤ 99) :=
  ⟨requestCopies_fit command i globalToken userId workpath, loginCopies_fit login⟩

/-- A line that begins with `cd` as the client wants it, and has a long first word. -/
theorem cmd_overflow : classify "cdxxxxxxxxxx y".toList = some (0, .short) ∧
    ¬ ∀ c ∈ requestCopies (commandFrame "cdxxxxxxxxxx y".toList 0 ['t']) { userId := 1, workpath := ['/', 'u'] },
      c.Fits (commandFrame "cdxxxxxxxxxx y".toList 0 ['t']) := by decide

end Netdisk

import Netdisk.FileChange
import Netdisk.SimplifyPath
import Mathlib.Data.List.TakeWhile

/-!
# Canonical paths

What `simplifyPath` leaves of an absolute path, what `get_user_path` makes of an argument, and the
entry that a command is asked for. `add_dir` and `remove_file` cut the parent from the path and read
the name off the argument: `targets_iff_endsInName` says which arguments make these two fit.
-/

namespace Netdisk

/-- The names on the stack, each behind a slash; `/` without any. -/
def canonical (path : CStr) : CStr := if resolve path = [] then ['/'] else joinPath (resolve path)

theorem foldl_enter {ns : List CStr} (h : ∀ n ∈ ns, IsName n) (dirs : Path) : ns.foldl enter dirs = dirs ++ ns := by
  induction ns generalizing dirs with
  | nil => simp
  | cons n ns ih =>
    obtain ⟨hn, hns⟩ := List.forall_mem_cons.1 h
    have henter : enter dirs n = dirs ++ [n] := by
      rw [enter, if_neg (not_or.2 ⟨hn.1, hn.2.2.1⟩), if_neg hn.2.2.2]
    rw [List.foldl_cons, henter, ih hns, List.append_assoc, List.singleton_append]

theorem resolve_joinPath {ns : List CStr} (h : ∀ n ∈ ns, IsName n) : resolve (joinPath ns) = ns := by
  rw [resolve, pieces_joinPath fun n hn => (h n hn).2.1, List.foldl_cons]
  exact foldl_enter h []

theorem resolve_canonical (path : CStr) : resolve (canonical path) = resolve path := by
  unfold canonical
  split
  · next hroot =>
    rw [hroot]
    rfl
  · exact resolve_joinPath (isName_resolve path)

theorem canonical_joinPath {ns : List CStr} (hne : ns ≠ []) (h : ∀ n ∈ ns, IsName n) :
    canonical (joinPath ns) = joinPath ns := by
  rw [canonical, resolve_joinPath h, if_neg hne]

theorem canonical_starts (path : CStr) : ∃ rest, canonical path = '/' :: rest := by
  unfold canonical
  split
  · exact ⟨[], rfl⟩
  · next hne =>
    obtain ⟨n, ns, hns⟩ := List.exists_cons_of_ne_nil hne
    rw [hns]
    exact ⟨n ++ joinPath ns, rfl⟩

theorem joinPath_snoc (ns : List CStr) (n : CStr) : joinPath (ns ++ [n]) = joinPath ns ++ '/' :: n := by
  simp [joinPath]

theorem joinPath_getLast? {ns : List CStr} (hne : ns ≠ []) (h : ∀ n ∈ ns, IsName n) :
    (joinPath ns).getLast? ≠ some '/' := by
  obtain ⟨ns, n, rfl⟩ := List.eq_nil_or_concat' ns |>.resolve_left hne
  have hn : IsName n := h n (List.mem_append_right _ (List.mem_singleton_self n))
  obtain ⟨cs, c, rfl⟩ := List.eq_nil_or_concat' n |>.resolve_left hn.1
  have hpath : joinPath (ns ++ [cs ++ [c]]) = (joinPath ns ++ '/' :: cs) ++ [c] := by simp [joinPath]
  intro hlast
  rw [hpath, List.getLast?_concat] at hlast
  exact hn.2.1 (List.mem_append_right _ (List.mem_singleton.2 (Option.some.inj hlast).symm))

theorem simplifyPath_slash (rest : CStr) : simplifyPath ('/' :: rest) = canonical ('/' :: rest) :=
  simplifyPath_eq rest

/-- `simplifyPath` computes the canonical path. -/
theorem simplifyPath_canonical (rest : CStr) :
    let path := '/' :: rest
    simplifyPath path = (if resolve path = [] then ['/'] else joinPath (resolve path)) ∧
      (resolve path ≠ [] →
        (simplifyPath path).getLast? ≠ some '/' ∧ pieces [] (simplifyPath path) = [] :: resolve path) ∧
      (∀ n ∈ resolve path, n ≠ [] ∧ n ≠ ['.'] ∧ n ≠ ['.', '.']) ∧
      simplifyPath (simplifyPath path) = simplifyPath path := by
  intro path
  have hnames : ∀ n ∈ resolve path, IsName n := isName_resolve path
  have hcanonical : simplifyPath path = canonical path := simplifyPath_slash rest
  refine ⟨hcanonical, ?_, ?_, ?_⟩
  · intro hne
    rw [hcanonical, canonical, if_neg hne]
    exact ⟨joinPath_getLast? hne hnames, pieces_joinPath fun n hn => (hnames n hn).2.1⟩
  · intro n hn
    exact ⟨(hnames n hn).1, (hnames n hn).2.2⟩
  · obtain ⟨rest', hrest'⟩ := canonical_starts path
    rw [hcanonical, hrest', simplifyPath_slash, ← hrest', canonical, resolve_canonical]
    rfl

/-! ### `get_user_path` -/

section getUserPath
variable {token : TokenInfo} {home : CStr} {dirs : List CStr} {argument path : CStr}

theorem getUserPath_eq (hnames : ∀ n ∈ home :: dirs, IsName n) (hwork : token.workpath = joinPath (home :: dirs)) :
    getUserPath argument token = some (if argument = [] then token.workpath else
      if argument.head? = some '/' then canonical ('/' :: home ++ argument)
      else canonical (token.workpath ++ '/' :: argument)) := by
  have hsplit : spliteFileName token.workpath = some (home :: dirs) := by
    rw [hwork]
    exact spliteFileName_joinPath (List.cons_ne_nil _ _) fun n hn => (hnames n hn).2.1
  cases argument with
  | nil => rfl
  | cons c argument =>
    have hslash : token.workpath = '/' :: (home ++ joinPath dirs) := hwork
    rw [getUserPath, hsplit, if_neg (List.cons_ne_nil _ _)]
    by_cases hc : c = '/'
    · subst hc
      exact congrArg some (simplifyPath_slash _)
    · have hhead : (c :: argument).head? ≠ some '/' := fun h => hc (Option.some.inj h)
      rw [if_neg hhead, hslash, List.cons_append, ← simplifyPath_slash]
      show some (simplifyPath (if c = '/' then _ else _)) = _
      rw [if_neg hc]

theorem canonical_split (hne : canonical path ≠ ['/']) :
    spliteFileName (canonical path) = some (resolve path) ∧ joinPath (resolve path) = canonical path := by
  have hroot : resolve path ≠ [] := fun h => hne (if_pos h)
  rw [canonical, if_neg hroot]
  exact ⟨spliteFileName_joinPath hroot fun n hn => (isName_resolve path n hn).2.1, rfl⟩

/-- `get_user_path` resolves an argument as a shell does, and its result splits into names. -/
theorem getUserPath_canonical (token : TokenInfo) (home : CStr) (dirs : List CStr)
    (hnames : ∀ n ∈ home :: dirs, IsName n) (hwork : token.workpath = joinPath (home :: dirs)) (argument : CStr) :
    ∃ path, getUserPath argument token = some path ∧
      path = (if argument = [] then token.workpath else
        if argument.head? = some '/' then canonical ('/' :: home ++ argument)
        else canonical (token.workpath ++ '/' :: argument)) ∧
      (path ≠ ['/'] → ∃ names, spliteFileName path = some names ∧ (∀ n ∈ names, IsName n) ∧ joinPath names = path) := by
  have hne : home :: dirs ≠ [] := List.cons_ne_nil _ _
  have hself : token.workpath = canonical token.workpath := by rw [hwork, canonical_joinPath hne hnames]
  refine ⟨_, getUserPath_eq hnames hwork, rfl, ?_⟩
  have hsplit : ∀ p, canonical p ≠ ['/'] →
      ∃ names, spliteFileName (canonical p) = some names ∧ (∀ n ∈ names, IsName n) ∧ joinPath names = canonical p := by
    intro p hp
    obtain ⟨hsplit, hjoin⟩ := canonical_split hp
    exact ⟨resolve p, hsplit, isName_resolve p, hjoin⟩
  split
  · rw [hself]
    exact hsplit _
  · split
    · exact hsplit _
    · exact hsplit _

theorem getUserPath_canonical_up :
    ∃ path, getUserPath "../b//".toList { userId := 1, workpath := "/u/a".toList } = some path ∧
      path = canonical "/u/a/../b//".toList ∧ (path ≠ ['/'] → ∃ names, spliteFileName path = some names ∧
        (∀ n ∈ names, IsName n) ∧ joinPath names = path) :=
  getUserPath_canonical { userId := 1, workpath := "/u/a".toList } ['u'] [['a']] (by decide) (by decide) "../b//".toList

/-! ### The entry a command is asked for -/

/-- The text behind the last slash is a name. -/
def EndsInName (argument : CStr) : Prop := ∃ n, IsName n ∧ (argument = n ∨ ∃ dir, argument = dir ++ '/' :: n)

theorem forall_ne_slash {n : CStr} (hn : '/' ∉ n) : ∀ c ∈ n.reverse, decide (c ≠ '/') = true := by
  intro c hc
  rw [decide_eq_true_iff]
  rintro rfl
  exact hn (List.mem_reverse.1 hc)

theorem getFileName_self {n : CStr} (hn : '/' ∉ n) : getFileName n = n := by
  rw [getFileName, List.takeWhile_eq_self_iff.2 (forall_ne_slash hn), List.reverse_reverse]

theorem getFileName_snoc {dir n : CStr} (hn : '/' ∉ n) : getFileName (dir ++ '/' :: n) = n := by
  rw [getFileName, List.reverse_append, List.reverse_cons, List.append_assoc,
    List.takeWhile_append_of_pos (forall_ne_slash hn)]
  simp

theorem cutName_snoc {dir n : CStr} (hdir : dir ≠ []) (hn : '/' ∉ n) : cutName (dir ++ '/' :: n) = dir := by
  have hrest : (dir ++ '/' :: n).reverse.dropWhile (· ≠ '/') = '/' :: dir.reverse := by
    rw [List.reverse_append, List.reverse_cons, List.append_assoc, List.dropWhile_append_of_pos (forall_ne_slash hn)]
    simp
  have hlength : ¬ ('/' :: dir.reverse).length ≤ 1 := by
    have := List.length_pos_iff.2 hdir
    simp only [List.length_cons, List.length_reverse]
    omega
  rw [cutName, hrest, if_neg hlength, List.tail_cons, List.reverse_reverse]

/-- `get_file_name` goes back to the last slash. -/
theorem getFileName_spec (argument : CStr) : '/' ∉ getFileName argument ∧
    (argument = getFileName argument ∨ ∃ dir, argument = dir ++ '/' :: getFileName argument) := by
  by_cases hslash : '/' ∈ argument
  · obtain ⟨n, dir, hsplit, hn⟩ := List.eq_append_cons_of_mem (List.mem_reverse.2 hslash)
    obtain rfl : argument = dir.reverse ++ '/' :: n.reverse := by
      rw [← List.reverse_reverse argument, hsplit]
      simp
    have hn' : '/' ∉ n.reverse := fun h => hn (List.mem_reverse.1 h)
    rw [getFileName_snoc hn']
    exact ⟨hn', .inr ⟨_, rfl⟩⟩
  · rw [getFileName_self hslash]
    exact ⟨hslash, .inl rfl⟩

theorem endsInName_iff : EndsInName argument ↔ IsName (getFileName argument) := by
  constructor
  · rintro ⟨n, hn, rfl | ⟨dir, rfl⟩⟩
    · rwa [getFileName_self hn.2.1]
    · rwa [getFileName_snoc hn.2.1]
  · intro hname
    exact ⟨_, hname, (getFileName_spec argument).2⟩

theorem resolve_snoc (dir : CStr) {n : CStr} (hn : IsName n) : resolve (dir ++ '/' :: n) = resolve dir ++ [n] := by
  rw [resolve, pieces_snoc hn.2.1, List.foldl_append]
  exact foldl_enter (fun m hm => List.mem_singleton.1 hm ▸ hn) _

theorem getUserPath_endsIn (hnames : ∀ n ∈ home :: dirs, IsName n) (hwork : token.workpath = joinPath (home :: dirs))
    (hpath : getUserPath argument token = some path) (hname : IsName (getFileName argument)) :
    ∃ ns, path = joinPath (ns ++ [getFileName argument]) := by
  rw [getUserPath_eq hnames hwork] at hpath
  obtain rfl := Option.some.inj hpath
  have hne : argument ≠ [] := by
    rintro rfl
    exact hname.1 rfl
  have hend : ∀ dir, canonical (dir ++ '/' :: getFileName argument) = joinPath (resolve dir ++ [getFileName argument]) := by
    intro dir
    rw [canonical, resolve_snoc dir hname, if_neg (List.append_ne_nil_of_right_ne_nil _ (List.cons_ne_nil _ _))]
  rw [if_neg hne]
  rcases (getFileName_spec argument).2 with hself | ⟨dir, hsplit⟩
  · have hhead : argument.head? ≠ some '/' := by
      intro hhead
      exact (getFileName_spec argument).1 (hself ▸ List.mem_of_mem_head? hhead)
    rw [if_neg hhead]
    nth_rewrite 1 [hself]
    exact ⟨_, hend _⟩
  · split
    · nth_rewrite 1 [hsplit]
      rw [← List.append_assoc]
      exact ⟨_, hend _⟩
    · nth_rewrite 1 [hsplit]
      rw [← List.cons_append, ← List.append_assoc]
      exact ⟨_, hend _⟩

theorem addDir_asks (J : Jwt) (clientFd : Int) (hpath : getUserPath argument token = some path) :
    ∃ reply, addDir J clientFd argument token = queryMkdir (cutName path) (getFileName argument) token.userId >>= reply := by
  unfold addDir
  rw [hpath]
  exact ⟨_, rfl⟩

theorem removeFile_asks (J : Jwt) (clientFd : Int) (hpath : getUserPath argument token = some path) :
    ∃ reply, removeFile J clientFd argument token =
      queryRemove (cutName path) (getFileName argument) token.userId >>= reply := by
  unfold removeFile
  rw [hpath]
  exact ⟨_, rfl⟩

theorem sendFile_asks (J : Jwt) (cwd : CStr) (clientFd : Int) {line rest : CStr}
    (hline : spliteArgument line = some (argument, rest)) (hpath : getUserPath argument token = some path) :
    ∃ reply, sendFile J cwd clientFd line token =
      queryGets (cutName path) (getFileName path) token.userId >>= reply := by
  unfold sendFile
  rw [hline]
  dsimp only
  rw [hpath]
  exact ⟨_, rfl⟩

/-- `add_dir` and `remove_file` act on the entry that the path denotes exactly when the argument ends
in a name, `send_file` always does. -/
theorem targets_iff_endsInName (J : Jwt) (cwd : CStr) (clientFd : Int) (token : TokenInfo) (home : CStr)
    (dirs : List CStr) (hnames : ∀ n ∈ home :: dirs, IsName n) (hwork : token.workpath = joinPath (home :: dirs))
    (argument path : CStr) (hpath : getUserPath argument token = some path) (names : List CStr) (name : CStr)
    (hne : names ≠ []) (hsplit : spliteFileName path = some (names ++ [name])) :
    (∃ reply, addDir J clientFd argument token =
      queryMkdir (cutName path) (getFileName argument) token.userId >>= reply) ∧
    (∃ reply, removeFile J clientFd argument token =
      queryRemove (cutName path) (getFileName argument) token.userId >>= reply) ∧
    ((cutName path, getFileName argument) = (joinPath names, name) ↔ EndsInName argument) ∧
    (∀ line rest, spliteArgument line = some (argument, rest) → ∃ reply, sendFile J cwd clientFd line token =
      queryGets (joinPath names) name token.userId >>= reply) ∧
    joinPath names ++ '/' :: name = path := by
  obtain ⟨p, hp, -, hjoin⟩ := getUserPath_canonical token home dirs hnames hwork argument
  obtain rfl : path = p := Option.some.inj (hpath.symm.trans hp)
  have hroot : path ≠ ['/'] := by
    rintro rfl
    have hnil : [[]] = names ++ [name] := Option.some.inj hsplit
    exact hne (List.append_inj_left' hnil.symm rfl)
  obtain ⟨ns, hns, hall, hpathEq⟩ := hjoin hroot
  obtain rfl : ns = names ++ [name] := Option.some.inj (hns.symm.trans hsplit)
  have hname : IsName name := hall name (List.mem_append_right _ (List.mem_singleton_self name))
  have hdirNe : joinPath names ≠ [] := by
    obtain ⟨n, ns, rfl⟩ := List.exists_cons_of_ne_nil hne
    exact List.cons_ne_nil _ _
  have hpathEq : joinPath names ++ '/' :: name = path := by rw [← joinPath_snoc, hpathEq]
  have hcut : cutName path = joinPath names := by rw [← hpathEq, cutName_snoc hdirNe hname.2.1]
  have hlast : getFileName path = name := by rw [← hpathEq, getFileName_snoc hname.2.1]
  refine ⟨addDir_asks J clientFd hpath, removeFile_asks J clientFd hpath, ?_, ?_, hpathEq⟩
  · rw [hcut, endsInName_iff, Prod.mk.injEq]
    constructor
    · rintro ⟨-, rfl⟩
      exact hname
    · intro hargument
      obtain ⟨ns, hend⟩ := getUserPath_endsIn hnames hwork hpath hargument
      have hlast' : getFileName path = getFileName argument := by
        rw [hend, joinPath_snoc, getFileName_snoc hargument.2.1]
      exact ⟨rfl, hlast'.symm.trans hlast⟩
  · intro line rest hline
    rw [← hcut, ← hlast]
    exact sendFile_asks J cwd clientFd hline hpath

/-- `mkdir a/b` in the home of `u`. -/
theorem targets_iff_endsInName_two :
    (cutName "/u/a/b".toList, getFileName "a/b".toList) = (joinPath [['u'], ['a']], ['b']) ↔ EndsInName "a/b".toList :=
  (targets_iff_endsInName .unary "/".toList 7 { userId := 1, workpath := "/u".toList } ['u'] [] (by decide) rfl
    "a/b".toList "/u/a/b".toList (by decide) [['u'], ['a']] ['b'] (by decide) (by decide)).2.2.1

/-- `mkdir d/` in the home of `u` makes an entry without a name. -/
theorem trailing_slash_unnamed : ¬ ∀ (token : TokenInfo) (home : CStr) (dirs : List CStr),
    (∀ n ∈ home :: dirs, IsName n) → token.workpath = joinPath (home :: dirs) → ∀ (argument path : CStr),
    getUserPath argument token = some path → ∀ (names : List CStr) (name : CStr), names ≠ [] →
    spliteFileName path = some (names ++ [name]) →
    (cutName path, getFileName argument) = (joinPath names, name) := by
  intro h
  have hd := h { userId := 1, workpath := "/u".toList } ['u'] [] (by decide) rfl "d/".toList "/u/d".toList
    (by decide) [['u']] ['d'] (by decide) (by decide)
  exact absurd hd (by decide)

end getUserPath

end Netdisk

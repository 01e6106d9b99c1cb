import Netdisk.Wire

/-!
# String routines (`tool.c`)

Loops over an index become recursions over the rest of the string that carry what the body reads
back. `none` is a call that runs outside its strings whatever the memory holds.
-/

namespace Netdisk

/-! ### `remove_space`, `splite_argument`, `get_file_name` -/

/-- The loop of `remove_space`; `prev` is `argument[i-1]`, absent at `i = 0`. -/
def removeSpaceLoop : Option Char → CStr → CStr
  | _, [] => []
  | prev, c :: rest =>
    if prev = none ∧ c = ' ' then removeSpaceLoop (some c) rest
    else if c = ' ' ∧ prev = some ' ' then removeSpaceLoop (some c) rest
    else if c = '\n' then removeSpaceLoop (some c) rest
    else c :: removeSpaceLoop (some c) rest

/-- `remove_space`: what `argument` holds afterwards. -/
def removeSpace (argument : CStr) : CStr :=
  let temp := removeSpaceLoop none argument
  if temp.getLast? = some ' ' then temp.dropLast else temp

/-- `splite_argument`: the text before the first space and the text after the spaces there, or
`NULL` without a space. -/
def spliteArgument (argument : CStr) : Option (CStr × CStr) :=
  match argument.dropWhile (· ≠ ' ') with
  | [] => none
  | rest => some (argument.takeWhile (· ≠ ' '), rest.dropWhile (· = ' '))

/-- `get_file_name`: read backwards up to a slash, then reversed. -/
def getFileName (localPath : CStr) : CStr :=
  let temp := localPath.reverse.takeWhile (· ≠ '/')
  temp.reverse

/-! ### `splite_file_name` -/

/-- `strncpy` of the characters strictly between `start` and `end`. -/
def between (path : CStr) (start stop : Nat) : CStr :=
  (path.drop (start + 1)).take (stop - start - 1)

/-- The loop of `splite_file_name` with `end` at position `stop`, and the component after it. -/
def spliteLoop (path : CStr) : (start stop : Nat) → CStr → List CStr
  | start, stop, [] => [between path start stop]
  | start, stop, c :: rest =>
    if c = '/' then
      if stop = start then spliteLoop path start (stop + 1) rest
      else between path start stop :: spliteLoop path stop (stop + 1) rest
    else spliteLoop path start (stop + 1) rest

/-- `splite_file_name`; on the empty path the last `strncpy` gets the length `-1`. -/
def spliteFileName (path : CStr) : Option (List CStr) :=
  if path.length = 0 then none else some (spliteLoop path 0 0 path)

/-! ### `simplifyPath`, `get_user_path` -/

/-- The local variables of `simplifyPath`. -/
structure Simplify where
  name : List Char
  nameIdx : Nat
  list : List Nat
  listIdx : Nat
  lastSlash : Nat
deriving DecidableEq

namespace Simplify

/-- `name[nameIdx++] = '/'; list[listIdx++] = nameIdx - 1;` -/
def keep (s : Simplify) : Simplify :=
  { s with
    name := s.name.set s.nameIdx '/'
    nameIdx := s.nameIdx + 1
    list := s.list.set s.listIdx s.nameIdx
    listIdx := s.listIdx + 1 }

/-- One iteration of the loop over `i`. -/
def step (path : CStr) (s : Simplify) (i : Nat) : Simplify :=
  if i < path.length ∧ path.getD i '\x00' ≠ '/' then
    { s with name := s.name.set s.nameIdx (path.getD i '\x00'), nameIdx := s.nameIdx + 1 }
  else
    let nameLen := i - s.lastSlash
    let s := { s with lastSlash := i }
    if nameLen = 1 then s
    else if nameLen = 2 then
      if path.getD (i - 1) '\x00' = '.' then { s with nameIdx := s.list.getD (s.listIdx - 1) 0 + 1 }
      else s.keep
    else if nameLen = 3 then
      if path.getD (i - 1) '\x00' = '.' ∧ path.getD (i - 2) '\x00' = '.' then
        if s.listIdx ≤ 1 then { s with listIdx := 1, nameIdx := 1 }
        else { s with listIdx := s.listIdx - 1, nameIdx := s.list.getD (s.listIdx - 2) 0 + 1 }
      else s.keep
    else s.keep

end Simplify

/-- `simplifyPath`: the string that `name` holds at the end. -/
def simplifyPath (path : CStr) : CStr :=
  let init : Simplify :=
    { name := (List.replicate (path.length + 1) '\x00').set 0 '/'
      nameIdx := 1
      list := List.replicate path.length 0
      listIdx := 1
      lastSlash := 0 }
  let s := (List.range' 1 path.length).foldl (Simplify.step path) init
  let num := if s.nameIdx = 1 then 0 else 1
  s.name.take (s.nameIdx - num)

/-- `get_user_path`. -/
def getUserPath (argument : CStr) (token : TokenInfo) : Option CStr :=
  match argument with
  | [] => some token.workpath
  | c :: _ => do
    let res ← spliteFileName token.workpath
    let userPath := if c = '/' then '/' :: res.headD [] ++ argument else token.workpath ++ '/' :: argument
    some (simplifyPath userPath)

example : simplifyPath "/a//b/../c/./".toList = "/a/c".toList := by decide

/-! ### Components of a path -/

/-- Splitting at every slash, `cur` being the piece read so far. -/
def pieces : CStr → CStr → List CStr
  | cur, [] => [cur]
  | cur, c :: rest => if c = '/' then cur :: pieces [] rest else pieces (cur ++ [c]) rest

abbrev Path := List CStr

/-- One component of a path, from the directories `dirs` on. -/
def enter (dirs : Path) (name : CStr) : Path :=
  if name = [] ∨ name = ['.'] then dirs else if name = ['.', '.'] then dirs.dropLast else dirs ++ [name]

/-- The file that an absolute path leads to. -/
def resolve (path : CStr) : Path := (pieces [] path).foldl enter []

/-- `/n₁/n₂/…/nₖ`. -/
def joinPath (ns : List CStr) : CStr := ns.flatMap ('/' :: ·)

theorem between_append {pre : CStr} {start : Nat} (hs : start < pre.length) (rest : CStr) :
    between (pre ++ rest) start pre.length = pre.drop (start + 1) := by
  rw [between, List.drop_append_of_le_length hs, List.take_append_of_le_length (by simp; omega)]
  exact List.take_of_length_le (by simp; omega)

theorem spliteLoop_eq {pre rest : CStr} {start : Nat} (hs : start < pre.length) :
    spliteLoop (pre ++ rest) start pre.length rest = pieces (pre.drop (start + 1)) rest := by
  induction rest generalizing pre start with
  | nil => rw [spliteLoop, pieces, between_append hs]
  | cons c rest ih =>
    have hb := between_append hs (c :: rest)
    have hlen : pre.length + 1 = (pre ++ [c]).length := by simp
    rw [List.append_cons] at hb ⊢
    by_cases hc : c = '/'
    · have hne : pre.length ≠ start := by omega
      rw [spliteLoop, if_pos hc, if_neg hne, hb, hlen, ih (by simp), pieces, if_pos hc]
      simp
    · have hdrop : (pre ++ [c]).drop (start + 1) = pre.drop (start + 1) ++ [c] :=
        List.drop_append_of_le_length hs
      rw [spliteLoop, if_neg hc, hlen, ih (by simp; omega), pieces, if_neg hc, hdrop]

/-- The first character is dropped whatever it is, the rest is split at the slashes. -/
theorem spliteFileName_cons (c : Char) (rest : CStr) : spliteFileName (c :: rest) = some (pieces [] rest) := by
  have h : spliteLoop ([c] ++ rest) 0 1 rest = pieces [] rest := spliteLoop_eq (by simp)
  have h' : spliteLoop (c :: rest) 0 0 (c :: rest) = spliteLoop (c :: rest) 0 1 rest := by
    rw [spliteLoop]
    split <;> simp
  rw [spliteFileName, if_neg (by simp), h']
  exact congrArg some h

theorem spliteFileName_eq_none {path : CStr} : spliteFileName path = none ↔ path = [] := by
  unfold spliteFileName
  simp

theorem pieces_ne_nil (cur rest : CStr) : pieces cur rest ≠ [] := by
  induction rest generalizing cur with
  | nil => simp [pieces]
  | cons c rest ih =>
    rw [pieces]
    split
    · simp
    · exact ih _

theorem spliteFileName_ne_nil {path : CStr} {names : List CStr} (h : spliteFileName path = some names) :
    names ≠ [] := by
  cases path with
  | nil => simp [spliteFileName] at h
  | cons c rest =>
    rw [spliteFileName_cons] at h
    exact Option.some.inj h ▸ pieces_ne_nil _ _

theorem pieces_append {cur n : CStr} (hn : '/' ∉ n) (rest : CStr) :
    pieces cur (n ++ rest) = pieces (cur ++ n) rest := by
  induction n generalizing cur with
  | nil => simp
  | cons c n ih =>
    obtain ⟨hc, hn⟩ := not_or.1 (List.mem_cons.not.1 hn)
    rw [List.cons_append, pieces, if_neg (Ne.symm hc), ih hn, List.append_assoc, List.singleton_append]

theorem pieces_joinPath {cur : CStr} {ns : List CStr} (h : ∀ n ∈ ns, '/' ∉ n) :
    pieces cur (joinPath ns) = cur :: ns := by
  induction ns generalizing cur with
  | nil => rfl
  | cons n ns ih =>
    obtain ⟨hn, hns⟩ := List.forall_mem_cons.1 h
    rw [show joinPath (n :: ns) = '/' :: (n ++ joinPath ns) from rfl, pieces, if_pos rfl, pieces_append hn,
      List.nil_append, ih hns]

theorem pieces_snoc {cur : CStr} {a b : CStr} (hb : '/' ∉ b) : pieces cur (a ++ '/' :: b) = pieces cur a ++ [b] := by
  induction a generalizing cur with
  | nil =>
    have h : pieces [] (b ++ []) = pieces ([] ++ b) [] := pieces_append hb []
    simpa [pieces] using h
  | cons c a ih =>
    rw [List.cons_append, pieces, pieces]
    split
    · rw [ih, List.cons_append]
    · exact ih

theorem spliteFileName_joinPath {ns : List CStr} (hne : ns ≠ []) (h : ∀ n ∈ ns, '/' ∉ n) :
    spliteFileName (joinPath ns) = some ns := by
  obtain ⟨n, ns, rfl⟩ := List.exists_cons_of_ne_nil hne
  obtain ⟨hn, hns⟩ := List.forall_mem_cons.1 h
  rw [show joinPath (n :: ns) = '/' :: (n ++ joinPath ns) from rfl, spliteFileName_cons, pieces_append hn,
    List.nil_append, pieces_joinPath hns]

end Netdisk

import Netdisk.Lib.Runs
import Netdisk.Log

/-!
# Which file a record goes to

All descriptors of the log share one cached date. A level whose descriptor is older than that date
writes on into its old file once another level has moved the date on.
-/

namespace Netdisk
open Runs

/-! ### Dates -/

namespace Date

theorem dash_not_mem_digits (n : Nat) : '-' ∉ Nat.toDigits 10 n := fun h =>
  absurd (Nat.isDigit_of_mem_toDigits (by decide) (by decide) h) (by decide)

theorem dash_not_mem_twoDigits (n : Nat) : '-' ∉ twoDigits n := by
  unfold twoDigits
  split
  · exact List.not_mem_cons_of_ne_of_not_mem (by decide) (dash_not_mem_digits n)
  · exact dash_not_mem_digits n

theorem toDigits_inj {n m : Nat} (h : Nat.toDigits 10 n = Nat.toDigits 10 m) : n = m := by
  rw [← Nat.ofDigitChars_ten_toDigits (n := n), h, Nat.ofDigitChars_ten_toDigits]

theorem ofDigitChars_twoDigits (n : Nat) : Nat.ofDigitChars 10 (twoDigits n) 0 = n := by
  unfold twoDigits
  split
  · show Nat.ofDigitChars 10 ('0' :: Nat.toDigits 10 n) 0 = n
    rw [Nat.ofDigitChars_cons]
    exact Nat.ofDigitChars_ten_toDigits
  · exact Nat.ofDigitChars_ten_toDigits

theorem twoDigits_inj {n m : Nat} (h : twoDigits n = twoDigits m) : n = m := by
  rw [← ofDigitChars_twoDigits n, h, ofDigitChars_twoDigits]

theorem append_dash_inj {a b t u : CStr} (ha : '-' ∉ a) (hb : '-' ∉ b) (h : a ++ '-' :: t = b ++ '-' :: u) :
    a = b ∧ t = u := by
  induction a generalizing b with
  | nil =>
    cases b with
    | nil => exact ⟨rfl, (List.cons.inj h).2⟩
    | cons c b => exact absurd (List.mem_cons.2 (.inl (List.cons.inj h).1)) hb
  | cons c a ih =>
    cases b with
    | nil => exact absurd (List.mem_cons.2 (.inl (List.cons.inj h).1.symm)) ha
    | cons d b =>
      obtain ⟨rfl, htail⟩ := List.cons.inj h
      obtain ⟨rfl, rfl⟩ := ih (fun h => ha (List.mem_cons_of_mem _ h)) (fun h => hb (List.mem_cons_of_mem _ h)) htail
      exact ⟨rfl, rfl⟩

theorem text_inj {d e : Date} (h : d.text = e.text) : d = e := by
  unfold text at h
  rw [List.append_assoc, List.append_assoc, List.cons_append, List.cons_append] at h
  obtain ⟨hyear, h⟩ := append_dash_inj (dash_not_mem_digits _) (dash_not_mem_digits _) h
  obtain ⟨hmonth, hday⟩ := append_dash_inj (dash_not_mem_twoDigits _) (dash_not_mem_twoDigits _) h
  obtain ⟨y, m, n, _, _, _⟩ := d
  obtain ⟨y', m', n', _, _, _⟩ := e
  obtain rfl := toDigits_inj hyear
  obtain rfl := twoDigits_inj hmonth
  obtain rfl := twoDigits_inj hday
  rfl

theorem length_twoDigits {n : Nat} (h : n < 100) : (twoDigits n).length ≤ 2 := by
  unfold twoDigits
  split
  · next hn => 
    have hlen := (Nat.length_toDigits_le_iff (by decide : 1 < 10) (by decide : 0 < 1)).2 (show n < 10 ^ 1 from hn)
    exact Nat.succ_le_succ hlen
  · exact (Nat.length_toDigits_le_iff (by decide) (by decide)).2 h

/-- A date fits the ten characters that are compared. -/
theorem length_text (d : Date) : d.text.length ≤ 10 := by
  have hyear := (Nat.length_toDigits_le_iff (by decide : 1 < 10) (by decide : 0 < 4)).2 (show d.year < 10 ^ 4 from d.year_lt)
  have hmonth := length_twoDigits (n := d.month) (by have := d.month_mem; omega)
  have hday := length_twoDigits (n := d.day) (by have := d.day_mem; omega)
  simp only [text, List.length_append, List.length_cons]
  omega

theorem take_text (d : Date) : d.text.take 10 = d.text := List.take_of_length_le d.length_text

end Date

/-! ### Calls -/

/-- A call of `print_log`, with the answers of the operating system in it. -/
structure LogCall where
  level : Level
  text : CStr
  sys : Sys

/-- The setting of `log_output_isolate`. -/
def isolation (conf : CStr → Option CStr) : Int := LogState.flag (conf "log_output_isolate".toList)

/-- One call; `open` succeeds, with a descriptor that is not open then: it was not, or the call has closed it. -/
def LogStep (conf : CStr → Option CStr) (s : LogState) (c : LogCall) (t : LogState) : Prop :=
  (s.files c.sys.fd = none ∨ (s.getCurrFd conf c.level).1 = c.sys.fd) ∧ t = (s.printLog conf c.sys c.level c.text).2

/-- The record goes to an open descriptor, which was opened on the file of the day (and of the level). -/
def RightFile (conf : CStr → Option CStr) (s : LogState) (c : LogCall) : Prop :=
  ∃ fd : Nat, (s.printLog conf c.sys c.level c.text).1.fd = fd ∧
    (s.printLog conf c.sys c.level c.text).2.files fd = some (LogState.path (isolation conf) c.sys.now.text c.level)

/-- The last of the calls that used the descriptor in place `k` of `log_fd`. -/
def latest (isIsolate : Int) (hist : List LogCall) (k : Nat) : Option LogCall :=
  hist.reverse.find? fun q => LogState.slot isIsolate q.level = k

/-- The call before was on the same day, but the last one with the same descriptor was not. -/
def Stale (isIsolate : Int) (hist : List LogCall) (c : LogCall) : Prop :=
  ∃ p q, hist.getLast? = some p ∧ p.sys.now = c.sys.now ∧
    latest isIsolate hist (LogState.slot isIsolate c.level) = some q ∧ q.sys.now ≠ c.sys.now

theorem latest_snoc (isIsolate : Int) (hist : List LogCall) (c : LogCall) (k : Nat) :
    latest isIsolate (hist ++ [c]) k = if LogState.slot isIsolate c.level = k then some c else latest isIsolate hist k := by
  unfold latest
  rw [List.reverse_append, List.reverse_singleton, List.singleton_append, List.find?_cons]
  by_cases h : LogState.slot isIsolate c.level = k
  · simp [h]
  · simp [h]

/-- One descriptor for all levels is never stale. -/
theorem not_stale_shared {isIsolate : Int} (h : isIsolate ≠ 1) (hist : List LogCall) (c : LogCall) :
    ¬ Stale isIsolate hist c := by
  rintro ⟨p, q, hp, hsame, hq, hne⟩
  have hslot (l : Level) : LogState.slot isIsolate l = 0 := if_neg h
  obtain ⟨front, rfl⟩ := List.getLast?_eq_some_iff.1 hp
  rw [latest_snoc, hslot, hslot, if_pos rfl] at hq
  exact hne (Option.some.inj hq ▸ hsame)

/-! ### What the state remembers of the calls -/

namespace LogState
variable {conf : CStr → Option CStr} {sys : Sys} {level : Level} {s : LogState} {hist : List LogCall} {c : LogCall}

/-- The state after the calls `hist`, all of them recorded in the right file. -/
structure Inv (conf : CStr → Option CStr) (hist : List LogCall) (s : LogState) : Prop where
  isolate : s.logIsolate = -1 ∨ s.logIsolate = isolation conf
  date : ∀ p, hist.getLast? = some p → s.currDate = p.sys.now.text
  length : s.logFd.length = 5
  unused : ∀ k, latest (isolation conf) hist k = none → s.logFd.getD k (-1) = -1
  used : ∀ k q, latest (isolation conf) hist k = some q → ∃ fd : Nat, s.logFd.getD k (-1) = fd ∧
    s.files fd = some (path (isolation conf) q.sys.now.text q.level)
  apart : ∀ k k' : Nat, ∀ fd : Nat, s.logFd.getD k (-1) = fd → s.logFd.getD k' (-1) = fd → k = k'

theorem slot_lt (isIsolate : Int) (l : Level) : slot isIsolate l < 5 := by
  unfold slot
  cases l <;> split <;> decide

theorem flag_ne (value : Option CStr) : flag value ≠ -1 := by
  unfold flag
  split
  · decide
  · split <;> decide

theorem getLogIsolate_eq (h : s.logIsolate = -1 ∨ s.logIsolate = isolation conf) :
    s.getLogIsolate conf = (isolation conf, { s with logIsolate := isolation conf }) := by
  unfold getLogIsolate
  rcases h with h | h
  · rw [if_neg (not_not.2 h)]
    rfl
  · rw [if_pos (h ▸ flag_ne _), ← h]

/-- The descriptor in the level's place. -/
def cached (conf : CStr → Option CStr) (s : LogState) (level : Level) : Int :=
  s.logFd.getD (slot (isolation conf) level) (-1)

theorem getLogIsolate_settled (h : s.logIsolate = isolation conf) : s.getLogIsolate conf = (isolation conf, s) := by
  rw [getLogIsolate_eq (.inr h), ← h]

theorem getThreadConf_eq (conf : CStr → Option CStr) (s : LogState) :
    ∃ thread, s.getThreadConf conf = (thread, { s with logThread := thread }) := by
  unfold getThreadConf
  split
  · exact ⟨s.logThread, rfl⟩
  · exact ⟨_, rfl⟩

theorem getCurrFd_eq (h : s.logIsolate = -1 ∨ s.logIsolate = isolation conf) (level : Level) :
    s.getCurrFd conf level = (s.cached conf level, { s with logIsolate := isolation conf }) := by
  rw [getCurrFd, getLogIsolate_eq h]
  rfl

theorem getLogFd_keep (h : s.logIsolate = -1 ∨ s.logIsolate = isolation conf) (hfd : s.cached conf level ≠ -1)
    (hdate : s.currDate = sys.now.text) :
    s.getLogFd conf sys level = (s.cached conf level, { s with logIsolate := isolation conf }) := by
  rw [getLogFd, getCurrFd_eq h]
  exact if_neg (not_or.2 ⟨hfd, not_not.2 (congrArg (List.take 10) hdate)⟩)

/-- The level's place taken over by a new descriptor. -/
def reopened (conf : CStr → Option CStr) (sys : Sys) (level : Level) (s : LogState) : LogState :=
  { s with
    logFd := s.logFd.set (slot (isolation conf) level) sys.fd
    currDate := sys.now.text
    files := fun k =>
      if k = sys.fd then some (path (isolation conf) sys.now.text level)
      else if s.cached conf level = k then none
      else s.files k }

theorem updateLogInfo_eq (h : s.logIsolate = isolation conf) :
    s.updateLogInfo conf sys sys.now.text level = ((sys.fd : Int), s.reopened conf sys level) := by
  have hcurr : s.getCurrFd conf level = (s.cached conf level, s) := by
    rw [getCurrFd, getLogIsolate_settled h]
    rfl
  unfold updateLogInfo
  rw [hcurr]
  dsimp only
  by_cases hfd : s.cached conf level = -1
  · have hfiles (k : Nat) : ¬ s.cached conf level = k := by omega
    rw [if_neg (not_not.2 hfd), getLogIsolate_settled h]
    simp only [openAt, reopened, hfiles, if_false]
  · have hclosed := getLogIsolate_settled (s := s.close (s.cached conf level)) h
    rw [if_pos hfd, hclosed]
    rfl

/-- `print_log` with the descriptor that is there. -/
theorem printLog_keep (h : s.logIsolate = -1 ∨ s.logIsolate = isolation conf) {b : CStr}
    (hfd : s.cached conf level ≠ -1) (hdate : s.currDate = sys.now.text) :
    (s.printLog conf sys level b).1.fd = s.cached conf level ∧
      ∃ thread, (s.printLog conf sys level b).2 = { s with logThread := thread, logIsolate := isolation conf } := by
  obtain ⟨thread, hthread⟩ := getThreadConf_eq conf s
  unfold printLog
  rw [hthread]
  dsimp only
  rw [getLogFd_keep (s := { s with logThread := thread }) h hfd hdate]
  exact ⟨rfl, thread, rfl⟩

/-- `print_log` with a new one. -/
theorem printLog_open (h : s.logIsolate = -1 ∨ s.logIsolate = isolation conf) {b : CStr}
    (hnew : s.cached conf level = -1 ∨ s.currDate.take 10 ≠ sys.now.text) :
    (s.printLog conf sys level b).1.fd = sys.fd ∧
      ∃ thread, (s.printLog conf sys level b).2 =
        { s.reopened conf sys level with logThread := thread, logIsolate := isolation conf } := by
  obtain ⟨thread, hthread⟩ := getThreadConf_eq conf s
  unfold printLog
  rw [hthread]
  dsimp only
  have hget : getLogFd conf sys level { s with logThread := thread } =
      ((sys.fd : Int), { s.reopened conf sys level with logThread := thread, logIsolate := isolation conf }) := by
    rw [getLogFd, getCurrFd_eq (s := { s with logThread := thread }) h]
    dsimp only
    rw [sys.now.take_text]
    exact (if_pos hnew).trans (updateLogInfo_eq rfl)
  rw [hget]
  exact ⟨rfl, thread, rfl⟩

/-! ### One call -/

theorem inv_init (conf : CStr → Option CStr) : Inv conf [] {} where
  isolate := .inl rfl
  date := nofun
  length := rfl
  unused := fun k _ => by
    match k with
    | 0 | 1 | 2 | 3 | 4 | k + 5 => rfl
  used := nofun
  apart := fun k k' fd h _ => by
    match k with
    | 0 | 1 | 2 | 3 | 4 | k + 5 => cases h

theorem latest_slot {q : LogCall} {k : Nat} (h : latest (isolation conf) hist k = some q) :
    slot (isolation conf) q.level = k := by
  have hq := List.find?_some h
  exact of_decide_eq_true hq

theorem path_congr {isIsolate : Int} {l l' : Level} (h : slot isIsolate l = slot isIsolate l') (nowDate : CStr) :
    path isIsolate nowDate l = path isIsolate nowDate l' := by
  unfold path slot at *
  split at h
  · next hisolate =>
    obtain rfl : l = l' := by
      cases l <;> cases l' <;> simp [Level.toNat] at h <;> rfl
    rfl
  · next hshared => rw [if_neg hshared, if_neg hshared]

theorem path_inj {isIsolate : Int} {l : Level} {d e : Date} (h : path isIsolate d.text l = path isIsolate e.text l) : d = e := by
  unfold path at h
  split at h
  · simp only [List.append_assoc] at h
    exact Date.text_inj (List.append_cancel_right (List.append_cancel_left h))
  · simp only [List.append_assoc] at h
    exact Date.text_inj (List.append_cancel_right (List.append_cancel_left h))

/-- What the next call does with the descriptor in its place: it keeps the one of the call `q`, or opens one. -/
theorem Inv.keep_or_open (h : Inv conf hist s) (c : LogCall) :
    (∃ p q, ∃ fd : Nat, hist.getLast? = some p ∧ p.sys.now = c.sys.now ∧
      latest (isolation conf) hist (slot (isolation conf) c.level) = some q ∧
      s.cached conf c.level = fd ∧ s.files fd = some (path (isolation conf) q.sys.now.text c.level) ∧
      s.currDate = c.sys.now.text) ∨
    ((s.cached conf c.level = -1 ∨ s.currDate.take 10 ≠ c.sys.now.text) ∧ ¬ Stale (isolation conf) hist c) := by
  cases hlatest : latest (isolation conf) hist (slot (isolation conf) c.level) with
  | none =>
    refine .inr ⟨.inl (h.unused _ hlatest), ?_⟩
    rintro ⟨p, q, -, -, hq, -⟩
    rw [hlatest] at hq
    cases hq
  | some q =>
    obtain ⟨fd, hfd, hfile⟩ := h.used _ q hlatest
    rw [path_congr (latest_slot hlatest)] at hfile
    have hne : hist ≠ [] := by
      rintro rfl
      cases hlatest
    obtain ⟨p, hp⟩ := Option.isSome_iff_exists.1 (List.getLast?_isSome.2 hne)
    have hdate := h.date p hp
    by_cases hsame : p.sys.now = c.sys.now
    · rw [hsame] at hdate
      exact .inl ⟨p, q, fd, hp, hsame, rfl, hfd, hfile, hdate⟩
    · refine .inr ⟨.inr fun hcmp => ?_, ?_⟩
      · rw [hdate, p.sys.now.take_text] at hcmp
        exact hsame (Date.text_inj hcmp)
      · rintro ⟨p', q', hp', hsame', -⟩
        rw [hp] at hp'
        exact hsame (Option.some.inj hp' ▸ hsame')

/-- The next record goes to the right file unless its descriptor is stale. -/
theorem Inv.rightFile_iff (h : Inv conf hist s) (c : LogCall) :
    RightFile conf s c ↔ ¬ Stale (isolation conf) hist c := by
  rcases h.keep_or_open c with ⟨p, q, fd, hp, hsame, hq, hfd, hfile, hdate⟩ | ⟨hnew, hfresh⟩
  · have hopen : s.cached conf c.level ≠ -1 := by omega
    obtain ⟨hwrite, thread, hstate⟩ := printLog_keep h.isolate (b := c.text) hopen hdate
    unfold RightFile
    rw [hwrite, hstate]
    constructor
    · rintro ⟨fd', hfd', hright⟩ ⟨p', q', hp', -, hq', hother⟩
      obtain rfl : fd = fd' := by omega
      rw [hq] at hq'
      obtain rfl := Option.some.inj hq'
      exact hother (path_inj (Option.some.inj (hfile.symm.trans hright)))
    · intro hstale
      have hday : q.sys.now = c.sys.now := by_contra fun hother => hstale ⟨p, q, hp, hsame, hq, hother⟩
      exact ⟨fd, hfd, hday ▸ hfile⟩
  · obtain ⟨hwrite, thread, hstate⟩ := printLog_open h.isolate (b := c.text) hnew
    refine iff_of_true ⟨c.sys.fd, hwrite, ?_⟩ hfresh
    rw [hstate]
    exact if_pos rfl

theorem getD_set {l : List Int} {k k' : Nat} (hk : k < l.length) (v : Int) :
    (l.set k v).getD k' (-1) = if k = k' then v else l.getD k' (-1) := by
  rw [List.getD_eq_getElem?_getD, List.getElem?_set, if_pos hk]
  split
  · rfl
  · rw [List.getD_eq_getElem?_getD]

theorem Inv.step {t : LogState} (h : Inv conf hist s) (hstep : LogStep conf s c t) (hc : ¬ Stale (isolation conf) hist c) :
    Inv conf (hist ++ [c]) t := by
  obtain ⟨hfree, rfl⟩ := hstep
  rcases h.keep_or_open c with ⟨p, q, fd, hp, hsame, hq, hfd, hfile, hdate⟩ | ⟨hnew, -⟩
  · have hopen : s.cached conf c.level ≠ -1 := by omega
    obtain ⟨-, thread, hstate⟩ := printLog_keep h.isolate (b := c.text) hopen hdate
    have hday : q.sys.now = c.sys.now := by_contra fun hother => hc ⟨p, q, hp, hsame, hq, hother⟩
    rw [hstate]
    exact
      { isolate := .inr rfl
        date := fun p hp => by
          rw [List.getLast?_concat] at hp
          exact Option.some.inj hp ▸ hdate
        length := h.length
        unused := fun k hk => by
          rw [latest_snoc] at hk
          split at hk
          · cases hk
          · exact h.unused k hk
        used := fun k q' hk => by
          rw [latest_snoc] at hk
          split at hk
          · next hslot =>
            obtain rfl := Option.some.inj hk
            subst hslot
            exact ⟨fd, hfd, hday ▸ hfile⟩
          · exact h.used k q' hk
        apart := h.apart }
  · obtain ⟨-, thread, hstate⟩ := printLog_open h.isolate (b := c.text) hnew
    have hlt : slot (isolation conf) c.level < s.logFd.length := h.length ▸ slot_lt _ _
    -- another place that is in use has a descriptor that is open and stays so, hence not the new one
    have hother (k : Nat) (hk : slot (isolation conf) c.level ≠ k) : s.logFd.getD k (-1) ≠ c.sys.fd := by
      intro heq
      rcases hfree with hfree | hclosed
      · cases hlatest : latest (isolation conf) hist k with
        | none =>
          rw [h.unused k hlatest] at heq
          omega
        | some q =>
          obtain ⟨fd, hfd, hfile⟩ := h.used k q hlatest
          obtain rfl : fd = c.sys.fd := by omega
          rw [hfree] at hfile
          cases hfile
      · rw [getCurrFd_eq h.isolate] at hclosed
        exact hk (h.apart _ _ _ hclosed heq)
    rw [hstate]
    exact
      { isolate := .inr rfl
        date := fun p hp => by
          rw [List.getLast?_concat] at hp
          exact Option.some.inj hp ▸ rfl
        length := by
          show (s.logFd.set _ _).length = 5
          rw [List.length_set, h.length]
        unused := fun k hk => by
          rw [latest_snoc] at hk
          split at hk
          · cases hk
          · next hslot =>
            show (s.logFd.set _ _).getD k (-1) = -1
            rw [getD_set hlt, if_neg hslot]
            exact h.unused k hk
        used := fun k q hk => by
          rw [latest_snoc] at hk
          show ∃ fd : Nat, (s.logFd.set _ _).getD k (-1) = fd ∧ (if fd = c.sys.fd then _ else _) = _
          rw [getD_set hlt]
          split at hk
          · next hslot =>
            obtain rfl := Option.some.inj hk
            exact ⟨c.sys.fd, if_pos hslot, if_pos rfl⟩
          · next hslot =>
            obtain ⟨fd, hfd, hfile⟩ := h.used k q hk
            have hne : fd ≠ c.sys.fd := by
              rintro rfl
              exact hother k hslot hfd
            have hkept : s.cached conf c.level ≠ fd := fun heq => hslot (h.apart _ _ fd heq hfd)
            refine ⟨fd, (if_neg hslot).trans hfd, ?_⟩
            rw [if_neg hne, if_neg hkept, hfile]
        apart := fun k k' fd hk hk' => by
          change (s.logFd.set _ _).getD _ _ = _ at hk hk'
          rw [getD_set hlt] at hk hk'
          split at hk
          · next hslot =>
            split at hk'
            · next hslot' => rw [← hslot, ← hslot']
            · next hslot' => exact absurd (hk'.trans hk.symm) (hother k' hslot')
          · next hslot =>
            split at hk'
            · exact absurd (hk.trans hk'.symm) (hother k hslot)
            · exact h.apart k k' fd hk hk' }

end LogState

/-- In a run of `print_log` every record goes to an open descriptor of its day's (and level's) file exactly
if no call finds the date moved on by another level. -/
theorem rightFiles_iff (conf : CStr → Option CStr) (r : List (LogCall × LogState)) (hr : IsRun (LogStep conf) {} r) :
    Meets (RightFile conf) {} r ↔
      ∀ before c after, r.map Prod.fst = before ++ c :: after → ¬ Stale (isolation conf) before c :=
  hr.meets_iff_history (I := LogState.Inv conf) (fun _ _ c h => h.rightFile_iff c)
    (fun _ _ _ _ h hc hstep => h.step hstep hc) (LogState.inv_init conf)

/-- The run that the calls `cs` take. -/
def logTrace (conf : CStr → Option CStr) : LogState → List LogCall → List (LogCall × LogState)
  | _, [] => []
  | s, c :: cs => (c, (s.printLog conf c.sys c.level c.text).2) :: logTrace conf (s.printLog conf c.sys c.level c.text).2 cs

def isolated (request : CStr) : Option CStr :=
  if request = "log_output_isolate".toList then some "true".toList else none

/-- A call with the text `-`, for which `open` would return `fd`. -/
def LogCall.at (level : Level) (day : Nat) (fd : Nat) (h : 1 ≤ day ∧ day ≤ 31) : LogCall where
  level := level
  text := ['-']
  sys := ⟨{ Date.newYear with day := day, day_mem := h }, fd, 1, []⟩

theorem day_mem_one : 1 ≤ 1 ∧ 1 ≤ 31 := by decide

theorem day_mem_two : 1 ≤ 2 ∧ 2 ≤ 31 := by decide

/-- Two levels on one day, and again on the next; the first level gets back the descriptor that it closes. -/
def midnight : List LogCall :=
  [.at .debug 1 3 day_mem_one, .at .info 1 4 day_mem_one, .at .debug 2 3 day_mem_two, .at .info 2 5 day_mem_two]

theorem isRun_midnight : IsRun (LogStep isolated) {} (logTrace isolated {} midnight) :=
  ⟨⟨.inl rfl, rfl⟩, ⟨.inl rfl, rfl⟩, ⟨.inr rfl, rfl⟩, ⟨.inl rfl, rfl⟩, trivial⟩

/-- The second level writes on into the file of the first day. -/
theorem wrongFile_midnight : IsRun (LogStep isolated) {} (logTrace isolated {} midnight) ∧
    ¬ Meets (RightFile isolated) {} (logTrace isolated {} midnight) := by
  refine ⟨isRun_midnight, ?_⟩
  rintro ⟨-, -, -, ⟨fd, hfd, hfile⟩, -⟩
  have hfour : ((4 : Nat) : Int) = fd := hfd
  obtain rfl : fd = 4 := by omega
  exact absurd hfile (by decide)

/-- The first record of the new day is the first level's. -/
theorem rightFiles_day : Meets (RightFile isolated) {} (logTrace isolated {} (midnight.take 3)) := by
  have hrun : IsRun (LogStep isolated) {} (logTrace isolated {} (midnight.take 3)) :=
    ⟨⟨.inl rfl, rfl⟩, ⟨.inl rfl, rfl⟩, ⟨.inr rfl, rfl⟩, trivial⟩
  refine (rightFiles_iff isolated _ hrun).2 ?_
  intro before c after hcalls
  rintro ⟨p, q, hp, hsame, hq, hne⟩
  match before, hcalls with
  | [], _ => cases hp
  | [d], hcalls =>
    cases hcalls
    cases hq
  | [d, i], hcalls =>
    cases hcalls
    cases hp
    exact absurd hsame (by decide)
  | d :: i :: m :: rest, hcalls =>
    have hlen := congrArg List.length hcalls
    simp [logTrace, midnight] at hlen

end Netdisk

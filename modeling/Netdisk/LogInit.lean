import Netdisk.Log
import Mathlib.Data.List.Basic

/-!
# How `output_control` starts

The first call of `output_control` reads the level from the configuration. Its warnings go through
`LOG`, which calls `output_control` again while `output_level` is still `-1`.
-/

namespace Netdisk

/-- The level that a value of the configuration spells, in any case. -/
def Level.Spelt (value : CStr) (level : Level) : Prop := value.map Char.toUpper = level.word

instance (value : CStr) (level : Level) : Decidable (level.Spelt value) := inferInstanceAs (Decidable (_ = _))

/-- The level of a configuration: what it spells, and `INFO` if it spells none. -/
def configured (value : Option CStr) : Level :=
  match value with
  | none => .info
  | some v => (([.debug, .info, .warning, .error] : List Level).find? (·.Spelt v)).getD .info

/-- `output_control` returns, and leaves the configured level. -/
def Initialises (conf : CStr → Option CStr) (sys : LogState → Sys) (level : Int) (s : LogState) : Prop :=
  ∃ fuel res s', outputControl conf sys fuel level s = some (res, s') ∧
    s'.outputLevel = (configured (conf "log_output_level".toList)).toNat ∧ 0 ≤ s'.outputLevel ∧ s'.outputLevel ≤ 3

section Init
variable {conf : CStr → Option CStr} {sys : LogState → Sys} {level : Int} {s : LogState} {value : CStr}

theorem strToLever_spelt {l : Level} (h : l.Spelt value) : strToLever value = l.toNat := by
  unfold strToLever
  dsimp only
  rw [h]
  cases l <;> decide

theorem strToLever_unspelt (h : ∀ l : Level, ¬ l.Spelt value) : strToLever value = -1 := by
  have hne (l : Level) : value.map Char.toUpper ≠ l.word := h l
  unfold strToLever
  dsimp only
  rw [if_neg (hne .debug), if_neg (hne .info), if_neg (hne .warning), if_neg (hne .error)]

theorem configured_spelt {l : Level} (h : l.Spelt value) : configured (some value) = l := by
  have hiff (m : Level) : m.Spelt value ↔ l.word = m.word := by
    rw [Level.Spelt, h]
  have hfind : ([.debug, .info, .warning, .error] : List Level).find? (fun m => l.word = m.word) = some l := by
    cases l <;> decide
  simp only [configured, hiff, hfind, Option.getD_some]

/-- Without a spelt level the warning calls `output_control` before the level is set. -/
theorem outputControl_unset (hs : s.outputLevel = -1)
    (h : ∀ v, conf "log_output_level".toList = some v → ∀ l : Level, ¬ l.Spelt v) (fuel : Nat) :
    outputControl conf sys fuel level s = none := by
  induction fuel generalizing level s with
  | zero => rfl
  | succ fuel ih =>
    have hlog (t : LogState) (ht : t.outputLevel = -1) (place format : CStr) :
        LOG conf sys (outputControl conf sys fuel) .warning place format t = none := by
      show (outputControl conf sys fuel _ t).bind _ = none
      rw [ih ht]
      rfl
    rw [outputControl]
    show (if s.outputLevel = -1 then _ else _ : StateT LogState Option Bool) s = none
    rw [if_pos hs]
    rcases hv : conf "log_output_level".toList with _ | v
    · show (LOG conf sys (outputControl conf sys fuel) _ _ _ s).bind _ = none
      rw [hlog s hs]
      rfl
    · have hunset := strToLever_unspelt (h v hv)
      show (if strToLever v = -1 then _ else _ : StateT LogState Option Bool) _ = none
      rw [if_pos hunset]
      show (LOG conf sys (outputControl conf sys fuel) _ _ _ _).bind _ = none
      rw [hlog _ hunset]
      rfl

theorem outputControl_spelt {l : Level} (hs : s.outputLevel = -1) (hconf : conf "log_output_level".toList = some value)
    (h : l.Spelt value) (fuel : Nat) :
    outputControl conf sys (fuel + 1) level s =
      some (decide ((l.toNat : Int) ≤ level), { s with outputLevel := l.toNat }) := by
  have hset : (l.toNat : Int) ≠ -1 := by omega
  have hvalue := strToLever_spelt h
  rw [outputControl]
  show (if s.outputLevel = -1 then _ else _ : StateT LogState Option Bool) s = _
  rw [if_pos hs, hconf]
  show (if strToLever value = -1 then _ else _ : StateT LogState Option Bool) { s with outputLevel := strToLever value } = _
  rw [hvalue, if_neg hset]
  rfl

theorem Level.toNat_le (l : Level) : l.toNat ≤ 3 := by cases l <;> decide

end Init

/-- From `output_level == -1` on, `output_control` returns with the configured level exactly if the
configuration spells one. -/
theorem initialises_iff (conf : CStr → Option CStr) (sys : LogState → Sys) (level : Int) (s : LogState) :
    Initialises conf sys level { s with outputLevel := -1 } ↔
      ∃ v l, conf "log_output_level".toList = some v ∧ Level.Spelt v l := by
  constructor
  · rintro ⟨fuel, res, s', hrun, -⟩
    by_contra hnone
    have hunset : ∀ v, conf "log_output_level".toList = some v → ∀ l : Level, ¬ l.Spelt v :=
      fun v hv l hl => hnone ⟨v, l, hv, hl⟩
    rw [outputControl_unset rfl hunset] at hrun
    cases hrun
  · rintro ⟨v, l, hconf, hl⟩
    refine ⟨1, _, _, outputControl_spelt rfl hconf hl 0, ?_, ?_, ?_⟩
    · rw [hconf, configured_spelt hl]
    · exact Int.natCast_nonneg _
    · exact Int.ofNat_le.2 l.toNat_le

def Sys.newYear : Sys := ⟨.newYear, 3, 1, []⟩

/-- A configuration without the level: there is no end to the recursion. -/
theorem output_control_unset : ¬ Initialises (fun _ => none) (fun _ => .newYear) 1 {} := by
  have hunset : ∀ v, (fun _ => none : CStr → Option CStr) "log_output_level".toList = some v →
      ∀ l : Level, ¬ l.Spelt v := by
    intro v hv
    cases hv
  rintro ⟨fuel, res, s', hrun, -⟩
  rw [outputControl_unset rfl hunset] at hrun
  cases hrun

end Netdisk

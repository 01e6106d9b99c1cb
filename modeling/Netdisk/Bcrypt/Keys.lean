import Netdisk.Bcrypt.SetKey

/-!
# Which keys `BF_set_key` tells apart

Without the bug the arrays determine the first 72 bytes of the key and depend on nothing else
(`setKey_eq_iff`). The measure of `$2a$` is taken exactly for the keys in which a sign is extended over
nothing but bytes of 255 (`deviates_iff`), and it does what it is there for: what it leaves in the arrays
is never what the buggy function makes of another key (`take_eq_of_buggy`).
-/

namespace Netdisk.BF
open Words

variable {key key' : CStr} {flags flags' : UInt8}

/-! ### Words and bytes -/

theorem correctWord_eq_iff :
    (∀ i < 18, correctWord key i = correctWord key' i) ↔ ∀ t < 72, streamed key t = streamed key' t := by
  constructor
  · intro h t ht
    obtain ⟨h0, h1, h2, h3⟩ := word_inj.1 (h (t / 4) (by omega))
    have hcases : t = 4 * (t / 4) ∨ t = 4 * (t / 4) + 1 ∨ t = 4 * (t / 4) + 2 ∨ t = 4 * (t / 4) + 3 := by omega
    rcases hcases with ht | ht | ht | ht <;> rw [ht] <;> assumption
  · intro h i hi
    exact word_inj.2 ⟨h _ (by omega), h _ (by omega), h _ (by omega), h _ (by omega)⟩

theorem setKey_fst_eq (h : setKey key flags = setKey key' flags') {i : Nat} (hi : i < 18) :
    keyWord key (flags &&& 1 = 1) i = keyWord key' (flags' &&& 1 = 1) i := by
  rw [setKey_eq, setKey_eq, Prod.mk.injEq] at h
  have hget := congrArg (fun v : Key => v[i]) h.1
  simpa using hget

/-- Arrays that are the same are deviated in both or in neither. -/
theorem deviates_iff_of_setKey_eq (h : setKey key flags = setKey key' flags') :
    Deviates key flags ↔ Deviates key' flags' := by
  have hword := setKey_fst_eq h (show 0 < 18 by omega)
  rw [setKey_eq, setKey_eq, Prod.mk.injEq] at h
  have hget := congrArg (fun v : Key => v[0]) h.2
  simp only [Vector.getElem_ofFn, hword, UInt32.xor_right_inj, Fin.mk_zero, true_and] at hget
  by_cases hd : Deviates key flags <;> by_cases hd' : Deviates key' flags' <;> simp_all

/-! ### The measure -/

theorem extends_iff : (∃ i < 18, Extends key i) ↔ ∃ t < 72, t % 4 ≠ 0 ∧ High (streamed key t) := by
  constructor
  · rintro ⟨i, hi, h | h | h⟩
    · exact ⟨4 * i + 1, by omega, by omega, h⟩
    · exact ⟨4 * i + 2, by omega, by omega, h⟩
    · exact ⟨4 * i + 3, by omega, by omega, h⟩
  · rintro ⟨t, ht, hmod, h⟩
    have hcases : t = 4 * (t / 4) + 1 ∨ t = 4 * (t / 4) + 2 ∨ t = 4 * (t / 4) + 3 := by omega
    refine ⟨t / 4, by omega, ?_⟩
    rcases hcases with ht | ht | ht <;> rw [ht] at h
    · exact Or.inl h
    · exact Or.inr (Or.inl h)
    · exact Or.inr (Or.inr h)

theorem correct_eq_buggy_iff :
    (∀ i < 18, correctWord key i = buggyWord key i) ↔
      ∀ t < 72, High (streamed key t) → ∀ u < t, u / 4 = t / 4 → streamed key u = 0xFF := by
  constructor
  · intro h t ht hhigh u hu hdiv
    obtain ⟨h1, h2, h3⟩ := word_eq_wordSigned_iff.1 (h (t / 4) (by omega))
    have hcases : t = 4 * (t / 4) + 1 ∨ t = 4 * (t / 4) + 2 ∨ t = 4 * (t / 4) + 3 := by omega
    rcases hcases with ht | ht | ht
    · rw [show u = 4 * (t / 4) by omega]
      exact h1 (ht ▸ hhigh)
    · have hucases : u = 4 * (t / 4) ∨ u = 4 * (t / 4) + 1 := by omega
      have hff := h2 (ht ▸ hhigh)
      rcases hucases with hu | hu
      · exact hu ▸ hff.1
      · exact hu ▸ hff.2
    · have hucases : u = 4 * (t / 4) ∨ u = 4 * (t / 4) + 1 ∨ u = 4 * (t / 4) + 2 := by omega
      have hff := h3 (ht ▸ hhigh)
      rcases hucases with hu | hu | hu
      · exact hu ▸ hff.1
      · exact hu ▸ hff.2.1
      · exact hu ▸ hff.2.2
  · intro h i hi
    refine word_eq_wordSigned_iff.2 ⟨fun h1 => ?_, fun h2 => ⟨?_, ?_⟩, fun h3 => ⟨?_, ?_, ?_⟩⟩
    · exact h _ (by omega) h1 _ (by omega) (by omega)
    · exact h _ (by omega) h2 _ (by omega) (by omega)
    · exact h _ (by omega) h2 _ (by omega) (by omega)
    · exact h _ (by omega) h3 _ (by omega) (by omega)
    · exact h _ (by omega) h3 _ (by omega) (by omega)
    · exact h _ (by omega) h3 _ (by omega) (by omega)

/-- When the measure is taken. -/
theorem deviates_iff : Deviates key flags ↔
    flags &&& 2 ≠ 0 ∧ (∃ t < 72, t % 4 ≠ 0 ∧ High (streamed key t)) ∧
      ∀ t < 72, High (streamed key t) → ∀ u < t, u / 4 = t / 4 → streamed key u = 0xFF := by
  rw [Deviates, extends_iff, correct_eq_buggy_iff]

theorem byte_nul : byte '\x00' = 0 := rfl

theorem mem_of_streamed {t : Nat} (h : streamed key t ≠ 0) : ∃ c ∈ key, byte c = streamed key t := by
  rw [streamed, List.getD_eq_getElem?_getD] at h ⊢
  cases hc : key[ptrAt key t]? with
  | none =>
    rw [hc] at h
    exact absurd byte_nul h
  | some c => exact ⟨c, List.mem_of_getElem? hc, rfl⟩

/-- Only passwords with the byte 255 are concerned. -/
theorem ff_mem_of_deviates (h : Deviates key flags) : ∃ c ∈ key, byte c = 0xFF := by
  obtain ⟨-, ⟨t, ht, hmod, hhigh⟩, hff⟩ := deviates_iff.1 h
  have hu : streamed key (4 * (t / 4)) = 0xFF := hff t ht hhigh _ (by omega) (by omega)
  have hne : (0xFF : UInt8) ≠ 0 := by decide
  obtain ⟨c, hc, hb⟩ := mem_of_streamed (hu ▸ hne)
  exact ⟨c, hc, hb.trans hu⟩

theorem keyWord_eq_of_not_extends (h : ∀ i < 18, ¬ Extends key i) (bug : Bool) {i : Nat} (hi : i < 18) :
    keyWord key bug i = correctWord key i := by
  have hno := h i hi
  simp only [Extends, not_or] at hno
  have hsame : correctWord key i = buggyWord key i :=
    word_eq_wordSigned_iff.2 ⟨fun hb => absurd hb hno.1, fun hc => absurd hc hno.2.1, fun hd => absurd hd hno.2.2⟩
  rw [keyWord, ← hsame, ite_self]

/-- For a password without the byte 255, `$2a$`, `$2b$` and `$2y$` are the same. -/
theorem setKey_eq_of_no_ff (h : ∀ c ∈ key, byte c ≠ 0xFF) (hflags : flags &&& 1 = flags' &&& 1) :
    setKey key flags = setKey key flags' := by
  have hnot : ∀ fl, ¬ Deviates key fl := by
    intro fl hdev
    obtain ⟨c, hc, hff⟩ := ff_mem_of_deviates hdev
    exact h c hc hff
  rw [setKey_eq, setKey_eq, hflags]
  simp only [hnot]

/-- For an ASCII password, so is `$2x$`. -/
theorem setKey_eq_of_ascii (h : ∀ c ∈ key, ¬ High (byte c)) : setKey key flags = setKey key flags' := by
  have hlow : ∀ t, ¬ High (streamed key t) := by
    intro t hhigh
    have hne : streamed key t ≠ 0 := by
      intro h0
      rw [h0] at hhigh
      exact absurd hhigh (by decide)
    obtain ⟨c, hc, hb⟩ := mem_of_streamed hne
    exact h c hc (hb ▸ hhigh)
  have hext : ∀ i < 18, ¬ Extends key i := by
    rintro i - (h | h | h)
    · exact hlow _ h
    · exact hlow _ h
    · exact hlow _ h
  have hnot : ∀ fl, ¬ Deviates key fl := by
    rintro fl ⟨-, ⟨i, hi, h⟩, -⟩
    exact hext i hi h
  rw [setKey_eq, setKey_eq]
  simp only [hnot, keyWord_eq_of_not_extends hext _ (Fin.isLt _)]

/-- The measure makes a difference to a correct hash exactly where a sign would be extended and, in the word,
nothing but bytes of 255 stands in front of any byte of 128 or more; such a password has a byte of 255. -/
theorem measure_iff (hflags : flags &&& 1 ≠ 1) (hsafety : flags &&& 2 ≠ 0) :
    (setKey key flags ≠ setKey key 4 ↔ (∃ t < 72, t % 4 ≠ 0 ∧ High (streamed key t)) ∧
      ∀ t < 72, High (streamed key t) → ∀ u < t, u / 4 = t / 4 → streamed key u = 0xFF) ∧
    (setKey key flags ≠ setKey key 4 → ∃ c ∈ key, byte c = 0xFF) := by
  have hfour : ¬ Deviates key 4 := fun h => h.1 (by decide)
  have hdev : setKey key flags ≠ setKey key 4 ↔ Deviates key flags := by
    constructor
    · intro hne
      by_contra hnot
      have hbug : (4 : UInt8) &&& 1 ≠ 1 := by decide
      rw [setKey_eq, setKey_eq] at hne
      exact hne (by simp [hnot, hfour, hflags, hbug, keyWord])
    · intro h heq
      exact hfour ((deviates_iff_of_setKey_eq heq).1 h)
  refine ⟨?_, fun h => ff_mem_of_deviates (hdev.1 h)⟩
  rw [hdev, deviates_iff]
  exact and_iff_right hsafety

/-! ### The first 72 bytes -/

/-- What a C string is made of. -/
def IsString (key : CStr) : Prop := ∀ c ∈ key, c ≠ '\x00' ∧ c.toNat < 256

theorem byte_inj {c d : Char} (hc : c.toNat < 256) (hd : d.toNat < 256) (h : byte c = byte d) : c = d := by
  have hnat : c.toNat % 2 ^ 8 = d.toNat % 2 ^ 8 := congrArg UInt8.toNat h
  rw [← Char.ofNat_toNat c, ← Char.ofNat_toNat d]
  congr 1
  omega

theorem ptrAt_eq (hkey : IsString key) (t : Nat) : ptrAt key t = t % (key.length + 1) := by
  induction t with
  | zero => rfl
  | succ t ih =>
    have hlt : t % (key.length + 1) < key.length + 1 := Nat.mod_lt _ (by omega)
    rw [ptrAt, ih]
    rcases Nat.lt_or_ge (t % (key.length + 1)) key.length with h | h
    · have hne : key.getD (t % (key.length + 1)) '\x00' ≠ '\x00' := by
        rw [List.getD_eq_getElem _ _ h]
        exact (hkey _ (List.getElem_mem h)).1
      rw [if_neg hne, ← Nat.mod_add_mod t]
      exact (Nat.mod_eq_of_lt (by omega)).symm
    · have hlast : t % (key.length + 1) + 1 = key.length + 1 := by omega
      rw [List.getD_eq_default _ _ h, if_pos rfl, ← Nat.mod_add_mod, hlast, Nat.mod_self]

/-- Below the length of the key its bytes are read, and at its length the NUL. -/
theorem streamed_of_le (hkey : IsString key) {t : Nat} (ht : t ≤ key.length) :
    streamed key t = byte (key.getD t '\x00') := by
  rw [streamed, ptrAt_eq hkey, Nat.mod_eq_of_lt (by omega)]

theorem streamed_eq_zero_iff (hkey : IsString key) {t : Nat} (ht : t ≤ key.length) :
    streamed key t = 0 ↔ t = key.length := by
  rw [streamed_of_le hkey ht]
  constructor
  · intro h
    rcases Nat.lt_or_ge t key.length with hlt | hge
    · have hmem := hkey _ (List.getElem_mem hlt)
      rw [List.getD_eq_getElem _ _ hlt] at h
      exact absurd (byte_inj hmem.2 (by decide) (h.trans byte_nul.symm)) hmem.1
    · omega
  · rintro rfl
    rw [List.getD_eq_default _ _ le_rfl, byte_nul]

theorem length_le_of_streamed (hkey : IsString key) (hkey' : IsString key')
    (h : ∀ t < 72, streamed key t = streamed key' t) : min key'.length 72 ≤ key.length := by
  by_contra hlt
  have hzero := (streamed_eq_zero_iff hkey le_rfl).2 rfl
  rw [h _ (by omega)] at hzero
  have := (streamed_eq_zero_iff hkey' (by omega)).1 hzero
  omega

/-- The bytes that are read are those of the first 72. -/
theorem take_eq_iff (hkey : IsString key) (hkey' : IsString key') :
    key.take 72 = key'.take 72 ↔ ∀ t < 72, streamed key t = streamed key' t := by
  constructor
  · intro h t ht
    have hlen := congrArg List.length h
    rw [List.length_take, List.length_take] at hlen
    rcases Nat.lt_or_ge key.length 72 with hshort | hlong
    · rw [List.take_of_length_le (by omega), List.take_of_length_le (by omega)] at h
      rw [h]
    · have hget : key[t]? = key'[t]? := by
        rw [← List.getElem?_take_of_lt ht, h, List.getElem?_take_of_lt ht]
      rw [streamed_of_le hkey (by omega), streamed_of_le hkey' (by omega), List.getD_eq_getElem?_getD, hget,
        List.getD_eq_getElem?_getD]
  · intro h
    have hle := length_le_of_streamed hkey hkey' h
    have hge := length_le_of_streamed hkey' hkey fun t ht => (h t ht).symm
    refine List.ext_getElem (by simp only [List.length_take]; omega) fun t ht ht' => ?_
    rw [List.length_take] at ht ht'
    have hbyte := h t (by omega)
    rw [streamed_of_le hkey (by omega), streamed_of_le hkey' (by omega), List.getD_eq_getElem _ _ (by omega),
      List.getD_eq_getElem _ _ (by omega)] at hbyte
    rw [List.getElem_take, List.getElem_take]
    exact byte_inj (hkey _ (List.getElem_mem _)).2 (hkey' _ (List.getElem_mem _)).2 hbyte

theorem keyWord_congr (h : ∀ t < 72, streamed key t = streamed key' t) (bug : Bool) {i : Nat} (hi : i < 18) :
    keyWord key bug i = keyWord key' bug i := by
  simp only [keyWord, buggyWord, correctWord, h (4 * i) (by omega), h (4 * i + 1) (by omega),
    h (4 * i + 2) (by omega), h (4 * i + 3) (by omega)]

theorem Deviates.congr (h : ∀ t < 72, streamed key t = streamed key' t) (hdev : Deviates key flags) :
    Deviates key' flags := by
  obtain ⟨hf, ⟨t, ht, hmod, hhigh⟩, hff⟩ := deviates_iff.1 hdev
  refine deviates_iff.2 ⟨hf, ⟨t, ht, hmod, h t ht ▸ hhigh⟩, fun t ht hhigh u hu hdiv => ?_⟩
  rw [← h t ht] at hhigh
  rw [← h u (by omega)]
  exact hff t ht hhigh u hu hdiv

theorem setKey_congr (h : ∀ t < 72, streamed key t = streamed key' t) (flags : UInt8) :
    setKey key flags = setKey key' flags := by
  have hdev : Deviates key flags ↔ Deviates key' flags :=
    ⟨Deviates.congr h, Deviates.congr fun t ht => (h t ht).symm⟩
  rw [setKey_eq, setKey_eq]
  simp only [keyWord_congr h _ (Fin.isLt _), hdev]

/-- Without the bug, the arrays are the same for keys that agree on their first 72 bytes, and for no others. -/
theorem setKey_eq_iff (hkey : IsString key) (hkey' : IsString key') (hflags : flags &&& 1 ≠ 1) :
    setKey key flags = setKey key' flags ↔ key.take 72 = key'.take 72 := by
  rw [take_eq_iff hkey hkey']
  constructor
  · intro h
    refine correctWord_eq_iff.1 fun i hi => ?_
    have hword := setKey_fst_eq h hi
    simpa [keyWord, hflags] using hword
  · intro h
    exact setKey_congr h flags

/-! ### The buggy function -/

/-- What the measure is there for: no key is left with what the bug makes of another one, or of itself. -/
theorem take_eq_of_buggy (hkey : IsString key) (hkey' : IsString key') (hflags : flags &&& 1 ≠ 1)
    (hsafety : flags &&& 2 ≠ 0) (h : setKey key flags = setKey key' 1) :
    key.take 72 = key'.take 72 ∧ ∀ i < 18, ¬ Extends key' i ∧ buggyWord key' i = correctWord key' i := by
  have hword : ∀ i < 18, correctWord key i = buggyWord key' i := by
    intro i hi
    simpa [keyWord, hflags] using setKey_fst_eq h hi
  have hnot : ¬ Deviates key flags := by
    intro hdev
    exact ((deviates_iff_of_setKey_eq h).1 hdev).1 (by decide)
  have hext : ∀ i < 18, ¬ Extends key i := by
    intro i hi hext
    exact hnot ⟨hsafety, ⟨i, hi, hext⟩, fun i hi => (word_eq_wordSigned_of (hword i hi)).1⟩
  have hext' : ∀ i < 18, ¬ Extends key' i := fun i hi => (word_eq_wordSigned_of (hword i hi)).2.not.1 (hext i hi)
  have hsame : ∀ i < 18, buggyWord key' i = correctWord key' i := fun i hi => keyWord_eq_of_not_extends hext' true hi
  refine ⟨(take_eq_iff hkey hkey').2 (correctWord_eq_iff.1 fun i hi => ?_), fun i hi => ⟨hext' i hi, hsame i hi⟩⟩
  rw [hword i hi, hsame i hi]

end Netdisk.BF

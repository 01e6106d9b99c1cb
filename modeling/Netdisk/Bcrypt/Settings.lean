import Mathlib.Data.Option.Basic
import Netdisk.Bcrypt.Crypt
import Netdisk.Bcrypt.Keys

/-!
# Hashing and comparing passwords with the bundled bcrypt (`hash.c`)

A hash is a setting itself, the one it was made with and in front of the same hash: that is why comparing
by hashing again works. `crypt_eq_some` is all that the proofs need of `BF_crypt`.
-/

namespace Netdisk.BF
open Sextets

variable {key key' setting out : CStr} {size : Nat} {min : Word}

/-! ### Settings -/

/-- What `BF_crypt` reads of a setting behind its salt. -/
def saltOf (ss : List Sextet) : Vector Word 4 := Vector.ofFn fun i => swap (loadWord (toBytes ss) i)

/-- The characters in which `BF_crypt` writes the hash. -/
def hashOf (key setting : CStr) (ss : List Sextet) : CStr :=
  encode ((digest (setKey key (flagsOf setting)) (saltOf ss) (countOf setting).toNat).take 23)

theorem itoa64_and (y : Sextet) : itoa64 (y &&& 0x30) = letter (clear4 y) := by
  revert y
  decide

theorem atoi64Table_letter (y : Sextet) : atoi64Table.getD ((letter y).toNat - 0x20) 0 = (y : Nat) := by
  revert y
  decide

/-- The characters in front of the hash: the last of the salt is written without its spare bits. -/
theorem take_append_last {ss : List Sextet} (hlen : ss.length = 22) (hpre : ss.map letter <+: setting.drop 7) :
    setting.take (7 + 22 - 1) ++
        [itoa64 (atoi64Table.getD ((setting.getD (7 + 22 - 1) '\x00').toNat - 0x20) 0 &&& 0x30)] =
      setting.take 7 ++ (fill ss).map letter := by
  obtain ⟨rest, hrest⟩ := hpre
  have hsetting : setting = setting.take 7 ++ (ss.map letter ++ rest) := by rw [hrest, List.take_append_drop]
  have hseven : (setting.take 7).length = 7 := by
    have h := congrArg List.length hrest
    simp only [List.length_append, List.length_map, List.length_drop, hlen] at h
    rw [List.length_take]
    omega
  obtain ⟨init, x, y, rfl⟩ : ∃ init x y, ss = init ++ [x, y] := by
    refine ⟨ss.take 20, ss[20], ss[21], ?_⟩
    conv_lhs => rw [← List.take_append_drop 20 ss]
    congr 1
    rw [List.drop_eq_getElem_cons (by omega), List.drop_eq_getElem_cons (by omega), List.drop_of_length_le (by omega)]
  have hinit : init.length = 20 := by simpa using hlen
  generalize setting.take 7 = start at hsetting hseven ⊢
  subst hsetting
  have hsplit : start ++ ((init ++ [x, y]).map letter ++ rest) =
      (start ++ (init ++ [x]).map letter) ++ (letter y :: rest) := by simp
  have hlength : (start ++ (init ++ [x]).map letter).length = 7 + 22 - 1 := by simp [hseven, hinit]
  have hlast : ((start ++ (init ++ [x]).map letter) ++ (letter y :: rest)).getD (7 + 22 - 1) '\x00' = letter y := by
    rw [List.getD_append_right _ _ _ _ (by omega), hlength]
    rfl
  rw [hsplit, List.take_left' hlength, hlast, atoi64Table_letter, itoa64_and, fill_append init x y (by omega)]
  simp

theorem crypt_eq_some :
    crypt key setting size min = some out ↔ 61 ≤ size ∧ Prefixed setting ∧ min ≤ countOf setting ∧
      ∃ ss : List Sextet, ss.length = 22 ∧ ss.map letter <+: setting.drop 7 ∧
        out = setting.take 7 ++ (fill ss).map letter ++ hashOf key setting ss := by
  simp only [crypt, Option.bind_eq_bind, Option.bind_eq_some_iff, Option.guard_eq_some', exists_and_left, exists_const]
  refine and_congr_right fun _ => and_congr_right fun _ => and_congr_right fun _ => ?_
  constructor
  · rintro ⟨bytes, hdecode, hout⟩
    obtain ⟨ss, hlen, hpre, rfl⟩ := decode_eq_some.1 hdecode
    refine ⟨ss, hlen, hpre, ?_⟩
    rw [← take_append_last hlen hpre, ← Option.some.inj hout, hashOf, saltOf]
    simp
  · rintro ⟨ss, hlen, hpre, rfl⟩
    refine ⟨toBytes ss, decode_eq_some.2 ⟨ss, hlen, hpre, rfl⟩, ?_⟩
    rw [← take_append_last hlen hpre, hashOf, saltOf]
    simp

section Congr

variable {setting' : CStr}

theorem getD_congr (h : setting.take 7 = setting'.take 7) {i : Nat} (hi : i < 7) :
    setting.getD i '\x00' = setting'.getD i '\x00' := by
  rw [List.getD_eq_getElem?_getD, List.getD_eq_getElem?_getD, ← List.getElem?_take_of_lt hi, h,
    List.getElem?_take_of_lt hi]

theorem flagsOf_congr (h : setting.take 7 = setting'.take 7) : flagsOf setting = flagsOf setting' := by
  rw [flagsOf, flagsOf, getD_congr h (by omega)]

theorem countOf_congr (h : setting.take 7 = setting'.take 7) : countOf setting = countOf setting' := by
  rw [countOf, countOf, getD_congr h (by omega), getD_congr h (show 5 < 7 by omega)]

theorem prefixed_congr (h : setting.take 7 = setting'.take 7) : Prefixed setting ↔ Prefixed setting' := by
  simp only [Prefixed, flagsOf_congr h, getD_congr h (show 0 < 7 by omega), getD_congr h (show 1 < 7 by omega),
    getD_congr h (show 2 < 7 by omega), getD_congr h (show 3 < 7 by omega), getD_congr h (show 4 < 7 by omega),
    getD_congr h (show 5 < 7 by omega), getD_congr h (show 6 < 7 by omega)]

theorem hashOf_congr (h : setting.take 7 = setting'.take 7) {ss ss' : List Sextet} (hs : toBytes ss = toBytes ss')
    (key : CStr) : hashOf key setting ss = hashOf key setting' ss' := by
  rw [hashOf, hashOf, saltOf, saltOf, flagsOf_congr h, countOf_congr h, hs]

end Congr

/-! ### A hash is a setting -/

theorem letter_injective : Function.Injective letter := by
  intro x y h
  have hx := safeAtoi64_letter x
  rw [h, safeAtoi64_letter] at hx
  exact Fin.ext (Option.some.inj hx).symm

theorem eq_of_isPrefix {ss ss' : List Sextet} {l : CStr} (hlen : ss.length = ss'.length) (h : ss.map letter <+: l)
    (h' : ss'.map letter <+: l) : ss = ss' := by
  refine letter_injective.list_map ?_
  rw [List.prefix_iff_eq_take.1 h, List.prefix_iff_eq_take.1 h', List.length_map, List.length_map, hlen]

theorem length_take_seven {ss : List Sextet} (hlen : ss.length = 22) (hpre : ss.map letter <+: setting.drop 7) :
    (setting.take 7).length = 7 := by
  have h := hpre.length_le
  rw [List.length_map, hlen, List.length_drop] at h
  rw [List.length_take]
  omega

/-- What was made with a setting can be used in its place. -/
theorem crypt_out (h : crypt key setting size min = some out) (key' : CStr) (size' : Nat) (min' : Word) :
    crypt key' out size' min' = crypt key' setting size' min' := by
  obtain ⟨-, -, -, ss, hlen, hpre, rfl⟩ := crypt_eq_some.1 h
  have hseven := length_take_seven hlen hpre
  have hmod : ss.length % 4 ≠ 1 := by omega
  have hfill := length_fill hmod
  have htake : (setting.take 7 ++ (fill ss).map letter ++ hashOf key setting ss).take 7 = setting.take 7 := by
    rw [List.append_assoc, List.take_left' hseven]
  have hdrop : (setting.take 7 ++ (fill ss).map letter ++ hashOf key setting ss).drop 7 =
      (fill ss).map letter ++ hashOf key setting ss := by
    rw [List.append_assoc, List.drop_left' hseven]
  refine Option.ext fun out' => ?_
  rw [crypt_eq_some, crypt_eq_some, prefixed_congr htake, countOf_congr htake, htake, hdrop]
  refine and_congr_right fun _ => and_congr_right fun _ => and_congr_right fun _ => ?_
  have hhash : hashOf key' (setting.take 7 ++ (fill ss).map letter ++ hashOf key setting ss) (fill ss) =
      hashOf key' setting ss := hashOf_congr htake (toBytes_fill hmod) key'
  constructor
  · rintro ⟨ss', hlen', hpre', rfl⟩
    obtain rfl := eq_of_isPrefix (hlen'.trans (hlen.symm.trans hfill.symm)) hpre' (List.prefix_append _ _)
    exact ⟨ss, hlen, hpre, by rw [fill_fill hmod, hhash]⟩
  · rintro ⟨ss', hlen', hpre', rfl⟩
    obtain rfl := eq_of_isPrefix (hlen'.trans hlen.symm) hpre' hpre
    exact ⟨fill ss', hfill.trans hlen, List.prefix_append _ _, by rw [fill_fill hmod, hhash]⟩

theorem length_digest (keys : Key × Key) (salt : Vector Word 4) (count : Nat) : (digest keys salt count).length = 24 := by
  simp [digest, magicW, storeWord]

/-- Every hash has 60 characters, as `CRYPT_OUTPUT_SIZE` allows. -/
theorem length_crypt (h : crypt key setting size min = some out) : out.length = 60 := by
  obtain ⟨-, -, -, ss, hlen, hpre, rfl⟩ := crypt_eq_some.1 h
  have hbytes : ((digest (setKey key (flagsOf setting)) (saltOf ss) (countOf setting).toNat).take 23).length = 23 := by
    rw [List.length_take, length_digest]
    rfl
  rw [List.length_append, List.length_append, length_take_seven hlen hpre, List.length_map,
    length_fill (by omega), hlen, hashOf, encode_eq, List.length_map, length_ofBytes, hbytes]

end Netdisk.BF

import Netdisk.Bcrypt.SelfTest

/-!
# Passwords with the bundled bcrypt (`hash.c`)

A stored hash is compared with what hashing the given password with the stored hash as the setting makes.
A password matches exactly when it and the one that was hashed have the same hash under the same salt;
what is no hash at all, the text that stands for a failure included, is matched by nothing.
-/

namespace Netdisk.BF
open Sextets

variable {key key' setting enc rand : CStr}

theorem cryptR_eq : cryptR key setting = (crypt key setting 61 16).getD (outputMagic setting) := by
  rw [cryptR, cryptBlowfishRn_eq]
  rfl

theorem length_outputMagic (setting : CStr) : (outputMagic setting).length = 2 := by
  rw [outputMagic]
  split <;> rfl

/-- The text that stands for a failure is another one than the setting. -/
theorem outputMagic_ne (setting : CStr) : outputMagic setting ≠ setting := by
  intro h
  rw [outputMagic] at h
  split at h
  · next hmagic =>
    rw [← h] at hmagic
    exact absurd hmagic.2 (by decide)
  · next hmagic =>
    rw [← h] at hmagic
    exact hmagic ⟨rfl, rfl⟩

/-- A text is its own hash exactly when `BF_crypt` makes it with itself as the setting. -/
theorem cryptR_self_iff : cryptR key enc = enc ↔ crypt key enc 61 16 = some enc := by
  rw [cryptR_eq]
  cases h : crypt key enc 61 16 with
  | none => simpa using outputMagic_ne enc
  | some out => simp

/-- Hashing again agrees with the hash exactly when both passwords have one and the same hash. -/
theorem cryptR_cryptR_iff : cryptR key' (cryptR key setting) = cryptR key setting ↔
    ∃ out, crypt key setting 61 16 = some out ∧ crypt key' setting 61 16 = some out := by
  rw [cryptR_self_iff, cryptR_eq]
  cases h : crypt key setting 61 16 with
  | none =>
    simp only [Option.getD_none, reduceCtorEq, false_and, exists_false, iff_false]
    intro hmagic
    have hlen := length_crypt hmagic
    rw [length_outputMagic] at hlen
    omega
  | some out =>
    rw [Option.getD_some, crypt_out h]
    simp

/-! ### New hashes -/

/-- The salt that is drawn. -/
def drawnSalt (rand : CStr) : Vector Word 4 := Vector.ofFn fun i => swap (loadWord ((rand.take 16).map byte) i)

/-- The 23 bytes that are kept of a digest with the settings of `encrypt_password`. -/
def kept (key rand : CStr) : List UInt8 := (digest (setKey key 4) (drawnSalt rand) 2048).take 23

theorem gensalt_eq (h : 16 ≤ rand.length) :
    bcrypt.gensalt rand = ['$', '2', 'b', '$', '1', '1', '$'] ++ (ofBytes ((rand.take 16).map byte)).map letter := by
  simp [bcrypt, cryptGensaltBlowfishRn, cryptOutputSize, guard, h, encode_eq]

theorem gensalt_short (h : rand.length < 16) : bcrypt.gensalt rand = [] := by
  simp [bcrypt, cryptGensaltBlowfishRn, guard, Nat.not_le.2 h]

/-- The salt is what was drawn, and the hash is written behind it. -/
theorem crypt_gensalt (h : 16 ≤ rand.length) (key : CStr) :
    crypt key (bcrypt.gensalt rand) 61 16 = some (bcrypt.gensalt rand ++ encode (kept key rand)) := by
  have hlen : ((rand.take 16).map byte).length = 16 := by
    rw [List.length_map, List.length_take]
    omega
  have hbytes : (ofBytes ((rand.take 16).map byte)).length = 22 := by rw [length_ofBytes, hlen]
  have hsalt : saltOf (ofBytes ((rand.take 16).map byte)) = drawnSalt rand := by rw [saltOf, toBytes_ofBytes, drawnSalt]
  have hfill : fill (ofBytes ((rand.take 16).map byte)) = ofBytes ((rand.take 16).map byte) := by
    rw [← ofBytes_toBytes (by omega), toBytes_ofBytes]
  rw [gensalt_eq h, crypt_eq_some]
  generalize ofBytes ((rand.take 16).map byte) = ss at hbytes hsalt hfill
  have htake : (['$', '2', 'b', '$', '1', '1', '$'] ++ ss.map letter).take 7 = ['$', '2', 'b', '$', '1', '1', '$'] := rfl
  have hseven : (['$', '2', 'b', '$', '1', '1', '$'] ++ ss.map letter).take 7 =
      (['$', '2', 'b', '$', '1', '1', '$'] : CStr).take 7 := rfl
  refine ⟨le_rfl, (prefixed_congr hseven).2 (by decide), ?_, ss, hbytes, List.prefix_rfl, ?_⟩
  · rw [countOf_congr hseven]
    decide
  · rw [htake, hfill, hashOf, flagsOf_congr hseven, countOf_congr hseven, hsalt]
    rfl

theorem encode_injective {bs bs' : List UInt8} (h : encode bs = encode bs') : bs = bs' := by
  rw [encode_eq, encode_eq] at h
  rw [← toBytes_ofBytes bs, letter_injective.list_map h, toBytes_ofBytes]

theorem bcrypt_crypt : bcrypt.crypt = cryptR := by rw [bcrypt]

theorem crypt_nil (key : CStr) : crypt key [] 61 16 = none := by
  cases h : crypt key [] 61 16 with
  | none => rfl
  | some out =>
    obtain ⟨-, hpre, -⟩ := crypt_eq_some.1 h
    exact absurd hpre (by decide)

/-- With which passwords one can log in where `key` was registered. -/
theorem matchPassword_iff : matchPassword bcrypt key' (encryptPassword bcrypt rand key) = true ↔
    16 ≤ rand.length ∧ kept key' rand = kept key rand := by
  rw [matchPassword, encryptPassword, beq_iff_eq, bcrypt_crypt, cryptR_cryptR_iff]
  rcases Nat.lt_or_ge rand.length 16 with hshort | hlong
  · rw [gensalt_short hshort, crypt_nil, crypt_nil]
    constructor
    · rintro ⟨out, h, -⟩
      exact absurd h.symm (Option.some_ne_none out)
    · intro h
      omega
  · simp only [crypt_gensalt hlong, hlong, true_and, Option.some.injEq]
    constructor
    · rintro ⟨out, rfl, h⟩
      exact encode_injective (List.append_cancel_left h)
    · intro h
      exact ⟨_, rfl, by rw [h]⟩

/-- What is matched at all is a whole hash, with the salt in its one spelling, and it is matched by the
passwords that are hashed to it. -/
theorem matches_iff : matchPassword bcrypt key enc = true ↔
    enc.length = 60 ∧ Prefixed enc ∧ 16 ≤ countOf enc ∧ ∃ ss : List Sextet, ss.length = 22 ∧ fill ss = ss ∧
      enc = enc.take 7 ++ ss.map letter ++ hashOf key enc ss := by
  rw [matchPassword, beq_iff_eq, bcrypt_crypt, cryptR_self_iff]
  constructor
  · intro h
    obtain ⟨-, hpre, hcount, ss, hlen, hss, henc⟩ := crypt_eq_some.1 h
    have hseven := length_take_seven hlen hss
    have hdrop : enc.drop 7 = (fill ss).map letter ++ hashOf key enc ss := by
      conv_lhs => rw [henc]
      rw [List.append_assoc, List.drop_left' hseven]
    have hfill : fill ss = ss := by
      refine eq_of_isPrefix (length_fill (by omega)) ?_ hss
      rw [hdrop]
      exact List.prefix_append _ _
    rw [hfill] at henc
    exact ⟨length_crypt h, hpre, hcount, ss, hlen, hfill, henc⟩
  · rintro ⟨h60, hpre, hcount, ss, hlen, hfill, henc⟩
    have hseven : (enc.take 7).length = 7 := by
      rw [List.length_take]
      omega
    have hdrop : enc.drop 7 = ss.map letter ++ hashOf key enc ss := by
      conv_lhs => rw [henc]
      rw [List.append_assoc, List.drop_left' hseven]
    refine crypt_eq_some.2 ⟨le_rfl, hpre, hcount, ss, hlen, ?_, ?_⟩
    · rw [hdrop]
      exact List.prefix_append _ _
    · rw [hfill]
      exact henc

theorem kept_congr (hkey : IsString key) (hkey' : IsString key') (h : key'.take 72 = key.take 72) :
    kept key' rand = kept key rand := by
  rw [kept, kept, (setKey_eq_iff hkey' hkey (by decide)).2 h]

end Netdisk.BF

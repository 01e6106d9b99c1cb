import Netdisk.Bcrypt.Settings
import Netdisk.Lib.Packed

/-!
# The self-test of `_crypt_blowfish_rn` passes

The test hashes a fixed password at the lowest cost, which is some twenty-eight thousand rounds of the
cipher. They are done here on numbers: each function of the cipher has a counterpart that works on packed
boxes and hands its results on, and a lemma that says so.
-/

namespace Netdisk.BF
open Packed

/-! ### The cipher on numbers -/

/-- The four boxes of `S`. -/
structure Boxes where
  s0 : Nat
  s1 : Nat
  s2 : Nat
  s3 : Nat

section Numbers

variable {α : Type}

def fNat (s : Boxes) (l : Nat) : Nat :=
  Nat.mod (Nat.add (Nat.xor
      (Nat.mod (Nat.add (get s.s1 (Nat.mod (Nat.shiftRight l 16) 256)) (get s.s0 (Nat.mod (Nat.shiftRight l 24) 256)))
        4294967296)
      (get s.s2 (Nat.mod (Nat.shiftRight l 8) 256)))
    (get s.s3 (Nat.mod l 256))) 4294967296

def roundNat (p : Nat) (s : Boxes) (l r n : Nat) : Nat := Nat.xor (Nat.xor r (get p (Nat.succ n))) (fNat s l)

def roundsNat (p : Nat) (s : Boxes) : (pairs n l r : Nat) → (Nat → Nat → α) → α
  | 0, _, l, r, k => k l r
  | pairs + 1, n, l, r, k =>
    strict (roundNat p s l r n) fun r => strict (roundNat p s r l (Nat.succ n)) fun l =>
      roundsNat p s pairs (Nat.succ (Nat.succ n)) l r k

def encryptNat (p : Nat) (s : Boxes) (l r : Nat) (k : Nat → Nat → α) : α :=
  strict (Nat.xor l (get p 0)) fun l => roundsNat p s 8 0 l r fun l r =>
    strict (Nat.xor r (get p 17)) fun l' => k l' l

def timesNat (p : Nat) (s : Boxes) : (count l r : Nat) → (Nat → Nat → α) → α
  | 0, l, r, k => k l r
  | count + 1, l, r, k => encryptNat p s l r fun l r => timesNat p s count l r k

def setPair (m i l r : Nat) : Nat := set (set m (2 * i) l) (2 * i + 1) r

/-- The `i`-th pair of all four boxes. -/
def Boxes.put (s : Boxes) (i l r : Nat) (k : Boxes → α) : α :=
  match s with
  | ⟨s0, s1, s2, s3⟩ =>
    if i < 128 then strict (setPair s0 i l r) fun s0 => k ⟨s0, s1, s2, s3⟩
    else if i < 256 then strict (setPair s1 (i - 128) l r) fun s1 => k ⟨s0, s1, s2, s3⟩
    else if i < 384 then strict (setPair s2 (i - 256) l r) fun s2 => k ⟨s0, s1, s2, s3⟩
    else strict (setPair s3 (i - 384) l r) fun s3 => k ⟨s0, s1, s2, s3⟩

/-- A pass over the pairs of `P` from `i` on; `x` and `y` are mixed in. -/
def passP (x y : Nat → Nat) (s : Boxes) : (count i p l r : Nat) → (Nat → Nat → Nat → α) → α
  | 0, _, p, l, r, k => k p l r
  | count + 1, i, p, l, r, k => encryptNat p s (Nat.xor l (x i)) (Nat.xor r (y i)) fun l r =>
    strict (setPair p i l r) fun p => passP x y s count (i + 1) p l r k

/-- A pass over the pairs of `S`. -/
def passS (x y : Nat → Nat) (p : Nat) : (count i : Nat) → (s : Boxes) → (l r : Nat) → (Boxes → α) → α
  | 0, _, s, _, _, k => k s
  | count + 1, i, s, l, r, k => encryptNat p s (Nat.xor l (x i)) (Nat.xor r (y i)) fun l r =>
    s.put i l r fun s => passS x y p count (i + 1) s l r k

/-- Both passes. -/
def passNat (xp yp xs ys : Nat → Nat) (p : Nat) (s : Boxes) (k : Nat → Boxes → α) : α :=
  passP xp yp s 9 0 p 0 0 fun p l r => passS xs ys p 512 0 s l r fun s => k p s

end Numbers

/-! ### They are the functions of the cipher -/

/-- `m` stands for the 256 words of `S` from `off` on. -/
def Holds (m : Nat) (S : Vector Word 1024) (off : Nat) : Prop := ∀ j < 256, S[off + j]?.map UInt32.toNat = some (get m j)

/-- The boxes stand for `S`. -/
structure Boxes.Pack (s : Boxes) (S : Vector Word 1024) : Prop where
  b0 : Holds s.s0 S 0
  b1 : Holds s.s1 S 256
  b2 : Holds s.s2 S 512
  b3 : Holds s.s3 S 768

section Holds

variable {S : Vector Word 1024} {m off i : Nat} {b : Block}

theorem Holds.get (h : Holds m S off) {j : Nat} (hj : j < 256) (hoff : off + j < 1024) :
    get m j = S[off + j].toNat := by
  have hget := h j hj
  rw [Vector.getElem?_eq_getElem hoff] at hget
  exact (Option.some.inj hget).symm

/-- A pair of the box. -/
theorem Holds.setPair (h : Holds m S (2 * off)) (hoff : off + i < 512) :
    Holds (setPair m i b.1.toNat b.2.toNat)
      ((S.setIfInBounds (2 * (off + i)) b.1).setIfInBounds (2 * (off + i) + 1) b.2) (2 * off) := by
  intro j hj
  rw [Vector.getElem?_setIfInBounds, Vector.getElem?_setIfInBounds, BF.setPair]
  by_cases hsnd : j = 2 * i + 1
  · subst hsnd
    rw [if_pos (by omega), if_pos (by omega), get_set_self b.2.toNat_lt, Option.map_some]
  · rw [if_neg (by omega), get_set_ne b.2.toNat_lt (by omega)]
    by_cases hfst : j = 2 * i
    · subst hfst
      rw [if_pos (by omega), if_pos (by omega), get_set_self b.1.toNat_lt, Option.map_some]
    · rw [if_neg (by omega), get_set_ne b.1.toNat_lt (by omega)]
      exact h j hj

/-- A pair of another box. -/
theorem Holds.other (h : Holds m S off) (hi : 2 * i + 1 < off ∨ off + 256 ≤ 2 * i) :
    Holds m ((S.setIfInBounds (2 * i) b.1).setIfInBounds (2 * i + 1) b.2) off := by
  intro j hj
  rw [Vector.getElem?_setIfInBounds_ne (by omega), Vector.getElem?_setIfInBounds_ne (by omega)]
  exact h j hj

end Holds

section Simulation

variable {α : Type} {ctx : Ctx} {p : Nat} {s : Boxes}

theorem fNat_eq (hs : s.Pack ctx.S) (L : Word) : fNat s L.toNat = (ctx.f L).toNat := by
  have hbyte : ∀ k : Word, (L >>> k).toUInt8.toNat = L.toNat >>> (k.toNat % 32) % 256 := fun k => by
    rw [UInt32.toNat_toUInt8, UInt32.toNat_shiftRight]
  have h0 : get s.s0 (L.toNat >>> 24 % 256) = (ctx.box 0 (L >>> 24).toUInt8).toNat :=
    (congrArg (get s.s0) (hbyte 24)).symm.trans (hs.b0.get (UInt8.toNat_lt _) _)
  have h1 : get s.s1 (L.toNat >>> 16 % 256) = (ctx.box 1 (L >>> 16).toUInt8).toNat :=
    (congrArg (get s.s1) (hbyte 16)).symm.trans (hs.b1.get (UInt8.toNat_lt _) _)
  have h2 : get s.s2 (L.toNat >>> 8 % 256) = (ctx.box 2 (L >>> 8).toUInt8).toNat :=
    (congrArg (get s.s2) (hbyte 8)).symm.trans (hs.b2.get (UInt8.toNat_lt _) _)
  have h3 : get s.s3 (L.toNat % 256) = (ctx.box 3 L.toUInt8).toNat :=
    (congrArg (get s.s3) (UInt32.toNat_toUInt8 L)).symm.trans (hs.b3.get (UInt8.toNat_lt _) _)
  calc fNat s L.toNat
      = (((get s.s1 (L.toNat >>> 16 % 256) + get s.s0 (L.toNat >>> 24 % 256)) % 2 ^ 32 ^^^
          get s.s2 (L.toNat >>> 8 % 256)) + get s.s3 (L.toNat % 256)) % 2 ^ 32 := rfl
    _ = (ctx.f L).toNat := by
      rw [h0, h1, h2, h3, ← UInt32.toNat_add, ← UInt32.toNat_xor, ← UInt32.toNat_add]
      rfl

theorem roundNat_eq (hp : Packs ctx.P p) (hs : s.Pack ctx.S) (L R : Word) (N : Fin 16) :
    roundNat p s L.toNat R.toNat N = (round ctx L R N).toNat := by
  calc roundNat p s L.toNat R.toNat N = (R.toNat ^^^ get p (N + 1)) ^^^ fNat s L.toNat := rfl
    _ = (round ctx L R N).toNat := by
      rw [fNat_eq hs, hp _ (by omega), ← UInt32.toNat_xor, ← UInt32.toNat_xor]
      rfl

theorem roundsNat_succ (hp : Packs ctx.P p) (hs : s.Pack ctx.S) (pairs : Nat) (i : Fin 8) (b : Block)
    (k : Nat → Nat → α) :
    roundsNat p s (pairs + 1) (2 * i) b.1.toNat b.2.toNat k =
      roundsNat p s pairs (2 * i + 2) (twoRounds ctx b i).1.toNat (twoRounds ctx b i).2.toNat k := by
  have h1 := roundNat_eq hp hs b.1 b.2 ⟨2 * i, by omega⟩
  have h2 := roundNat_eq hp hs (round ctx b.1 b.2 ⟨2 * i, by omega⟩) b.1 ⟨2 * i + 1, by omega⟩
  dsimp only at h1 h2
  simp only [roundsNat, strict_eq, h1]
  rw [Nat.succ_eq_add_one, h2]
  rfl

theorem encryptNat_eq (hp : Packs ctx.P p) (hs : s.Pack ctx.S) (b : Block) (k : Nat → Nat → α) :
    encryptNat p s b.1.toNat b.2.toNat k = k (encrypt ctx b).1.toNat (encrypt ctx b).2.toNat := by
  have hrounds : ∀ (c : Block) (k : Nat → Nat → α), roundsNat p s 8 0 c.1.toNat c.2.toNat k =
      k ((List.finRange 8).foldl (twoRounds ctx) c).1.toNat ((List.finRange 8).foldl (twoRounds ctx) c).2.toNat := by
    intro c k
    exact (roundsNat_succ hp hs 7 0 _ k).trans <| (roundsNat_succ hp hs 6 1 _ k).trans <|
      (roundsNat_succ hp hs 5 2 _ k).trans <| (roundsNat_succ hp hs 4 3 _ k).trans <|
      (roundsNat_succ hp hs 3 4 _ k).trans <| (roundsNat_succ hp hs 2 5 _ k).trans <|
      (roundsNat_succ hp hs 1 6 _ k).trans <| (roundsNat_succ hp hs 0 7 _ k)
  have hin : Nat.xor b.1.toNat (get p 0) = (b.1 ^^^ ctx.P.get 0).toNat := by
    rw [hp 0 (by omega), UInt32.toNat_xor]
    rfl
  have hout : ∀ w : Word, Nat.xor w.toNat (get p 17) = (w ^^^ ctx.P.get 17).toNat := by
    intro w
    rw [hp 17 (by omega), UInt32.toNat_xor]
    rfl
  rw [encryptNat, strict_eq, hin]
  refine (hrounds (b.1 ^^^ ctx.P.get 0, b.2) _).trans ?_
  rw [strict_eq, hout]
  rfl

theorem timesNat_eq (hp : Packs ctx.P p) (hs : s.Pack ctx.S) (count : Nat) (b : Block) (k : Nat → Nat → α) :
    timesNat p s count b.1.toNat b.2.toNat k =
      k ((encrypt ctx)^[count] b).1.toNat ((encrypt ctx)^[count] b).2.toNat := by
  induction count generalizing b with
  | zero => rfl
  | succ count ih => rw [timesNat, encryptNat_eq hp hs, ih, Function.iterate_succ_apply]

/-! ### Passes over the boxes -/

theorem setPair_packs {n m : Nat} {v : Vector Word n} (h : Packs v m) (i : Nat) (b : Block) :
    Packs ((v.setIfInBounds (2 * i) b.1).setIfInBounds (2 * i + 1) b.2) (setPair m i b.1.toNat b.2.toNat) :=
  (h.set _ _).set _ _

/-- `x` and `y` are the words that `mix` mixes in. -/
def Mixes (mix : Nat → Block → Block) (x y : Nat → Nat) : Prop :=
  ∀ i b, Nat.xor b.1.toNat (x i) = (mix i b).1.toNat ∧ Nat.xor b.2.toNat (y i) = (mix i b).2.toNat

variable {mix : Nat → Block → Block} {x y : Nat → Nat}

theorem passP_eq (hmix : Mixes mix x y) (count i : Nat) (c : Ctx × Block) (hp : Packs c.1.P p) (hs : s.Pack c.1.S) :
    ∃ p', Packs ((List.range' i count).foldl (stepP mix) c).1.P p' ∧
      s.Pack ((List.range' i count).foldl (stepP mix) c).1.S ∧
      ∀ k : Nat → Nat → Nat → α, passP x y s count i p c.2.1.toNat c.2.2.toNat k =
        k p' ((List.range' i count).foldl (stepP mix) c).2.1.toNat
          ((List.range' i count).foldl (stepP mix) c).2.2.toNat := by
  induction count generalizing i c p with
  | zero => exact ⟨p, hp, hs, fun _ => rfl⟩
  | succ count ih =>
    obtain ⟨p', hp', hs', hrun⟩ := ih (i + 1) (stepP mix c i) (setPair_packs hp i (encrypt c.1 (mix i c.2))) hs
    refine ⟨p', hp', hs', fun k => ?_⟩
    rw [passP, (hmix i c.2).1, (hmix i c.2).2, encryptNat_eq hp hs, strict_eq]
    exact hrun k

theorem put_eq (hs : s.Pack ctx.S) {i : Nat} (hi : i < 512) (b : Block) :
    ∃ s', Boxes.Pack s' (ctx.storeS i b).S ∧ ∀ k : Boxes → α, s.put i b.1.toNat b.2.toNat k = k s' := by
  have hkeep : ∀ {m off : Nat}, Holds m ctx.S off → (2 * i + 1 < off ∨ off + 256 ≤ 2 * i) →
      Holds m (ctx.storeS i b).S off := fun h hoff => h.other hoff
  have hnew : ∀ (off : Nat) {m : Nat}, Holds m ctx.S (2 * off) → off ≤ i → i < off + 128 →
      Holds (setPair m (i - off) b.1.toNat b.2.toNat) (ctx.storeS i b).S (2 * off) := by
    intro off m h hle hlt
    have hset := h.setPair (i := i - off) (b := b) (by omega)
    rwa [show off + (i - off) = i by omega] at hset
  by_cases h0 : i < 128
  · exact ⟨{ s with s0 := setPair s.s0 i b.1.toNat b.2.toNat }, ⟨hnew 0 hs.b0 (by omega) (by omega),
      hkeep hs.b1 (by omega), hkeep hs.b2 (by omega), hkeep hs.b3 (by omega)⟩, fun k => by
      rw [Boxes.put, if_pos h0, strict_eq]⟩
  by_cases h1 : i < 256
  · exact ⟨{ s with s1 := setPair s.s1 (i - 128) b.1.toNat b.2.toNat }, ⟨hkeep hs.b0 (by omega),
      hnew 128 hs.b1 (by omega) (by omega), hkeep hs.b2 (by omega), hkeep hs.b3 (by omega)⟩, fun k => by
      rw [Boxes.put, if_neg h0, if_pos h1, strict_eq]⟩
  by_cases h2 : i < 384
  · exact ⟨{ s with s2 := setPair s.s2 (i - 256) b.1.toNat b.2.toNat }, ⟨hkeep hs.b0 (by omega),
      hkeep hs.b1 (by omega), hnew 256 hs.b2 (by omega) (by omega), hkeep hs.b3 (by omega)⟩, fun k => by
      rw [Boxes.put, if_neg h0, if_neg h1, if_pos h2, strict_eq]⟩
  · exact ⟨{ s with s3 := setPair s.s3 (i - 384) b.1.toNat b.2.toNat }, ⟨hkeep hs.b0 (by omega),
      hkeep hs.b1 (by omega), hkeep hs.b2 (by omega), hnew 384 hs.b3 (by omega) (by omega)⟩, fun k => by
      rw [Boxes.put, if_neg h0, if_neg h1, if_neg h2, strict_eq]⟩

theorem passS_eq (hmix : Mixes mix x y) (count i : Nat) (hi : i + count ≤ 512) (c : Ctx × Block) (hp : Packs c.1.P p)
    (hs : s.Pack c.1.S) :
    ∃ s', Packs ((List.range' i count).foldl (stepS mix) c).1.P p ∧
      Boxes.Pack s' ((List.range' i count).foldl (stepS mix) c).1.S ∧
      ∀ k : Boxes → α, passS x y p count i s c.2.1.toNat c.2.2.toNat k = k s' := by
  induction count generalizing i c s with
  | zero => exact ⟨s, hp, hs, fun _ => rfl⟩
  | succ count ih =>
    obtain ⟨s₁, hs₁, hput⟩ := put_eq (α := α) hs (show i < 512 by omega) (encrypt c.1 (mix i c.2))
    obtain ⟨s', hp', hs', hrun⟩ := ih (i + 1) (by omega) (stepS mix c i) hp hs₁
    refine ⟨s', hp', hs', fun k => ?_⟩
    rw [passS, (hmix i c.2).1, (hmix i c.2).2, encryptNat_eq hp hs, hput]
    exact hrun k

variable {mixS : Nat → Block → Block} {xs ys : Nat → Nat}

theorem passNat_eq (hmix : Mixes mix x y) (hmixS : Mixes mixS xs ys) (hp : Packs ctx.P p) (hs : s.Pack ctx.S) :
    ∃ p' s', Packs (passes mix mixS ctx).P p' ∧ Boxes.Pack s' (passes mix mixS ctx).S ∧
      ∀ k : Nat → Boxes → α, passNat x y xs ys p s k = k p' s' := by
  obtain ⟨p', hp', hs', hrun⟩ := passP_eq (α := α) hmix 9 0 (ctx, (0, 0)) hp hs
  obtain ⟨s', hp'', hs'', hrun'⟩ := passS_eq (α := α) hmixS 512 0 (by omega) _ hp' hs'
  rw [passes, List.range_eq_range', List.range_eq_range']
  exact ⟨p', s', hp'', hs'', fun k => (hrun _).trans (hrun' _)⟩

end Simulation

/-! ### The hash -/

theorem mixes_noMix : Mixes noMix (fun _ => 0) (fun _ => 0) := fun _ b =>
  ⟨Nat.xor_zero b.1.toNat, Nat.xor_zero b.2.toNat⟩

def saltNat (x x' : Nat) (i : Nat) : Nat := if i % 2 = 0 then x else x'

theorem mixes_saltMix (x y x' y' : Word) :
    Mixes (saltMix x y x' y') (saltNat x.toNat x'.toNat) (saltNat y.toNat y'.toNat) := by
  intro i b
  rw [saltMix, saltNat, saltNat]
  split
  · exact ⟨(UInt32.toNat_xor _ _).symm, (UInt32.toNat_xor _ _).symm⟩
  · exact ⟨(UInt32.toNat_xor _ _).symm, (UInt32.toNat_xor _ _).symm⟩

section Digest

variable {α : Type} {ctx : Ctx} {p e q : Nat} {s : Boxes} {salt : Vector Word 4} {keys : Key × Key}

def bodyNat (p : Nat) (s : Boxes) (k : Nat → Boxes → α) : α :=
  passNat (fun _ => 0) (fun _ => 0) (fun _ => 0) (fun _ => 0) p s k

theorem bodyNat_eq (hp : Packs ctx.P p) (hs : s.Pack ctx.S) :
    ∃ p' s', Packs (body ctx).P p' ∧ Boxes.Pack s' (body ctx).S ∧ ∀ k : Nat → Boxes → α, bodyNat p s k = k p' s' := by
  rw [body]
  exact passNat_eq mixes_noMix mixes_noMix hp hs

def costNat (e q p : Nat) (s : Boxes) (k : Nat → Boxes → α) : α :=
  strict (Nat.xor p e) fun p => bodyNat p s fun p s => strict (Nat.xor p q) fun p => bodyNat p s k

theorem costNat_eq (he : Packs keys.1 e) (hq : Packs (saltKey salt) q) (hp : Packs ctx.P p) (hs : s.Pack ctx.S) :
    ∃ p' s', Packs (costStep keys.1 salt ctx).P p' ∧ Boxes.Pack s' (costStep keys.1 salt ctx).S ∧
      ∀ k : Nat → Boxes → α, costNat e q p s k = k p' s' := by
  rw [costStep]
  obtain ⟨p₁, s₁, hp₁, hs₁, h₁⟩ := @bodyNat_eq α { ctx with P := Vector.zipWith (· ^^^ ·) ctx.P keys.1 } _ _
    (hp.xor he) hs
  generalize body { ctx with P := Vector.zipWith (· ^^^ ·) ctx.P keys.1 } = c at hp₁ hs₁ ⊢
  obtain ⟨p₂, s₂, hp₂, hs₂, h₂⟩ := @bodyNat_eq α { c with P := Vector.zipWith (· ^^^ ·) c.P (saltKey salt) } _ _
    (hp₁.xor hq) hs₁
  refine ⟨p₂, s₂, hp₂, hs₂, fun k => ?_⟩
  rw [costNat, strict_eq, ← h₂ k]
  exact (h₁ _).trans (strict_eq _ _)

def digestNat (p e q : Nat) (s : Boxes) (w0 w1 w2 w3 : Nat) : List Nat :=
  passNat (saltNat w0 w2) (saltNat w1 w3) (saltNat w2 w0) (saltNat w3 w1) p s fun p s =>
  costNat e q p s fun p s =>
  timesNat p s 64 0x4F727068 0x65616E42 fun a b => timesNat p s 64 0x65686F6C 0x64657253 fun c d =>
  timesNat p s 64 0x63727944 0x6F756274 fun f g => [a, b, c, d, f, g]

theorem saltBoxes_eq (ctx : Ctx) (salt : Vector Word 4) : saltBoxes ctx salt =
    passes (saltMix (salt.get 0) (salt.get 1) (salt.get 2) (salt.get 3))
      (saltMix (salt.get 2) (salt.get 3) (salt.get 0) (salt.get 1)) ctx := by rfl

theorem digest_eq (hp : Packs keys.2 p) (he : Packs keys.1 e) (hq : Packs (saltKey salt) q) (hs : s.Pack initStateS) :
    digest keys salt 1 = (digestNat p e q s (salt.get 0).toNat (salt.get 1).toNat (salt.get 2).toNat (salt.get 3).toNat).flatMap
      fun w => storeWord (swap (.ofNat w)) := by
  have hpass := @passNat_eq (List Nat) { S := initStateS, P := keys.2 }
  obtain ⟨p₁, s₁, hp₁, hs₁, h₁⟩ := hpass (mixes_saltMix (salt.get 0) (salt.get 1) (salt.get 2) (salt.get 3))
    (mixes_saltMix (salt.get 2) (salt.get 3) (salt.get 0) (salt.get 1)) hp hs
  rw [digest, saltBoxes_eq, Function.iterate_one]
  generalize passes _ _ _ = c at hp₁ hs₁ ⊢
  obtain ⟨p₂, s₂, hp₂, hs₂, h₂⟩ := costNat_eq (α := List Nat) he hq hp₁ hs₁
  generalize costStep keys.1 salt c = c' at hp₂ hs₂ ⊢
  rw [digestNat, h₁, h₂]
  have htimes : ∀ (b : Block) (l r : Nat), l = b.1.toNat → r = b.2.toNat → ∀ k : Nat → Nat → List Nat,
      timesNat p₂ s₂ 64 l r k = k ((encrypt c')^[64] b).1.toNat ((encrypt c')^[64] b).2.toNat := by
    rintro b l r rfl rfl k
    exact timesNat_eq hp₂ hs₂ 64 b k
  rw [htimes (0x4F727068, 0x65616E42) 0x4F727068 0x65616E42 rfl rfl,
    htimes (0x65686F6C, 0x64657253) 0x65686F6C 0x64657253 rfl rfl,
    htimes (0x63727944, 0x6F756274) 0x63727944 0x6F756274 rfl rfl]
  simp only [magicW, List.flatMap_cons, List.flatMap_nil, UInt32.ofNat_toNat, List.append_assoc]

end Digest

/-! ### The tables -/

theorem tables_lt : ∀ x ∈ initS0 ++ initS1 ++ initS2 ++ initS3, x < 2 ^ 32 := by
  have h : (initS0 ++ initS1 ++ initS2 ++ initS3).all (· < 2 ^ 32) = true := by decide +kernel
  exact fun x hx => of_decide_eq_true (List.all_eq_true.1 h x hx)

theorem holds_table {l : List Nat} {k : Nat} (hl : [initS0, initS1, initS2, initS3][k]? = some l)
    (hlt : ∀ x ∈ l, x < 2 ^ 32) : Holds (pack l) initStateS (256 * k) := by
  intro j hj
  have hk : k < 4 := (List.getElem?_eq_some_iff.1 hl).1
  have hword : l.getD j 0 < 2 ^ 32 := by
    rw [← get_pack hlt]
    exact get_lt
  have hdiv : (256 * k + j) / 256 = k := by omega
  have hmod : (256 * k + j) % 256 = j := by omega
  have hbox : [initS0, initS1, initS2, initS3].getD k [] = l := by rw [List.getD_eq_getElem?_getD, hl, Option.getD_some]
  rw [Vector.getElem?_eq_getElem (by omega), initStateS, Vector.getElem_ofFn, get_pack hlt, Option.map_some, hdiv, hmod,
    hbox]
  exact congrArg some (Nat.mod_eq_of_lt hword)

def initBoxes : Boxes := ⟨pack initS0, pack initS1, pack initS2, pack initS3⟩

theorem initBoxes_pack : initBoxes.Pack initStateS := by
  have hlt := tables_lt
  simp only [List.mem_append, or_assoc, or_imp, forall_and] at hlt
  exact ⟨holds_table (k := 0) rfl hlt.1, holds_table (k := 1) rfl hlt.2.1, holds_table (k := 2) rfl hlt.2.2.1,
    holds_table (k := 3) rfl hlt.2.2.2⟩

def packKey (v : Key) : Nat := pack (v.toList.map UInt32.toNat)

theorem packKey_packs (v : Key) : Packs v (packKey v) := by
  intro i hi
  rw [packKey, get_pack]
  · simp [hi]
  · intro x hx
    obtain ⟨w, -, rfl⟩ := List.mem_map.1 hx
    exact w.toNat_lt

/-- `digestNat` with its arguments computed first. -/
def hashNat (keys : Key × Key) (salt : Vector Word 4) (w0 w1 w2 w3 : Nat) : List Nat :=
  strict (packKey keys.2) fun p => strict (packKey keys.1) fun e => strict (packKey (saltKey salt)) fun q =>
  strict (pack initS0) fun s0 => strict (pack initS1) fun s1 => strict (pack initS2) fun s2 =>
  strict (pack initS3) fun s3 => strict w0 fun w0 => strict w1 fun w1 => strict w2 fun w2 => strict w3 fun w3 =>
  digestNat p e q ⟨s0, s1, s2, s3⟩ w0 w1 w2 w3

theorem digest_eq_hashNat (keys : Key × Key) (salt : Vector Word 4) :
    digest keys salt 1 = (hashNat keys salt (salt.get 0).toNat (salt.get 1).toNat (salt.get 2).toNat
      (salt.get 3).toNat).flatMap fun w => storeWord (swap (.ofNat w)) := by
  simp only [hashNat, strict_eq]
  exact digest_eq (packKey_packs _) (packKey_packs _) (packKey_packs _) initBoxes_pack

/-! ### The test -/

/-- `abcdefghijklmnopqrstuu` -/
def testSalt : List Sextets.Sextet :=
  [28, 29, 30, 31, 32, 33, 34, 35, 36, 37, 38, 39, 40, 41, 42, 43, 44, 45, 46, 47, 48, 48]

theorem digest_correct : digest (setKey testKey 4) (saltOf testSalt) 1 =
    [147, 113, 125, 219, 252, 97, 114, 140, 39, 146, 137, 200, 122, 205, 172, 179, 149, 177, 193, 103, 46, 196, 103,
      198] := by
  rw [digest_eq_hashNat]
  decide +kernel

theorem digest_buggy : digest (setKey testKey 1) (saltOf testSalt) 1 =
    [93, 107, 81, 161, 145, 124, 176, 26, 87, 81, 74, 253, 172, 241, 99, 17, 63, 246, 247, 114, 161, 41, 56, 226] := by
  rw [digest_eq_hashNat]
  decide +kernel

/-- `testSetting` with the letter of the setting under test. -/
def settingWith (c : Char) : CStr := ['$', '2', c, '$', '0', '0', '$'] ++ testSalt.map letter

theorem set_testSetting (c : Char) : testSetting.set 2 c = settingWith c := by
  have htest : testSetting = settingWith 'a' := by decide
  rw [htest]
  rfl

theorem testKey_no_ff : ∀ c ∈ testKey, byte c ≠ 0xFF := by
  intro c hc hff
  have hmem : byte c ∈ testKey.map byte := List.mem_map_of_mem hc
  rw [hff] at hmem
  revert hmem
  decide

theorem crypt_test {c : Char} (hc : c = 'a' ∨ c = 'b' ∨ c = 'x' ∨ c = 'y') :
    crypt testKey (settingWith c) 61 1 = some (settingWith c ++ encode
      ((if c = 'x' then digest (setKey testKey 1) (saltOf testSalt) 1
        else digest (setKey testKey 4) (saltOf testSalt) 1).take 23)) := by
  have hkey : setKey testKey 2 = setKey testKey 4 := setKey_eq_of_no_ff testKey_no_ff rfl
  have hfill : Sextets.fill testSalt = testSalt := by decide
  rw [crypt_eq_some]
  refine ⟨le_rfl, ?_, ?_, testSalt, rfl, List.prefix_rfl, ?_⟩
  · rcases hc with rfl | rfl | rfl | rfl <;> decide
  · rcases hc with rfl | rfl | rfl | rfl <;> decide
  · have hcount : (countOf (settingWith c)).toNat = 1 := rfl
    have htake : (settingWith c).take 7 ++ testSalt.map letter = settingWith c := rfl
    rw [hfill, htake, hashOf, hcount]
    rcases hc with rfl | rfl | rfl | rfl
    · rw [show flagsOf (settingWith 'a') = 2 from rfl, hkey, if_neg (by decide)]
    · rw [show flagsOf (settingWith 'b') = 4 from rfl, if_neg (by decide)]
    · rw [show flagsOf (settingWith 'x') = 1 from rfl, if_pos rfl]
    · rw [show flagsOf (settingWith 'y') = 4 from rfl, if_neg (by decide)]

theorem selfTest_ok {c : Char} (hc : c = 'a' ∨ c = 'b' ∨ c = 'x' ∨ c = 'y') : selfTest (some c) = true := by
  have hkeys : keysOk = true := by decide +kernel
  have hcrypt := crypt_test hc
  rw [digest_correct, digest_buggy] at hcrypt
  rw [selfTest, Option.getD_some, set_testSetting]
  simp only [List.length_append, List.length_replicate, List.length_singleton, Nat.reduceAdd, Nat.reduceSub, hcrypt,
    hkeys]
  rcases hc with rfl | rfl | rfl | rfl <;> decide

theorem letter_of_prefixed {setting : CStr} (h : Prefixed setting) : setting.getD 2 '\x00' = 'a' ∨
    setting.getD 2 '\x00' = 'b' ∨ setting.getD 2 '\x00' = 'x' ∨ setting.getD 2 '\x00' = 'y' := by
  simp only [Prefixed, not_or, flagsOf] at h
  obtain ⟨-, -, hlow, -, hflags, -⟩ := h
  generalize setting.getD 2 '\x00' = c at hlow hflags ⊢
  have hge : 'a'.toNat ≤ c.toNat := UInt32.le_iff_toNat_le.1 (Char.not_lt.1 hlow)
  have hfour : ∀ n < 26, flagsBySubtype.getD n 0 ≠ 0 → n = 0 ∨ n = 1 ∨ n = 23 ∨ n = 24 := by decide
  have hlt : c.toNat - 'a'.toNat < 26 := by
    by_contra hle
    exact hflags (List.getD_eq_default _ _ (by simpa [flagsBySubtype] using hle))
  have hchar : ∀ n, c.toNat - 'a'.toNat = n → c = Char.ofNat ('a'.toNat + n) := by
    intro n hn
    rw [← Char.ofNat_toNat c]
    congr 1
    omega
  rcases hfour _ hlt hflags with hn | hn | hn | hn
  · exact Or.inl (hchar 0 hn)
  · exact Or.inr (Or.inl (hchar 1 hn))
  · exact Or.inr (Or.inr (Or.inl (hchar 23 hn)))
  · exact Or.inr (Or.inr (Or.inr (hchar 24 hn)))

/-- The self-test never fails: what `BF_crypt` makes is what the caller gets. -/
theorem cryptBlowfishRn_eq (key setting : CStr) (size : Nat) :
    cryptBlowfishRn key setting size = crypt key setting size 16 := by
  rw [cryptBlowfishRn]
  cases h : crypt key setting size 16 with
  | none => simp
  | some out =>
    obtain ⟨-, hpre, -⟩ := crypt_eq_some.1 h
    rw [Option.map_some, selfTest_ok (letter_of_prefixed hpre), if_pos rfl]

end Netdisk.BF

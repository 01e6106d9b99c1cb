import Mathlib.Data.List.FinRange
import Netdisk.Bcrypt.Tables
import Netdisk.Lib.Feistel

/-!
# The cipher of `crypt_blowfish.c`

`encrypt` is `BF_ENCRYPT`. It is a Feistel network for every content of the boxes, so that whatever a key
and a salt have made of them, each of the many encryptions of the key schedule loses nothing.
-/

namespace Netdisk.BF

/-- `BF_word` -/
abbrev Word := UInt32

/-- `BF_ctx`; the four boxes of `S` lie one behind the other. -/
structure Ctx where
  S : Vector Word 1024
  P : Vector Word 18

/-- `L` and `R`. -/
abbrev Block := Word × Word

/-- `data.ctx.S[k][x]` -/
def Ctx.box (ctx : Ctx) (k : Fin 4) (x : UInt8) : Word := ctx.S.get ⟨256 * k + x.toNat, by have := x.toNat_lt; omega⟩

/-- What `BF_ROUND` mixes into the other half, next to the key. -/
def Ctx.f (ctx : Ctx) (L : Word) : Word :=
  let tmp1 := ctx.box 3 L.toUInt8
  let tmp2 := ctx.box 2 (L >>> 8).toUInt8
  let tmp3 := ctx.box 1 (L >>> 16).toUInt8
  let tmp3 := tmp3 + ctx.box 0 (L >>> 24).toUInt8
  let tmp3 := tmp3 ^^^ tmp2
  tmp3 + tmp1

/-- `BF_ROUND(L, R, N)`: the new `R`. -/
def round (ctx : Ctx) (L R : Word) (N : Fin 16) : Word := (R ^^^ ctx.P.get N.succ.castSucc) ^^^ ctx.f L

/-- `BF_ROUND(L, R, 2 * i)` and `BF_ROUND(R, L, 2 * i + 1)`. -/
def twoRounds (ctx : Ctx) (b : Block) (i : Fin 8) : Block :=
  let R := round ctx b.1 b.2 ⟨2 * i, by omega⟩
  let L := round ctx R b.1 ⟨2 * i + 1, by omega⟩
  (L, R)

/-- `BF_ENCRYPT` -/
def encrypt (ctx : Ctx) (b : Block) : Block :=
  let (L, R) := (List.finRange 8).foldl (twoRounds ctx) (b.1 ^^^ ctx.P.get 0, b.2)
  (R ^^^ ctx.P.get 17, L)

/-! ### Decryption -/

/-- The code that encrypts, with the keys the other way round. -/
def decrypt (ctx : Ctx) (b : Block) : Block := encrypt { ctx with P := ctx.P.reverse } b

theorem xor_xor_self (a b : Word) : (a ^^^ b) ^^^ b = a := by
  rw [UInt32.xor_assoc, UInt32.xor_self, UInt32.xor_zero]

/-- A round, as the function it mixes into the other half. -/
def Ctx.mixed (ctx : Ctx) (N : Fin 16) (L : Word) : Word := ctx.P.get N.succ.castSucc ^^^ ctx.f L

abbrev Ctx.network (ctx : Ctx) : Block → Block := Feistel.run (· ^^^ ·) ((List.finRange 16).map ctx.mixed)

theorem twoRounds_eq (ctx : Ctx) (b : Block) (i : Fin 8) :
    twoRounds ctx b i = Feistel.run (· ^^^ ·)
      ([⟨2 * i.val, by omega⟩, ⟨2 * i.val + 1, by omega⟩].map ctx.mixed) b := by
  simp only [twoRounds, round, Feistel.round, Ctx.mixed, List.map_cons, List.map_nil, Feistel.run_cons,
    Feistel.run_nil, UInt32.xor_assoc]

theorem foldl_twoRounds (ctx : Ctx) (b : Block) : (List.finRange 8).foldl (twoRounds ctx) b = ctx.network b := by
  have hpairs : List.finRange 16 =
      (List.finRange 8).flatMap fun i => [⟨2 * i.val, by omega⟩, ⟨2 * i.val + 1, by omega⟩] := by decide
  rw [Ctx.network, Feistel.run, hpairs, List.map_flatMap, List.foldl_flatMap]
  exact congrArg (fun g => List.foldl g b (List.finRange 8)) (funext₂ (twoRounds_eq ctx))

theorem encrypt_eq (ctx : Ctx) (b : Block) :
    encrypt ctx b = ((ctx.network (b.1 ^^^ ctx.P.get 0, b.2)).2 ^^^ ctx.P.get 17,
      (ctx.network (b.1 ^^^ ctx.P.get 0, b.2)).1) := by
  rw [encrypt, foldl_twoRounds]

theorem get_reverse (P : Vector Word 18) (i : Fin 18) : P.reverse.get i = P.get i.rev := by
  change P.reverse[i.val] = P[i.rev.val]
  rw [Vector.getElem_reverse]
  congr 1
  simp only [Fin.val_rev]
  omega

theorem mixed_reverse (ctx : Ctx) :
    (List.finRange 16).map (Ctx.mixed { ctx with P := ctx.P.reverse }) = ((List.finRange 16).map ctx.mixed).reverse := by
  rw [← List.map_reverse, List.finRange_reverse, List.map_map]
  refine List.map_congr_left fun N _ => funext fun L => ?_
  have hrev : N.succ.castSucc.rev = N.rev.succ.castSucc := by
    ext
    simp
    omega
  rw [Function.comp_apply, Ctx.mixed, Ctx.mixed, get_reverse, hrev]
  rfl

/-- Decryption undoes encryption. -/
theorem decrypt_encrypt (ctx : Ctx) (b : Block) : decrypt ctx (encrypt ctx b) = b := by
  have hrun := Feistel.run_reverse xor_xor_self ((List.finRange 16).map ctx.mixed) (b.1 ^^^ ctx.P.get 0, b.2)
  rw [← mixed_reverse] at hrun
  rw [decrypt, encrypt_eq, encrypt_eq ctx, get_reverse, get_reverse]
  simp only [show Fin.rev (0 : Fin 18) = 17 from rfl, show Fin.rev (17 : Fin 18) = 0 from rfl, xor_xor_self]
  rw [Ctx.network, show ∀ c : Block, (c.2, c.1) = c.swap from fun _ => rfl, hrun]
  exact Prod.ext (xor_xor_self _ _) rfl

theorem decrypt_reverse (ctx : Ctx) (b : Block) : decrypt { ctx with P := ctx.P.reverse } b = encrypt ctx b := by
  rw [decrypt, Vector.reverse_reverse]

/-- Whatever the boxes hold, the same code with the keys reversed is the inverse on both sides. -/
theorem encrypt_inverse (ctx : Ctx) :
    Function.LeftInverse (decrypt ctx) (encrypt ctx) ∧ Function.RightInverse (decrypt ctx) (encrypt ctx) := by
  refine ⟨decrypt_encrypt ctx, fun b => ?_⟩
  have h := decrypt_encrypt { ctx with P := ctx.P.reverse } b
  rw [decrypt_reverse] at h
  exact h

end Netdisk.BF

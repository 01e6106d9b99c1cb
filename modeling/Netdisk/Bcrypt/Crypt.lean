import Mathlib.Logic.Function.Iterate
import Netdisk.Bcrypt.Encode
import Netdisk.Bcrypt.SetKey
import Netdisk.DealSql

/-!
# `crypt_r` and `crypt_gensalt_rn` of the bundled bcrypt

`crypt_blowfish.c` and the branches of `wrapper.c` that are not glibc's own. The machine is little-endian.
-/

namespace Netdisk.BF

/-! ### The hash -/

/-- `BF_swap` of a word. -/
def swap (x : Word) : Word :=
  let tmp := x <<< 16 ||| x >>> 16
  (tmp &&& 0x00FF00FF) <<< 8 ||| ((tmp >>> 8) &&& 0x00FF00FF)

/-- The word at `i` of an array that lies over the bytes. -/
def loadWord (bytes : List UInt8) (i : Nat) : Word :=
  (bytes.getD (4 * i) 0).toUInt32 ||| (bytes.getD (4 * i + 1) 0).toUInt32 <<< 8 |||
    (bytes.getD (4 * i + 2) 0).toUInt32 <<< 16 ||| (bytes.getD (4 * i + 3) 0).toUInt32 <<< 24

/-- The bytes that a word lies over. -/
def storeWord (x : Word) : List UInt8 := [x.toUInt8, (x >>> 8).toUInt8, (x >>> 16).toUInt8, (x >>> 24).toUInt8]

/-- `BF_init_state.S` -/
def initStateS : Vector Word 1024 :=
  Vector.ofFn fun i => (([initS0, initS1, initS2, initS3].getD (i / 256) []).getD (i % 256) 0).toUInt32

/-- `BF_magic_w` -/
def magicW : List Block := [(0x4F727068, 0x65616E42), (0x65686F6C, 0x64657253), (0x63727944, 0x6F756274)]

/-- `data.ctx.P[2 * i] = L; data.ctx.P[2 * i + 1] = R;` -/
def Ctx.storeP (ctx : Ctx) (i : Nat) (b : Block) : Ctx :=
  { ctx with P := (ctx.P.setIfInBounds (2 * i) b.1).setIfInBounds (2 * i + 1) b.2 }

/-- `*ptr = L; *(ptr + 1) = R;` with `ptr` at the `i`-th pair of `data.ctx.S`. -/
def Ctx.storeS (ctx : Ctx) (i : Nat) (b : Block) : Ctx :=
  { ctx with S := (ctx.S.setIfInBounds (2 * i) b.1).setIfInBounds (2 * i + 1) b.2 }

def Block.mix (b : Block) (x y : Word) : Block := (b.1 ^^^ x, b.2 ^^^ y)

/-- Encrypting for the `i`-th pair of `P`; `mix` is what is done to `L` and `R` before. -/
def stepP (mix : Nat → Block → Block) (c : Ctx × Block) (i : Nat) : Ctx × Block :=
  let b := encrypt c.1 (mix i c.2)
  (c.1.storeP i b, b)

/-- Encrypting for the `i`-th pair of `S`. -/
def stepS (mix : Nat → Block → Block) (c : Ctx × Block) (i : Nat) : Ctx × Block :=
  let b := encrypt c.1 (mix i c.2)
  (c.1.storeS i b, b)

/-- A pass over `P` and one over `S`, with `L = R = 0` in front of them. -/
def passes (mixP mixS : Nat → Block → Block) (ctx : Ctx) : Ctx :=
  ((List.range 512).foldl (stepS mixS) ((List.range 9).foldl (stepP mixP) (ctx, (0, 0)))).1

def noMix (_ : Nat) (b : Block) : Block := b

/-- One half of the salt for every other pair. -/
def saltMix (x y x' y' : Word) (i : Nat) (b : Block) : Block := if i % 2 = 0 then b.mix x y else b.mix x' y'

/-- `BF_body` -/
def body (ctx : Ctx) : Ctx := passes noMix noMix ctx

/-- The first passes of `BF_crypt`: `salt[i & 2]` for the pairs of `P`, and `salt[(BF_N + 2) & 3]` to
`salt[(BF_N + 5) & 3]` for two pairs of `S` at a time. -/
def saltBoxes (ctx : Ctx) (salt : Vector Word 4) : Ctx :=
  passes (saltMix salt[0] salt[1] salt[2] salt[3]) (saltMix salt[2] salt[3] salt[0] salt[1]) ctx

/-- The salt as it is mixed into `P`. -/
def saltKey (salt : Vector Word 4) : Key := Vector.ofFn fun i => salt[i.val % 4]

/-- The loop that runs `count` times. -/
def costStep (expandedKey : Key) (salt : Vector Word 4) (ctx : Ctx) : Ctx :=
  let ctx := body { ctx with P := Vector.zipWith (· ^^^ ·) ctx.P expandedKey }
  body { ctx with P := Vector.zipWith (· ^^^ ·) ctx.P (saltKey salt) }

/-- The 24 bytes that `BF_crypt` makes of the keys, the salt and the count. -/
@[irreducible] def digest (keys : Key × Key) (salt : Vector Word 4) (count : Nat) : List UInt8 :=
  let ctx := saltBoxes { S := initStateS, P := keys.2 } salt
  let ctx := (costStep keys.1 salt)^[count] ctx
  magicW.flatMap fun b =>
    let b := (encrypt ctx)^[64] b
    storeWord (swap b.1) ++ storeWord (swap b.2)

/-- `flags_by_subtype` -/
def flagsBySubtype : List UInt8 := [2, 4, 0, 0, 0, 0, 0, 0, 0, 0, 0, 0, 0, 0, 0, 0, 0, 0, 0, 0, 0, 0, 0, 1, 4, 0]

/-- `flags_by_subtype[(unsigned int)(unsigned char)setting[2] - 'a']` -/
def flagsOf (setting : CStr) : UInt8 := flagsBySubtype.getD ((setting.getD 2 '\x00').toNat - 'a'.toNat) 0

/-- The checks of `BF_crypt` on the first seven characters. -/
def Prefixed (setting : CStr) : Prop :=
  let c := fun i => setting.getD i '\x00'
  ¬ (c 0 ≠ '$' ∨ c 1 ≠ '2' ∨ c 2 < 'a' ∨ c 2 > 'z' ∨ flagsOf setting = 0 ∨ c 3 ≠ '$' ∨ c 4 < '0' ∨ c 4 > '3' ∨
    c 5 < '0' ∨ c 5 > '9' ∨ (c 4 = '3' ∧ c 5 > '1') ∨ c 6 ≠ '$')

instance (setting : CStr) : Decidable (Prefixed setting) := inferInstanceAs (Decidable (¬ _))

/-- `(BF_word)1 << ((setting[4] - '0') * 10 + (setting[5] - '0'))` -/
def countOf (setting : CStr) : Word :=
  1 <<< (((setting.getD 4 '\x00').toNat - '0'.toNat) * 10 + ((setting.getD 5 '\x00').toNat - '0'.toNat)).toUInt32

/-- `BF_crypt`: what it leaves in front of the NUL in `output`. -/
def crypt (key setting : CStr) (size : Nat) (min : Word) : Option CStr := do
  guard (7 + 22 + 31 + 1 ≤ size)
  guard (Prefixed setting)
  guard (min ≤ countOf setting)
  let bytes ← decode 16 (setting.drop 7)
  let salt := Vector.ofFn fun i : Fin 4 => swap (loadWord bytes i)
  let output := digest (setKey key (flagsOf setting)) salt (countOf setting).toNat
  let last := itoa64 (atoi64Table.getD ((setting.getD (7 + 22 - 1) '\x00').toNat - 0x20) 0 &&& 0x30)
  return setting.take (7 + 22 - 1) ++ last :: encode (output.take 23)

/-- `_crypt_output_magic` -/
def outputMagic (setting : CStr) : CStr :=
  if setting.getD 0 '\x00' = '*' ∧ setting.getD 1 '\x00' = '0' then ['*', '1'] else ['*', '0']

/-! ### The self-test -/

def testKey : CStr := ['8', 'b', ' ', '\xd0', '\xc1', '\xd2', '\xcf', '\xcc', '\xd8']

def testSetting : CStr := "$2a$00$abcdefghijklmnopqrstuu".toList

/-- `test_hashes`, with the byte behind the NUL of the hash and the NUL of the literal. -/
def testHashes : List CStr := [
  "i1D709vfamulimlGcq0qq3UvuUasvEa".toList ++ ['\x00', '\x55', '\x00'],
  "VUrPmXD6q/nVSSp7pNDhCR9071IfIRe".toList ++ ['\x00', '\x55', '\x00']]

/-- The comparison of the keys of `$2a$` and `$2y$`. -/
def keysOk : Bool :=
  let k : CStr := ['\xff', '\xa3', '3', '4', '\xff', '\xff', '\xff', '\xa3', '3', '4', '5']
  let a := setKey k 2
  let y := setKey k 4
  let ai := a.2.mapIdx fun i w => if i = 0 then w ^^^ 0x10000 else w
  ai[0]? = some 0xdb9c59bc ∧ y.1[17]? = some 0x33343500 ∧ a.1 = y.1 ∧ ai = y.2

/-- `ok` of `_crypt_blowfish_rn`; `subtype` is `setting[2]` where the password was hashed. -/
def selfTest (subtype : Option Char) : Bool :=
  let s := testSetting.set 2 (subtype.getD 'a')
  let testHash := testHashes.getD (match subtype with | none => 0 | some _ => (flagsOf s &&& 1).toNat) []
  let o := List.replicate (7 + 22 + 31 + 1 + 1) '\x55' ++ ['\x00']
  match crypt testKey s (o.length - (1 + 1)) 1 with
  | none => false
  | some p =>
    let o := p ++ '\x00' :: o.drop (p.length + 1)
    o.take (7 + 22) = s ∧ (o.drop (7 + 22)).take (31 + 1 + 1 + 1) = testHash ∧ keysOk

/-- `_crypt_blowfish_rn` -/
def cryptBlowfishRn (key setting : CStr) (size : Nat) : Option CStr :=
  let retval := crypt key setting size 16
  if selfTest (retval.map fun _ => setting.getD 2 '\x00') then retval else none

/-- `_crypt_gensalt_blowfish_rn`; `pre` is `prefix`. -/
def cryptGensaltBlowfishRn (pre : CStr) (count : Nat) (input : CStr) (size outputSize : Nat) : Option CStr := do
  let c := fun i => pre.getD i '\x00'
  guard ¬ (size < 16 ∨ outputSize < 7 + 22 + 1 ∨ (count ≠ 0 ∧ (count < 4 ∨ count > 31)) ∨ c 0 ≠ '$' ∨ c 1 ≠ '2' ∨
    (c 2 ≠ 'a' ∧ c 2 ≠ 'b' ∧ c 2 ≠ 'y'))
  let count := if count = 0 then 5 else count
  return ['$', '2', c 2, '$', Char.ofNat ('0'.toNat + count / 10), Char.ofNat ('0'.toNat + count % 10), '$'] ++
    encode ((input.take 16).map byte)

/-- `CRYPT_OUTPUT_SIZE` -/
def cryptOutputSize : Nat := 7 + 22 + 31 + 1

/-- `crypt_r`: what it returns, which is what `data` then begins with. -/
def cryptR (key setting : CStr) : CStr := (cryptBlowfishRn key setting cryptOutputSize).getD (outputMagic setting)

/-- `crypt_gensalt_rn` and `crypt_r` at the arguments of `hash.c`; what fails leaves the setting empty. -/
def bcrypt : Crypt where
  gensalt rand := (cryptGensaltBlowfishRn ['$', '2', 'b', '$'] 11 rand rand.length cryptOutputSize).getD []
  crypt := cryptR

end Netdisk.BF

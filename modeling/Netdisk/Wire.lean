import Mathlib.Algebra.Order.Ring.Int
import Mathlib.Data.List.Basic

/-!
# What travels between client and server (`header.h`)

C strings are the bytes in front of the terminating NUL, one `Char` for each byte. The arrays that they
are copied to are modelled where their bounds decide what is read back or whether a call returns: the
fields of `user_file_t` and `file_t` (`Db.Tables`), `user_name` and `user_pwd` (`Login`), `cmd` of
`transfile` (`Client`), the buffers of a request (`RequestBuffers`), those of `simplifyPath` and
`remove_space`, and the 1023 bytes that `query` passes on (`Statements`). Elsewhere a string has any
length. `LOG` is modelled by itself (`Log`); its calls in the other functions are left out, and with them
the arrays of `LOG` and `print_log`, which a long record overruns once its level is put out.

The integer conversions of the source are the ones of an LP64 machine.
-/

namespace Netdisk

abbrev CStr := List Char

/-- The bytes of a text literal of the source. -/
def utf8 (s : String) : CStr :=
  (s.toList.flatMap String.utf8EncodeChar).map fun b => Char.ofNat b.toNat

/-- Assigning an `unsigned long` (or an `off_t`) to an `int`. -/
def intOf (n : Int) : Int := n.bmod (2 ^ 32)

/-- An `int` next to an `unsigned long` in a comparison. -/
def ulongOf (n : Int) : Nat := (n % 2 ^ 64).toNat

/-- An `int` argument read back for `%lu` or `%ld`: the register it was moved to, zero-extended. -/
def regOf (n : Int) : Nat := (n % 2 ^ 32).toNat

theorem intOf_of_lt {n : Nat} (h : n < 2 ^ 31) : intOf n = n := by
  unfold intOf; rw [Int.bmod_def]; omega

theorem intOf_lt (n : Int) : intOf n < 2 ^ 31 := by
  unfold intOf; rw [Int.bmod_def]; omega

/-- A 32-bit value that survives as a positive `int` is that `int`. -/
theorem eq_of_intOf {n m : Nat} (hn : n < 2 ^ 32) (h : intOf n = m) (hm : 0 < m) : n = m := by
  unfold intOf at h; rw [Int.bmod_def] at h; omega

theorem ulongOf_of_lt {n : Nat} (h : n < 2 ^ 64) : ulongOf n = n := by
  unfold ulongOf; omega

theorem regOf_intOf {n : Nat} (h : n < 2 ^ 32) : regOf (intOf n) = n := by
  unfold regOf intOf; rw [Int.bmod_def]; omega

theorem regOf_of_lt {n : Nat} (h : n < 2 ^ 32) : regOf n = n := by
  unfold regOf; omega

/-- `TransFile`, the one frame format of the protocol; the default value is the frame after
`memset(&trans, 0, sizeof(TransFile))`. -/
structure TransFile where
  data : CStr := []
  dataLength : Int := 0
  commandNo : Int := 0
  flag : Bool := false
  token : CStr := []
deriving DecidableEq

/-- `token_info`. -/
structure TokenInfo where
  userId : Nat := 0
  workpath : CStr := []
deriving DecidableEq

namespace TransFile

/-- `command_no == 5 || command_no == 6`: `puts` and `gets`, the long commands. -/
def isLong (t : TransFile) : Bool := t.commandNo == 5 || t.commandNo == 6

end TransFile

end Netdisk

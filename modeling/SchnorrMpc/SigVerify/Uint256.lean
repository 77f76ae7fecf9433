import SchnorrMpc.Lib.Hex
import Mathlib.Data.List.TakeWhile

/-!
# Numbers of the EOS contract

`Uint256` and `FieldInt` are made from C strings of exactly 64 hexadecimal
digits. An assertion that fails ends the whole action, which is `none` here.
-/
namespace SchnorrMpc.SigVerify

open Lib

/-- What a C function sees of a string: it ends before the first zero byte. -/
def cString (text : Bytes) : Bytes := text.takeWhile (fun char => char ≠ 0)

/-- The number of the digits, most significant first; any other character fails. -/
def parseHexDigits : Bytes → Nat → Option Nat
  | [], value => some value
  | char :: rest, value =>
    match hexValue char with
    | none => none
    | some digit => parseHexDigits rest (value * 16 + digit)

def uint256 (text : Bytes) : Option Nat :=
  if (cString text).length ≠ 64 then none else parseHexDigits (cString text) 0

theorem hexDigit_ne_zero : ∀ n < 16, hexDigit n ≠ 0 := by decide

@[simp] theorem cString_hexEncode (bytes : Bytes) :
    cString (hexEncode bytes) = hexEncode bytes := by
  refine List.takeWhile_eq_self_iff.mpr fun char member => ?_
  obtain ⟨n, small, rfl⟩ := mem_hexEncode member
  simp [hexDigit_ne_zero n small]

theorem parseHexDigits_hexEncode (bytes : Bytes) (value : Nat) :
    parseHexDigits (hexEncode bytes) value =
      some (bytes.foldl (fun acc byte => acc * 256 + byte.toNat) value) := by
  induction bytes generalizing value with
  | nil => rfl
  | cons byte rest ih =>
    have bound := byte.toNat_lt
    have whole : (value * 16 + byte.toNat / 16) * 16 + byte.toNat % 16 =
        value * 256 + byte.toNat := by omega
    rw [hexEncode, parseHexDigits, hexValue_hexDigit _ (by omega)]
    simp only [parseHexDigits, hexValue_hexDigit _ (show byte.toNat % 16 < 16 by omega)]
    rw [whole, ih, List.foldl_cons]

theorem uint256_hexEncode (bytes : Bytes) :
    uint256 (hexEncode bytes) = if bytes.length = 32 then some (beNat bytes) else none := by
  have digits : (cString (hexEncode bytes)).length ≠ 64 ↔ bytes.length ≠ 32 := by
    rw [cString_hexEncode, length_hexEncode]
    omega
  unfold uint256
  by_cases full : bytes.length = 32
  · rw [if_neg (fun short => digits.mp short full), if_pos full, cString_hexEncode,
      parseHexDigits_hexEncode]
    rfl
  · rw [if_pos (digits.mpr full), if_neg full]

end SchnorrMpc.SigVerify

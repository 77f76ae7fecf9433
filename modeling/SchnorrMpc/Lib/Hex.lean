import SchnorrMpc.Lib.Bytes

/-!
# Hexadecimal text

Two digits for every byte. Encoding writes lower case; decoding reads either.
-/
namespace SchnorrMpc.Lib

variable {text bytes : Bytes} {char : UInt8}

/-- The digit of a number below 16. -/
def hexDigit (n : Nat) : UInt8 :=
  if n < 10 then .ofNat (48 + n) else .ofNat (87 + n)

def hexEncode : Bytes → Bytes
  | [] => []
  | byte :: rest => hexDigit (byte.toNat / 16) :: hexDigit (byte.toNat % 16) :: hexEncode rest

/-- The number of a digit of either case. -/
def hexValue (char : UInt8) : Option Nat :=
  let c := char.toNat
  if 48 ≤ c ∧ c ≤ 57 then some (c - 48)
  else if 97 ≤ c ∧ c ≤ 102 then some (c - 87)
  else if 65 ≤ c ∧ c ≤ 70 then some (c - 55)
  else none

inductive HexError where
  | oddLength
  | invalidByte (char : UInt8)
  deriving DecidableEq, Repr

/-- The bytes up to the first pair that is not two digits, and what is wrong there. A character left
over at the end is looked at before the length is. -/
def hexDecodeString : Bytes → Bytes × Option HexError
  | [] => ([], none)
  | [last] => ([], some (if (hexValue last).isSome then .oddLength else .invalidByte last))
  | high :: low :: rest =>
    match hexValue high, hexValue low with
    | some h, some l =>
      let tail := hexDecodeString rest
      (.ofNat (h * 16 + l) :: tail.1, tail.2)
    | none, _ => ([], some (.invalidByte high))
    | some _, none => ([], some (.invalidByte low))

def hexDecode (text : Bytes) : Except HexError Bytes :=
  match hexDecodeString text with
  | (bytes, none) => .ok bytes
  | (_, some error) => .error error

theorem length_hexEncode (bytes : Bytes) : (hexEncode bytes).length = 2 * bytes.length := by
  induction bytes with
  | nil => rfl
  | cons byte rest ih =>
    simp only [hexEncode, List.length_cons, ih]
    omega

theorem hexValue_hexDigit : ∀ n < 16, hexValue (hexDigit n) = some n := by decide

theorem hexDecodeString_of_digits (digits : text.map hexValue = (hexEncode bytes).map hexValue) :
    hexDecodeString text = (bytes, none) := by
  induction bytes generalizing text with
  | nil =>
    obtain rfl : text = [] := by simpa [hexEncode] using digits
    rfl
  | cons byte rest ih =>
    have bound := byte.toNat_lt
    have whole : byte.toNat / 16 * 16 + byte.toNat % 16 = byte.toNat := by omega
    rw [hexEncode, List.map_cons, List.map_cons, hexValue_hexDigit _ (by omega),
      hexValue_hexDigit _ (by omega)] at digits
    match text, digits with
    | [_], digits => simp at digits
    | high :: low :: text, digits =>
      simp only [List.map_cons, List.cons.injEq] at digits
      simp [hexDecodeString, digits.1, digits.2.1, ih digits.2.2, whole]

theorem hexDecode_of_digits (digits : text.map hexValue = (hexEncode bytes).map hexValue) :
    hexDecode text = .ok bytes := by
  rw [hexDecode, hexDecodeString_of_digits digits]

theorem hexDecodeString_hexEncode (bytes : Bytes) : hexDecodeString (hexEncode bytes) =
    (bytes, none) :=
  hexDecodeString_of_digits rfl

theorem hexDecode_hexEncode (bytes : Bytes) : hexDecode (hexEncode bytes) = .ok bytes :=
  hexDecode_of_digits rfl

theorem mem_hexEncode (member : char ∈ hexEncode bytes) : ∃ n < 16, char = hexDigit n := by
  induction bytes with
  | nil => cases member
  | cons byte rest ih =>
    have bound := byte.toNat_lt
    simp only [hexEncode, List.mem_cons] at member
    rcases member with rfl | rfl | later
    · exact ⟨_, by omega, rfl⟩
    · exact ⟨_, by omega, rfl⟩
    · exact ih later

theorem hexValue_sub_32 {n : Nat} (digit : n < 16) (letter : 57 < (hexDigit n).toNat) :
    hexValue (hexDigit n - 32) = hexValue (hexDigit n) := by
  revert n
  decide

/-! ### Letter case -/

def lowerCase (char : UInt8) : UInt8 :=
  if 65 ≤ char.toNat ∧ char.toNat ≤ 90 then char + 32 else char

private theorem toNat_add_32 (upper : char.toNat ≤ 90) : (char + 32).toNat = char.toNat + 32 := by
  rw [UInt8.toNat_add]
  exact Nat.mod_eq_of_lt (by simp; omega)

theorem hexValue_lowerCase (char : UInt8) : hexValue (lowerCase char) = hexValue char := by
  unfold lowerCase
  split
  next upper =>
    simp only [hexValue, toNat_add_32 upper.2]
    grind
  next => rfl

/-- A digit in lower case is the one that is written. -/
theorem lowerCase_of_hexValue {value : Nat} (digit : hexValue char = some value) :
    value < 16 ∧ lowerCase char = hexDigit value := by
  have back : UInt8.ofNat char.toNat = char := UInt8.ofNat_toNat
  simp only [hexValue] at digit
  split at digit
  next number =>
    cases digit
    refine ⟨by omega, ?_⟩
    rw [lowerCase, if_neg (by omega), hexDigit, if_pos (by omega), Nat.add_sub_cancel' number.1,
      back]
  next =>
    split at digit
    next lower =>
      cases digit
      refine ⟨by omega, ?_⟩
      rw [lowerCase, if_neg (by omega), hexDigit, if_neg (by omega),
        Nat.add_sub_cancel' (by omega), back]
    next =>
      split at digit
      next upper =>
        cases digit
        refine ⟨by omega, ?_⟩
        rw [lowerCase, if_pos (by omega), hexDigit, if_neg (by omega),
          show 87 + (char.toNat - 55) = char.toNat + 32 by omega, UInt8.ofNat_add, back]
        rfl
      next => cases digit

/-- How much of a text is decoded: whole pairs of the digits that it begins with. -/
def digitsRead (text : Bytes) : Nat :=
  (text.takeWhile fun char => (hexValue char).isSome).length / 2 * 2

theorem lowerCase_digitsRead (text : Bytes) :
    (text.take (digitsRead text)).map lowerCase = hexEncode (hexDecodeString text).1 := by
  fun_induction hexDecodeString text with
  | case1 => rfl
  | case2 last =>
    cases digit : hexValue last <;> simp [digitsRead, digit, hexEncode]
  | case3 high low rest h l highDigit lowDigit tail ih =>
    obtain ⟨hSmall, highLower⟩ := lowerCase_of_hexValue highDigit
    obtain ⟨lSmall, lowLower⟩ := lowerCase_of_hexValue lowDigit
    have whole : (UInt8.ofNat (h * 16 + l)).toNat = h * 16 + l := by
      rw [UInt8.toNat_ofNat']
      omega
    have two : digitsRead (high :: low :: rest) = digitsRead rest + 2 := by
      simp [digitsRead, highDigit, lowDigit]
      omega
    rw [two, List.take_succ_cons, List.take_succ_cons, List.map_cons, List.map_cons, highLower,
      lowLower, ih, hexEncode, whole, show (h * 16 + l) / 16 = h by omega,
      show (h * 16 + l) % 16 = l by omega]
  | case4 high low rest highBad => simp [digitsRead, highBad, hexEncode]
  | case5 high low rest h highDigit lowBad => simp [digitsRead, highDigit, lowBad, hexEncode]

theorem digitsRead_of_ok (fine : (hexDecodeString text).2 = none) :
    digitsRead text = text.length := by
  fun_induction hexDecodeString text with
  | case1 => rfl
  | case2 last => cases fine
  | case3 high low rest h l highDigit lowDigit tail ih =>
    have later := ih fine
    simp [digitsRead, highDigit, lowDigit] at later ⊢
    omega
  | case4 => cases fine
  | case5 => cases fine

theorem hexDecode_eq_ok_iff (text bytes : Bytes) :
    hexDecode text = .ok bytes ↔ text.map lowerCase = hexEncode bytes := by
  constructor
  · intro decoded
    unfold hexDecode at decoded
    split at decoded
    next found =>
      cases decoded
      have lower := lowerCase_digitsRead text
      rwa [digitsRead_of_ok (by rw [found]), List.take_length, found] at lower
    next => cases decoded
  · intro lower
    apply hexDecode_of_digits
    rw [← lower, List.map_map]
    exact List.map_congr_left fun char _ => (hexValue_lowerCase char).symm

end SchnorrMpc.Lib

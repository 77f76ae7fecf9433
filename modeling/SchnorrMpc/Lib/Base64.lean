import SchnorrMpc.Lib.Bytes

/-!
# Byte strings in JSON

A byte string is written as a string in base 64, a list of them as an array.
What is written is read back.
-/
namespace SchnorrMpc.Lib

/-- The digit of a number below 64. -/
def base64Digit (n : Nat) : UInt8 :=
  if n < 26 then .ofNat (65 + n)
  else if n < 52 then .ofNat (71 + n)
  else if n < 62 then .ofNat (n - 4)
  else if n = 62 then 43
  else 47

def base64Value (char : UInt8) : Nat :=
  let c := char.toNat
  if 97 ≤ c then c - 71
  else if 65 ≤ c then c - 65
  else if 48 ≤ c then c + 4
  else if c = 43 then 62
  else 63

/-- Four digits for three bytes; at the end `=` stands for what is missing. -/
def base64Encode : Bytes → Bytes
  | [] => []
  | [a] => [base64Digit (a.toNat / 4), base64Digit (a.toNat % 4 * 16), 61, 61]
  | [a, b] =>
    [base64Digit (a.toNat / 4), base64Digit (a.toNat % 4 * 16 + b.toNat / 16),
      base64Digit (b.toNat % 16 * 4), 61]
  | a :: b :: c :: rest =>
    base64Digit (a.toNat / 4) :: base64Digit (a.toNat % 4 * 16 + b.toNat / 16) ::
      base64Digit (b.toNat % 16 * 4 + c.toNat / 64) :: base64Digit (c.toNat % 64) ::
      base64Encode rest

def base64Decode : Bytes → Bytes
  | x :: y :: z :: w :: rest =>
    let first := UInt8.ofNat (base64Value x * 4 + base64Value y / 16)
    let second := UInt8.ofNat (base64Value y % 16 * 16 + base64Value z / 4)
    let third := UInt8.ofNat (base64Value z % 4 * 64 + base64Value w)
    if z = 61 then [first]
    else if w = 61 then [first, second]
    else first :: second :: third :: base64Decode rest
  | _ => []

theorem base64Value_digit : ∀ n < 64, base64Value (base64Digit n) = n := by decide

theorem base64Digit_plain : ∀ n < 64, base64Digit n ≠ 61 ∧ base64Digit n ≠ 44 := by decide

theorem base64Decode_encode (bytes : Bytes) : base64Decode (base64Encode bytes) = bytes := by
  have ofNat_eq (byte : UInt8) {n : Nat} (same : n = byte.toNat) : UInt8.ofNat n = byte := by
    rw [same, UInt8.ofNat_toNat]
  fun_induction base64Encode bytes with
  | case1 => rfl
  | case2 a =>
    have bound := a.toNat_lt
    simp only [base64Decode, if_true, base64Value_digit _ (show a.toNat / 4 < 64 by omega),
      base64Value_digit _ (show a.toNat % 4 * 16 < 64 by omega)]
    rw [ofNat_eq a (by omega)]
  | case3 a b =>
    have boundA := a.toNat_lt
    have boundB := b.toNat_lt
    have plain := (base64Digit_plain (b.toNat % 16 * 4) (by omega)).1
    simp only [base64Decode, if_true, if_neg plain,
      base64Value_digit _ (show a.toNat / 4 < 64 by omega),
      base64Value_digit _ (show a.toNat % 4 * 16 + b.toNat / 16 < 64 by omega),
      base64Value_digit _ (show b.toNat % 16 * 4 < 64 by omega)]
    rw [ofNat_eq a (by omega), ofNat_eq b (by omega)]
  | case4 a b c rest ih =>
    have boundA := a.toNat_lt
    have boundB := b.toNat_lt
    have boundC := c.toNat_lt
    have third := (base64Digit_plain (b.toNat % 16 * 4 + c.toNat / 64) (by omega)).1
    have fourth := (base64Digit_plain (c.toNat % 64) (by omega)).1
    simp only [base64Decode, if_neg third, if_neg fourth, ih,
      base64Value_digit _ (show a.toNat / 4 < 64 by omega),
      base64Value_digit _ (show a.toNat % 4 * 16 + b.toNat / 16 < 64 by omega),
      base64Value_digit _ (show b.toNat % 16 * 4 + c.toNat / 64 < 64 by omega),
      base64Value_digit _ (show c.toNat % 64 < 64 by omega)]
    rw [ofNat_eq a (by omega), ofNat_eq b (by omega),
      ofNat_eq c (by omega)]

theorem comma_not_mem_base64Encode (bytes : Bytes) : (44 : UInt8) ∉ base64Encode bytes := by
  have plain {n : Nat} (small : n < 64) : (44 : UInt8) ≠ base64Digit n :=
    (base64Digit_plain n small).2.symm
  fun_induction base64Encode bytes with
  | case1 => simp
  | case2 a =>
    have bound := a.toNat_lt
    simp [plain (show a.toNat / 4 < 64 by omega), plain (show a.toNat % 4 * 16 < 64 by omega)]
  | case3 a b =>
    have boundA := a.toNat_lt
    have boundB := b.toNat_lt
    simp [plain (show a.toNat / 4 < 64 by omega), plain (show b.toNat % 16 * 4 < 64 by omega),
      plain (show a.toNat % 4 * 16 + b.toNat / 16 < 64 by omega)]
  | case4 a b c rest ih =>
    have boundA := a.toNat_lt
    have boundB := b.toNat_lt
    have boundC := c.toNat_lt
    simp [ih, plain (show a.toNat / 4 < 64 by omega),
      plain (show a.toNat % 4 * 16 + b.toNat / 16 < 64 by omega),
      plain (show b.toNat % 16 * 4 + c.toNat / 64 < 64 by omega),
      plain (show c.toNat % 64 < 64 by omega)]

/-! ### Arrays -/

def jsonString (bytes : Bytes) : Bytes := 34 :: (base64Encode bytes ++ [34])

def jsonArray (items : List Bytes) : Bytes :=
  91 :: ([44].intercalate (items.map jsonString) ++ [93])

/-- The array of a text that `jsonArray` has written. -/
def readJsonArray (text : Bytes) : List Bytes :=
  if text = [91, 93] then []
  else ((text.drop 1).dropLast.splitOn 44).map (fun item => base64Decode (item.drop 1).dropLast)

theorem jsonArray_ne_nil (items : List Bytes) : (jsonArray items).length ≠ 0 := by
  simp [jsonArray]

theorem readJsonArray_jsonArray (items : List Bytes) : readJsonArray (jsonArray items) = items := by
  unfold readJsonArray
  cases items with
  | nil => rfl
  | cons item rest =>
    have long : jsonArray (item :: rest) ≠ [91, 93] := by
      cases rest <;> simp [jsonArray, jsonString]
    have inner : ((jsonArray (item :: rest)).drop 1).dropLast =
        [44].intercalate ((item :: rest).map jsonString) := by
      simp only [jsonArray, List.drop_succ_cons, List.drop_zero, List.dropLast_concat]
    have apart : ∀ text ∈ (item :: rest).map jsonString, (44 : UInt8) ∉ text := by
      intro text member
      obtain ⟨bytes, -, rfl⟩ := List.mem_map.mp member
      simp [jsonString, comma_not_mem_base64Encode]
    rw [if_neg long, inner, List.splitOn_intercalate 44 apart (by simp), List.map_map]
    conv_rhs => rw [← List.map_id (item :: rest)]
    refine List.map_congr_left fun bytes _ => ?_
    simp [jsonString, base64Decode_encode]

end SchnorrMpc.Lib

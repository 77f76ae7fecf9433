import SchnorrMpc.Properties.KeyFiles
import SchnorrMpc.Properties.KeyParsing

/-!
# Ciphertext key files in a scan

A scan reads the address of an encrypted key file off its name: the group key
stands between the last dash and the suffix. Names that do not have a key there
run past the end of a slice or are indexed under the zero address, since neither
error on the way is returned.
-/
namespace SchnorrMpc

open Lib

def keyFileNameWithPkString (timestamp pkString accType : Bytes) : Bytes :=
  utf8 "UTC--" ++ timestamp ++ utf8 "--" ++ accType ++ utf8 "--" ++ pkString

theorem keyPath_eq (ks : KeyStore) (timestamp encoded : Bytes) :
    ks.keyPath timestamp encoded = ks.keydir ++ utf8 "/" ++
      keyFileNameWithPkString timestamp (Hexutil.encode encoded) [] := by
  simp only [KeyStore.keyPath, keyFileNameWithPkString, Hexutil.encode, List.append_assoc,
    List.append_nil]

/-! ### The last dash -/

def dash : UInt8 := 45

theorem utf8_dash : utf8 "-" = [dash] := by decide

namespace KeyStore

private theorem find?_reverse_range {p : Nat → Bool} {i n : Nat} (below : i < n) (here : p i = true)
    (later : ∀ j, i < j → p j = false) : (List.range n).reverse.find? p = some i := by
  induction n with
  | zero => omega
  | succ n ih =>
    rw [List.range_succ, List.reverse_append, List.reverse_singleton, List.singleton_append,
      List.find?_cons]
    by_cases last : i = n
    · rw [← last, here]
    · rw [later n (by omega)]
      exact ih (by omega)

theorem lastIndex_eq_none {text : Bytes} (absent : dash ∉ text) :
    lastIndex text (utf8 "-") = none := by
  rw [lastIndex, utf8_dash, List.find?_eq_none]
  intro i _ here
  have slice : (text.drop i).take 1 = [dash] := by simpa using here
  have member : dash ∈ (text.drop i).take 1 := by simp [slice]
  exact absent (List.mem_of_mem_drop (List.mem_of_mem_take member))

theorem lastIndex_eq_some (front : Bytes) {back : Bytes} (absent : dash ∉ back) :
    lastIndex (front ++ dash :: back) (utf8 "-") = some front.length := by
  rw [lastIndex, utf8_dash]
  refine find?_reverse_range ?_ (by simp) fun j after => decide_eq_false fun here => ?_
  · rw [List.length_append, List.length_cons]
    omega
  · obtain ⟨k, rfl⟩ : ∃ k, j = front.length + (1 + k) := ⟨j - front.length - 1, by omega⟩
    rw [List.drop_append, List.drop_of_length_le (by omega), List.nil_append,
      Nat.add_sub_cancel_left, Nat.add_comm 1 k, List.drop_succ_cons] at here
    have member : dash ∈ (back.drop k).take [dash].length := by
      rw [here]
      exact List.mem_singleton_self _
    exact absent (List.mem_of_mem_drop (List.mem_of_mem_take member))

end KeyStore

theorem dash_cases (text : Bytes) :
    dash ∉ text ∨ ∃ front back, text = front ++ dash :: back ∧ dash ∉ back := by
  by_cases member : dash ∈ text
  · right
    obtain ⟨back, front, reversed, absent⟩ :=
      List.eq_append_cons_of_mem (List.mem_reverse.mpr member)
    refine ⟨front.reverse, back.reverse, ?_, by simpa using absent⟩
    rw [← text.reverse_reverse, reversed]
    simp
  · exact .inl member

/-! ### The address in a plain file -/

/-- The digits of an address text: without its mark, and with a zero in front of an odd number. -/
def addressDigits (text : Bytes) : Bytes :=
  let digits := if text.take 2 = utf8 "0x" ∨ text.take 2 = utf8 "0X" then text.drop 2 else text
  if digits.length % 2 = 1 then 48 :: digits else digits

/-- The text is at most one character, or the last forty of its digits are zeros. Only whole pairs
before the first character that is no digit count. -/
def NamesNobody (text : Bytes) : Prop :=
  text.length ≤ 1 ∨
    let read := (addressDigits text).take (digitsRead (addressDigits text))
    ∀ char ∈ read.drop (read.length - 40), char = 48

theorem hexEncode_drop (bytes : Bytes) (k : Nat) :
    hexEncode (bytes.drop k) = (hexEncode bytes).drop (2 * k) := by
  induction bytes generalizing k with
  | nil => simp [hexEncode]
  | cons byte rest ih =>
    cases k with
    | zero => rfl
    | succ k => rw [List.drop_succ_cons, ih, hexEncode, Nat.mul_succ]; rfl

theorem forall_hexEncode_iff (bytes : Bytes) :
    (∀ char ∈ hexEncode bytes, char = 48) ↔ ∀ byte ∈ bytes, byte = 0 := by
  have digit : ∀ n < 16, hexDigit n = 48 ↔ n = 0 := by decide
  induction bytes with
  | nil => simp [hexEncode]
  | cons byte rest ih =>
    have bound := byte.toNat_lt
    have zero : byte.toNat / 16 = 0 ∧ byte.toNat % 16 = 0 ↔ byte = 0 := by
      rw [← UInt8.toNat_inj]
      simp
      omega
    simp only [hexEncode, List.forall_mem_cons, digit _ (by omega : byte.toNat / 16 < 16),
      digit _ (by omega : byte.toNat % 16 < 16), ih, ← zero, and_assoc]

/-- What is read as the zero address, by its digits. -/
theorem hexToAddress_eq_zero_iff (text : Bytes) :
    KeyStore.hexToAddress text = zeroAddress ↔ NamesNobody text := by
  have zeros (bytes : Bytes) : List.replicate (20 - bytes.length) 0 ++
      bytes.drop (bytes.length - 20) = zeroAddress ↔ ∀ byte ∈ bytes.drop (bytes.length - 20),
        byte = 0 := by
    rw [zeroAddress, List.eq_replicate_iff, List.length_append, List.length_replicate,
      List.length_drop]
    simp only [List.mem_append, List.mem_replicate]
    constructor
    · exact fun all byte member => all.2 byte (.inr member)
    · exact fun all => ⟨by omega, fun byte member => member.elim (·.2) (all byte)⟩
  rw [KeyStore.hexToAddress, zeros, NamesNobody]
  by_cases long : text.length ≤ 1
  · simp [KeyStore.fromHex, long]
  · -- what is read, in lower case, is the encoding of the bytes
    have lower := lowerCase_digitsRead (addressDigits text)
    have decoded : KeyStore.fromHex text = (hexDecodeString (addressDigits text)).1 :=
      if_neg long
    rw [decoded, or_iff_right long]
    generalize (hexDecodeString (addressDigits text)).1 = bytes at *
    generalize (addressDigits text).take (digitsRead (addressDigits text)) = read at *
    have length : read.length = 2 * bytes.length := by
      rw [← length_hexEncode, ← lower, List.length_map]
    have same (char : UInt8) : lowerCase char = 48 ↔ char = 48 := Hexutil.lowerCase_eq_48_iff char
    rw [← forall_hexEncode_iff, hexEncode_drop, ← lower, ← List.map_drop,
      show 2 * (bytes.length - 20) = read.length - 40 by omega]
    simp only [List.forall_mem_map, same]

/-! ### Names with the suffix -/

/-- Between the last dash and the suffix is the text of a group key. -/
def CarriesKey (path : Bytes) (point : Int × Int) : Prop :=
  ∃ front field, path = front ++ dash :: field ++ KeyStore.cipherExt ∧ IsKeyText field point

/-- The account of a file is the one its name says, if the name is that of a ciphertext. -/
structure IndexedRight (kenv : KeyEnv) (ks : KeyStore) (path : Bytes) : Prop where
  inRange : ks.readAccount kenv path ≠ .panic
  own : ∀ (dir timestamp accType pkString : Bytes) (point : Int × Int), OnCurve point →
    pkToHexString (some point) = .ok pkString →
    path = dir ++ keyFileNameWithPkString timestamp pkString accType ++ KeyStore.cipherExt →
    ∃ address, pubkeyToAddress kenv.toEnv (some point) = .ok address ∧
      ks.readAccount kenv path = .ok (some ⟨address, path⟩)
  others : KeyStore.cipherExt <:+ path → (¬∃ point, CarriesKey path point) →
    ks.readAccount kenv path = .ok none

theorem KeyStore.stringtoPk_eq_some_iff (text : Bytes) (point : Int × Int) :
    KeyStore.stringtoPk text = some point ↔ IsKeyText text point := by
  have same : KeyStore.stringtoPk text = some point ↔
      SchnorrMpc.stringtoPk text = .ok (some point) := by
    have lower : utf8 "0x" = [48, 120] ∧ utf8 "0X" = [48, 88] := by decide
    match text with
    | [] => simp [stringtoPk, SchnorrMpc.stringtoPk, Hexutil.decode, lower]
    | [_] => simp [stringtoPk, SchnorrMpc.stringtoPk, Hexutil.decode, Hexutil.has0xPrefix, lower]
    | zero :: x :: rest =>
      have leads : ((zero :: x :: rest).take 2 = utf8 "0x" ∨
          (zero :: x :: rest).take 2 = utf8 "0X") ↔
          Hexutil.has0xPrefix (zero :: x :: rest) = true := by
        simp [Hexutil.has0xPrefix, lower, ← and_or_left]
      rw [KeyStore.stringtoPk, if_congr leads rfl rfl, SchnorrMpc.stringtoPk, Hexutil.decode,
        if_neg (by simp : ¬(zero :: x :: rest).length = 0), List.drop_succ_cons,
        List.drop_succ_cons, List.drop_zero]
      cases Hexutil.has0xPrefix (zero :: x :: rest) with
      | false => simp
      | true => cases hexDecode rest <;> simp
  rw [same, SchnorrMpc.stringtoPk_eq_some_iff]

namespace IsKeyText

variable {text : Bytes} {point : Int × Int}

theorem length (isKey : IsKeyText text point) : text.length = 132 := by
  obtain ⟨pub, encodes, written⟩ := isKey
  have lengths := congrArg List.length written
  rw [List.length_map] at lengths
  rw [lengths, Hexutil.encode, List.length_append, length_hexEncode, encodes.length]
  rfl

theorem dash_not_mem (isKey : IsKeyText text point) : dash ∉ text := by
  obtain ⟨pub, -, written⟩ := isKey
  intro member
  have lower : dash ∈ text.map lowerCase := List.mem_map.mpr ⟨dash, member, by decide⟩
  rw [written, Hexutil.encode, List.mem_append] at lower
  rcases lower with front | digit
  · exact absurd front (by decide)
  · obtain ⟨n, small, same⟩ := mem_hexEncode digit
    have value := hexValue_hexDigit n small
    rw [← same, show hexValue dash = none by decide] at value
    cases value

end IsKeyText

section

variable (kenv : KeyEnv) (ks : KeyStore)

private theorem readAccount_suffix (stem : Bytes) :
    ks.readAccount kenv (stem ++ KeyStore.cipherExt) =
      match KeyStore.lastIndex stem (utf8 "-") with
      | some addrBegin =>
        KeyStore.readCipherAccount kenv.toEnv (stem ++ KeyStore.cipherExt) addrBegin
      | none => .ok (ks.readPlainAccount kenv (stem ++ KeyStore.cipherExt)) := by
  have length : (stem ++ KeyStore.cipherExt).length - KeyStore.cipherExt.length = stem.length := by
    simp
  have ext : KeyStore.cipherExt.length = 7 := by decide
  have long : ¬(stem ++ KeyStore.cipherExt).length + 1 = KeyStore.cipherExt.length := by
    simp
    omega
  cases found : KeyStore.lastIndex stem (utf8 "-") with
  | none =>
    rw [KeyStore.readAccount, length, if_neg long, List.drop_left, if_pos rfl, List.take_left,
      found]
  | some addrBegin =>
    rw [KeyStore.readAccount, length, if_neg long, List.drop_left, if_pos rfl, List.take_left,
      found]

theorem readAccount_undashed {stem : Bytes} (absent : dash ∉ stem) :
    ks.readAccount kenv (stem ++ KeyStore.cipherExt) =
      .ok (ks.readPlainAccount kenv (stem ++ KeyStore.cipherExt)) := by
  rw [readAccount_suffix, KeyStore.lastIndex_eq_none absent]

theorem readAccount_dashed (front : Bytes) {field : Bytes} (absent : dash ∉ field) :
    ks.readAccount kenv (front ++ dash :: field ++ KeyStore.cipherExt) =
      KeyStore.readCipherAccount kenv.toEnv (front ++ dash :: field ++ KeyStore.cipherExt)
        front.length := by
  rw [readAccount_suffix, KeyStore.lastIndex_eq_some front absent]

theorem readAccount_of_carries {path : Bytes} {point : Int × Int}
    (carries : CarriesKey path point) : ∃ address, pubkeyToAddress kenv.toEnv (some point) =
      .ok address ∧ ks.readAccount kenv path = .ok (some ⟨address, path⟩) := by
  obtain ⟨front, field, rfl, isKey⟩ := carries
  have length := isKey.length
  have absent := isKey.dash_not_mem
  have read := (KeyStore.stringtoPk_eq_some_iff field point).mpr isKey
  have slice : ((front ++ dash :: field ++ KeyStore.cipherExt).drop (front.length + 1)).take 132 =
      field := by
    rw [List.append_assoc, ← List.drop_drop, List.drop_left, List.cons_append, List.drop_succ_cons,
      List.drop_zero, ← length, List.take_left]
  obtain ⟨pub, encodes, -⟩ := isKey
  obtain ⟨address, isAddress, returned⟩ := pkToAddress_of_encodes kenv.toEnv encodes
  refine ⟨address, isAddress, ?_⟩
  rw [readAccount_dashed kenv ks front absent, KeyStore.readCipherAccount,
    if_neg (by simp; omega), slice, read, encodes.fromECDSAPub, Outcome.ok_bind, returned]
  rfl

/-- A name that a scan takes apart without running past its end: it is not one byte shorter than the
suffix, and behind the last dash before a suffix are as many bytes as the text of a key has. -/
def Scannable (path : Bytes) : Prop :=
  path.length + 1 ≠ KeyStore.cipherExt.length ∧ ∀ front field,
    path = front ++ dash :: field ++ KeyStore.cipherExt → dash ∉ field →
      132 ≤ (field ++ KeyStore.cipherExt).length

theorem readCipherAccount_cases (front field : Bytes) :
    let path := front ++ dash :: field ++ KeyStore.cipherExt
    (132 ≤ (field ++ KeyStore.cipherExt).length ∧
        ∃ account, KeyStore.readCipherAccount kenv.toEnv path front.length = .ok account) ∨
      ((field ++ KeyStore.cipherExt).length < 132 ∧
        KeyStore.readCipherAccount kenv.toEnv path front.length = .panic) := by
  intro path
  have length : path.length = front.length + 1 + (field ++ KeyStore.cipherExt).length := by
    simp [path]
    omega
  rw [KeyStore.readCipherAccount]
  by_cases short : path.length < front.length + 133
  · exact .inr ⟨by omega, if_pos short⟩
  · refine .inl ⟨by omega, ?_⟩
    rw [if_neg short]
    cases read : KeyStore.stringtoPk ((path.drop (front.length + 1)).take 132) with
    | none => exact ⟨_, rfl⟩
    | some point =>
      obtain ⟨pub, encodes, -⟩ := (KeyStore.stringtoPk_eq_some_iff _ point).mp read
      obtain ⟨address, -, returned⟩ := pkToAddress_of_encodes kenv.toEnv encodes
      exact ⟨_, by rw [encodes.fromECDSAPub, Outcome.ok_bind, returned]; rfl⟩

theorem readAccount_cases (path : Bytes) :
    (Scannable path ∧ ∃ account, ks.readAccount kenv path = .ok account) ∨
      (¬Scannable path ∧ ks.readAccount kenv path = .panic) := by
  by_cases short : path.length + 1 = KeyStore.cipherExt.length
  · exact .inr ⟨fun scannable => scannable.1 short, if_pos short⟩
  by_cases suffix : KeyStore.cipherExt <:+ path
  · obtain ⟨stem, rfl⟩ := suffix
    rcases dash_cases stem with absent | ⟨front, field, rfl, absent⟩
    · refine .inl ⟨⟨short, ?_⟩, _, readAccount_undashed kenv ks absent⟩
      intro front field same
      rw [List.append_cancel_right same] at absent
      simp at absent
    · rw [readAccount_dashed kenv ks front absent]
      rcases readCipherAccount_cases kenv front field with ⟨room, read⟩ | ⟨early, panics⟩
      · refine .inl ⟨⟨short, ?_⟩, read⟩
        intro front' field' same absent'
        -- the last dash of a text is at one place only
        have cut := List.append_cancel_right same
        have place := KeyStore.lastIndex_eq_some front absent
        rw [cut, KeyStore.lastIndex_eq_some front' absent'] at place
        have fields := List.append_inj_right cut (Option.some.inj place).symm
        rwa [← (List.cons.inj fields).2]
      · exact .inr ⟨fun scannable => by have := scannable.2 front field rfl absent; omega, panics⟩
  · have other : path.drop (path.length - KeyStore.cipherExt.length) ≠ KeyStore.cipherExt :=
      fun same => suffix (same ▸ List.drop_suffix _ _)
    refine .inl ⟨⟨short, ?_⟩, _, by rw [KeyStore.readAccount, if_neg short, if_neg other]⟩
    rintro front field rfl
    exact absurd (List.suffix_append _ _) suffix

theorem readAccount_ne_none (front : Bytes) {field : Bytes} (absent : dash ∉ field) :
    ks.readAccount kenv (front ++ dash :: field ++ KeyStore.cipherExt) ≠ .ok none := by
  rw [readAccount_dashed kenv ks front absent, KeyStore.readCipherAccount]
  split
  · simp
  · intro returned
    obtain ⟨encoded, -, found⟩ := (Outcome.bind_eq_ok_iff ..).mp returned
    split at found <;> cases found

end

theorem readPlainAccount_eq_none_iff (kenv : KeyEnv) (ks : KeyStore) (path : Bytes) :
    ks.readPlainAccount kenv path = none ↔ ∀ content, ks.files.lookup path = some content →
      ∀ text, kenv.unmarshalAddress content = some text → NamesNobody text := by
  unfold KeyStore.readPlainAccount
  cases ks.files.lookup path with
  | none => simp
  | some content =>
    simp only [Option.some.injEq, forall_eq']
    cases kenv.unmarshalAddress content <;> simp [hexToAddress_eq_zero_iff]

/-- A file is indexed as its name says exactly if its path is not one byte shorter than the suffix
and, when it has the suffix, has a key there or is a file without a dash whose text is no record or
names nobody. -/
theorem indexedRight_iff (kenv : KeyEnv) (ks : KeyStore) (path : Bytes) :
    IndexedRight kenv ks path ↔ path.length + 1 ≠ KeyStore.cipherExt.length ∧
      ∀ stem, path = stem ++ KeyStore.cipherExt → (∃ point, CarriesKey path point) ∨
        dash ∉ stem ∧ ∀ content, ks.files.lookup path = some content →
          ∀ text, kenv.unmarshalAddress content = some text → NamesNobody text := by
  rw [← readPlainAccount_eq_none_iff]
  constructor
  · intro right
    refine ⟨fun short => right.inRange (if_pos short), ?_⟩
    rintro stem rfl
    by_contra neither
    rw [not_or] at neither
    have read := right.others ⟨stem, rfl⟩ neither.1
    rcases dash_cases stem with absent | ⟨front, field, rfl, absent⟩
    · rw [readAccount_undashed kenv ks absent, Outcome.ok.injEq] at read
      exact neither.2 ⟨absent, read⟩
    · exact readAccount_ne_none kenv ks front absent read
  · rintro ⟨long, named⟩
    refine ⟨?_, ?_, ?_⟩
    · rcases readAccount_cases kenv ks path with ⟨-, account, read⟩ | ⟨bad, panics⟩
      · simp [read]
      · refine absurd ⟨long, ?_⟩ bad
        rintro front field rfl -
        rcases named _ rfl with ⟨point, carries⟩ | ⟨absent, -⟩
        · obtain ⟨address, -, read⟩ := readAccount_of_carries kenv ks carries
          rw [read] at panics
          cases panics
        · simp at absent
    · rintro dir timestamp accType pkString point onCurve text rfl
      apply readAccount_of_carries
      -- the key stands behind the second of the two dashes before it
      refine ⟨dir ++ (utf8 "UTC--" ++ timestamp ++ utf8 "--" ++ accType ++ utf8 "-"), pkString, ?_,
        isKeyText_of_pkToHexString onCurve text⟩
      have dashes : utf8 "--" = utf8 "-" ++ [dash] := by decide
      simp only [keyFileNameWithPkString, List.append_assoc, dashes, List.singleton_append]
    · rintro ⟨stem, rfl⟩ unread
      rcases named stem rfl with carries | ⟨absent, noPlain⟩
      · exact absurd carries unread
      · rw [readAccount_undashed kenv ks absent, noPlain]

open KeyFileSample in
/-- Three files without a key in their names: a path of six bytes, a name that is too short, and one
that is indexed under the zero address. -/
theorem unnamed_files_misread :
    let ks := (server 3).keyStore
    let long := utf8 "/keys/UTC-" ++ List.replicate 132 (120 : UInt8) ++ KeyStore.cipherExt
    ks.readAccount env (utf8 "/k/abc") = .panic ∧
      ks.readAccount env (utf8 "/keys/old-key-cipher") = .panic ∧
      ks.readAccount env long = .ok (some ⟨zeroAddress, long⟩) := by
  refine ⟨?_, ?_, ?_⟩ <;> decide +kernel

end SchnorrMpc

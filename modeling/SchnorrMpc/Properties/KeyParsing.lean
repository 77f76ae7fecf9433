import SchnorrMpc.Crypto.Reference
import SchnorrMpc.Schnorr.KeyText

/-!
# Parsing of group keys

Text and bytes that encode a point are read as that point. Decoding reports bytes
without a point by a nil key, which neither function looks at: one returns it
without an error, the other follows it.
-/
namespace SchnorrMpc

open Lib

/-- The text of the encoding of a point, in any case of letters. -/
def IsKeyText (text : Bytes) (point : Int × Int) : Prop :=
  ∃ pub, EncodesPoint pub point ∧ text.map lowerCase = Hexutil.encode pub

/-- What `StringtoPk` should do with a text. -/
structure StringParsed (text : Bytes) : Prop where
  accepts : ∀ point, stringtoPk text = .ok (some point) ↔ IsKeyText text point
  writes : ∀ point, stringtoPk text = .ok (some point) →
    pkToHexString (some point) = .ok (text.map lowerCase)
  refuses : (¬∃ point, IsKeyText text point) → ∃ error, stringtoPk text = .err error

/-- What `PkToAddress` should do with bytes. -/
structure AddressParsed (env : Env) (pkBytes : Bytes) : Prop where
  accepts : (∃ address, pkToAddress env pkBytes = .ok address) ↔ ∃ point, EncodesPoint pkBytes point
  address : ∀ point, EncodesPoint pkBytes point → ∃ address,
    pubkeyToAddress env (some point) = .ok address ∧ pkToAddress env pkBytes = .ok address
  refuses : (¬∃ point, EncodesPoint pkBytes point) → ∃ error, pkToAddress env pkBytes = .err error

/-! ### Text -/

theorem stringtoPk_eq_some_iff (text : Bytes) (point : Int × Int) :
    stringtoPk text = .ok (some point) ↔ IsKeyText text point := by
  simp only [stringtoPk, Outcome.bind_eq_ok_iff, Hexutil.decode_eq_ok_iff, Outcome.pure_eq,
    Outcome.ok.injEq, toECDSAPub_eq_some_iff, IsKeyText]
  exact exists_congr fun pub => and_comm

theorem isKeyText_of_pkToHexString {text : Bytes} {point : Int × Int} (onCurve : OnCurve point)
    (written : pkToHexString (some point) = .ok text) : IsKeyText text point := by
  obtain ⟨pub, encoded, -, decoded⟩ := toECDSAPub_fromECDSAPub onCurve
  rw [pkToHexString, encoded] at written
  cases written
  exact ⟨pub, (toECDSAPub_eq_some_iff pub point).mp decoded, Hexutil.lowerCase_encode pub⟩

theorem pkToHexString_of_stringtoPk {text : Bytes} {point : Int × Int}
    (read : stringtoPk text = .ok (some point)) :
    pkToHexString (some point) = .ok (text.map lowerCase) := by
  obtain ⟨pub, encodes, written⟩ := (stringtoPk_eq_some_iff text point).mp read
  rw [pkToHexString, encodes.fromECDSAPub, written]
  rfl

theorem stringParsed_iff (text : Bytes) : StringParsed text ↔
    ∀ pub, Hexutil.decode text = .ok pub → ∃ point, EncodesPoint pub point := by
  constructor
  · rintro parsed pub decoded
    by_contra noPoint
    -- a nil key without an error
    have unread : ¬∃ point, IsKeyText text point := by
      rintro ⟨point, encoding, encodes, written⟩
      rw [← Hexutil.decode_eq_ok_iff, decoded] at written
      cases written
      exact noPoint ⟨point, encodes⟩
    obtain ⟨error, failed⟩ := parsed.refuses unread
    rw [stringtoPk, decoded] at failed
    cases failed
  · intro points
    refine ⟨stringtoPk_eq_some_iff text, fun point => pkToHexString_of_stringtoPk, fun unread => ?_⟩
    cases decoded : Hexutil.decode text with
    | ok pub =>
      obtain ⟨point, encodes⟩ := points pub decoded
      exact absurd ⟨point, pub, encodes, (Hexutil.decode_eq_ok_iff text pub).mp decoded⟩ unread
    | err error => exact ⟨error, by rw [stringtoPk, decoded]; rfl⟩
    | panic => exact absurd decoded (Hexutil.decode_ne_panic text)

/-! ### Bytes -/

theorem pkToAddress_of_encodes (env : Env) {pkBytes : Bytes} {point : Int × Int}
    (encodes : EncodesPoint pkBytes point) : ∃ address,
      pubkeyToAddress env (some point) = .ok address ∧ pkToAddress env pkBytes = .ok address := by
  have address : pubkeyToAddress env (some point) =
      .ok ((env.keccak256 (pkBytes.drop 1)).val.drop 12) := by
    rw [pubkeyToAddress, encodes.fromECDSAPub, Outcome.ok_bind,
      if_neg (by rw [encodes.length]; decide)]
  refine ⟨_, address, ?_⟩
  rw [pkToAddress, if_neg (not_not.mpr encodes.length),
    (toECDSAPub_eq_some_iff pkBytes point).mpr encodes]
  exact address

theorem addressParsed_iff (env : Env) (pkBytes : Bytes) : AddressParsed env pkBytes ↔
    (pkBytes.length = pkLength → ∃ point, EncodesPoint pkBytes point) := by
  constructor
  · intro parsed length
    by_contra noPoint
    obtain ⟨error, failed⟩ := parsed.refuses noPoint
    have undecoded : toECDSAPub pkBytes = none := by
      cases decoded : toECDSAPub pkBytes with
      | none => rfl
      | some point => exact absurd ⟨point, (toECDSAPub_eq_some_iff _ _).mp decoded⟩ noPoint
    rw [pkToAddress, if_neg (not_not.mpr length), undecoded] at failed
    cases failed
  · intro points
    have refused (noPoint : ¬∃ point, EncodesPoint pkBytes point) :
        pkToAddress env pkBytes = .err (.new (utf8 "invalid pk address")) :=
      if_pos fun length => noPoint (points length)
    refine ⟨⟨fun ⟨address, returned⟩ => ?_, fun ⟨point, encodes⟩ => ?_⟩,
      fun point => pkToAddress_of_encodes env, fun noPoint => ⟨_, refused noPoint⟩⟩
    · by_contra noPoint
      rw [refused noPoint] at returned
      cases returned
    · obtain ⟨address, -, returned⟩ := pkToAddress_of_encodes env encodes
      exact ⟨address, returned⟩

/-- Group keys are parsed as they should exactly if text with hexadecimal digits, and bytes of the
length of a key, are encodings of points. -/
theorem key_parsing_iff (env : Env) (text pkBytes : Bytes) :
    (StringParsed text ↔
      ∀ pub, Hexutil.decode text = .ok pub → ∃ point, EncodesPoint pub point) ∧
    (AddressParsed env pkBytes ↔
      (pkBytes.length = pkLength → ∃ point, EncodesPoint pkBytes point)) :=
  ⟨stringParsed_iff text, addressParsed_iff env pkBytes⟩

namespace ParsingSample

def env : Env where
  curve := BitCurve.curve Reference.ecmult
  sha256 _ := word 0
  keccak256 _ := word 0

end ParsingSample

/-- A prefix without digits is a nil key without an error, and bytes off the curve end the
process. -/
theorem offCurve_key_unreported : stringtoPk (utf8 "0x") = .ok none ∧
    pkToAddress ParsingSample.env (4 :: List.replicate 64 0) = .panic := by
  decide +kernel

end SchnorrMpc

import SchnorrMpc.Lib.Bytes

/-!
# Recursive length prefixes

A value is a byte string or a list of values. It is written as a header, which says the kind and
the length of what follows, and its content; one byte below `0x80` is written as itself. Only the
shortest header of a length and the shortest form of an integer are canonical.
-/
namespace SchnorrMpc.Lib.Rlp

/-- The header of a content of `size` bytes. -/
def header (small large size : Nat) : Bytes :=
  if size < 56 then [UInt8.ofNat (small + size)]
  else UInt8.ofNat (large + byteLen size) :: natBytes size

/-- A byte that is its own encoding. -/
def IsSingle (bytes : Bytes) : Prop := ∃ byte, bytes = [byte] ∧ byte.toNat < 0x80

instance (bytes : Bytes) : Decidable (IsSingle bytes) :=
  match bytes with
  | [] => .isFalse (by rintro ⟨_, impossible, -⟩; cases impossible)
  | [byte] => decidable_of_iff (byte.toNat < 0x80)
      ⟨fun small => ⟨byte, rfl, small⟩, by rintro ⟨_, same, small⟩; cases same; exact small⟩
  | _ :: _ :: _ => .isFalse (by rintro ⟨_, impossible, -⟩; cases impossible)

def string (bytes : Bytes) : Bytes :=
  if IsSingle bytes then bytes else header 0x80 0xB7 bytes.length ++ bytes

def integer (n : Nat) : Bytes := string (natBytes n)

def list (content : Bytes) : Bytes := header 0xC0 0xF7 content.length ++ content

theorem isSingle_natBytes_iff {n : Nat} : IsSingle (natBytes n) ↔ 0 < n ∧ n < 0x80 := by
  constructor
  · rintro ⟨byte, spelled, low⟩
    have value := beNat_natBytes n
    rw [spelled] at value
    simp only [beNat, List.foldl_cons, List.foldl_nil, Nat.zero_mul, Nat.zero_add] at value
    rw [← value] at spelled ⊢
    refine ⟨Nat.pos_of_ne_zero fun zero => ?_, low⟩
    rw [zero] at spelled
    cases spelled
  · rintro ⟨positive, small⟩
    have one : byteLen n = 0 + 1 := byteLen_eq positive (by omega)
    refine ⟨UInt8.ofNat n, ?_, ?_⟩
    · rw [natBytes, one, bePad, bePad, List.nil_append]
    · rw [UInt8.toNat_ofNat']
      omega

theorem natBytes_of_small {n : Nat} (positive : 0 < n) (small : n < 0x80) :
    natBytes n = [UInt8.ofNat n] := by
  obtain ⟨byte, spelled, -⟩ := isSingle_natBytes_iff.mpr ⟨positive, small⟩
  have value := beNat_natBytes n
  rw [spelled] at value ⊢
  simp only [beNat, List.foldl_cons, List.foldl_nil, Nat.zero_mul, Nat.zero_add] at value
  rw [← value, UInt8.ofNat_toNat]

theorem string_ne_nil (bytes : Bytes) : string bytes ≠ [] := by
  unfold string header
  split
  next single =>
    obtain ⟨byte, rfl, -⟩ := single
    simp
  · split <;> simp

end SchnorrMpc.Lib.Rlp

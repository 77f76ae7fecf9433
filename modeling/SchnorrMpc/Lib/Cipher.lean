import SchnorrMpc.Lib.Bytes

/-!
# Stream ciphers

A stream cipher combines a text with its key stream, byte by byte, and goes on
where it has stopped. Doing so twice from the same place gives the text back.
-/
namespace SchnorrMpc.Lib

/-- A block of 16 bytes. -/
abbrev Bytes16 := { bytes : Bytes // bytes.length = 16 }

def block (n : Nat) : Bytes16 := ⟨bePad 16 n, length_bePad 16 n⟩

/-- The sizes of keys that AES takes. -/
def IsAesKey (key : Bytes) : Prop := key.length = 16 ∨ key.length = 24 ∨ key.length = 32

instance (key : Bytes) : Decidable (IsAesKey key) := inferInstanceAs (Decidable (_ ∨ _ ∨ _))

/-- The text combined with the key stream from a place on. -/
def xorKeyStream (key : Nat → UInt8) (place : Nat) : Bytes → Bytes
  | [] => []
  | byte :: text => (byte ^^^ key place) :: xorKeyStream key (place + 1) text

/-- Two texts of one length, byte by byte. -/
def xorBytes (one other : Bytes) : Bytes := List.zipWith (· ^^^ ·) one other

variable {key : Nat → UInt8} {place : Nat} {text : Bytes}

@[simp] theorem length_xorKeyStream : (xorKeyStream key place text).length = text.length := by
  induction text generalizing place with
  | nil => rfl
  | cons byte text ih => rw [xorKeyStream, List.length_cons, ih, List.length_cons]

@[simp] theorem xorKeyStream_twice :
    xorKeyStream key place (xorKeyStream key place text) = text := by
  induction text generalizing place with
  | nil => rfl
  | cons byte text ih =>
    rw [xorKeyStream, xorKeyStream, ih, UInt8.xor_assoc, UInt8.xor_self, UInt8.xor_zero]

end SchnorrMpc.Lib

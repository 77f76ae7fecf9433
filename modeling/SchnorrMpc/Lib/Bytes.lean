import SchnorrMpc.Lib.Outcome
import Mathlib.Algebra.Order.Ring.Nat
import Mathlib.Tactic.Ring

/-! Big-endian encodings of natural numbers, and copying between byte slices. -/
namespace SchnorrMpc.Lib

variable {width n off : Nat} {ε : Type}

abbrev Bytes := List UInt8

instance : LawfulBEq Bytes := inferInstance

/-- A digest or another value that is 32 bytes long by its type. -/
abbrev Bytes32 := { bytes : Bytes // bytes.length = 32 }

/-- The number that a byte string spells, most significant byte first. -/
def beNat (bytes : Bytes) : Nat :=
  bytes.foldl (fun acc byte => acc * 256 + byte.toNat) 0

/-- The `width` low bytes of a number, most significant first. -/
def bePad : Nat → Nat → Bytes
  | 0, _ => []
  | width + 1, n => bePad width (n / 256) ++ [UInt8.ofNat n]

/-- The number of bytes a number needs; zero needs none. -/
def byteLen (n : Nat) : Nat :=
  if n = 0 then 0 else Nat.log2 n / 8 + 1

/-- The shortest big-endian encoding. -/
def natBytes (n : Nat) : Bytes := bePad (byteLen n) n

@[simp] theorem beNat_nil : beNat [] = 0 := rfl

theorem beNat_append_singleton (bytes : Bytes) (byte : UInt8) :
    beNat (bytes ++ [byte]) = beNat bytes * 256 + byte.toNat := by
  simp [beNat]

@[simp] theorem length_bePad (width n : Nat) : (bePad width n).length = width := by
  induction width generalizing n with
  | zero => rfl
  | succ width ih => simp [bePad, ih]

/-- A number as a word of 32 bytes. -/
def word (n : Nat) : Bytes32 := ⟨bePad 32 n, length_bePad 32 n⟩

theorem beNat_bePad (width n : Nat) : beNat (bePad width n) = n % 256 ^ width := by
  induction width generalizing n with
  | zero => simp [bePad, Nat.mod_one]
  | succ width ih =>
    rw [bePad, beNat_append_singleton, ih, pow_succ', Nat.mod_mul]
    simp only [UInt8.toNat_ofNat']
    omega

theorem beNat_bePad_of_lt (fits : n < 256 ^ width) : beNat (bePad width n) = n := by
  rw [beNat_bePad, Nat.mod_eq_of_lt fits]

theorem beNat_lt (bytes : Bytes) : beNat bytes < 256 ^ bytes.length := by
  induction bytes using List.reverseRecOn with
  | nil => simp
  | append_singleton bytes byte ih =>
    have bound := byte.toNat_lt
    rw [beNat_append_singleton, List.length_append, List.length_singleton, pow_succ]
    omega

theorem beNat_val_lt (digest : Bytes32) : beNat digest.val < 256 ^ 32 := by
  have bound := beNat_lt digest.val
  rwa [digest.property] at bound

theorem bePad_beNat (bytes : Bytes) : bePad bytes.length (beNat bytes) = bytes := by
  induction bytes using List.reverseRecOn with
  | nil => rfl
  | append_singleton bytes byte ih =>
    have bound := byte.toNat_lt
    have high : (beNat bytes * 256 + byte.toNat) / 256 = beNat bytes := by omega
    have low : UInt8.ofNat (beNat bytes * 256 + byte.toNat) = byte := by
      apply UInt8.toNat_inj.mp
      simp only [UInt8.toNat_ofNat']
      omega
    rw [beNat_append_singleton, List.length_append, List.length_singleton, bePad, high, ih, low]

theorem eq_of_beNat_eq {left right : Bytes} (length : left.length = right.length)
    (same : beNat left = beNat right) : left = right := by
  rw [← bePad_beNat left, ← bePad_beNat right, length, same]

theorem lt_pow_byteLen (n : Nat) : n < 256 ^ byteLen n := by
  unfold byteLen
  split
  next zero => simp [zero]
  next nonzero =>
    have below : n < 2 ^ (Nat.log2 n + 1) := Nat.lt_log2_self
    rw [show (256 : Nat) = 2 ^ 8 from rfl, ← pow_mul]
    exact below.trans_le (Nat.pow_le_pow_right (by decide) (by omega))

theorem byteLen_le (fits : n < 256 ^ width) : byteLen n ≤ width := by
  unfold byteLen
  split
  · exact Nat.zero_le _
  next nonzero =>
    have below : 2 ^ Nat.log2 n ≤ n := Nat.log2_self_le nonzero
    have exponent : Nat.log2 n < 8 * width := by
      rw [show (256 : Nat) = 2 ^ 8 from rfl, ← pow_mul] at fits
      exact (Nat.pow_lt_pow_iff_right (by decide)).mp (below.trans_lt fits)
    omega

@[simp] theorem beNat_natBytes (n : Nat) : beNat (natBytes n) = n :=
  beNat_bePad_of_lt (lt_pow_byteLen n)

@[simp] theorem length_natBytes (n : Nat) : (natBytes n).length = byteLen n :=
  length_bePad _ _

theorem lt_byteLen_iff : width < byteLen n ↔ 256 ^ width ≤ n := by
  constructor
  · intro longer
    by_contra fits
    exact absurd (byteLen_le (not_le.mp fits)) (not_le.mpr longer)
  · intro least
    exact (Nat.pow_lt_pow_iff_right (by decide)).mp (least.trans_lt (lt_pow_byteLen n))

theorem byteLen_pos_iff : 0 < byteLen n ↔ 0 < n :=
  lt_byteLen_iff

theorem byteLen_eq (least : 256 ^ width ≤ n) (fits : n < 256 ^ (width + 1)) :
    byteLen n = width + 1 :=
  le_antisymm (byteLen_le fits) (lt_byteLen_iff.mpr least)

theorem natBytes_beNat {byte : UInt8} {bytes : Bytes} (leading : byte ≠ 0) :
    natBytes (beNat (byte :: bytes)) = byte :: bytes := by
  have positive : 0 < byte.toNat := by
    rw [Nat.pos_iff_ne_zero, Ne, ← UInt8.toNat_zero, UInt8.toNat_inj]
    exact leading
  have least : 256 ^ bytes.length ≤ beNat (byte :: bytes) := by
    clear leading
    induction bytes using List.reverseRecOn with
    | nil => simpa [beNat] using Nat.succ_le_of_lt positive
    | append_singleton bytes last ih =>
      rw [← List.cons_append, beNat_append_singleton, List.length_append, List.length_singleton,
        pow_succ]
      omega
  have width : byteLen (beNat (byte :: bytes)) = (byte :: bytes).length :=
    byteLen_eq least (beNat_lt (byte :: bytes))
  rw [natBytes, width, bePad_beNat]

theorem natBytes_eq_cons (positive : 0 < n) :
    ∃ byte bytes, natBytes n = byte :: bytes ∧ byte ≠ 0 := by
  cases spelled : natBytes n with
  | nil =>
    have length := congrArg List.length spelled
    rw [length_natBytes, List.length_nil] at length
    have := byteLen_pos_iff.mpr positive
    omega
  | cons byte bytes =>
    refine ⟨byte, bytes, rfl, ?_⟩
    rintro rfl
    -- a leading zero would leave a shorter encoding
    have value : beNat bytes = n := by
      rw [← beNat_natBytes n, spelled]
      simp [beNat]
    have length := congrArg List.length spelled
    rw [length_natBytes, List.length_cons] at length
    have short := byteLen_le (value ▸ beNat_lt bytes)
    omega

theorem drop_bePad (extra width n : Nat) : (bePad (extra + width) n).drop extra =
    bePad width n := by
  induction width generalizing n with
  | zero => simp [bePad]
  | succ width ih =>
    rw [← Nat.add_assoc, bePad, List.drop_append_of_le_length (by simp), ih, bePad]

theorem replicate_append_bePad (extra width n : Nat) (fits : n < 256 ^ width) :
    List.replicate extra 0 ++ bePad width n = bePad (extra + width) n := by
  have prepend : beNat (List.replicate extra (0 : UInt8)) = 0 := by
    induction extra with
    | zero => rfl
    | succ extra ih => rw [List.replicate_succ', beNat_append_singleton, ih]; rfl
  induction width generalizing n with
  | zero =>
    have zero : n = 0 := by simpa using fits
    subst zero
    apply eq_of_beNat_eq
    · simp [bePad]
    · simp [bePad, prepend, beNat_bePad]
  | succ width ih =>
    rw [bePad, ← List.append_assoc, ih (n / 256) (by rw [pow_succ] at fits; omega),
      ← Nat.add_assoc, bePad]

/-! ### Slices -/

/-- `copy(dst[off:], src)`: a start outside of `dst` panics, and what does not fit is dropped. -/
def copyAt {ε : Type} (dst : Bytes) (off : Int) (src : Bytes) : Outcome ε Bytes :=
  if off < 0 ∨ (dst.length : Int) < off then .panic
  else .ok (dst.take off.toNat ++ src.take (dst.length - off.toNat)
    ++ dst.drop (off.toNat + src.length))

theorem copyAt_ok {dst : Bytes} (inside : off ≤ dst.length) (src : Bytes) :
    (copyAt dst off src : Outcome ε Bytes) = .ok (dst.take off ++ src.take (dst.length - off)
      ++ dst.drop (off + src.length)) := by
  simp [copyAt, inside]

theorem length_copyAt {dst src result : Bytes} {off : Int}
    (copied : (copyAt dst off src : Outcome ε Bytes) = .ok result) :
    result.length = dst.length := by
  unfold copyAt at copied
  split at copied
  · cases copied
  · cases copied
    simp only [List.length_append, List.length_take, List.length_drop]
    omega

theorem copyAt_panic {dst : Bytes} (outside : dst.length < off) (src : Bytes) :
    (copyAt dst off src : Outcome ε Bytes) = .panic := by
  simp [copyAt, outside]

end SchnorrMpc.Lib

import Mathlib.Data.Nat.Digits.Lemmas
import SchnorrMpc.Lib.Hex

/-!
# Internet addresses as text

An address has 128 bits; those of the old kind are mapped into them. The texts
are those of the Go library: dotted decimal numbers, hexadecimal groups with
colons, and a host with a port behind a colon.
-/
namespace SchnorrMpc.Lib

variable {n : Nat} {char : UInt8}

/-! ### Numerals -/

/-- A number without leading zeros. -/
def numeral (base n : Nat) : Bytes :=
  if n = 0 then [48] else (Nat.digits base n).reverse.map hexDigit

/-- The number of a text of decimal digits, as `ParseUint` reads it. -/
def decimalValue (text : Bytes) : Option Nat :=
  if text = [] ∨ ∃ char ∈ text, char.toNat < 48 ∨ 57 < char.toNat then none
  else some (text.foldl (fun value char => 10 * value + (char.toNat - 48)) 0)

theorem numeral_ne_nil (base n : Nat) : numeral base n ≠ [] := by
  unfold numeral
  split
  · simp
  next nonzero => simpa [Nat.digits_ne_nil_iff_ne_zero] using nonzero

theorem mem_numeral {base : Nat} (isBase : 1 < base) (member : char ∈ numeral base n) :
    ∃ digit < base, char = hexDigit digit := by
  unfold numeral at member
  split at member
  · exact ⟨0, by omega, List.mem_singleton.mp member⟩
  · obtain ⟨digit, isDigit, rfl⟩ := List.mem_map.mp member
    exact ⟨digit, Nat.digits_lt_base isBase (List.mem_reverse.mp isDigit), rfl⟩

theorem toNat_hexDigit : ∀ digit < 10, (hexDigit digit).toNat = 48 + digit := by decide

theorem numeral_leads (n : Nat) :
    (numeral 10 n).length = 1 ∨ (numeral 10 n).head? ≠ some 48 := by
  unfold numeral
  split
  · exact .inl rfl
  next nonzero =>
    have nonempty : Nat.digits 10 n ≠ [] := Nat.digits_ne_nil_iff_ne_zero.mpr nonzero
    have last := Nat.getLast_digit_ne_zero 10 nonzero
    have small := Nat.digits_lt_base (by decide : 1 < 10) (List.getLast_mem nonempty)
    right
    rw [List.head?_map, List.head?_reverse, List.getLast?_eq_getLast_of_ne_nil nonempty]
    intro zero
    have digit := toNat_hexDigit _ small
    rw [Option.some.inj zero] at digit
    simp at digit
    omega

theorem mem_numeral_ten (member : char ∈ numeral 10 n) : 48 ≤ char.toNat ∧ char.toNat ≤ 57 := by
  obtain ⟨digit, small, rfl⟩ := mem_numeral (by decide) member
  rw [toNat_hexDigit digit small]
  omega

theorem hexValue_of_mem_numeral (member : char ∈ numeral 16 n) :
    ∃ digit, hexValue char = some digit := by
  obtain ⟨digit, small, rfl⟩ := mem_numeral (by decide) member
  exact ⟨digit, hexValue_hexDigit digit small⟩

theorem digits_of_decimalValue {text : Bytes} (value : decimalValue text = some n) :
    text ≠ [] ∧ ∀ char ∈ text, 48 ≤ char.toNat ∧ char.toNat ≤ 57 := by
  unfold decimalValue at value
  split at value
  · cases value
  next digits =>
    obtain ⟨nonempty, all⟩ := not_or.mp digits
    refine ⟨nonempty, fun char member => ?_⟩
    have inside := not_exists.mp all char
    rw [not_and, not_or, not_lt, not_lt] at inside
    exact inside member

/-- A number is read back from its digits. -/
theorem decimalValue_numeral (n : Nat) : decimalValue (numeral 10 n) = some n := by
  have digits : ¬(numeral 10 n = [] ∨
      ∃ char ∈ numeral 10 n, char.toNat < 48 ∨ 57 < char.toNat) := by
    rintro (empty | ⟨char, member, outside⟩)
    · exact numeral_ne_nil 10 n empty
    · have := mem_numeral_ten member
      omega
  rw [decimalValue, if_neg digits]
  unfold numeral
  split
  next zero => rw [zero]; rfl
  next =>
    have folded : ∀ list : List Nat, (∀ digit ∈ list, digit < 10) →
        list.foldr (fun digit value => 10 * value + ((hexDigit digit).toNat - 48)) 0 =
          Nat.ofDigits 10 list := by
      intro list
      induction list with
      | nil => intro _; rfl
      | cons digit rest ih =>
        intro small
        rw [List.foldr_cons, ih fun other member => small other (List.mem_cons_of_mem _ member),
          toNat_hexDigit digit (small digit List.mem_cons_self), Nat.ofDigits_cons]
        simp
        omega
    rw [List.foldl_map, List.foldl_reverse,
      folded _ fun digit member => Nat.digits_lt_base (by decide) member, Nat.ofDigits_digits]

theorem mem_intercalate {sep : UInt8} {parts : List Bytes}
    (member : char ∈ [sep].intercalate parts) : char = sep ∨ ∃ part ∈ parts, char ∈ part := by
  induction parts with
  | nil => cases member
  | cons part rest ih =>
    cases rest with
    | nil => exact .inr ⟨part, by simp, by simpa [List.intercalate] using member⟩
    | cons next rest =>
      have cases : char ∈ part ∨ char = sep ∨ char ∈ [sep].intercalate (next :: rest) := by
        simpa [List.intercalate] using member
      rcases cases with inside | same | later
      · exact .inr ⟨part, by simp, inside⟩
      · exact .inl same
      · refine (ih later).imp_right ?_
        rintro ⟨other, isPart, inside⟩
        exact ⟨other, List.mem_cons_of_mem _ isPart, inside⟩

/-! ### Addresses -/

/-- The 16 bytes of an address, as one number. -/
abbrev IP := BitVec 128

namespace IP

/-- The four bytes are behind the mark for them. -/
def IsV4 (ip : IP) : Prop := ip.toNat / 2 ^ 32 = 0xffff

instance (ip : IP) : Decidable ip.IsV4 := inferInstanceAs (Decidable (_ = _))

/-- The address of four bytes. -/
def v4 (octets : Bytes) : IP := .ofNat 128 (0xffff * 2 ^ 32 + beNat octets)

def octets (ip : IP) : Bytes := bePad 4 ip.toNat

theorem v4_octets {ip : IP} (isV4 : ip.IsV4) : v4 ip.octets = ip := by
  apply BitVec.eq_of_toNat_eq
  have bound := ip.isLt
  rw [v4, octets, beNat_bePad, BitVec.toNat_ofNat]
  unfold IsV4 at isV4
  omega

/-- Four numbers with dots. -/
def dotted (ip : IP) : Bytes := [46].intercalate (ip.octets.map fun octet => numeral 10 octet.toNat)

/-- The eight groups of 16 bits. -/
def groups (ip : IP) : List Nat :=
  (List.range 8).map fun i => ip.toNat / 2 ^ (16 * (7 - i)) % 2 ^ 16

/-- The first of the longest runs of zero groups, from and up to a place. -/
def zeroRun (groups : List Nat) : Nat × Nat :=
  (List.range groups.length).foldl (fun best i =>
    let stop := i + ((groups.drop i).takeWhile (· = 0)).length
    if best.2 - best.1 < stop - i then (i, stop) else best) (0, 0)

/-- Groups with colons; a run of at least two zero groups is left out. -/
def colons (groups : List Nat) : Bytes :=
  let join (part : List Nat) := [58].intercalate (part.map (numeral 16))
  let (start, stop) := zeroRun groups
  if stop - start ≤ 1 then join groups
  else join (groups.take start) ++ [58, 58] ++ join (groups.drop stop)

/-- `IP.String`. -/
def string (ip : IP) : Bytes := if ip.IsV4 then ip.dotted else colons ip.groups

/-- `parseIPv4`: four numbers up to 255 without leading zeros and with dots between them. -/
def parseIPv4 (text : Bytes) : Option IP := do
  let values ← (text.splitOn 46).mapM fun part => do
    let value ← decimalValue part
    if value ≤ 255 ∧ (part.length = 1 ∨ part.head? ≠ some 48) then some (UInt8.ofNat value)
      else none
  if values.length = 4 then some (v4 values) else none

/-- `ParseIP`: the first dot or colon tells the kind. -/
def parseIP (parseIPv6 : Bytes → Option IP) (text : Bytes) : Option IP :=
  match text.find? fun char => char = 46 ∨ char = 58 with
  | some 46 => parseIPv4 text
  | some _ => parseIPv6 text
  | none => none

theorem length_octets (ip : IP) : ip.octets.length = 4 := length_bePad _ _

theorem dotted_eq (ip : IP) : ∃ first rest, ip.dotted = numeral 10 first ++ 46 :: rest := by
  have length := ip.length_octets
  match shape : ip.octets with
  | first :: second :: rest =>
    refine ⟨first.toNat,
      [46].intercalate ((second :: rest).map fun octet => numeral 10 octet.toNat), ?_⟩
    rw [dotted, shape]
    simp [List.intercalate]
  | [_] => simp [shape] at length
  | [] => simp [shape] at length

theorem mem_dotted {ip : IP} (member : char ∈ ip.dotted) :
    char = 46 ∨ (48 ≤ char.toNat ∧ char.toNat ≤ 57) := by
  rcases mem_intercalate member with dot | ⟨part, isPart, inside⟩
  · exact .inl dot
  · obtain ⟨octet, -, rfl⟩ := List.mem_map.mp isPart
    exact .inr (mem_numeral_ten inside)

/-- Four numbers are read back from their text. -/
theorem parseIPv4_dotted {ip : IP} (isV4 : ip.IsV4) : parseIPv4 ip.dotted = some ip := by
  have split : ip.dotted.splitOn 46 = ip.octets.map fun octet => numeral 10 octet.toNat := by
    apply List.splitOn_intercalate
    · intro part isPart dot
      obtain ⟨octet, -, rfl⟩ := List.mem_map.mp isPart
      have := mem_numeral_ten dot
      simp at this
    · intro empty
      have := congrArg List.length empty
      simp [length_octets] at this
  have readBack : (ip.octets.map fun octet => numeral 10 octet.toNat).mapM (fun part => do
      let value ← decimalValue part
      if value ≤ 255 ∧ (part.length = 1 ∨ part.head? ≠ some 48) then some (UInt8.ofNat value)
      else none) = some ip.octets := by
    induction ip.octets with
    | nil => rfl
    | cons octet rest ih =>
      have small : octet.toNat ≤ 255 := Nat.le_of_lt_succ octet.toNat_lt
      have leads := numeral_leads octet.toNat
      rw [List.map_cons, List.mapM_cons, ih, decimalValue_numeral]
      simp [small, leads]
  rw [parseIPv4, split, readBack]
  simp [length_octets, v4_octets isV4]

theorem parseIP_dotted (parseIPv6 : Bytes → Option IP) {ip : IP} (isV4 : ip.IsV4) :
    parseIP parseIPv6 ip.dotted = some ip := by
  obtain ⟨first, rest, shape⟩ := ip.dotted_eq
  have dot : ip.dotted.find? (fun char => char = 46 ∨ char = 58) = some 46 := by
    rw [shape, List.find?_append, List.find?_eq_none.mpr]
    · rfl
    · intro char member
      have digit := mem_numeral_ten member
      simp only [decide_eq_true_eq]
      rintro (rfl | rfl) <;> simp at digit
  rw [parseIP, dot]
  exact parseIPv4_dotted isV4

/-- Groups with colons begin with the digits of one group, or none, and a colon. -/
theorem colons_eq (groups : List Nat) (length : groups.length = 8) : ∃ first rest,
    colons groups = first ++ 58 :: rest ∧ ∀ char ∈ first, ∃ digit, hexValue char = some digit := by
  have joined : ∀ part : List Nat, ∃ first rest, [58].intercalate (part.map (numeral 16)) =
      first ++ rest ∧ (∀ char ∈ first, ∃ digit, hexValue char = some digit) ∧
      (rest = [] ∧ part.length ≤ 1 ∨ ∃ more, rest = 58 :: more) := by
    intro part
    match part with
    | [] => exact ⟨[], [], rfl, by simp, .inl ⟨rfl, by simp⟩⟩
    | [group] =>
      exact ⟨numeral 16 group, [], by simp [List.intercalate],
        fun char => hexValue_of_mem_numeral, .inl ⟨rfl, by simp⟩⟩
    | group :: next :: more =>
      exact ⟨numeral 16 group, 58 :: [58].intercalate ((next :: more).map (numeral 16)),
        by simp [List.intercalate], fun char => hexValue_of_mem_numeral, .inr ⟨_, rfl⟩⟩
  unfold colons
  simp only
  split
  · obtain ⟨first, rest, shape, digits, ⟨-, short⟩ | ⟨more, rfl⟩⟩ := joined groups
    · omega
    · exact ⟨first, more, shape, digits⟩
  · obtain ⟨first, rest, shape, digits, ⟨rfl, -⟩ | ⟨more, rfl⟩⟩ :=
      joined (groups.take (zeroRun groups).1)
    · exact ⟨first, _, by rw [shape, List.append_nil, List.append_assoc]; rfl, digits⟩
    · exact ⟨first, _, by rw [shape, List.append_assoc, List.append_assoc]; rfl, digits⟩

end IP

/-! ### A host and a port -/

/-- `JoinHostPort`. -/
def joinHostPort (host port : Bytes) : Bytes :=
  if 58 ∈ host ∨ 37 ∈ host then [91] ++ host ++ [93, 58] ++ port else host ++ [58] ++ port

inductive HostPortError where
  | missingPort
  | tooManyColons
  | missingBracket
  | missingBrackets
  | unexpectedOpening
  | unexpectedClosing
  deriving DecidableEq, Repr

/-- `SplitHostPort`: the port is behind the last colon, and a host with colons is in brackets. -/
def splitHostPort (hostport : Bytes) : Except HostPortError (Bytes × Bytes) :=
  match hostport.reverse.idxOf? 58 with
  | none => .error .missingPort
  | some behind =>
    let i := hostport.length - 1 - behind
    let port := hostport.drop (i + 1)
    if hostport.head? = some 91 then
      match hostport.idxOf? 93 with
      | none => .error .missingBracket
      | some stop =>
        if stop + 1 = hostport.length then .error .missingPort
        else if stop + 1 ≠ i then
          if hostport[stop + 1]? = some 58 then .error .tooManyColons else .error .missingPort
        else if 91 ∈ hostport.drop 1 then .error .unexpectedOpening
        else if 93 ∈ hostport.drop (stop + 1) then .error .unexpectedClosing
        else .ok ((hostport.take stop).drop 1, port)
    else
      let host := hostport.take i
      if 58 ∈ host then .error .tooManyColons
      else if 37 ∈ host then .error .missingBrackets
      else if 91 ∈ hostport then .error .unexpectedOpening
      else if 93 ∈ hostport then .error .unexpectedClosing
      else .ok (host, port)

/-- The address of the other end of a connection. Only new addresses have a zone. -/
structure TCPAddr where
  ip : IP
  port : UInt16
  zone : Bytes
  zoned : zone ≠ [] → ¬ip.IsV4

/-- `TCPAddr.String`. -/
def TCPAddr.string (addr : TCPAddr) : Bytes :=
  joinHostPort (if addr.zone = [] then addr.ip.string else addr.ip.string ++ [37] ++ addr.zone)
    (numeral 10 addr.port.toNat)

theorem TCPAddr.string_v4 {addr : TCPAddr} (isV4 : addr.ip.IsV4) :
    addr.string = addr.ip.dotted ++ [58] ++ numeral 10 addr.port.toNat := by
  have zoneless : addr.zone = [] := by
    by_contra zone
    exact addr.zoned zone isV4
  have plain : ¬(58 ∈ addr.ip.dotted ∨ 37 ∈ addr.ip.dotted) := by
    rintro (member | member) <;> simpa using IP.mem_dotted member
  rw [TCPAddr.string, if_pos zoneless, IP.string, if_pos isV4, joinHostPort, if_neg plain]

theorem TCPAddr.string_v6 {addr : TCPAddr} (isV6 : ¬addr.ip.IsV4) : ∃ first rest,
    addr.string = [91] ++ first ++ 58 :: rest ∧ ∀ char ∈ first, ∃ digit,
      hexValue char = some digit := by
  obtain ⟨first, rest, shape, digits⟩ := IP.colons_eq addr.ip.groups (by simp [IP.groups])
  obtain ⟨more, host⟩ : ∃ more, (if addr.zone = [] then addr.ip.string
      else addr.ip.string ++ [37] ++ addr.zone) = first ++ 58 :: more := by
    rw [IP.string, if_neg isV6, shape]
    split
    · exact ⟨rest, rfl⟩
    · exact ⟨rest ++ [37] ++ addr.zone, by simp⟩
  refine ⟨first, more ++ [93, 58] ++ numeral 10 addr.port.toNat, ?_, digits⟩
  rw [TCPAddr.string, host, joinHostPort, if_pos (.inl (by simp))]
  simp

/-- A host without special characters is split from its port. -/
theorem splitHostPort_plain {host port : Bytes}
    (hostPlain : ∀ char ∈ host, char ≠ 58 ∧ char ≠ 37 ∧ char ≠ 91 ∧ char ≠ 93)
    (portPlain : ∀ char ∈ port, char ≠ 58 ∧ char ≠ 91 ∧ char ≠ 93) :
    splitHostPort (host ++ 58 :: port) = .ok (host, port) := by
  have last : (host ++ 58 :: port).reverse.idxOf? 58 = some port.length := by
    have absent : port.reverse.findIdx? (· == 58) = none := by
      rw [List.findIdx?_eq_none_iff]
      intro char member
      simpa using (portPlain char (List.mem_reverse.mp member)).1
    rw [List.reverse_append, List.reverse_cons, List.append_assoc, List.idxOf?,
      List.findIdx?_append, absent]
    simp [List.findIdx?_cons]
  have place : (host ++ 58 :: port).length - 1 - port.length = host.length := by
    simp
  have absent (char : UInt8) (inHost : char ∉ host) (inPort : char ∉ port) (colon : char ≠ 58) :
      char ∉ host ++ 58 :: port := by
    simp [inHost, inPort, colon]
  have opening : 91 ∉ host ++ 58 :: port := absent 91 (fun member => (hostPlain _ member).2.2.1 rfl)
    (fun member => (portPlain _ member).2.1 rfl) (by decide)
  have closing : 93 ∉ host ++ 58 :: port := absent 93 (fun member => (hostPlain _ member).2.2.2 rfl)
    (fun member => (portPlain _ member).2.2 rfl) (by decide)
  have bare : (host ++ 58 :: port).head? ≠ some 91 := fun first => opening (List.mem_of_head? first)
  have colon : 58 ∉ host := fun member => (hostPlain _ member).1 rfl
  have percent : 37 ∉ host := fun member => (hostPlain _ member).2.1 rfl
  simp only [splitHostPort, last, place, if_neg bare, if_neg opening, if_neg closing,
    List.take_left', colon, percent, if_false]
  simp

theorem splitHostPort_open {hostport : Bytes} (unclosed : 93 ∉ hostport) :
    ∃ error, splitHostPort (91 :: hostport) = .error error := by
  unfold splitHostPort
  split
  · exact ⟨_, rfl⟩
  · have absent : (91 :: hostport).idxOf? 93 = none :=
      List.idxOf?_eq_none_iff.mpr (by simpa using unclosed)
    simp only [absent, List.head?_cons, if_true]
    exact ⟨_, rfl⟩

end SchnorrMpc.Lib

import SchnorrMpc.Crypto.PointTable
import SchnorrMpc.Crypto.Reference
import SchnorrMpc.Crypto.RingSign
import SchnorrMpc.Schnorr.Recovery
import Mathlib.Data.List.ReduceOption

/-!
# Signed rings verify

At every place but the signer's the verifier computes what the signer has
computed. At the signer's place the closing scalars make its two sums the points
that the signer has committed to. A closing scalar that is zero is not noticed
by the signer, but the verifier takes the missing multiple for a bad signature.
-/
namespace SchnorrMpc

open Lib S256

/-! ### Places -/

/-- Each row knows its place. -/
def Placed (rows : List RingRow) : Prop := rows.map RingRow.place = List.range rows.length

theorem Placed.place_eq {rows : List RingRow} (placed : Placed rows) {i : Nat} {row : RingRow}
    (found : rows[i]? = some row) : row.place = i := by
  have same := congrArg (·[i]?) placed
  obtain ⟨inside, -⟩ := List.getElem?_eq_some_iff.mp found
  rw [List.getElem?_map, found, List.getElem?_range inside] at same
  exact Option.some.inj same

theorem Placed.getElem?_of_mem {rows : List RingRow} (placed : Placed rows) {row : RingRow}
    (member : row ∈ rows) : rows[row.place]? = some row := by
  obtain ⟨i, found⟩ := List.getElem?_of_mem member
  rw [placed.place_eq found, found]

theorem Placed.set_map {rows : List RingRow} (placed : Placed rows) (f : RingRow → Int) (s : Nat)
    (value : Int) :
    (rows.map f).set s value = rows.map fun row => if row.place = s then value else f row := by
  apply List.ext_getElem?
  intro i
  rw [List.getElem?_set, List.getElem?_map, List.getElem?_map, List.length_map]
  cases found : rows[i]? with
  | none =>
    have outside : rows.length ≤ i := List.getElem?_eq_none_iff.mp found
    split <;> simp
    omega
  | some row =>
    have inside : i < rows.length := (List.getElem?_eq_some_iff.mp found).1
    simp only [Option.map_some, placed.place_eq found]
    by_cases same : s = i
    · simp [same, inside]
    · simp [same, Ne.symm same]

theorem Placed.sum_at {rows : List RingRow} (placed : Placed rows) {s : Nat}
    (inside : s < rows.length)
    (value : ZMod N) : (rows.map fun row => if row.place = s then value else 0).sum = value := by
  have ranged : (rows.map fun row => if row.place = s then value else 0) =
      (List.range rows.length).map fun i => if i = s then value else 0 := by
    rw [← placed, List.map_map]
    rfl
  rw [ranged]
  calc ((List.range rows.length).map fun i => if i = s then value else 0).sum
      = ∑ i ∈ Finset.range rows.length, if i = s then value else 0 := rfl
    _ = value := by simp [inside]

/-! ### What signing has done -/

section Rows

variable {env : Env} {draws : RingDraws} {s : Nat}

theorem randFieldElement2528_range {read : Except Err Bytes} {k : Int}
    (drawn : randFieldElement2528 read = .ok k) : 0 < k ∧ k < N := by
  cases read with
  | error error => cases drawn
  | ok bytes =>
    cases drawn
    have small : beNat bytes % (N - 1) < N - 1 := Nat.mod_lt _ (by decide)
    have order : 1 < N := by decide
    omega

def RingDraws.qAt (draws : RingDraws) (i : Nat) : Int := (randFieldElement2528 (draws.q i)).getD 0

def RingDraws.wAt (draws : RingDraws) (i : Nat) : Int := (randFieldElement2528 (draws.w i)).getD 0

/-- What is known of a row that was signed. -/
structure RowSigned (env : Env) (draws : RingDraws) (s : Nat) (row : RingRow) : Prop where
  qDrawn : row.q = draws.qAt row.place
  wDrawn : row.w = draws.wAt row.place
  q : 0 < row.q ∧ row.q < N
  w : 0 < row.w ∧ row.w < N
  commits : ∃ Lpub, commitment env (env.curve.scalarBaseMult (intBytes row.q))
    (if row.place = s then none else some (row.key, row.w)) = .ok (some Lpub) ∧
    fromECDSAPub Lpub = .ok row.encoded

theorem signRow_spec {entry : Point × Nat} {row : RingRow}
    (signed : signRow env draws s entry = .ok row) :
    (row.key, row.place) = entry ∧ RowSigned env draws s row := by
  simp only [signRow, Outcome.bind_eq_ok_iff] at signed
  obtain ⟨q, qDrawn, w, wDrawn, commit, commits, signed⟩ := signed
  cases commit with
  | none => cases signed
  | some Lpub =>
    simp only [Outcome.bind_eq_ok_iff] at signed
    obtain ⟨encoded, encodes, same⟩ := signed
    cases same
    exact ⟨rfl, by rw [RingDraws.qAt, qDrawn]; rfl, by rw [RingDraws.wAt, wDrawn]; rfl,
      randFieldElement2528_range qDrawn, randFieldElement2528_range wDrawn, Lpub, commits, encodes⟩

theorem signTail_spec {I : Point} {row : RingRow} {tail : Bytes}
    (signed : signTail env I s row = .ok tail) :
    ∃ Rpub, commitment env (xScalarHashP env (intBytes row.q) row.key)
      (if row.place = s then none else some (I, row.w)) = .ok (some Rpub) ∧
      fromECDSAPub Rpub = .ok tail := by
  simp only [signTail, Outcome.bind_eq_ok_iff] at signed
  obtain ⟨commit, commits, signed⟩ := signed
  cases commit with
  | none => cases signed
  | some Rpub => exact ⟨Rpub, commits, signed⟩

theorem first_of_commitment {first : Go Point} {second : Option (Point × Int)}
    {commit : Option Point} (commits : commitment env first second = .ok commit) :
    ∃ point, first = .ok point := by
  cases second <;>
  · rw [commitment, Outcome.bind_eq_ok_iff] at commits
    obtain ⟨point, returns, -⟩ := commits
    exact ⟨point, returns⟩

theorem rows_spec {publicKeys : List Point} {rows : List RingRow}
    (signed : publicKeys.zipIdx.mapM (signRow env draws s) = .ok rows) :
    rows.map (fun row => (row.key, row.place)) = publicKeys.zipIdx ∧ Placed rows ∧
      rows.map RingRow.key = publicKeys ∧ ∀ row ∈ rows, RowSigned env draws s row := by
  have each := (Outcome.forall₂_of_mapM signed).imp fun _ _ => signRow_spec
  have shown : rows.map (fun row => (row.key, row.place)) = publicKeys.zipIdx := by
    clear signed
    generalize publicKeys.zipIdx = entries at each
    induction each with
    | nil => rfl
    | cons here _ ih => rw [List.map_cons, here.1, ih]
  have keys : rows.map RingRow.key = publicKeys := by
    have first := congrArg (List.map Prod.fst) shown
    rwa [List.map_map, List.zipIdx_map_fst] at first
  refine ⟨shown, ?_, keys, ?_⟩
  · have second := congrArg (List.map Prod.snd) shown
    rw [List.map_map, List.zipIdx_map_snd, ← keys, List.length_map] at second
    rw [Placed, List.range_eq_range']
    exact second
  · intro row member
    obtain ⟨i, found⟩ := List.getElem?_of_mem member
    obtain ⟨inside, rfl⟩ := List.getElem?_eq_some_iff.mp found
    exact ((List.forall₂_iff_get.mp each).2 i (by rw [each.length_eq]; exact inside) inside).2

/-- The ring once its first key has changed places with the one at `s`. -/
def reordered (publicKeys : List Point) (s : Nat) : List Point :=
  (publicKeys.set 0 (publicKeys.getD s none)).set s (publicKeys.getD 0 none)

theorem exchange_eq {publicKeys exchanged : List Point}
    (done : exchange publicKeys s = .ok exchanged) : exchanged = reordered publicKeys s := by
  unfold exchange at done
  split at done
  next moved =>
    simp only [Outcome.bind_eq_ok_iff, Outcome.index_eq_ok_iff] at done
    obtain ⟨first, isFirst, other, found, same⟩ := done
    cases same
    rw [reordered, List.getD_eq_getElem?_getD, List.getD_eq_getElem?_getD, isFirst, found]
    rfl
  next stays =>
    cases done
    obtain rfl : s = 0 := by omega
    cases publicKeys <;> rfl

/-- The key that was first is at the place that was drawn. -/
theorem exchange_spec {publicKeys exchanged : List Point} {first : Point}
    (isFirst : publicKeys[0]? = some first) (done : exchange publicKeys s = .ok exchanged) :
    (∀ key ∈ exchanged, key ∈ publicKeys) ∧ exchanged.length = publicKeys.length ∧
      ∀ key, exchanged[s]? = some key → key = first := by
  unfold exchange at done
  split at done
  next moved =>
    simp only [Outcome.index_of_getElem? isFirst, Outcome.ok_bind, Outcome.bind_eq_ok_iff,
      Outcome.index_eq_ok_iff] at done
    obtain ⟨other, found, same⟩ := done
    cases same
    refine ⟨fun key member => ?_, by simp, fun key isOwn => ?_⟩
    · rcases List.mem_or_eq_of_mem_set member with member | rfl
      · rcases List.mem_or_eq_of_mem_set member with member | rfl
        · exact member
        · exact List.mem_of_getElem? found
      · exact List.mem_of_getElem? isFirst
    · have inside : s < (publicKeys.set 0 other).length := by
        simpa using (List.getElem?_eq_some_iff.mp found).1
      rw [List.getElem?_set_self inside] at isOwn
      exact (Option.some.inj isOwn).symm
  next stays =>
    cases done
    obtain rfl : s = 0 := by omega
    exact ⟨fun _ member => member, rfl, fun key isOwn =>
      Option.some.inj (isOwn.symm.trans isFirst)⟩

end Rows

/-! ### What verification does -/

theorem writeAll_eq_some {commits : List (Go (Option Point))} {encodings : List Bytes}
    (each : List.Forall₂ (fun commit encoded => ∃ point, commit = .ok (some point) ∧
      fromECDSAPub point = .ok encoded) commits encodings) :
    writeAll commits = .ok (some encodings.flatten) := by
  induction each with
  | nil => rfl
  | cons here _ ih =>
    obtain ⟨point, commits, encodes⟩ := here
    simp only [writeAll, commits, encodes, ih, Outcome.ok_bind, List.flatten_cons]
    rfl

theorem writeAll_eq_none {commits : List (Go (Option Point))}
    (each : ∀ commit ∈ commits, commit = .ok none ∨ ∃ point encoded, commit = .ok (some point) ∧
      fromECDSAPub point = .ok encoded) (missing : .ok none ∈ commits) :
    writeAll commits = .ok none := by
  induction commits with
  | nil => cases missing
  | cons commit rest ih =>
    rcases each commit List.mem_cons_self with none | ⟨point, encoded, commits, encodes⟩
    · simp only [writeAll, none, Outcome.ok_bind]
      rfl
    · have later : .ok none ∈ rest := by
        rcases List.mem_cons.mp missing with here | later
        · rw [commits] at here
          cases here
        · exact later
      have tail := ih (fun other member => each other (List.mem_cons_of_mem _ member)) later
      simp only [writeAll, commits, encodes, tail, Outcome.ok_bind]
      rfl

/-- The scalars that are verified, as they stand beside the keys. -/
theorem verifyRingSign_rows {env : Env} {rows : List RingRow} (nonempty : rows ≠ [])
    (keys : none ∉ rows.map RingRow.key)
    (encodes : ∀ row ∈ rows, ∃ bytes, fromECDSAPub row.key = .ok bytes) {I : Point}
    (image : ∃ bytes, fromECDSAPub I = .ok bytes) (M : Bytes) (c r : RingRow → Int) :
    verifyRingSign env (some M) (rows.map RingRow.key) (some I) ((rows.map c).map some)
        ((rows.map r).map some) = (do
      match ← writeAll (rows.map fun row => commitment env
          (env.curve.scalarBaseMult (intBytes (r row))) (some (row.key, c row))) with
      | none => pure false
      | some first =>
        match ← writeAll (rows.map fun row => commitment env
            (xScalarHashP env (intBytes (r row)) row.key) (some (I, c row))) with
        | none => pure false
        | some second =>
          pure (((beNat (env.keccak256 (M ++ first ++ second)).val % N : Nat) : Int) ==
            rows.foldl (fun (sum : Int) row => (sum + c row) % N) 0)) := by
  obtain ⟨bytes, image⟩ := image
  -- the checks at the start pass
  have lengths : ¬(rows.map RingRow.key = [] ∨
      (rows.map RingRow.key).length ≠ ((rows.map c).map some).length ∨
      (rows.map RingRow.key).length ≠ ((rows.map r).map some).length) := by
    simp [nonempty]
  have present : ¬(none ∈ rows.map RingRow.key ∨ none ∈ (rows.map c).map some ∨
      none ∈ (rows.map r).map some) := by
    simp only [not_or]
    exact ⟨keys, by simp, by simp⟩
  have logged : ∃ all, (rows.map RingRow.key).mapM fromECDSAPub = .ok all := by
    clear nonempty keys lengths present
    induction rows with
    | nil => exact ⟨[], rfl⟩
    | cons row rest ih =>
      obtain ⟨bytes, here⟩ := encodes row List.mem_cons_self
      obtain ⟨all, later⟩ := ih fun other member => encodes other (List.mem_cons_of_mem _ member)
      exact ⟨bytes :: all, by rw [List.map_cons, List.mapM_cons, here, later]; rfl⟩
  obtain ⟨all, logged⟩ := logged
  have scalars (f : RingRow → Int) : ((rows.map f).map some).reduceOption = rows.map f := by
    induction rows.map f with
    | nil => rfl
    | cons k rest ih => rw [List.map_cons, List.reduceOption_cons_of_some, ih]
  simp only [verifyRingSign, if_neg lengths, if_neg present, logged, image, Outcome.ok_bind,
    scalars]
  simp only [List.zip_map', List.map_map, List.foldl_map]
  rfl

/-! ### The two sums at the place of the signer -/

section Group

variable {E : Type} [AddCommGroup E] [Module (ZMod N) E] {env : Env} (law : GroupLaw env.curve E)

theorem scalar_fits {k : Int} (below : k < N) : k < 256 ^ 32 :=
  below.trans (by decide)

theorem exists_xScalarHashP (Q : E) : ∃ h : ZMod N, ∀ k : Int, 0 ≤ k → k < N →
    xScalarHashP env (intBytes k) (law.coords Q) = .ok (law.coords ((k : ZMod N) • h • Q)) := by
  obtain ⟨bytes, encodes⟩ := law.exists_encoding Q
  refine ⟨(beNat (env.keccak256 bytes).val : ZMod N), fun k nonneg below => ?_⟩
  have width : (env.keccak256 bytes).val.length ≤ 32 := (env.keccak256 bytes).property.le
  rw [xScalarHashP, encodes, Outcome.ok_bind, law.scalarMult Q _ width, Outcome.ok_bind,
    law.scalarMult_int _ nonneg (scalar_fits below)]

theorem commitment_own {first : Go Point} {Q : E} (returns : first = .ok (law.coords Q))
    (finite : Q ≠ 0) : commitment env first none = .ok (some (law.coords Q)) := by
  have present : law.coords Q ≠ none := fun none => finite ((law.coords_eq_none_iff Q).mp none)
  simp [commitment, returns, present]

theorem commitment_add {first : Go Point} {Q R : E} (returns : first = .ok (law.coords Q))
    {c : Int} (nonneg : 0 ≤ c) (below : c < N) (left : Q ≠ 0) (right : (c : ZMod N) • R ≠ 0) :
    commitment env first (some (law.coords R, c)) =
      .ok (some (law.coords (Q + (c : ZMod N) • R))) := by
  have leftThere : law.coords Q ≠ none := fun none => left ((law.coords_eq_none_iff Q).mp none)
  have rightThere : law.coords ((c : ZMod N) • R) ≠ none := fun none =>
    right ((law.coords_eq_none_iff _).mp none)
  rw [commitment, returns]
  simp only [Outcome.ok_bind, law.scalarMult_int R nonneg (scalar_fits below), law.add, leftThere,
    rightThere, if_false]
  rfl

theorem commitment_missing {first : Go Point} {Q R : E} (returns : first = .ok (law.coords Q))
    {c : Int} (nonneg : 0 ≤ c) (below : c < N) (missing : Q = 0 ∨ (c : ZMod N) • R = 0) :
    commitment env first (some (law.coords R, c)) = .ok none := by
  rw [commitment, returns, Outcome.ok_bind]
  split
  next => rfl
  next there =>
    have finite : Q ≠ 0 := fun zero => there ((law.coords_eq_none_iff Q).mpr zero)
    have zero := missing.resolve_left finite
    rw [law.scalarMult_int R nonneg (scalar_fits below), Outcome.ok_bind, zero, law.coords_zero]
    rfl

theorem cast_eq_zero_iff {k : Int} (nonneg : 0 ≤ k) (below : k < N) : (k : ZMod N) = 0 ↔ k = 0 := by
  rw [ZMod.intCast_zmod_eq_zero_iff_dvd]
  constructor
  · intro divides
    exact Int.eq_zero_of_dvd_of_nonneg_of_lt nonneg below divides
  · rintro rfl
    exact dvd_zero _

end Group

/-! ### The sum of the scalars -/

theorem cast_sumC (rows : List RingRow) (s : Nat) (start : Int) :
    ((rows.foldl (fun (sum : Int) row =>
        if row.place = s then sum else (sum + row.w) % N) start : Int) : ZMod N) =
      start + (rows.map fun row => if row.place = s then (0 : ZMod N) else row.w).sum := by
  induction rows generalizing start with
  | nil => simp
  | cons row rest ih =>
    rw [List.foldl_cons, ih, List.map_cons, List.sum_cons]
    split
    · simp
    · rw [ZMod.intCast_mod]
      push_cast
      ring

/-- The closing scalar makes the sum of all of them the digest. -/
theorem sum_closes {rows : List RingRow} (placed : Placed rows) {s : Nat} (inside : s < rows.length)
    (digest : Nat) {cs : Int}
    (closes : cs = ((digest : Int) - rows.foldl (fun (sum : Int) row =>
      if row.place = s then sum else (sum + row.w) % N) 0) % N) :
    rows.foldl (fun (sum : Int) row => (sum + if row.place = s then cs else row.w) % N) 0 =
      ((digest % N : Nat) : Int) := by
  have range := foldl_add_range rows (fun row => if row.place = s then cs else row.w)
    ⟨le_rfl, N_pos⟩
  have residue : ((rows.foldl (fun (sum : Int) row =>
      (sum + if row.place = s then cs else row.w) % N) 0 : Int) : ZMod N) = (digest : Int) := by
    have split : (rows.map fun row => ((if row.place = s then cs else row.w : Int) : ZMod N)) =
        rows.map fun row => (if row.place = s then (0 : ZMod N) else row.w) +
          if row.place = s then (cs : ZMod N) else 0 := by
      apply List.map_congr_left
      intro row _
      split <;> simp
    rw [cast_foldl_add, split, List.sum_map_add, placed.sum_at inside, closes, ZMod.intCast_mod]
    push_cast
    rw [cast_sumC]
    simp
  have same := (ZMod.intCast_eq_intCast_iff' _ _ N).mp residue
  rw [Int.emod_eq_of_lt range.1 range.2] at same
  rw [same]
  norm_cast

/-! ### Rings -/

def encodingOf (commit : Go (Option Point)) : Bytes :=
  (commit >>= fun point => fromECDSAPub point.join).getD []

/-- The digest of the message and of the points that the signer commits to, from what it is given
and what it draws. -/
def ringDigest (env : Env) (draws : RingDraws) (M : Bytes) (x : Int) (publicKeys : List Point)
    (s : Nat) : Int :=
  let I := (xScalarHashP env (intBytes x) (publicKeys.getD 0 none)).getD none
  let places := (reordered publicKeys s).zipIdx
  let first := places.map fun (key, i) => encodingOf (commitment env
    (env.curve.scalarBaseMult (intBytes (draws.qAt i)))
    (if i = s then none else some (key, draws.wAt i)))
  let second := places.map fun (key, i) => encodingOf (commitment env
    (xScalarHashP env (intBytes (draws.qAt i)) key) (if i = s then none else some (I, draws.wAt i)))
  beNat (env.keccak256 (M ++ first.flatten ++ second.flatten)).val

/-- What closes the ring at the place of the signer: the digest less the scalars of the others. -/
def ringChallenge (env : Env) (draws : RingDraws) (M : Bytes) (x : Int) (publicKeys : List Point)
    (s : Nat) : Int :=
  ringDigest env draws M x publicKeys s -
    ∑ i ∈ (Finset.range publicKeys.length).erase s, draws.wAt i

def ringResponse (env : Env) (draws : RingDraws) (M : Bytes) (x : Int) (publicKeys : List Point)
    (s : Nat) : Int :=
  draws.qAt s - ringChallenge env draws M x publicKeys s * x

/-- The rows behind a signature, and how they are closed. -/
structure RingSigned (env : Env) (draws : RingDraws) (M : Bytes) (x : Int) (publicKeys : List Point)
    (first : Point) (sig : RingSignature) (s : Nat) (rows : List RingRow) (tails : List Bytes)
    (cs rs : Int) : Prop where
  image : xScalarHashP env (intBytes x) first = .ok sig.I
  present : sig.I ≠ none
  isFirst : publicKeys[0]? = some first
  shown : rows.map (fun row => (row.key, row.place)) = (reordered publicKeys s).zipIdx
  size : rows.length = publicKeys.length
  placed : Placed rows
  inside : s < rows.length
  keys : sig.publicKeys = rows.map RingRow.key
  known : none ∉ rows.map RingRow.key
  each : ∀ row ∈ rows, RowSigned env draws s row
  own : ∀ row ∈ rows, row.place = s → row.key = first ∧ rs = (row.q - cs * x) % N
  second : List.Forall₂ (fun row tail => ∃ Rpub, commitment env
    (xScalarHashP env (intBytes row.q) row.key)
    (if row.place = s then none else some (sig.I, row.w)) = .ok (some Rpub) ∧
    fromECDSAPub Rpub = .ok tail) rows tails
  closes : cs = ((beNat (env.keccak256 (M ++ (rows.map RingRow.encoded).flatten ++
    tails.flatten)).val : Int) - rows.foldl (fun (sum : Int) row =>
      if row.place = s then sum else (sum + row.w) % N) 0) % N
  w : sig.w = rows.map fun row => if row.place = s then cs else row.w
  q : sig.q = rows.map fun row => if row.place = s then rs else row.q

theorem ringSign_spec {env : Env} {draws : RingDraws} {M : Bytes} {x : Int}
    {publicKeys : List Point} {sig : RingSignature} {first : Point} {s : Nat}
    (isFirst : publicKeys[0]? = some first)
    (drawn : draws.position = .ok s)
    (signed : ringSign env draws (some M) (some x) publicKeys = .ok sig) :
    ∃ rows tails cs rs, RingSigned env draws M x publicKeys first sig s rows tails cs rs := by
  unfold ringSign at signed
  simp only [drawn] at signed
  split at signed
  · cases signed
  next params =>
    rw [Outcome.index_of_getElem? isFirst, Outcome.ok_bind, Outcome.bind_eq_ok_iff] at signed
    obtain ⟨I, image, signed⟩ := signed
    split at signed
    · cases signed
    next present =>
      simp only [Outcome.bind_eq_ok_iff, Outcome.index_eq_ok_iff] at signed
      obtain ⟨exchanged, moved, rows, isRows, tails, isTails, own, isOwn, same⟩ := signed
      cases same
      obtain ⟨members, length, ownKey⟩ := exchange_spec isFirst moved
      obtain ⟨shown, placed, keys, each⟩ := rows_spec isRows
      have size : rows.length = publicKeys.length := by
        rw [← length, ← keys, List.length_map]
      refine ⟨rows, tails, _, _, image, present, isFirst, exchange_eq moved ▸ shown, size, placed,
        (List.getElem?_eq_some_iff.mp isOwn).1, keys.symm, ?_, each, ?_, ?_, rfl,
        placed.set_map _ _ _, placed.set_map _ _ _⟩
      · rw [keys]
        exact fun missing => params (.inr (members _ missing))
      · rintro row member rfl
        have isRow := placed.getElem?_of_mem member
        cases isRow.symm.trans isOwn
        refine ⟨ownKey _ ?_, rfl⟩
        rw [← keys, List.getElem?_map, isRow]
        rfl
      · exact (Outcome.forall₂_of_mapM isTails).imp fun _ _ => signTail_spec

section Signed

variable {env : Env} {draws : RingDraws} {M : Bytes} {x : Int} {publicKeys : List Point}
  {first : Point} {sig : RingSignature} {s : Nat} {rows : List RingRow} {tails : List Bytes}
  {cs rs : Int}
  (signed : RingSigned env draws M x publicKeys first sig s rows tails cs rs)

include signed

theorem RingSigned.exists_own : ∃ row ∈ rows, row.place = s := by
  obtain ⟨row, found⟩ : ∃ row, rows[s]? = some row := ⟨_, List.getElem?_eq_getElem signed.inside⟩
  exact ⟨row, List.mem_of_getElem? found, signed.placed.place_eq found⟩

/-- The digest that the signer computes is the one of its inputs. -/
theorem RingSigned.digest_eq : ringDigest env draws M x publicKeys s =
    beNat (env.keccak256 (M ++ (rows.map RingRow.encoded).flatten ++ tails.flatten)).val := by
  have image : (xScalarHashP env (intBytes x) (publicKeys.getD 0 none)).getD none = sig.I := by
    rw [List.getD_eq_getElem?_getD, signed.isFirst, Option.getD_some, signed.image]
    rfl
  have firsts : rows.map (fun row => encodingOf (commitment env
      (env.curve.scalarBaseMult (intBytes (draws.qAt row.place)))
      (if row.place = s then none else some (row.key, draws.wAt row.place)))) =
        rows.map RingRow.encoded := by
    apply List.map_congr_left
    intro row member
    have isSigned := signed.each row member
    obtain ⟨Lpub, commits, encodes⟩ := isSigned.commits
    rw [← isSigned.qDrawn, ← isSigned.wDrawn, encodingOf, commits, Outcome.ok_bind,
      Option.join_some, encodes]
    rfl
  have seconds : rows.map (fun row => encodingOf (commitment env
      (xScalarHashP env (intBytes (draws.qAt row.place)) row.key)
      (if row.place = s then none else some (sig.I, draws.wAt row.place)))) = tails := by
    have both := (List.forall₂_and_left rows tails).mpr ⟨fun row member => member, signed.second⟩
    rw [← List.forall₂_eq_eq_eq, List.forall₂_map_left_iff]
    refine both.imp fun row tail facts => ?_
    obtain ⟨member, Rpub, commits, encodes⟩ := facts
    have isSigned := signed.each row member
    rw [← isSigned.qDrawn, ← isSigned.wDrawn, encodingOf, commits, Outcome.ok_bind,
      Option.join_some, encodes]
    rfl
  simp only [ringDigest, image, ← signed.shown, List.map_map, Function.comp_def, firsts, seconds]

theorem RingSigned.sum_others :
    (rows.map fun row => if row.place = s then (0 : ZMod N) else row.w).sum =
      ∑ i ∈ (Finset.range publicKeys.length).erase s, (draws.wAt i : ZMod N) := by
  have ranged : (rows.map fun row => if row.place = s then (0 : ZMod N) else row.w) =
      (List.range rows.length).map fun i => if i = s then (0 : ZMod N) else draws.wAt i := by
    rw [← signed.placed, List.map_map]
    apply List.map_congr_left
    intro row member
    rw [(signed.each row member).wDrawn]
    rfl
  rw [ranged, signed.size]
  calc ((List.range publicKeys.length).map fun i => if i = s then (0 : ZMod N) else draws.wAt i).sum
      = ∑ i ∈ Finset.range publicKeys.length, if i = s then (0 : ZMod N) else draws.wAt i := rfl
    _ = ∑ i ∈ (Finset.range publicKeys.length).erase s, (draws.wAt i : ZMod N) := by
      have inside : s ∈ Finset.range publicKeys.length := by
        rw [Finset.mem_range, ← signed.size]
        exact signed.inside
      rw [← Finset.add_sum_erase _ _ inside, if_pos rfl, zero_add]
      exact Finset.sum_congr rfl fun i member => if_neg (Finset.ne_of_mem_erase member)

theorem RingSigned.cast_cs : (cs : ZMod N) = ringChallenge env draws M x publicKeys s := by
  rw [signed.closes, ZMod.intCast_mod, ringChallenge, signed.digest_eq]
  push_cast
  rw [cast_sumC, signed.sum_others]
  simp

theorem RingSigned.cast_rs : (rs : ZMod N) = ringResponse env draws M x publicKeys s := by
  obtain ⟨row, member, ours⟩ := signed.exists_own
  rw [(signed.own row member ours).2, ZMod.intCast_mod, ringResponse,
    (signed.each row member).qDrawn, ours]
  push_cast
  rw [signed.cast_cs]

theorem RingSigned.ranges : (0 ≤ cs ∧ cs < N) ∧ 0 ≤ rs ∧ rs < N := by
  obtain ⟨row, member, ours⟩ := signed.exists_own
  have closed := (signed.own row member ours).2
  rw [signed.closes] at closed ⊢
  rw [closed]
  exact ⟨emod_N_range _, emod_N_range _⟩

theorem RingSigned.nonzero_iff : cs ≠ 0 ∧ rs ≠ 0 ↔
    ¬(N : Int) ∣ ringChallenge env draws M x publicKeys s ∧
      ¬(N : Int) ∣ ringResponse env draws M x publicKeys s := by
  obtain ⟨csRange, rsRange⟩ := signed.ranges
  rw [ne_eq, ne_eq, ← cast_eq_zero_iff csRange.1 csRange.2, ← cast_eq_zero_iff rsRange.1 rsRange.2,
    signed.cast_cs, signed.cast_rs, ZMod.intCast_zmod_eq_zero_iff_dvd,
    ZMod.intCast_zmod_eq_zero_iff_dvd]

end Signed

section Closing

variable {E : Type} [AddCommGroup E] [Module (ZMod N) E] {env : Env} (law : GroupLaw env.curve E)
  {draws : RingDraws} {M : Bytes} {x : Int} {publicKeys : List Point} {sig : RingSignature}
  {s : Nat}
  {rows : List RingRow} {tails : List Bytes} {cs rs : Int}

theorem closing_scalar {q : Int} (closed : rs = (q - cs * x) % N) :
    (rs : ZMod N) + cs * x = q := by
  rw [closed, ZMod.intCast_mod]
  push_cast
  ring

/-- At the place of the signer the closing scalars give the commitment back. -/
theorem commitment_closes {B : E} (finite : B ≠ 0) {mult : Int → Go Point}
    (mults : ∀ k : Int, 0 ≤ k → k < N → mult k = .ok (law.coords ((k : ZMod N) • B))) {q : Int}
    (qRange : 0 < q ∧ q < N) (xRange : 0 < x ∧ x < N) (csRange : 0 < cs ∧ cs < N)
    (rsRange : 0 < rs ∧ rs < N) (closed : rs = (q - cs * x) % N) {pub : Point}
    (commits : commitment env (mult q) none = .ok (some pub)) :
    commitment env (mult rs) (some (law.coords ((x : ZMod N) • B), cs)) = .ok (some pub) := by
  have nonzero {k : Int} (range : 0 < k ∧ k < N) : (k : ZMod N) ≠ 0 := by
    rw [ne_eq, cast_eq_zero_iff range.1.le range.2]
    exact range.1.ne'
  -- the signer has committed to a multiple of the point
  have first := commitment_own law (mults q qRange.1.le qRange.2)
    (smul_ne_zero (nonzero qRange) finite)
  cases commits.symm.trans first
  have added := commitment_add law (mults rs rsRange.1.le rsRange.2) csRange.1.le csRange.2
    (smul_ne_zero (nonzero rsRange) finite)
    (smul_ne_zero (nonzero csRange) (smul_ne_zero (nonzero xRange) finite))
  rw [added, smul_smul, ← add_smul, closing_scalar closed]

variable (signed : RingSigned env draws M x publicKeys
  (law.coords ((x : ZMod N) • law.base)) sig s rows tails cs rs) (positive : 0 < x) (below : x < N)

include signed

/-- With a closing scalar that is zero a first commitment is missing. -/
theorem RingSigned.missing (zero : cs = 0 ∨ rs = 0) :
    writeAll (rows.map fun row => commitment env
        (env.curve.scalarBaseMult (intBytes (if row.place = s then rs else row.q)))
        (some (row.key, if row.place = s then cs else row.w))) = .ok none := by
  obtain ⟨csRange, rsRange⟩ := signed.ranges
  have missing (row : RingRow) (member : row ∈ rows) (ours : row.place = s) :
      commitment env (env.curve.scalarBaseMult (intBytes rs)) (some (row.key, cs)) = .ok none := by
    rw [(signed.own row member ours).1]
    refine commitment_missing law
      (law.scalarBaseMult_int rsRange.1 (scalar_fits rsRange.2)) csRange.1 csRange.2 ?_
    rcases zero with rfl | rfl
    · exact .inr (by simp)
    · exact .inl (by simp)
  apply writeAll_eq_none
  · intro commit member
    obtain ⟨row, isRow, rfl⟩ := List.mem_map.mp member
    by_cases ours : row.place = s
    · rw [if_pos ours, if_pos ours]
      exact .inl (missing row isRow ours)
    · obtain ⟨Lpub, commits, encodes⟩ := (signed.each row isRow).commits
      rw [if_neg ours] at commits
      rw [if_neg ours, if_neg ours]
      exact .inr ⟨Lpub, _, commits, encodes⟩
  · obtain ⟨row, member, ours⟩ := signed.exists_own
    refine List.mem_map.mpr ⟨row, member, ?_⟩
    rw [if_pos ours, if_pos ours]
    exact missing row member ours

include positive below

theorem RingSigned.hash : ∃ h : ZMod N, h • (x : ZMod N) • law.base ≠ 0 ∧
    sig.I = law.coords ((x : ZMod N) • h • (x : ZMod N) • law.base) ∧
    ∀ k : Int, 0 ≤ k → k < N →
      xScalarHashP env (intBytes k) (law.coords ((x : ZMod N) • law.base)) =
        .ok (law.coords ((k : ZMod N) • h • (x : ZMod N) • law.base)) := by
  obtain ⟨h, hashes⟩ := exists_xScalarHashP law ((x : ZMod N) • law.base)
  have image := Outcome.ok.inj (signed.image.symm.trans (hashes x positive.le below))
  refine ⟨h, fun zero => signed.present ?_, image, hashes⟩
  rw [image, zero, smul_zero, law.coords_zero]

/-- With closing scalars that are not zero the verifier finds the first commitments. -/
theorem RingSigned.firsts (csNonzero : cs ≠ 0) (rsNonzero : rs ≠ 0) :
    writeAll (rows.map fun row => commitment env
        (env.curve.scalarBaseMult (intBytes (if row.place = s then rs else row.q)))
        (some (row.key, if row.place = s then cs else row.w))) =
      .ok (some (rows.map RingRow.encoded).flatten) := by
  obtain ⟨csRange, rsRange⟩ := signed.ranges
  apply writeAll_eq_some
  rw [List.forall₂_map_left_iff, List.forall₂_map_right_iff, List.forall₂_same]
  intro row member
  have isSigned := signed.each row member
  obtain ⟨Lpub, commits, encodes⟩ := isSigned.commits
  by_cases ours : row.place = s
  · obtain ⟨key, closed⟩ := signed.own row member ours
    rw [if_pos ours] at commits
    rw [if_pos ours, if_pos ours, key]
    refine ⟨Lpub, ?_, encodes⟩
    have mults (k : Int) (nonneg : 0 ≤ k) (inside : k < N) :
        env.curve.scalarBaseMult (intBytes k) = .ok (law.coords ((k : ZMod N) • law.base)) :=
      law.scalarBaseMult_int nonneg (scalar_fits inside)
    exact commitment_closes law law.base_ne_zero mults isSigned.q ⟨positive, below⟩
      ⟨csRange.1.lt_of_ne' csNonzero, csRange.2⟩ ⟨rsRange.1.lt_of_ne' rsNonzero, rsRange.2⟩
      closed commits
  · rw [if_neg ours] at commits
    rw [if_neg ours, if_neg ours]
    exact ⟨Lpub, commits, encodes⟩

theorem RingSigned.seconds (csNonzero : cs ≠ 0) (rsNonzero : rs ≠ 0) :
    writeAll (rows.map fun row => commitment env
        (xScalarHashP env (intBytes (if row.place = s then rs else row.q)) row.key)
        (some (sig.I, if row.place = s then cs else row.w))) = .ok (some tails.flatten) := by
  obtain ⟨csRange, rsRange⟩ := signed.ranges
  obtain ⟨h, hashed, image, hashes⟩ := signed.hash law positive below
  apply writeAll_eq_some
  rw [List.forall₂_map_left_iff]
  have both := (List.forall₂_and_left rows tails).mpr ⟨fun row member => member, signed.second⟩
  refine both.imp fun row tail facts => ?_
  obtain ⟨member, Rpub, commits, encodes⟩ := facts
  by_cases ours : row.place = s
  · obtain ⟨key, closed⟩ := signed.own row member ours
    rw [if_pos ours, key] at commits
    rw [if_pos ours, if_pos ours, key, image]
    refine ⟨Rpub, ?_, encodes⟩
    exact commitment_closes law hashed hashes (signed.each row member).q ⟨positive, below⟩
      ⟨csRange.1.lt_of_ne' csNonzero, csRange.2⟩ ⟨rsRange.1.lt_of_ne' rsNonzero, rsRange.2⟩
      closed commits
  · rw [if_neg ours] at commits
    rw [if_neg ours, if_neg ours]
    exact ⟨Rpub, commits, encodes⟩

end Closing

namespace RingSample

def table : PointTable where
  entries := [
    (1, Gx, Gy), (2, double), (3, triple),
    (0x393a75c54f3552ba0c8900297d6e99bb8abf8cc013bb0e912d0b176596fe7b88,
      0x2fcf546df2d7e42757f91f6408f374601f51ee20b76dc4ce8a073ea8a2b70f41,
      0xf49e3a8baef93a2bd5f668bfd232cf3cf7f47c54109fade14ad01ec9a9e82c43),
    (0x7274eb8a9e6aa57419120052fadd3377157f198027761d225a162ecb2dfcf710,
      0x273f2719607e4211a4cf3bd910a555068707622599d5aa6df977303258a85edb,
      0xefac016d9478e3d5cedaafc7d05c4592f42f9f2e4dafdb39ab5c4861152a7dbb),
    (0xabaf614fed9ff82e259b007c784bcd32a03ea6403b312bb387214630c4fb7298,
      0x9134b144cca5ab5a5d0895f95bb56b1a6c7d0456c307fc182efecf41fc385449,
      0xd88fd0f8c46e3eae875f9823bf10c1cc5756edeb1d7c6f833adcc9e299764efd),
    (0x1db487eb60bf0d4ee5659ca4e4ba177ef1828c090380cdefbef60a875f291b65,
      0xe459ed51fd4f68fbdd7d025692f7b74650cb8512e98a018771abce82c714d9e7,
      0x63c2f91a42b9e403b5c75638bad52af793371b7c5d9d9634aaf01452046090ee),
    (0xe24b78149f40f2b11a9a635b1b45e87fc92c50ddabc7d24c00dc5405710d25df,
      0x407c62a8786b14541e75709e6ab42f6301d6c206c40d756998648e3004216af1,
      0x8b2253f8dd173894d7a79a90cb4569f08eef69a0034e588eeb1ca812fcc8be20),
    (0xf7dbff9a250146dd3957a7c566fd8d8e5df84a3734481a254d8fed75bb48b437,
      0x3c5a68afca4c0cd4a63eb090253323fae7d7609008556f416b82da8a931062db,
      0x5685c34d3b893b8b926032b5ab408f65563db9e1c0c41be60fa8c920642a70ac),
    (0xb3d361b5c89eb150ec4358b7114e3fa2fcf538efb631b1c9f963b747d9e8ffa2,
      0x7784cbcf9e7d9591e6c56ae04a0f575499a80f9cc7452c5e0964b5985429319f,
      0x76fc1bc3d326f9a2a00eabe40cea24c29fef3e13c988c76700be2cf125c59111)
  ]
  multiples := by decide +kernel
  range := by decide +kernel
  distinct := by decide +kernel
  base := by decide +kernel

def digestOfKey : Nat := 0x393a75c54f3552ba0c8900297d6e99bb8abf8cc013bb0e912d0b176596fe7b88

def digestOfRing : Nat := 0x1db487eb60bf0d4ee5659ca4e4ba177ef1828c090380cdefbef60a875f291b65

def encoding (k : Nat) : Bytes :=
  match table.coords k with
  | none => []
  | some (x, y) => 4 :: (bePad 32 x.natAbs ++ bePad 32 y.natAbs)

def committed : Bytes :=
  utf8 "wanchain" ++ [2, 3, 2 * digestOfKey, 3 * digestOfKey].flatMap encoding

def env (curve : Curve) : Env where
  curve
  sha256 _ := word 0
  keccak256 bytes :=
    if bytes = encoding 1 then word digestOfKey
    else if bytes = committed then word digestOfRing
    else word 0

/-- The signer stays first and draws `q = 2`; `q + w = 3` at the other place. -/
def draws (w : Nat) : RingDraws where
  position := .ok 0
  q place := .ok (bePad 40 (if place = 0 then 1 else (N + 2 - w) % N))
  w place := .ok (bePad 40 (if place = 0 then 0 else w - 1))

def signature (cs rs w q : Int) : RingSignature :=
  ⟨[G, G], table.coords digestOfKey, [cs, w], [rs, q]⟩

end RingSample
end SchnorrMpc

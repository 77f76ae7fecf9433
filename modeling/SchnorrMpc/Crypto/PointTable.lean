import SchnorrMpc.Crypto.GroupLaw
import SchnorrMpc.Lib.Assoc

/-!
# Curves with a table of coordinates

A group of order `N` in which finitely many multiples of the base point have
the coordinates that a table lists. The others get coordinates of their own
that no listed point has.
-/
namespace SchnorrMpc

open Lib S256

/-- Multiples of the base point, each with its coordinates. -/
structure PointTable where
  entries : List (Nat × Int × Int)
  multiples : ∀ entry ∈ entries, 0 < entry.1 ∧ entry.1 < N
  range : ∀ entry ∈ entries, 0 < entry.2.1 ∧ entry.2.1 < P ∧ 1 < entry.2.2 ∧ entry.2.2 < P
  distinct : (entries.map Prod.snd).Nodup
  base : entries.lookup 1 = G

namespace PointTable

variable (table : PointTable)

def coords (k : ZMod N) : Point :=
  if k = 0 then none
  else some ((table.entries.lookup k.val).getD (k.val, 1))

/-- The multiple that has the given coordinates. -/
def multiple : Point → ZMod N
  | none => 0
  | some point =>
    match table.entries.find? (fun entry => entry.2 == point) with
    | some entry => entry.1
    | none => point.1

private theorem find_listed {k : Nat} {point : Int × Int}
    (listed : (k, point) ∈ table.entries) :
    table.entries.find? (fun entry => entry.2 == point) = some (k, point) := by
  obtain ⟨entry, found⟩ : ∃ entry, table.entries.find? (fun entry => entry.2 == point) =
      some entry := by
    rw [← Option.isSome_iff_exists, List.find?_isSome]
    exact ⟨_, listed, by simp⟩
  have same : entry.2 = point := by simpa using List.find?_some found
  have equal : entry = (k, point) :=
    List.inj_on_of_nodup_map table.distinct (List.mem_of_find?_eq_some found) listed same
  rw [found, equal]

private theorem find_unlisted (x : Int) :
    table.entries.find? (fun entry => entry.2 == (x, 1)) = none := by
  rw [List.find?_eq_none]
  intro entry listed same
  have second : entry.2.2 = 1 := by simp_all
  have := (table.range entry listed).2.2.1
  omega

theorem multiple_coords (k : ZMod N) : table.multiple (table.coords k) = k := by
  unfold coords
  split
  next zero => rw [zero]; rfl
  next nonzero =>
    cases found : table.entries.lookup k.val with
    | some point =>
      simp [multiple, find_listed table (Assoc.mem_of_lookup found)]
    | none =>
      simp [multiple, find_unlisted]

theorem coords_injective : Function.Injective table.coords :=
  Function.LeftInverse.injective table.multiple_coords

def curve : Curve where
  scalarMult point k := .ok (table.coords ((beNat k : ZMod N) * table.multiple point))
  add p q := .ok (table.coords (table.multiple p + table.multiple q))

private theorem coords_range (k : ZMod N) (x y : Int) (found : table.coords k = some (x, y)) :
    0 < x ∧ x < P ∧ 0 < y ∧ y < P := by
  unfold coords at found
  split at found
  next => cases found
  next nonzero =>
    cases listed : table.entries.lookup k.val with
    | some point =>
      have bounds := table.range _ (Assoc.mem_of_lookup listed)
      rw [listed] at found
      cases found
      exact ⟨bounds.1, bounds.2.1, one_pos.trans bounds.2.2.1, bounds.2.2.2⟩
    | none =>
      rw [listed] at found
      cases found
      have positive : 0 < k.val := Nat.pos_of_ne_zero ((ZMod.val_ne_zero k).mpr nonzero)
      have small : k.val < P := (ZMod.val_lt k).trans (by decide)
      exact ⟨by omega, by omega, by decide, by decide⟩

theorem keepsRange : table.curve.KeepsRange := by
  have ranged (k : ZMod N) : Ranged (table.coords k) := by
    intro x y found
    obtain ⟨xPos, xLt, yPos, yLt⟩ := table.coords_range k x y found
    have bound : (P : Int) < 256 ^ 32 := by decide
    exact ⟨⟨xPos.le, xLt.trans bound⟩, yPos.le, yLt.trans bound⟩
  constructor
  · rintro _ _ _ ⟨⟩
    exact ranged _
  · rintro _ _ _ ⟨⟩
    exact ranged _

def law : GroupLaw table.curve (ZMod N) where
  coords := table.coords
  base := 1
  coords_injective := table.coords_injective
  coords_zero := if_pos rfl
  coords_base := by
    have one : (1 : ZMod N).val = 1 := ZMod.val_one N
    rw [coords, if_neg one_ne_zero, one, table.base]
    rfl
  coords_range := table.coords_range
  scalarMult Q k _ := by simp [curve, multiple_coords]
  add Q R := by simp [curve, multiple_coords]

end PointTable
end SchnorrMpc

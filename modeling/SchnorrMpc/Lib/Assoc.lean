import Mathlib.Data.List.Nodup
import Mathlib.Data.List.Perm.Basic

/-!
# Maps without an order

A map of the programming language is the list of its entries. The language does
not fix the order of an iteration, so whoever iterates takes any permutation.
-/
namespace SchnorrMpc.Lib

abbrev Assoc (κ ν : Type) := List (κ × ν)

namespace Assoc

variable {κ ν : Type} [DecidableEq κ]

/-- `entries[key] = value`. -/
def assign (entries : Assoc κ ν) (key : κ) (value : ν) : Assoc κ ν :=
  entries.filter (fun entry => entry.1 ≠ key) ++ [(key, value)]

/-- `delete(entries, key)`. -/
def erase (entries : Assoc κ ν) (key : κ) : Assoc κ ν :=
  entries.filter (fun entry => entry.1 ≠ key)

theorem lookup_erase [BEq κ] [LawfulBEq κ] (entries : Assoc κ ν) (key other : κ) :
    (erase entries key).lookup other = if other = key then none else entries.lookup other := by
  induction entries with
  | nil => simp [erase]
  | cons entry entries ih =>
    obtain ⟨k, v⟩ := entry
    unfold erase at ih ⊢
    by_cases dropped : k = key
    · subst dropped
      by_cases same : other = k
      · simpa [List.filter_cons, same] using ih
      · have miss : (other == k) = false := beq_eq_false_iff_ne.mpr same
        simpa [List.filter_cons, List.lookup_cons, same, miss] using ih
    · by_cases hit : other = k
      · subst hit
        simp [dropped]
      · have miss : (other == k) = false := beq_eq_false_iff_ne.mpr hit
        simpa [List.filter_cons, List.lookup_cons, dropped, miss] using ih

theorem lookup_assign [BEq κ] [LawfulBEq κ] (entries : Assoc κ ν) (key other : κ) (value : ν) :
    (assign entries key value).lookup other =
      if other = key then some value else entries.lookup other := by
  have dropped := lookup_erase entries key other
  unfold erase at dropped
  rw [assign, List.lookup_append, dropped]
  split
  next same => simp [same]
  next differs =>
    have miss : (other == key) = false := beq_eq_false_iff_ne.mpr differs
    simp [List.lookup_cons, miss]

theorem assign_of_absent [BEq κ] [LawfulBEq κ] {entries : Assoc κ ν} {key : κ}
    (absent : entries.lookup key = none) (value : ν) :
    assign entries key value = entries ++ [(key, value)] := by
  rw [List.lookup_eq_none_iff] at absent
  rw [assign, List.filter_eq_self.mpr]
  intro entry member
  have differs := absent entry member
  simp only [bne_iff_ne] at differs
  exact decide_eq_true differs.symm

omit [DecidableEq κ] in
theorem mem_of_lookup [BEq κ] [LawfulBEq κ] {entries : Assoc κ ν} {key : κ} {value : ν}
    (found : entries.lookup key = some value) : (key, value) ∈ entries := by
  obtain ⟨before, after, rfl, -⟩ := List.lookup_eq_some_iff.mp found
  simp

theorem nodup_keys_assign {entries : Assoc κ ν} (distinct : (entries.map Prod.fst).Nodup)
    (key : κ) (value : ν) : ((assign entries key value).map Prod.fst).Nodup := by
  rw [assign, List.map_append, List.map_cons, List.map_nil]
  refine List.Nodup.append (distinct.sublist (List.filter_sublist.map _)) (by simp) ?_
  intro k member same
  obtain ⟨entry, kept, rfl⟩ := List.mem_map.mp member
  have differs := (List.mem_filter.mp kept).2
  simp_all

theorem lookup_foldl_assign_of_absent [BEq κ] [LawfulBEq κ] {α : Type} (value : α → ν)
    {items : List (κ × α)} {key : κ} (absent : key ∉ items.map Prod.fst) (start : Assoc κ ν) :
    (items.foldl (fun entries item => assign entries item.1 (value item.2)) start).lookup key =
      start.lookup key := by
  induction items generalizing start with
  | nil => rfl
  | cons item items ih =>
    simp only [List.map_cons, List.mem_cons, not_or] at absent
    rw [List.foldl_cons, ih absent.2, lookup_assign, if_neg absent.1]

theorem lookup_foldl_assign [BEq κ] [LawfulBEq κ] {α : Type} (value : α → ν)
    {items : List (κ × α)} (distinct : (items.map Prod.fst).Nodup) {key : κ} {item : α}
    (member : (key, item) ∈ items) (start : Assoc κ ν) :
    (items.foldl (fun entries item => assign entries item.1 (value item.2)) start).lookup key =
      some (value item) := by
  induction items generalizing start with
  | nil => cases member
  | cons first items ih =>
    simp only [List.map_cons, List.nodup_cons] at distinct
    rw [List.foldl_cons]
    rcases List.mem_cons.mp member with here | later
    · subst here
      rw [lookup_foldl_assign_of_absent value distinct.1, lookup_assign, if_pos rfl]
    · exact ih distinct.2 later _

end Assoc
end SchnorrMpc.Lib

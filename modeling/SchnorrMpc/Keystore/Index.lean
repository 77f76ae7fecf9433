import SchnorrMpc.Keystore.Store

/-!
# Finding the one account of an address

An address that one file answers for is found, whether or not the directory is
scanned first.
-/
namespace SchnorrMpc

open Lib

namespace KeyStore

variable {all : List Account} {address : Address} {account : Account}

/-- The account answers a search for the address. The zero address searches for any. -/
def Matches (address : Address) (account : Account) : Prop :=
  address = zeroAddress ∨ account.address = address

instance (address : Address) (account : Account) : Decidable (Matches address account) :=
  inferInstanceAs (Decidable (_ ∨ _))

def candidates (all : List Account) (address : Address) : List Account :=
  all.filter (fun account => Matches address account)

theorem findInCache_of_candidates (sole : candidates all address = [account]) :
    findInCache all address = .ok account := by
  have searched :
      (if address ≠ zeroAddress then all.filter (fun account => account.address = address)
      else all) = [account] := by
    rw [← sole, candidates]
    by_cases zero : address = zeroAddress
    · simp [Matches, zero]
    · simp [Matches, zero]
  rw [findInCache, searched]

theorem mem_of_candidates (sole : candidates all address = [account]) : account ∈ all := by
  have member : account ∈ candidates all address := by rw [sole]; exact List.mem_singleton_self _
  exact List.mem_of_mem_filter member

/-! ### What an update of the index does to the search -/

theorem candidates_add {other : Account} (differs : ¬Matches address other) :
    candidates (add all other) address = candidates all address := by
  unfold add
  split
  · rfl
  · simp [candidates, differs]

theorem candidates_add_new (free : candidates all address = [])
    (answers : Matches address account) : candidates (add all account) address = [account] := by
  have absent : account ∉ all := by
    intro member
    have found : account ∈ candidates all address :=
      List.mem_filter.mpr ⟨member, decide_eq_true answers⟩
    rw [free] at found
    cases found
  rw [add, if_neg absent, candidates, List.filter_append, ← candidates, free]
  simp [answers]

theorem candidates_deleteByFile (sole : candidates all address = [account]) {path : Bytes}
    (other : path ≠ account.path) : candidates (deleteByFile all path) address = [account] := by
  unfold deleteByFile
  split
  next removed found =>
    have there := List.find?_some found
    have differs : ¬Matches address removed := by
      intro answers
      have candidate : removed ∈ candidates all address :=
        List.mem_filter.mpr ⟨List.mem_of_find?_eq_some found, decide_eq_true answers⟩
      rw [sole, List.mem_singleton] at candidate
      subst candidate
      exact other (of_decide_eq_true there).symm
    have absent : removed ∉ candidates all address :=
      fun candidate => differs (of_decide_eq_true (List.mem_filter.mp candidate).2)
    rw [candidates, ← List.erase_filter, ← candidates, List.erase_of_not_mem absent, sole]
  next => exact sole

/-! ### Scanning -/

/-- The files of a directory that do not concern an address can be read and are of others; the
one file that does is at `path`. -/
structure SoleFile (kenv : KeyEnv) (ks : KeyStore) (address : Address) (path : Bytes) : Prop where
  present : path ∈ ks.files.map Prod.fst
  unseen : path ∉ ks.seen
  others : ∀ other ∈ ks.files.map Prod.fst, other ≠ path → ∃ found,
    readAccount kenv ks other = .ok found ∧ ∀ account ∈ found, ¬Matches address account
  own : readAccount kenv ks path =
    .ok (if address = zeroAddress then none else some ⟨address, path⟩)

section Scan

variable {kenv : KeyEnv} {ks : KeyStore} {address : Address} {path : Bytes}
variable (file : SoleFile kenv ks address path)

include file

private theorem indexFile_other (all : List Account) {other : Bytes}
    (listed : other ∈ ks.files.map Prod.fst) (differs : other ≠ path) :
    ∃ after, indexFile kenv ks all other = .ok after ∧
      candidates after address = candidates all address := by
  obtain ⟨found, read, apart⟩ := file.others other listed differs
  rw [indexFile, read, Outcome.ok_bind]
  cases found with
  | none => exact ⟨all, rfl, rfl⟩
  | some account => exact ⟨add all account, rfl, candidates_add (apart account rfl)⟩

private theorem indexFile_own
    (start : candidates all address = [⟨address, path⟩] ∨ candidates all address = [] ∧
      address ≠ zeroAddress) :
    ∃ after, indexFile kenv ks all path = .ok after ∧
      candidates after address = [⟨address, path⟩] := by
  rw [indexFile, file.own, Outcome.ok_bind]
  by_cases zero : address = zeroAddress
  · rcases start with sole | ⟨-, nonzero⟩
    · exact ⟨all, by rw [if_pos zero]; rfl, sole⟩
    · exact absurd zero nonzero
  · refine ⟨add all ⟨address, path⟩, by rw [if_neg zero]; rfl, ?_⟩
    rcases start with sole | ⟨free, -⟩
    · rw [add, if_pos (mem_of_candidates sole), sole]
    · exact candidates_add_new free (Or.inr rfl)

/-- New files keep a sole account, and bring it when they include its file. -/
private theorem foldlM_indexFile {paths : List Bytes}
    (listed : ∀ p ∈ paths, p ∈ ks.files.map Prod.fst)
    (start : candidates all address = [⟨address, path⟩] ∨ candidates all address = [] ∧
      address ≠ zeroAddress ∧ path ∈ paths) :
    ∃ after, paths.foldlM (indexFile kenv ks) all = .ok after ∧
      candidates after address = [⟨address, path⟩] := by
  induction paths generalizing all with
  | nil =>
    rcases start with sole | ⟨-, -, absent⟩
    · exact ⟨all, rfl, sole⟩
    · cases absent
  | cons first rest ih =>
    rw [List.foldlM_cons]
    have laterListed : ∀ p ∈ rest, p ∈ ks.files.map Prod.fst :=
      fun p member => listed p (List.mem_cons_of_mem _ member)
    by_cases own : first = path
    · subst own
      obtain ⟨after, indexed, sole⟩ := indexFile_own file
        (start.imp_right fun free => ⟨free.1, free.2.1⟩)
      rw [indexed, Outcome.ok_bind]
      exact ih laterListed (Or.inl sole)
    · obtain ⟨after, indexed, same⟩ := indexFile_other file all
        (listed first List.mem_cons_self) own
      rw [indexed, Outcome.ok_bind]
      refine ih laterListed ?_
      rw [same]
      refine start.imp_right fun ⟨free, nonzero, member⟩ => ⟨free, nonzero, ?_⟩
      exact (List.mem_cons.mp member).resolve_left (Ne.symm own)

omit file in
private theorem foldl_deleteByFile (paths : List Bytes) (apart : path ∉ paths)
    (sole : candidates all address = [⟨address, path⟩]) :
    candidates (paths.foldl deleteByFile all) address = [⟨address, path⟩] := by
  induction paths generalizing all with
  | nil => exact sole
  | cons first rest ih =>
    rw [List.mem_cons, not_or] at apart
    exact ih apart.2 (candidates_deleteByFile sole (Ne.symm apart.1))

private theorem foldlM_reindex (paths : List Bytes)
    (listed : ∀ p ∈ paths, p ∈ ks.files.map Prod.fst) (apart : path ∉ paths)
    (sole : candidates all address = [⟨address, path⟩]) :
    ∃ after, paths.foldlM (fun all path => indexFile kenv ks (deleteByFile all path) path) all =
        .ok after ∧ candidates after address = [⟨address, path⟩] := by
  induction paths generalizing all with
  | nil => exact ⟨all, rfl, sole⟩
  | cons first rest ih =>
    rw [List.mem_cons, not_or] at apart
    have deleted := candidates_deleteByFile sole (Ne.symm apart.1)
    obtain ⟨after, indexed, same⟩ := indexFile_other file (deleteByFile all first)
      (listed first List.mem_cons_self) (Ne.symm apart.1)
    rw [List.foldlM_cons, indexed, Outcome.ok_bind]
    exact ih (fun p member => listed p (List.mem_cons_of_mem _ member)) apart.2 (same.trans deleted)

theorem scanAccounts_sole (modified : List Bytes)
    (start : candidates ks.all address = [⟨address, path⟩] ∨
      candidates ks.all address = [] ∧ address ≠ zeroAddress) :
    ∃ after, ks.scanAccounts kenv modified = .ok after ∧ after.files = ks.files ∧
      candidates after.all address = [⟨address, path⟩] := by
  have added : path ∈ (ks.files.map Prod.fst).filter (fun path => path ∉ ks.seen) :=
    List.mem_filter.mpr ⟨file.present, decide_eq_true file.unseen⟩
  obtain ⟨all, indexed, sole⟩ :=
    foldlM_indexFile file (fun p member => List.mem_of_mem_filter member)
      (start.imp_right fun free => ⟨free.1, free.2, added⟩)
  have kept := foldl_deleteByFile (ks.seen.filter (fun path => path ∉ ks.files.map Prod.fst))
    (fun member => file.unseen (List.mem_of_mem_filter member)) sole
  obtain ⟨after, reindexed, final⟩ := foldlM_reindex file
    (modified.filter (fun path => path ∈ ks.files.map Prod.fst ∧ path ∈ ks.seen))
    (fun p member => (of_decide_eq_true (List.mem_filter.mp member).2).1)
    (fun member => file.unseen (of_decide_eq_true (List.mem_filter.mp member).2).2) kept
  refine ⟨{ ks with all := after, seen := ks.files.map Prod.fst }, ?_, rfl, final⟩
  simp only [scanAccounts, indexed, Outcome.ok_bind, reindexed, Outcome.pure_eq]

theorem find_sole (reload : Option (List Bytes))
    (start : candidates ks.all address = [⟨address, path⟩] ∨
      candidates ks.all address = [] ∧ address ≠ zeroAddress ∧ reload ≠ none) :
    ∃ after, ks.find kenv address reload = .ok (⟨address, path⟩, after) ∧
      after.files = ks.files := by
  cases reload with
  | none =>
    rcases start with sole | ⟨-, -, scanned⟩
    · refine ⟨ks, ?_, rfl⟩
      simp only [find, Outcome.ok_bind, findInCache_of_candidates sole, Outcome.pure_eq]
    · exact absurd rfl scanned
  | some modified =>
    obtain ⟨after, scanned, files, sole⟩ := scanAccounts_sole file modified
      (start.imp_right fun free => ⟨free.1, free.2.1⟩)
    refine ⟨after, ?_, files⟩
    simp only [find, scanned, Outcome.ok_bind, findInCache_of_candidates sole, Outcome.pure_eq]

end Scan
end KeyStore
end SchnorrMpc

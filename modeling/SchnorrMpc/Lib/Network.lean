import Mathlib.Logic.Function.Basic
import Mathlib.Logic.Relation

/-!
# Networks of honest and other nodes

Honest nodes take their own steps in any order. A message from an honest node
arrives only if that node has sent it, at any time later and any number of
times, or never. The other members of the network send what they like. So a run
of the network is, for each honest node, a run of that node alone among the
messages that the others can have sent.
-/
namespace SchnorrMpc.Lib.Network

variable {ι σ μ : Type}

/-- The states of the honest nodes. -/
abbrev World (ι σ : Type) := ι → Option σ

/-- The messages that can come to node `p`: from a member, and sent to `p` if that one is honest. -/
def Arrives (member : ι → Prop) (sent : σ → ι → μ → Prop) (w : World ι σ) (p q : ι) (m : μ) :
    Prop :=
  member q ∧ ∀ t, w q = some t → sent t p m

variable [DecidableEq ι]

/-- One step of one honest node. -/
inductive Moves (step : (ι → μ → Prop) → σ → σ → Prop) (member : ι → Prop)
    (sent : σ → ι → μ → Prop) : World ι σ → World ι σ → Prop where
  | node (w : World ι σ) (p : ι) (s t : σ) (here : w p = some s)
      (taken : step (Arrives member sent w p) s t) :
      Moves step member sent w (Function.update w p (some t))

section Runs

variable {step : (ι → μ → Prop) → σ → σ → Prop} {member : ι → Prop} {sent : σ → ι → μ → Prop}

abbrev Reaches (step : (ι → μ → Prop) → σ → σ → Prop) (member : ι → Prop)
    (sent : σ → ι → μ → Prop) : World ι σ → World ι σ → Prop :=
  Relation.ReflTransGen (Moves step member sent)

variable (grows : ∀ arrives s t, step arrives s t → ∀ p m, sent s p m → sent t p m)

include grows

theorem Moves.arrives_mono {w w' : World ι σ} (moves : Moves step member sent w w') {p q : ι}
    {m : μ} (arrives : Arrives member sent w p q m) : Arrives member sent w' p q m := by
  obtain ⟨r, s, t, here, taken⟩ := moves
  refine ⟨arrives.1, fun u found => ?_⟩
  by_cases same : q = r
  · subst same
    rw [Function.update_self] at found
    cases found
    exact grows _ _ _ taken _ _ (arrives.2 s here)
  · rw [Function.update_of_ne same] at found
    exact arrives.2 u found

theorem Reaches.arrives_mono {w w' : World ι σ} (reaches : Reaches step member sent w w')
    {p q : ι} {m : μ} (arrives : Arrives member sent w p q m) :
    Arrives member sent w' p q m := by
  induction reaches with
  | refl => exact arrives
  | tail _ last ih => exact last.arrives_mono grows ih

variable (mono : ∀ {few many : ι → μ → Prop} {s t}, (∀ q m, few q m → many q m) →
  step few s t → step many s t)

include mono

theorem Reaches.project {w w' : World ι σ} (reaches : Reaches step member sent w w') {p : ι}
    {s : σ} (here : w p = some s) :
    ∃ t, w' p = some t ∧ Relation.ReflTransGen (step (Arrives member sent w' p)) s t := by
  induction reaches with
  | refl => exact ⟨s, here, .refl⟩
  | @tail v w' _ last ih =>
    obtain ⟨t, at', run⟩ := ih
    have lifted : Relation.ReflTransGen (step (Arrives member sent w' p)) s t :=
      Relation.ReflTransGen.mono (fun _ _ => mono fun _ _ => last.arrives_mono grows) _ _ run
    obtain ⟨r, u, u', moved, taken⟩ := last
    by_cases same : p = r
    · subst same
      obtain rfl : t = u := Option.some.inj (at'.symm.trans moved)
      refine ⟨u', Function.update_self .., lifted.tail (mono ?_ taken)⟩
      exact fun _ _ => (Moves.node _ _ _ _ moved taken).arrives_mono grows
    · exact ⟨t, by rw [Function.update_of_ne same, at'], lifted⟩

theorem Reaches.of_node {w : World ι σ} {p : ι} {s t : σ} (here : w p = some s)
    (run : Relation.ReflTransGen (step (Arrives member sent w p)) s t) :
    Reaches step member sent w (Function.update w p (some t)) := by
  induction run with
  | refl =>
    rw [← here, Function.update_eq_self]
  | @tail u t _ last ih =>
    have taken : step (Arrives member sent (Function.update w p (some u)) p) u t :=
      mono (fun _ _ => ih.arrives_mono grows) last
    have move := Moves.node _ p u t (Function.update_self ..) taken
    rw [Function.update_idem] at move
    exact ih.tail move

theorem Reaches.origin {w w' : World ι σ} (reaches : Reaches step member sent w w') {p : ι}
    {t : σ} (here : w' p = some t) :
    ∃ s, w p = some s ∧ Relation.ReflTransGen (step (Arrives member sent w' p)) s t := by
  have honest : ∃ s, w p = some s := by
    induction reaches generalizing t with
    | refl => exact ⟨t, here⟩
    | @tail v w' _ last ih =>
      obtain ⟨r, u, u', moved, taken⟩ := last
      by_cases same : p = r
      · exact ih (same ▸ moved)
      · rw [Function.update_of_ne same] at here
        exact ih here
  obtain ⟨s, start⟩ := honest
  obtain ⟨t', at', run⟩ := reaches.project grows mono start
  cases at'.symm.trans here
  exact ⟨s, start, run⟩

end Runs

section Measures

/-- The sum of a measure over these nodes. -/
def total (nodes : List ι) (measure : σ → Nat) (w : World ι σ) : Nat :=
  nodes.foldr (fun p rest => (w p).elim 0 measure + rest) 0

omit [DecidableEq ι] in
theorem total_le {nodes : List ι} {measure : σ → Nat} {w : World ι σ} {bound : Nat}
    (each : ∀ p ∈ nodes, (w p).elim 0 measure ≤ bound) :
    total nodes measure w ≤ nodes.length * bound := by
  induction nodes with
  | nil => exact Nat.zero_le _
  | cons p rest ih =>
    have head := each p List.mem_cons_self
    have tail := ih fun q member => each q (List.mem_cons_of_mem p member)
    rw [List.length_cons, Nat.succ_mul, Nat.add_comm]
    exact Nat.add_le_add head tail

theorem total_update_lt {nodes : List ι} {measure : σ → Nat} {w : World ι σ} {p : ι} {s t : σ}
    (member : p ∈ nodes) (here : w p = some s) (less : measure t < measure s) :
    total nodes measure (Function.update w p (some t)) < total nodes measure w := by
  have down (q : ι) : (Function.update w p (some t) q).elim 0 measure ≤ (w q).elim 0 measure := by
    by_cases same : q = p
    · subst same
      rw [Function.update_self, here]
      exact Nat.le_of_lt less
    · exact Nat.le_of_eq (by rw [Function.update_of_ne same])
  have most (rest : List ι) :
      total rest measure (Function.update w p (some t)) ≤ total rest measure w := by
    induction rest with
    | nil => exact Nat.le_refl _
    | cons q rest ih => exact Nat.add_le_add (down q) ih
  induction nodes with
  | nil => cases member
  | cons q rest ih =>
    rcases List.mem_cons.mp member with rfl | later
    · refine Nat.add_lt_add_of_lt_of_le ?_ (most rest)
      rw [Function.update_self, here]
      exact less
    · exact Nat.add_lt_add_of_le_of_lt (down q) (ih later)

end Measures
end SchnorrMpc.Lib.Network

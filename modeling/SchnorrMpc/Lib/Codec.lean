import SchnorrMpc.Lib.Bytes
import SchnorrMpc.Lib.Outcome
import Mathlib.Logic.Relation
import Mathlib.Tactic.DeriveEncodable

/-!
# Codecs with a state at each end

A sender changes its state with every message that it writes, and the receiver
has to change its own in the same way to read what follows. If reading one
message after writing it keeps the two in step, then they are in step for good:
whatever is written, in whatever way writing and reading take turns, is read
once, in order and without a failure.

## Main results

* `Link.Sound.inOrder`: what has been read is what was written first.
* `Link.Sound.next`: when something is on its way, the next message can be read.
-/
namespace SchnorrMpc.Lib

/-- Writing and reading of messages `μ` as symbols `α`. -/
structure Codec (α σ τ μ ε : Type) where
  write : σ → μ → Outcome ε (List α × σ)
  read : τ → List α → Outcome ε (μ × τ × List α)

namespace Codec

variable {α σ τ μ ε : Type}

/-- A relation between the states of the two ends that messages of a kind keep. -/
structure InStep (codec : Codec α σ τ μ ε) (Good : μ → Prop) (Together : σ → τ → Prop) : Prop where
  /-- What is written is read, whatever comes after it. -/
  reads : ∀ {s t m code s'}, Together s t → Good m → codec.write s m = .ok (code, s') →
    ∃ t', (∀ rest, codec.read t (code ++ rest) = .ok (m, t', rest)) ∧ Together s' t'
  /-- Nothing is read from nothing. -/
  waits : ∀ t m t' rest, codec.read t [] ≠ .ok (m, t', rest)

/-- Messages that are written one after the other, with the symbols and the last state. -/
inductive Writes (codec : Codec α σ τ μ ε) : σ → List μ → List α → σ → Prop where
  | nil (s : σ) : Writes codec s [] [] s
  | cons {s middle s' : σ} {m : μ} {ms : List μ} {code codes : List α}
      (writes : codec.write s m = .ok (code, middle)) (rest : Writes codec middle ms codes s') :
      Writes codec s (m :: ms) (code ++ codes) s'

theorem Writes.snoc {codec : Codec α σ τ μ ε} {s middle s' : σ} {m : μ} {ms : List μ}
    {code codes : List α} (before : Writes codec s ms codes middle)
    (writes : codec.write middle m = .ok (code, s')) :
    Writes codec s (ms ++ [m]) (codes ++ code) s' := by
  induction before with
  | nil s =>
    have one := Writes.cons writes (.nil s')
    rwa [List.append_nil] at one
  | cons first _ ih =>
    rw [List.append_assoc]
    exact .cons first (ih writes)

/-- A line from a sender to a receiver, with all that has been written and read. -/
structure Link (α σ τ μ : Type) where
  sender : σ
  receiver : τ
  wire : List α
  sent : List μ
  got : List μ

namespace Link

/-- The sender writes a message of a kind, or the receiver reads one. -/
inductive Moves (codec : Codec α σ τ μ ε) (Good : μ → Prop) (l : Link α σ τ μ) :
    Link α σ τ μ → Prop where
  | write {m : μ} {code : List α} {s : σ} (good : Good m)
      (writes : codec.write l.sender m = .ok (code, s)) :
      Moves codec Good l { l with sender := s, wire := l.wire ++ code, sent := l.sent ++ [m] }
  | read {m : μ} {t : τ} {rest : List α} (reads : codec.read l.receiver l.wire = .ok (m, t, rest)) :
      Moves codec Good l { l with receiver := t, wire := rest, got := l.got ++ [m] }

def Reaches (codec : Codec α σ τ μ ε) (Good : μ → Prop) : Link α σ τ μ → Link α σ τ μ → Prop :=
  Relation.ReflTransGen (Moves codec Good)

/-- The receiver is where the sender was before it wrote the messages on the wire. -/
def Sound (codec : Codec α σ τ μ ε) (Good : μ → Prop) (Together : σ → τ → Prop)
    (l : Link α σ τ μ) : Prop :=
  ∃ behind pending, Together behind l.receiver ∧ Writes codec behind pending l.wire l.sender ∧
    l.sent = l.got ++ pending ∧ ∀ m ∈ pending, Good m

variable {codec : Codec α σ τ μ ε} {Good : μ → Prop} {Together : σ → τ → Prop}
  {l l' : Link α σ τ μ}

theorem Moves.sound (inStep : codec.InStep Good Together) (moves : Moves codec Good l l')
    (sound : l.Sound codec Good Together) : l'.Sound codec Good Together := by
  obtain ⟨sender, receiver, wire, sent, got⟩ := l
  obtain ⟨behind, pending, together, writes, split, allGood⟩ := sound
  dsimp only at together writes split
  cases moves with
  | write good wrote =>
    refine ⟨behind, pending ++ [_], together, writes.snoc wrote, ?_, ?_⟩
    · rw [split, List.append_assoc]
    · intro m member
      rcases List.mem_append.mp member with old | new
      · exact allGood m old
      · rw [List.mem_singleton.mp new]
        exact good
  | read reads =>
    cases writes with
    | nil => exact absurd reads (inStep.waits _ _ _ _)
    | cons first rest =>
      -- the message that was written first is the one that is read
      obtain ⟨t, isRead, stillTogether⟩ :=
        inStep.reads together (allGood _ List.mem_cons_self) first
      cases reads.symm.trans (isRead _)
      refine ⟨_, _, stillTogether, rest, ?_, fun m member => ?_⟩
      · rw [split, List.append_assoc]
        rfl
      · exact allGood m (List.mem_cons_of_mem _ member)

theorem Reaches.sound (inStep : codec.InStep Good Together) (reaches : Reaches codec Good l l')
    (sound : l.Sound codec Good Together) : l'.Sound codec Good Together := by
  induction reaches with
  | refl => exact sound
  | tail _ last ih => exact last.sound inStep ih

theorem sound_of_together {s : σ} {t : τ} (together : Together s t) :
    Sound codec Good Together ⟨s, t, [], [], []⟩ :=
  ⟨s, [], together, .nil s, rfl, fun _ member => absurd member List.not_mem_nil⟩

theorem Sound.inOrder (sound : l.Sound codec Good Together) : l.got <+: l.sent := by
  obtain ⟨behind, pending, together, writes, split, -⟩ := sound
  exact ⟨pending, split.symm⟩

theorem Sound.complete (inStep : codec.InStep Good Together) (sound : l.Sound codec Good Together)
    (empty : l.wire = []) : l.got = l.sent := by
  obtain ⟨sender, receiver, wire, sent, got⟩ := l
  obtain ⟨behind, pending, together, writes, split, allGood⟩ := sound
  dsimp only at together writes split empty ⊢
  cases writes with
  | nil => rw [split, List.append_nil]
  | cons first rest =>
    -- a message that takes no symbols could be read from nothing
    obtain ⟨rfl, rfl⟩ := List.append_eq_nil_iff.mp empty
    obtain ⟨t, isRead, -⟩ := inStep.reads together (allGood _ List.mem_cons_self) first
    exact absurd (isRead []) (inStep.waits _ _ _ _)

theorem Sound.next (inStep : codec.InStep Good Together) (sound : l.Sound codec Good Together)
    (busy : l.wire ≠ []) :
    ∃ m t rest, codec.read l.receiver l.wire = .ok (m, t, rest) ∧ l.got ++ [m] <+: l.sent := by
  obtain ⟨sender, receiver, wire, sent, got⟩ := l
  obtain ⟨behind, pending, together, writes, split, allGood⟩ := sound
  dsimp only at together writes split busy ⊢
  cases writes with
  | nil => exact absurd rfl busy
  | @cons _ _ _ m ms code codes first rest =>
    obtain ⟨t, isRead, -⟩ := inStep.reads together (allGood _ List.mem_cons_self) first
    refine ⟨m, t, codes, isRead _, ms, ?_⟩
    rw [split, List.append_assoc]
    rfl

end Link
end Codec

/-! ### Texts of values

Some text for every value of a countable type, for packages of which only the round trip matters. -/

instance encodableByte : Encodable UInt8 := .ofLeftInverse UInt8.toNat UInt8.ofNat fun _ =>
    UInt8.ofNat_toNat

/-- Some text that is not empty and gives the value back. -/
def textOf {α : Type} [Encodable α] (value : α) : Bytes := natBytes (Encodable.encode value + 1)

def valueOf {α : Type} [Encodable α] (text : Bytes) : Option α := Encodable.decode (beNat text - 1)

theorem valueOf_textOf {α : Type} [Encodable α]
    (value : α) : valueOf (textOf value) = some value := by
  rw [valueOf, textOf, beNat_natBytes, Nat.add_sub_cancel, Encodable.encodek]

theorem textOf_ne_nil {α : Type} [Encodable α] (value : α) : textOf value ≠ [] := by
  intro empty
  have length := congrArg List.length empty
  rw [textOf, length_natBytes, List.length_nil] at length
  exact (byteLen_pos_iff.mpr (Nat.succ_pos _)).ne' length

end SchnorrMpc.Lib

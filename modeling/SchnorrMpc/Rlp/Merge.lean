import SchnorrMpc.Rlp.Encode

/-!
# What the encoder writes

A buffer is described by the pieces that have been put into it, string data and list headers in
their order. Both writers give the bytes of these pieces one after the other, and the pieces of a
message spell its canonical encoding.
-/
namespace SchnorrMpc.Rlp

open Lib Lib.Rlp

variable {i rounds strpos mid : Nat} {str : Bytes} {α : Type} {msg : MpcMessage}

/-! ### Integers and headers -/

theorem intsize_go {width : Nat} (least : width = 0 ∨ 256 ^ width ≤ i)
    (ends : i < 256 ^ (width + 1) ∧ width < rounds ∨ width + 1 = rounds) :
    intsize.go rounds i = width + 1 := by
  induction width generalizing i rounds with
  | zero =>
    obtain ⟨rounds, rfl⟩ : ∃ r, rounds = r + 1 := ⟨rounds - 1, by omega⟩
    rw [intsize.go]
    split
    · rfl
    · have last : rounds = 0 := by omega
      rw [last, intsize.go]
  | succ width ih =>
    obtain ⟨rounds, rfl⟩ : ∃ r, rounds = r + 1 := ⟨rounds - 1, by omega⟩
    rw [pow_succ, pow_succ] at ends
    rw [pow_succ] at least
    have positive : 0 < 256 ^ width := Nat.pow_pos (by decide)
    have shifted : 256 ^ width ≤ i / 256 := by omega
    rw [intsize.go, if_neg (by omega), ih (.inr shifted)]
    rw [pow_succ]
    omega

theorem putint_cases (i : Nat) : ∃ width, putint i = bePad (width + 1) i ∧
    (width = 0 ∨ 256 ^ width ≤ i) ∧ (i < 256 ^ (width + 1) ∧ width < 8 ∨ width + 1 = 8) := by
  unfold putint
  split
  · exact ⟨0, rfl, by omega, by omega⟩
  split
  · exact ⟨1, rfl, by omega, by omega⟩
  split
  · exact ⟨2, rfl, by omega, by omega⟩
  split
  · exact ⟨3, rfl, by omega, by omega⟩
  split
  · exact ⟨4, rfl, by omega, by omega⟩
  split
  · exact ⟨5, rfl, by omega, by omega⟩
  split
  · exact ⟨6, rfl, by omega, by omega⟩
  · exact ⟨7, rfl, by omega, by omega⟩

theorem length_putint (i : Nat) : (putint i).length = intsize i := by
  obtain ⟨width, written, least, ends⟩ := putint_cases i
  rw [written, length_bePad, intsize, intsize_go least ends]

theorem putint_eq (positive : 0 < i) (range : i < 2 ^ 64) : putint i = natBytes i := by
  obtain ⟨width, written, least, ends⟩ := putint_cases i
  have atLeast : 256 ^ width ≤ i := by
    rcases least with rfl | least
    · exact positive
    · exact least
  have fits : i < 256 ^ (width + 1) := by
    rcases ends with ⟨fits, -⟩ | last
    · exact fits
    · rw [last]
      exact range
  rw [written, natBytes, byteLen_eq atLeast fits]

theorem puthead_eq (small large : Nat) {size : Nat} (range : size < 2 ^ 64) :
    puthead small large size = header small large size := by
  unfold puthead header
  split
  · rfl
  · rw [putint_eq (by omega) range, length_natBytes]

theorem length_puthead (small large size : Nat) :
    (puthead small large size).length = if size < 56 then 1 else 1 + intsize size := by
  unfold puthead
  split
  · rfl
  · rw [List.length_cons, length_putint, Nat.add_comm]

/-! ### Pieces -/

/-- String data or the header of a list of a size. -/
inductive Piece where
  | data (bytes : Bytes)
  | head (size : Nat)

namespace Piece

def bytes : Piece → Bytes
  | data bytes => bytes
  | head size => puthead 0xC0 0xF7 size

/-- What goes into the string data of a buffer. -/
def text : Piece → Bytes
  | data bytes => bytes
  | head _ => []

end Piece

/-- The bytes of pieces, one after the other. -/
def spell (doc : List Piece) : Bytes := doc.flatMap Piece.bytes

def text (doc : List Piece) : Bytes := doc.flatMap Piece.text

/-- The list headers among pieces that are written from an offset on. -/
def heads : Nat → List Piece → List ListHead
  | _, [] => []
  | offset, .data bytes :: doc => heads (offset + bytes.length) doc
  | offset, .head size :: doc => ⟨offset, size⟩ :: heads offset doc

/-- The bytes that headers take. -/
def headSize : List Piece → Nat
  | [] => 0
  | .data _ :: doc => headSize doc
  | .head size :: doc => (puthead 0xC0 0xF7 size).length + headSize doc

/-- The pieces of a list. -/
def listPieces (doc : List Piece) : List Piece := .head (spell doc).length :: doc

section Doc

variable {doc more : List Piece} {bytes : Bytes} {w : EncBuf}

@[simp] theorem spell_nil : spell [] = [] := rfl

@[simp] theorem spell_cons (piece : Piece) : spell (piece :: doc) = piece.bytes ++ spell doc := rfl

@[simp] theorem spell_append : spell (doc ++ more) = spell doc ++ spell more :=
  List.flatMap_append

@[simp] theorem text_nil : text [] = [] := rfl

@[simp] theorem text_cons (piece : Piece) : text (piece :: doc) = piece.text ++ text doc := rfl

@[simp] theorem text_append : text (doc ++ more) = text doc ++ text more :=
  List.flatMap_append

theorem heads_append (offset : Nat) :
    heads offset (doc ++ more) = heads offset doc ++ heads (offset + (text doc).length) more := by
  induction doc generalizing offset with
  | nil => simp [heads]
  | cons piece doc ih =>
    cases piece with
    | data bytes => simp [heads, ih, Piece.text, Nat.add_assoc]
    | head size => simp [heads, ih, Piece.text]

theorem headSize_append : headSize (doc ++ more) = headSize doc + headSize more := by
  induction doc with
  | nil => simp [headSize]
  | cons piece doc ih =>
    cases piece with
    | data bytes => simp [headSize, ih]
    | head size => simp [headSize, ih, Nat.add_assoc]

theorem length_spell : (spell doc).length = (text doc).length + headSize doc := by
  induction doc with
  | nil => rfl
  | cons piece doc ih =>
    cases piece with
    | data bytes => simp [headSize, Piece.bytes, Piece.text, ih, Nat.add_assoc]
    | head size =>
      simp only [spell_cons, Piece.bytes, List.length_append, ih, text_cons, Piece.text,
        List.nil_append, headSize]
      omega

namespace EncBuf

/-- A buffer after pieces have been written to it. -/
def add (w : EncBuf) (doc : List Piece) : EncBuf :=
  ⟨w.str ++ text doc, w.lheads ++ heads w.str.length doc, w.lhsize + headSize doc⟩

theorem add_add : (w.add doc).add more = w.add (doc ++ more) := by
  simp [add, heads_append, headSize_append, Nat.add_assoc]

@[simp] theorem add_nil : w.add [] = w := by
  simp [add, heads, headSize]

theorem write_eq_add : w.write bytes = w.add [.data bytes] := by
  simp [add, write, heads, headSize, Piece.text]

theorem listEnd_add : (w.list.2.add doc).listEnd w.list.1 = w.add (listPieces doc) := by
  have here : (w.list.2.add doc).lheads[w.lheads.length]? = some ⟨w.str.length, w.lhsize⟩ := by
    simp [list, add]
  have content : (w.list.2.add doc).size - w.str.length - w.lhsize = (spell doc).length := by
    rw [length_spell]
    simp only [size, list, add, List.length_append]
    omega
  have replaced : (w.list.2.add doc).lheads.set w.lheads.length ⟨w.str.length, (spell doc).length⟩ =
      (w.add (listPieces doc)).lheads := by
    simp [list, add, heads, listPieces]
  unfold listEnd
  simp only [list] at here content replaced ⊢
  simp only [here, content, replaced]
  simp only [add, listPieces, text_cons, Piece.text, List.nil_append, headSize, length_puthead]
  rw [Nat.add_assoc, Nat.add_comm (headSize doc)]

end EncBuf
end Doc

/-! ### The two writers -/

/-- The string data from a position on, with the headers at their offsets. -/
def merge (str : Bytes) : Nat → List ListHead → Bytes
  | strpos, [] => str.drop strpos
  | strpos, head :: heads =>
    (str.take head.offset).drop strpos ++ head.encode ++ merge str (max strpos head.offset) heads

theorem drop_split (after : strpos ≤ mid) (inside : mid ≤ str.length) :
    str.drop strpos = (str.take mid).drop strpos ++ str.drop mid := by
  rw [← List.drop_append_of_le_length (by rw [List.length_take]; omega), List.take_append_drop]

theorem merge_skip {heads : List ListHead} (after : strpos ≤ mid) (inside : mid ≤ str.length)
    (ahead : ∀ head ∈ heads, mid ≤ head.offset) :
    merge str strpos heads = (str.take mid).drop strpos ++ merge str mid heads := by
  cases heads with
  | nil => exact drop_split after inside
  | cons head heads =>
    have bound := ahead head List.mem_cons_self
    have split : (str.take head.offset).drop strpos =
        (str.take mid).drop strpos ++ (str.take head.offset).drop mid := by
      rw [drop_split after (by rw [List.length_take]; omega), List.take_take, min_eq_left bound]
    simp only [merge, split, max_eq_right bound, max_eq_right (after.trans bound),
      List.append_assoc]

theorem heads_offset {doc : List Piece} {offset : Nat} {head : ListHead}
    (member : head ∈ heads offset doc) :
    offset ≤ head.offset ∧ head.offset ≤ offset + (text doc).length := by
  induction doc generalizing offset with
  | nil => cases member
  | cons piece doc ih =>
    cases piece with
    | data bytes =>
      have bounds := ih member
      simp only [text_cons, Piece.text, List.length_append]
      omega
    | head size =>
      rcases List.mem_cons.mp member with rfl | member
      · simp
      · simpa [Piece.text] using ih member

theorem merge_heads (doc : List Piece) (before : Bytes) :
    merge (before ++ text doc) before.length (heads before.length doc) = spell doc := by
  induction doc generalizing before with
  | nil => simp [merge, heads]
  | cons piece doc ih =>
    cases piece with
    | data bytes =>
      have later := ih (before ++ bytes)
      rw [List.length_append, List.append_assoc] at later
      rw [text_cons, Piece.text, heads, spell_cons, Piece.bytes, ← later]
      rw [merge_skip (Nat.le_add_right _ bytes.length) (by simp)
        (fun head member => (heads_offset member).1)]
      congr 1
      rw [← List.append_assoc, ← List.length_append, List.take_left, List.drop_left]
    | head size =>
      rw [text_cons, Piece.text, List.nil_append, heads, merge, max_self, ih before, spell_cons]
      simp [ListHead.encode, Piece.bytes]

/-- `toBytes` merges, if the sizes of the headers have been added up rightly. -/
theorem toBytes_eq {w : EncBuf} (inside : ∀ head ∈ w.lheads, head.offset ≤ w.str.length)
    (sized : (merge w.str 0 w.lheads).length = w.size) :
    w.toBytes = .ok (merge w.str 0 w.lheads) := by
  -- the loop with what has been written so far, and what is still to be merged
  have loop : ∀ (heads : List ListHead) (out : Bytes) (strpos : Nat),
      (∀ head ∈ heads, head.offset ≤ w.str.length) →
      (out ++ merge w.str strpos heads).length = w.size →
      (heads.foldlM (fun (out, strpos) head =>
        let data := ((w.str.take head.offset).drop strpos).take (w.size - out.length)
        if w.size < (out ++ data ++ head.encode).length then .panic
        else .ok (out ++ data ++ head.encode, strpos + data.length)) (out, strpos) >>=
        fun (out, strpos) =>
          let out := out ++ (w.str.drop strpos).take (w.size - out.length)
          (.ok (out ++ List.replicate (w.size - out.length) 0) : Outcome RlpErr Bytes)) =
        .ok (out ++ merge w.str strpos heads) := by
    intro heads
    induction heads with
    | nil =>
      intro out strpos _ total
      rw [merge, List.length_append] at total
      have room : w.size - out.length = (w.str.drop strpos).length := by omega
      simp only [List.foldlM_nil, Outcome.pure_eq, Outcome.ok_bind, merge, room, List.take_length,
        List.length_append]
      rw [← total, Nat.sub_self, List.replicate_zero, List.append_nil]
    | cons head heads ih =>
      intro out strpos inside total
      have bound := inside head List.mem_cons_self
      simp only [merge, List.length_append] at total
      have whole : ((w.str.take head.offset).drop strpos).take (w.size - out.length) =
          (w.str.take head.offset).drop strpos :=
        List.take_of_length_le (by omega)
      have position : strpos + ((w.str.take head.offset).drop strpos).length =
          max strpos head.offset := by
        rw [List.length_drop, List.length_take, min_eq_left bound]
        omega
      have next := ih (out ++ (w.str.take head.offset).drop strpos ++ head.encode)
        (max strpos head.offset) (fun other member => inside other (List.mem_cons_of_mem _ member))
        (by simp only [List.length_append]; omega)
      simp only [List.foldlM_cons, whole, position]
      rw [if_neg (by simp only [List.length_append]; omega), Outcome.ok_bind, next, merge]
      simp only [List.append_assoc]
  exact loop w.lheads [] 0 inside sized

theorem toBytes_add (doc : List Piece) : (EncBuf.empty.add doc).toBytes = .ok (spell doc) := by
  have merged := merge_heads doc []
  rw [List.nil_append, List.length_nil] at merged
  have size : (EncBuf.empty.add doc).size = (spell doc).length := by
    simp [EncBuf.size, EncBuf.add, EncBuf.empty, length_spell]
  have written : merge (EncBuf.empty.add doc).str 0 (EncBuf.empty.add doc).lheads = spell doc := by
    simpa [EncBuf.add, EncBuf.empty] using merged
  rw [toBytes_eq, written]
  · intro head member
    have bounds : head ∈ heads 0 doc := by simpa [EncBuf.add, EncBuf.empty] using member
    simpa [EncBuf.add, EncBuf.empty] using (heads_offset bounds).2
  · rw [written, size]

namespace EncReader

/-- What the reader has not handed out. -/
def unread (r : EncReader) : Bytes :=
  match r.buf with
  | none => []
  | some buf => r.piece.getD [] ++ merge buf.str r.strpos (buf.lheads.drop r.lhpos)

/-- The piece that comes next is the front of what is unread; without one nothing is. -/
theorem next_cases (r : EncReader) :
    (r.unread = [] ∧ r.next = (none, r)) ∨
    ∃ piece next, r.next = (some piece, next) ∧ next.buf = r.buf ∧ next.buf.isSome ∧
      r.unread = piece ++ { next with piece := none }.unread ∧
      { next with piece := none }.pieces < r.pieces := by
  obtain ⟨buf, lhpos, strpos, piece⟩ := r
  cases buf with
  | none => exact .inl ⟨rfl, rfl⟩
  | some buf =>
    cases piece with
    | some piece =>
      refine .inr ⟨piece, _, rfl, rfl, rfl, rfl, ?_⟩
      simp [pieces]
    | none =>
      cases found : buf.lheads[lhpos]? with
      | some head =>
        obtain ⟨below, isHead⟩ := List.getElem?_eq_some_iff.mp found
        have rest : buf.lheads.drop lhpos = head :: buf.lheads.drop (lhpos + 1) := by
          rw [List.drop_eq_getElem_cons below, isHead]
        by_cases before : strpos < head.offset
        · refine .inr ⟨(buf.str.take head.offset).drop strpos, ⟨some buf, lhpos, head.offset, none⟩,
            ?_, rfl, rfl, ?_, ?_⟩
          · simp [next, found, before]
          · have skipped : (buf.str.take head.offset).drop head.offset = [] :=
              List.drop_eq_nil_of_le (by simp)
            simp [unread, rest, merge, max_eq_right before.le, skipped]
          · simp [pieces, found, before]
        · refine .inr ⟨head.encode, ⟨some buf, lhpos + 1, strpos, none⟩, ?_, rfl, rfl, ?_, ?_⟩
          · simp [next, found, before]
          · have nothing : (buf.str.take head.offset).drop strpos = [] :=
              List.drop_eq_nil_of_le (by rw [List.length_take]; omega)
            simp [unread, rest, merge, nothing, max_eq_left (not_lt.mp before)]
          · -- the header's two points pay for the data that may come before the next one
            have most : ∀ stop, (if strpos < stop then 1 else 0) ≤ 1 :=
              fun stop => by split <;> omega
            have bound := most ((buf.lheads[lhpos + 1]?.map ListHead.offset).getD buf.str.length)
            simp only [pieces, found, Option.map_some, Option.getD_some, if_neg before]
            omega
      | none =>
        have rest : buf.lheads.drop lhpos = [] :=
          List.drop_eq_nil_of_le (List.getElem?_eq_none_iff.mp found)
        by_cases before : strpos < buf.str.length
        · refine .inr ⟨buf.str.drop strpos, ⟨some buf, lhpos, buf.str.length, none⟩, ?_, rfl, rfl,
            ?_, ?_⟩
          · simp [next, found, before]
          · simp [unread, rest, merge]
          · simp [pieces, found, before]
        · refine .inl ⟨?_, ?_⟩
          · simpa [unread, rest, merge] using before
          · simp [next, found, before]

/-- A read hands out the front of what is unread, and reports the end once nothing is left. -/
theorem readPieces_eq {r : EncReader} (enough : r.pieces < rounds) (room : Nat) :
    ∃ next, r.readPieces rounds room =
        (r.unread.take room, if r.unread.length ≤ room then some .eof else none, next) ∧
      next.unread = r.unread.drop room := by
  induction rounds generalizing r room with
  | zero => omega
  | succ rounds ih =>
    rcases next_cases r with ⟨nothing, done⟩ | ⟨piece, next, taken, -, buffered, front, fewer⟩
    · refine ⟨{ r with buf := none, piece := none }, ?_, ?_⟩
      · simp [readPieces, done, nothing]
      · rw [nothing, List.drop_nil]
        rfl
    · rw [front]
      simp only [readPieces, taken]
      by_cases partly : room < piece.length
      · refine ⟨{ next with piece := some (piece.drop room) }, ?_, ?_⟩
        · rw [if_pos partly, if_neg (by rw [List.length_append]; omega),
            List.take_append_of_le_length partly.le]
        · obtain ⟨buf, isBuf⟩ := Option.isSome_iff_exists.mp buffered
          rw [List.drop_append_of_le_length partly.le]
          simp [unread, isBuf]
      · obtain ⟨last, rest, left⟩ := ih (fewer.trans_le (Nat.lt_succ_iff.mp enough))
          (room - piece.length)
        refine ⟨last, ?_, ?_⟩
        · rw [if_neg partly, rest, List.take_append, List.take_of_length_le (not_lt.mp partly),
            List.length_append]
          simp only [Nat.le_sub_iff_add_le (not_lt.mp partly), Nat.add_comm]
        · rw [left, List.drop_append, List.drop_eq_nil_of_le (not_lt.mp partly), List.nil_append]

/-- The reader of an encoding reports the end together with the last bytes. -/
def eager : Eager EncReader where
  Holds r data := r.unread = data
  read := by
    rintro r data rfl limit
    exact readPieces_eq (Nat.lt_succ_self _) limit

end EncReader

/-! ### A message -/

section Writers

variable {w : EncBuf}

theorem encodeString_eq {bytes : Bytes} (range : bytes.length < 2 ^ 64) :
    w.encodeString bytes = w.add [.data (string bytes)] := by
  have headed : (w.encodeStringHeader bytes.length).write bytes =
      w.add [.data (header 0x80 0xB7 bytes.length ++ bytes)] := by
    rw [EncBuf.encodeStringHeader, puthead_eq _ _ range, ← EncBuf.write_eq_add]
    simp [EncBuf.write]
  unfold EncBuf.encodeString
  split
  next byte =>
    have small : IsSingle [byte] ↔ byte ≤ 0x7F := by
      rw [UInt8.le_iff_toNat_le, show (0x7F : UInt8).toNat = 127 from rfl]
      exact ⟨fun ⟨_, same, low⟩ => by cases same; omega, fun low => ⟨byte, rfl, by omega⟩⟩
    by_cases single : byte ≤ 0x7F
    · rw [if_pos single, string, if_pos (small.mpr single), EncBuf.write_eq_add]
    · rw [if_neg single, string, if_neg (fun is => single (small.mp is))]
      exact headed
  next other =>
    rw [string, if_neg (by rintro ⟨byte, rfl, -⟩; exact other byte rfl), headed]

theorem integer_zero : integer 0 = [0x80] := by
  decide

theorem writeUint_eq (range : i < 2 ^ 64) : writeUint i w = .ok (w.add [.data (integer i)]) := by
  unfold writeUint
  split
  next zero => rw [zero, integer_zero, EncBuf.write_eq_add]
  next nonzero =>
    have positive : 0 < i := Nat.pos_of_ne_zero nonzero
    have width : byteLen i ≤ 8 := byteLen_le range
    have nonempty : 0 < byteLen i := byteLen_pos_iff.mpr positive
    split
    next small =>
      rw [integer, string, if_pos (isSingle_natBytes_iff.mpr ⟨positive, small⟩),
        natBytes_of_small positive small, EncBuf.write_eq_add]
    next large =>
      have plain : ¬ IsSingle (natBytes i) := fun single =>
        large (isSingle_natBytes_iff.mp single).2
      rw [integer, string, if_neg plain, header, if_pos (by rw [length_natBytes]; omega),
        putint_eq positive range, EncBuf.write_eq_add]
      rfl

theorem writeBigInt_eq {i : Int} (nonneg : 0 ≤ i) (range : (natBytes i.toNat).length < 2 ^ 64) :
    writeBigInt i w = .ok (w.add [.data (integer i.toNat)]) := by
  rw [writeBigInt, if_neg (not_lt.mpr nonneg)]
  split
  next zero => rw [zero, Int.toNat_zero, integer_zero, EncBuf.write_eq_add]
  · rw [encodeString_eq range, integer]

theorem writeBytes_eq {bytes : Bytes} (range : bytes.length < 2 ^ 64) :
    writeBytes bytes w = .ok (w.add [.data (string bytes)]) := by
  rw [writeBytes, encodeString_eq range]

theorem writeSlice_eq {writer : α → EncBuf → Outcome RlpErr EncBuf} {items : List α}
    {piece : α → Bytes}
    (writes : ∀ item ∈ items, ∀ w, writer item w = .ok (w.add [.data (piece item)])) :
    writeSlice writer items w =
      .ok (w.add (listPieces (items.map fun item => .data (piece item)))) := by
  have loop : ∀ w : EncBuf, items.foldlM (fun w item => writer item w) w =
      .ok (w.add (items.map fun item => .data (piece item))) := by
    induction items with
    | nil => simp
    | cons item items ih =>
      intro w
      rw [List.foldlM_cons, writes item List.mem_cons_self, Outcome.ok_bind,
        ih (fun other member => writes other (List.mem_cons_of_mem _ member)), EncBuf.add_add]
      rfl
  rw [← EncBuf.listEnd_add]
  exact congrArg (· >>= fun v => .ok (v.listEnd w.list.1)) (loop w.list.2)

end Writers

/-- The encoding of the fields of a message. -/
def fields (msg : MpcMessage) : Bytes :=
  integer msg.contextID ++ integer msg.stepID ++ string msg.peers ++
    Lib.Rlp.list (msg.data.flatMap fun item => integer item.toNat) ++
    Lib.Rlp.list (msg.bytesData.flatMap string)

/-- The canonical encoding of a message. -/
def wire (msg : MpcMessage) : Bytes := Lib.Rlp.list (fields msg)

/-- A message of Go: its ids are of type uint64, and the length of its encoding is an int. -/
structure Fits (msg : MpcMessage) : Prop where
  contextID : msg.contextID < 2 ^ 64
  stepID : msg.stepID < 2 ^ 64
  length : (wire msg).length < 2 ^ 63

theorem length_le_string (bytes : Bytes) : bytes.length ≤ (string bytes).length := by
  unfold string
  split
  · exact le_rfl
  · rw [List.length_append]
    exact Nat.le_add_left _ _

theorem length_le_list (content : Bytes) : content.length ≤ (Lib.Rlp.list content).length := by
  rw [Lib.Rlp.list, List.length_append]
  exact Nat.le_add_left _ _

theorem length_le_flatMap {items : List α} {item : α} (member : item ∈ items) (piece : α → Bytes) :
    (piece item).length ≤ (items.flatMap piece).length := by
  obtain ⟨front, back, rfl⟩ := List.append_of_mem member
  simp only [List.flatMap_append, List.flatMap_cons, List.length_append]
  omega

namespace Fits

variable {msg : MpcMessage}

theorem fields_lt (fits : Fits msg) : (fields msg).length < 2 ^ 63 :=
  (length_le_list _).trans_lt fits.length

theorem parts_lt (fits : Fits msg) : msg.peers.length < 2 ^ 63 ∧
    (msg.data.flatMap fun item => integer item.toNat).length < 2 ^ 63 ∧
    (msg.bytesData.flatMap string).length < 2 ^ 63 := by
  have whole := fits.fields_lt
  have peers := length_le_string msg.peers
  have data := length_le_list (msg.data.flatMap fun item => integer item.toNat)
  have bytesData := length_le_list (msg.bytesData.flatMap string)
  simp only [fields, List.length_append] at whole
  omega

theorem data_lt (fits : Fits msg) {item : Int} (member : item ∈ msg.data) :
    (natBytes item.toNat).length < 2 ^ 63 :=
  ((length_le_string _).trans (length_le_flatMap member fun item => integer item.toNat)).trans_lt
    fits.parts_lt.2.1

theorem bytesData_lt (fits : Fits msg) {item : Bytes} (member : item ∈ msg.bytesData) :
    item.length < 2 ^ 63 :=
  ((length_le_string _).trans (length_le_flatMap member string)).trans_lt fits.parts_lt.2.2

end Fits

/-- The pieces of a message. -/
def pieces (msg : MpcMessage) : List Piece :=
  listPieces ([.data (integer msg.contextID)] ++ [.data (integer msg.stepID)] ++
    [.data (string msg.peers)] ++
    listPieces (msg.data.map fun item => .data (integer item.toNat)) ++
    listPieces (msg.bytesData.map fun item => .data (string item)))

theorem spell_listPieces {doc : List Piece} {content : Bytes} (spelled : spell doc = content)
    (range : content.length < 2 ^ 63) : spell (listPieces doc) = Lib.Rlp.list content := by
  rw [listPieces, spell_cons, spelled, Piece.bytes, puthead_eq _ _ (by omega), Lib.Rlp.list]

theorem spell_map (items : List α) (piece : α → Bytes) :
    spell (items.map fun item => .data (piece item)) = items.flatMap piece := by
  simp [spell, List.flatMap_map, Piece.bytes]

theorem spell_pieces (fits : Fits msg) : spell (pieces msg) = wire msg := by
  obtain ⟨-, data, bytesData⟩ := fits.parts_lt
  refine spell_listPieces ?_ fits.fields_lt
  rw [spell_append, spell_append, spell_listPieces (spell_map _ _) data,
    spell_listPieces (spell_map _ _) bytesData]
  simp [Piece.bytes, fields]

section

variable (fits : Fits msg) (nonneg : ∀ item ∈ msg.data, 0 ≤ item)

include fits nonneg

theorem writeMpcMessage_eq (w : EncBuf) : writeMpcMessage msg w = .ok (w.add (pieces msg)) := by
  have data : ∀ item ∈ msg.data, ∀ w, writeBigInt item w =
      .ok (w.add [.data (integer item.toNat)]) := by
    intro item member w
    have range := fits.data_lt member
    exact writeBigInt_eq (nonneg item member) (by omega)
  have bytesData : ∀ item ∈ msg.bytesData, ∀ w, writeBytes item w =
      .ok (w.add [.data (string item)]) := by
    intro item member w
    have range := fits.bytesData_lt member
    exact writeBytes_eq (by omega)
  have peers := fits.parts_lt.1
  rw [pieces, ← EncBuf.listEnd_add]
  unfold writeMpcMessage
  dsimp only
  rw [writeUint_eq fits.contextID, Outcome.ok_bind, writeUint_eq fits.stepID, Outcome.ok_bind,
    writeBytes_eq (by omega), Outcome.ok_bind, writeSlice_eq data, Outcome.ok_bind,
    writeSlice_eq bytesData, Outcome.ok_bind]
  simp only [EncBuf.add_add]

theorem encodeToBytes_eq : encodeToBytes msg = .ok (wire msg) := by
  rw [encodeToBytes, writeMpcMessage_eq fits nonneg, Outcome.ok_bind, toBytes_add,
    spell_pieces fits]

theorem encodeToReader_eq :
    ∃ r, encodeToReader msg = .ok ((wire msg).length, r) ∧ EncReader.eager.Holds r (wire msg) := by
  refine ⟨⟨some (EncBuf.empty.add (pieces msg)), 0, 0, none⟩, ?_, ?_⟩
  · rw [encodeToReader, writeMpcMessage_eq fits nonneg, Outcome.ok_bind, ← spell_pieces fits,
      length_spell]
    simp [EncBuf.size, EncBuf.add, EncBuf.empty]
  · have merged := merge_heads (pieces msg) []
    rw [← spell_pieces fits, ← merged]
    simp [EncReader.eager, EncReader.unread, EncBuf.add, EncBuf.empty]

end

end SchnorrMpc.Rlp

import KernSql.Index.Structural
import KernSql.Lib.Machine

/- The bytes of a node.

   `Node.encode level next es` is the canonical body: the sub-header, the encodings
   of the entries, zeros. `Encoded b level next es` says it of a body in parts,
   which is how the operations keep it: read as 16-byte blocks the node holds the
   encodings of `es` (`NodeIs` at the entry type `Block`, so its specifications
   apply as they are), and every byte past them is zero. What is left to show of an
   operation is where it writes past its entries. -/
namespace KernSql
open Bytes

/-- A slot as its bytes. -/
structure Block where
  bytes : List UInt8
  length_eq : bytes.length = nodeEntrySize

def Block.zero : Block := ⟨List.replicate nodeEntrySize 0, List.length_replicate⟩

instance : NodeEntry Block where
  readFrom bs := if h : bs.length = nodeEntrySize then ⟨bs, h⟩ else Block.zero
  writeTo := Block.bytes
  length_writeTo := Block.length_eq
  readFrom_writeTo e := by
    cases e with
    | mk bytes h => rw [dif_pos h]

/-! The parts of a sub-header that its bytes determine. -/

theorem pageIdBytes_of {bs : List UInt8} (h : bs.length = 4) : pageIdBytes (pageIdOf bs) = bs := by
  have hlt := leNat_lt bs
  rw [h] at hlt
  have hback := leBytes_leNat bs
  rw [h] at hback
  unfold pageIdBytes pageIdOf
  rw [Int32.toBitVec_ofBitVec, BitVec.toNat_ofNat, Nat.mod_eq_of_lt (by norm_num at hlt ⊢; exact hlt), hback]

theorem NodeSubHeader.writeTo_readFrom {bs : List UInt8} (h : bs.length = nodeSubHeaderSize) :
    (NodeSubHeader.readFrom bs).writeTo = bs := by
  have h8 : bs.length = 8 := h
  have h1 : (bs.take 2).length = 2 := by
    rw [List.length_take]
    omega
  have h2 : ((bs.drop 2).take 2).length = 2 := by
    rw [List.length_take, List.length_drop]
    omega
  have h3 : ((bs.drop 4).take 4).length = 4 := by
    rw [List.length_take, List.length_drop]
    omega
  have e1 := leBytes_leNat (bs.take 2)
  have e2 := leBytes_leNat ((bs.drop 2).take 2)
  rw [h1] at e1
  rw [h2] at e2
  have e3 : (bs.drop 4).take 4 = bs.drop 4 := List.take_of_length_le (by rw [List.length_drop]; omega)
  rw [readFrom, writeTo, e1, e2, pageIdBytes_of h3, e3, ← List.take_add, List.take_append_drop]

namespace Node
variable {E : Type} [NodeEntry E]

/-- The canonical body of a node. -/
def encode (level : Nat) (next : PageId) (es : List E) : Body := fun i =>
  ((⟨level, es.length, next⟩ : NodeSubHeader).writeTo ++ es.flatMap NodeEntry.writeTo).getD i.val 0

def block (e : E) : Block := ⟨NodeEntry.writeTo e, NodeEntry.length_writeTo e⟩

/-- Past the first `n` entries there are only zeros. -/
def Clear (b : Body) (n : Nat) : Prop := ∀ j, nodeEntryOffset n ≤ j → b.byte j = 0

theorem raw_block (b : Body) (i : Nat) : (raw Block b i).bytes = b.slice (nodeEntryOffset i) nodeEntrySize := by
  have hlen : (b.slice (nodeEntryOffset i) nodeEntrySize).length = nodeEntrySize := Region.slice_length _ _ _
  show (if h : (b.slice (nodeEntryOffset i) nodeEntrySize).length = nodeEntrySize then
    (⟨b.slice (nodeEntryOffset i) nodeEntrySize, h⟩ : Block) else Block.zero).bytes = _
  rw [dif_pos hlen]

theorem byte_encode (level : Nat) (next : PageId) (es : List E) {j : Nat} (hj : j < pageBodySize) :
    (encode level next es).byte j =
      ((⟨level, es.length, next⟩ : NodeSubHeader).writeTo ++ es.flatMap NodeEntry.writeTo).getD j 0 := dif_pos hj

theorem byte_encode_header (level : Nat) (next : PageId) (es : List E) {j : Nat} (hj : j < nodeSubHeaderSize) :
    (encode level next es).byte j = (⟨level, es.length, next⟩ : NodeSubHeader).writeTo.getD j 0 := by
  simp only [nodeSubHeaderSize] at hj
  rw [byte_encode _ _ _ (by simp only [pageBodySize]; omega), List.getD_append _ _ _ _ (by simpa using hj)]

theorem byte_encode_entry (level : Nat) (next : PageId) (es : List E) {i k : Nat} (hk : k < nodeEntrySize)
    (hj : nodeEntryOffset i + k < pageBodySize) :
    (encode level next es).byte (nodeEntryOffset i + k) =
      (es[i]?.map fun e => (NodeEntry.writeTo e).getD k 0).getD 0 := by
  rw [byte_encode _ _ _ hj, List.getD_append_right _ _ _ _ (by simp [nodeEntryOffset, nodeSubHeaderSize]; omega),
    NodeSubHeader.length_writeTo,
    show nodeEntryOffset i + k - 8 = i * nodeEntrySize + k by simp only [nodeEntryOffset, nodeSubHeaderSize]; omega,
    getD_flatMap NodeEntry.length_writeTo es i k hk]

end Node

/-- The body is the canonical one for these contents. -/
structure Encoded {E : Type} [NodeEntry E] (b : Body) (level : Nat) (next : PageId) (es : List E) : Prop where
  blocks : NodeIs b level next (es.map Node.block)
  clear : Node.Clear b es.length

namespace Encoded
variable {E : Type} [NodeEntry E] {b : Body} {level : Nat} {next : PageId} {es : List E}

theorem cap (h : Encoded b level next es) : es.length ≤ nodeCapacity := by
  have := h.blocks.cap
  rwa [List.length_map] at this

theorem header_eq (h : Encoded b level next es) : Node.header b = ⟨level, es.length, next⟩ := by
  rw [h.blocks.header_eq, List.length_map]

theorem slice_entry (h : Encoded b level next es) {i : Nat} (hi : i < es.length) :
    b.slice (nodeEntryOffset i) nodeEntrySize = NodeEntry.writeTo es[i] := by
  rw [← Node.raw_block, h.blocks.entry i (by simpa using hi), List.getElem_map]
  rfl

/-- Decoding gives the contents back. -/
theorem node (h : Encoded b level next es) : NodeIs b level next es where
  header_eq := h.header_eq
  cap := h.cap
  entry i hi := by rw [Node.raw, h.slice_entry hi, NodeEntry.readFrom_writeTo]

theorem decoded (h : Encoded b level next es) : Node.entriesFrom E b 0 (Node.count b) = some es := by
  rw [h.node.count_eq]
  exact h.node.all

/-- The body has the bytes of the canonical one. -/
theorem eq_encode (h : Encoded b level next es) : b = Node.encode level next es := by
  apply Region.ext_byte
  intro j hj
  rcases Nat.lt_or_ge j nodeSubHeaderSize with hlt | hge
  · have hslice : b.slice 0 nodeSubHeaderSize = (⟨level, es.length, next⟩ : NodeSubHeader).writeTo := by
      rw [← h.header_eq, Node.header, NodeSubHeader.writeTo_readFrom (Region.slice_length _ _ _)]
    rw [Node.byte_encode_header _ _ _ hlt, ← hslice, Region.slice_getD _ _ _ _ hlt, Nat.zero_add]
  · -- Byte `j` is byte `k` of slot `i`, in use or not.
    obtain ⟨i, k, hk, rfl⟩ : ∃ i k, k < nodeEntrySize ∧ j = nodeEntryOffset i + k := by
      refine ⟨(j - nodeSubHeaderSize) / nodeEntrySize, (j - nodeSubHeaderSize) % nodeEntrySize,
        Nat.mod_lt _ (by decide), ?_⟩
      simp only [nodeEntryOffset, nodeSubHeaderSize, nodeEntrySize] at hge ⊢
      omega
    rw [Node.byte_encode_entry _ _ _ hk hj]
    rcases Nat.lt_or_ge i es.length with hi | hi
    · rw [List.getElem?_eq_getElem hi, Option.map_some, Option.getD_some, ← h.slice_entry hi,
        Region.slice_getD _ _ _ _ hk]
    · rw [List.getElem?_eq_none hi]
      apply h.clear
      simp only [nodeEntryOffset, nodeSubHeaderSize, nodeEntrySize]
      omega

theorem eq_of_decoded {b' : Body} {level' : Nat} {next' : PageId} {es' : List E} (h : Encoded b level next es)
    (h' : Encoded b' level' next' es') (hheader : Node.header b = Node.header b')
    (hentries : Node.entriesFrom E b 0 (Node.count b) = Node.entriesFrom E b' 0 (Node.count b')) : b = b' := by
  rw [h.header_eq, h'.header_eq, NodeSubHeader.mk.injEq] at hheader
  rw [h.decoded, h'.decoded, Option.some.injEq] at hentries
  obtain ⟨rfl, -, rfl⟩ := hheader
  subst hentries
  rw [h.eq_encode, h'.eq_encode]

end Encoded

/-! Where the operations write past the entries. -/
namespace Node
variable {E : Type} [NodeEntry E] {b b' : Body}

theorem Clear.mono {n m : Nat} (h : Clear b n) (hle : n ≤ m) : Clear b m := by
  intro j hj
  apply h
  simp only [nodeEntryOffset] at hj ⊢
  exact le_trans (Nat.add_le_add_left (Nat.mul_le_mul_right _ hle) _) hj

theorem Clear.writeHeader {n : Nat} (h : Clear b n) (hd : NodeSubHeader) : Clear (writeHeader b hd) n := by
  intro j hj
  rw [Node.writeHeader, Region.byte_write_off, h j hj]
  simp only [nodeEntryOffset, nodeSubHeaderSize] at hj
  simp only [NodeSubHeader.length_writeTo]
  omega

/-- A write below the end of the entries is none of what is past them. -/
theorem Clear.write {n off : Nat} {bs : List UInt8} (h : Clear b n) (hw : off + bs.length ≤ nodeEntryOffset n) :
    Clear (b.write off bs) n := by
  intro j hj
  rw [Region.byte_write_off (.inr (hw.trans hj)), h j hj]

/-- Zeros up to where there are only zeros. -/
theorem Clear.write_zeros {n m k : Nat} (h : Clear b n) (hk : nodeEntryOffset m + k ≤ pageBodySize)
    (hn : nodeEntryOffset n ≤ nodeEntryOffset m + k) :
    Clear (b.write (nodeEntryOffset m) (List.replicate k 0)) m := by
  intro j hj
  by_cases hin : j < nodeEntryOffset m + k
  · rw [Region.byte_write _ _ _ _ (lt_of_lt_of_le hin hk), if_pos ⟨hj, by rwa [List.length_replicate]⟩]
    simp
  · have hge : nodeEntryOffset m + k ≤ j := Nat.le_of_not_lt hin
    rw [Region.byte_write_off (.inr (by rwa [List.length_replicate])), h j (hn.trans hge)]

theorem nodeEntryOffset_succ (i : Nat) : nodeEntryOffset (i + 1) = nodeEntryOffset i + nodeEntrySize := by
  simp only [nodeEntryOffset, Nat.succ_mul, Nat.add_assoc]

theorem nodeEntryOffset_add (i k : Nat) : nodeEntryOffset (i + k) = nodeEntryOffset i + k * nodeEntrySize := by
  simp only [nodeEntryOffset, Nat.add_mul, Nat.add_assoc]

theorem nodeEntryOffset_mono {i k : Nat} (h : i ≤ k) : nodeEntryOffset i ≤ nodeEntryOffset k :=
  Nat.add_le_add_left (Nat.mul_le_mul_right _ h) _

theorem clear_insertAt {lowest i : Nat} {e : E} (hclear : Clear b (count b)) (h : insertAt lowest b i e = some b') :
    Clear b' (count b + 1) := by
  unfold insertAt at h
  obtain ⟨_, hcap, h⟩ := Option.bind_eq_some_iff.mp h
  obtain ⟨_, -, h⟩ := Option.bind_eq_some_iff.mp h
  obtain ⟨_, hi, h⟩ := Option.bind_eq_some_iff.mp h
  obtain ⟨moved, hread, h⟩ := Option.bind_eq_some_iff.mp h
  obtain ⟨b1, hw1, h⟩ := Option.bind_eq_some_iff.mp h
  obtain ⟨b2, hw2, h⟩ := Option.bind_eq_some_iff.mp h
  have hcap := of_require hcap
  have hi := of_require hi
  obtain ⟨-, rfl⟩ := Region.write?_some hw1
  obtain ⟨-, rfl⟩ := Region.write?_some hw2
  cases h
  have hmoved : moved.length = (count b - i) * nodeEntrySize := by
    obtain ⟨-, rfl⟩ := Region.read?_some hread
    exact Region.slice_length _ _ _
  have hu : u16 (i + 1) = i + 1 := u16_of_lt (by simp only [nodeCapacity] at hcap; omega)
  apply Clear.writeHeader
  apply Clear.write
  · apply Clear.write (hclear.mono (Nat.le_succ _))
    rw [hu, hmoved, ← nodeEntryOffset_add]
    exact nodeEntryOffset_mono (by omega)
  · rw [NodeEntry.length_writeTo, ← nodeEntryOffset_succ]
    exact nodeEntryOffset_mono (by omega)

theorem clear_removeAt {lowest i : Nat} (hclear : Clear b (count b)) (h : removeAt lowest b i = some b') :
    Clear b' (count b - 1) := by
  unfold removeAt at h
  obtain ⟨_, hcap, h⟩ := Option.bind_eq_some_iff.mp h
  obtain ⟨_, -, h⟩ := Option.bind_eq_some_iff.mp h
  obtain ⟨_, hi, h⟩ := Option.bind_eq_some_iff.mp h
  obtain ⟨moved, hread, h⟩ := Option.bind_eq_some_iff.mp h
  obtain ⟨b1, hw1, h⟩ := Option.bind_eq_some_iff.mp h
  obtain ⟨b2, hw2, h⟩ := Option.bind_eq_some_iff.mp h
  have hcap := of_require hcap
  have hi := of_require hi
  have hu : u16 (count b - 1) = count b - 1 := u16_of_lt (by simp only [nodeCapacity] at hcap; omega)
  obtain ⟨-, rfl⟩ := Region.write?_some hw1
  obtain ⟨hin, rfl⟩ := Region.write?_some hw2
  cases h
  have hmoved : moved.length = (count b - i - 1) * nodeEntrySize := by
    obtain ⟨-, rfl⟩ := Region.read?_some hread
    exact Region.slice_length _ _ _
  have hlast : nodeEntryOffset (count b) = nodeEntryOffset (count b - 1) + nodeEntrySize := by
    rw [← nodeEntryOffset_succ, Nat.sub_add_cancel (by omega)]
  apply Clear.writeHeader
  rw [hu] at hin ⊢
  rw [List.length_replicate] at hin
  -- The slot the shift vacated is zeroed; past it there were zeros already.
  refine Clear.write_zeros (n := count b) ?_ hin hlast.le
  apply Clear.write hclear
  rw [hmoved, ← nodeEntryOffset_add]
  exact nodeEntryOffset_mono (by omega)

theorem clear_writeEntries {es : List E} {i : Nat} (hle : i + es.length ≤ nodeCapacity)
    (hclear : Clear b nodeCapacity) (h : writeEntries b i es = some b') : Clear b' nodeCapacity := by
  induction es generalizing b i with
  | nil =>
    cases h
    exact hclear
  | cons e es ih =>
    rw [List.length_cons] at hle
    unfold writeEntries at h
    obtain ⟨b1, hw, h⟩ := Option.bind_eq_some_iff.mp h
    obtain ⟨-, rfl⟩ := Region.write?_some hw
    have hu : u16 i = i := u16_of_lt (by simp only [nodeCapacity] at hle; omega)
    refine ih (by omega) ?_ h
    apply Clear.write hclear
    rw [hu, NodeEntry.length_writeTo, ← nodeEntryOffset_succ]
    exact nodeEntryOffset_mono (by omega)

theorem clear_assignEntries {es : List E} (hle : es.length ≤ nodeCapacity) (hclear : Clear b nodeCapacity)
    (h : assignEntries b es = some b') : Clear b' es.length := by
  unfold assignEntries at h
  obtain ⟨b1, hes, h⟩ := Option.bind_eq_some_iff.mp h
  obtain ⟨b2, hw, h⟩ := Option.bind_eq_some_iff.mp h
  have hu : u16 es.length = es.length := u16_of_lt (by simp only [nodeCapacity] at hle; omega)
  obtain ⟨hin, rfl⟩ := Region.write?_some hw
  cases h
  rw [hu] at hin ⊢
  rw [List.length_replicate] at hin
  have hmono := nodeEntryOffset_mono hle
  apply Clear.writeHeader
  exact Clear.write_zeros (clear_writeEntries (by omega) hclear hes) hin (by omega)

end Node

/-! The operations keep a body canonical. -/

theorem NodeIs.unique {E : Type} [NodeEntry E] {b : Body} {level level' : Nat} {next next' : PageId} {es es' : List E}
    (h : NodeIs b level next es) (h' : NodeIs b level' next' es') : level = level' ∧ next = next' ∧ es = es' := by
  have hheader := h.header_eq
  rw [h'.header_eq, NodeSubHeader.mk.injEq] at hheader
  obtain ⟨rfl, hlen, rfl⟩ := hheader
  refine ⟨rfl, rfl, List.ext_getElem hlen.symm fun i hi hi' => ?_⟩
  rw [← h.entry i hi, ← h'.entry i hi']

namespace Node
variable {E : Type} [NodeEntry E]

theorem writeEntries_block (es : List E) (b : Body) (i : Nat) :
    writeEntries b i (es.map block) = writeEntries b i es := by
  induction es generalizing b i with
  | nil => rfl
  | cons e es ih =>
    rw [List.map_cons, writeEntries, writeEntries]
    show (writeEntry b (u16 i) e >>= fun b => writeEntries b (i + 1) (es.map block)) = _
    simp only [ih]

theorem assignEntries_block (es : List E) (b : Body) : assignEntries b (es.map block) = assignEntries b es := by
  rw [assignEntries, assignEntries, writeEntries_block, List.length_map]

end Node

namespace Encoded
variable {E : Type} [NodeEntry E] {b b' : Body} {level : Nat} {next : PageId} {es : List E}

theorem clear_cap (h : Encoded b level next es) : Node.Clear b nodeCapacity := h.clear.mono h.cap

theorem clear_count (h : Encoded b level next es) : Node.Clear b (Node.count b) := by
  rw [h.node.count_eq]
  exact h.clear

/-- A body that is canonical for some contents is so for what it is read as. -/
theorem of_node {level' : Nat} {next' : PageId} {es' : List E} (h : Encoded b level next es)
    (hn : NodeIs b level' next' es') : Encoded b level' next' es' := by
  obtain ⟨rfl, rfl, rfl⟩ := h.node.unique hn
  exact h

theorem init (E : Type) [NodeEntry E] (hl : level < 65536) :
    Encoded (Node.writeHeader Region.zero ⟨level, 0, invalidPage⟩) level invalidPage ([] : List E) := by
  refine ⟨⟨Node.header_writeHeader _ hl (by simp), by simp, by simp⟩, ?_⟩
  apply Node.Clear.writeHeader
  intro j _
  exact Region.byte_zero j

theorem setNextLeaf (h : Encoded b level next es) (p : PageId) : Encoded (LeafNode.setNextLeaf b p) level p es := by
  have hheader : LeafNode.header b = ⟨level, (es.map Node.block).length, next⟩ := h.blocks.header_eq
  refine ⟨?_, h.clear.writeHeader _⟩
  rw [LeafNode.setNextLeaf, hheader]
  exact h.blocks.withHeader h.blocks.level_lt

theorem insertAt (h : Encoded b level next es) {lowest i : Nat} (e : E) (hcap : es.length < nodeCapacity)
    (hlow : lowest ≤ i) (hi : i ≤ es.length) :
    ∃ b', Node.insertAt lowest b i e = some b' ∧ Encoded b' level next (es.take i ++ e :: es.drop i) := by
  obtain ⟨b', hrun, hn⟩ := h.blocks.insertAt (Node.block e) (by simpa using hcap) hlow (by simpa using hi)
  have hrun' : Node.insertAt lowest b i e = some b' := hrun
  have hclear := Node.clear_insertAt h.clear_count hrun'
  have hlen : (es.take i ++ e :: es.drop i).length = es.length + 1 := by
    simp
    omega
  refine ⟨b', hrun', ?_, ?_⟩
  · simpa using hn
  · rwa [hlen, ← h.node.count_eq]

theorem removeAt (h : Encoded b level next es) {lowest i : Nat} (hlow : lowest ≤ i) (hi : i < es.length) :
    ∃ b', Node.removeAt lowest b i = some b' ∧ Encoded b' level next (es.take i ++ es.drop (i + 1)) := by
  obtain ⟨b', hrun, hn⟩ := h.blocks.removeAt hlow (by simpa using hi)
  have hclear := Node.clear_removeAt h.clear_count hrun
  have hlen : (es.take i ++ es.drop (i + 1)).length = es.length - 1 := by
    simp
    omega
  refine ⟨b', hrun, ?_, ?_⟩
  · simpa using hn
  · rwa [hlen, ← h.node.count_eq]

theorem writeEntry (h : Encoded b level next es) {i : Nat} (hi : i < es.length) (e : E) :
    ∃ b', Node.writeEntry b i e = some b' ∧ Encoded b' level next (es.set i e) := by
  obtain ⟨b', hrun, hn⟩ := h.blocks.writeEntry (by simpa using hi) (Node.block e)
  have hrun' : Node.writeEntry b i e = some b' := hrun
  obtain ⟨-, rfl⟩ := Region.write?_some hrun'
  refine ⟨_, hrun', ?_, ?_⟩
  · rwa [List.map_set]
  · rw [List.length_set]
    apply h.clear.write
    rw [NodeEntry.length_writeTo, ← Node.nodeEntryOffset_succ]
    exact Node.nodeEntryOffset_mono hi

theorem assignEntries (h : Encoded b level next es) {xs : List E} (hcap : xs.length ≤ nodeCapacity) :
    ∃ b', Node.assignEntries b xs = some b' ∧ Encoded b' level next xs := by
  obtain ⟨b', hrun, hn⟩ := Node.assignEntries_eq b (xs.map Node.block) (by simpa using hcap)
  rw [Node.assignEntries_block] at hrun
  rw [h.header_eq] at hn
  exact ⟨b', hrun, hn, Node.clear_assignEntries hcap h.clear_cap hrun⟩

theorem of_leafAssign {es xs : List LeafEntry} (h : Encoded b level next es) (hrun : LeafNode.assign b xs = some b') :
    Encoded b' level next xs := by
  obtain ⟨_, hcap, hrun⟩ := Option.bind_eq_some_iff.mp hrun
  obtain ⟨b'', hrun', henc⟩ := h.assignEntries (of_require hcap)
  rw [hrun] at hrun'
  cases hrun'
  exact henc

theorem of_internalAssign {es xs : List InternalEntry} (h : Encoded b level next es)
    (hrun : InternalNode.assign b xs = some b') : Encoded b' level next (InternalNode.canonical xs) := by
  obtain ⟨_, -, hrun⟩ := Option.bind_eq_some_iff.mp hrun
  obtain ⟨_, hcap, hrun⟩ := Option.bind_eq_some_iff.mp hrun
  have hcap : (InternalNode.canonical xs).length ≤ nodeCapacity := by
    rw [length_canonical]
    exact of_require hcap
  obtain ⟨b'', hrun', henc⟩ := h.assignEntries hcap
  rw [hrun] at hrun'
  cases hrun'
  exact henc

end Encoded

/-! The operations on two nodes write both by `Assign`. -/
section Pairs
variable {left right left' right' : Body} {sep : Key}

theorem splitLeaf_inv {rightPageId : PageId} {index : Nat} {entry : LeafEntry}
    (h : splitLeaf left right rightPageId index entry = some (left', right', sep)) :
    (∃ xs, LeafNode.assign (LeafNode.setNextLeaf left rightPageId) xs = some left') ∧
      ∃ ys, LeafNode.assign (LeafNode.setNextLeaf right (LeafNode.nextLeaf left)) ys = some right' := by
  unfold splitLeaf at h
  obtain ⟨_, -, h⟩ := Option.bind_eq_some_iff.mp h
  obtain ⟨_, -, h⟩ := Option.bind_eq_some_iff.mp h
  obtain ⟨_, -, h⟩ := Option.bind_eq_some_iff.mp h
  obtain ⟨before, -, h⟩ := Option.bind_eq_some_iff.mp h
  obtain ⟨after, -, h⟩ := Option.bind_eq_some_iff.mp h
  obtain ⟨l, hl, h⟩ := Option.bind_eq_some_iff.mp h
  obtain ⟨r, hr, h⟩ := Option.bind_eq_some_iff.mp h
  obtain ⟨e, -, h⟩ := Option.bind_eq_some_iff.mp h
  cases h
  exact ⟨⟨_, hl⟩, ⟨_, hr⟩⟩

theorem splitInternal_inv {index : Nat} {entry : InternalEntry}
    (h : splitInternal left right index entry = some (left', right', sep)) :
    (∃ xs, InternalNode.assign left xs = some left') ∧ ∃ ys, InternalNode.assign right ys = some right' := by
  unfold splitInternal at h
  obtain ⟨_, -, h⟩ := Option.bind_eq_some_iff.mp h
  obtain ⟨_, -, h⟩ := Option.bind_eq_some_iff.mp h
  obtain ⟨_, -, h⟩ := Option.bind_eq_some_iff.mp h
  obtain ⟨_, -, h⟩ := Option.bind_eq_some_iff.mp h
  obtain ⟨before, -, h⟩ := Option.bind_eq_some_iff.mp h
  obtain ⟨after, -, h⟩ := Option.bind_eq_some_iff.mp h
  obtain ⟨e, -, h⟩ := Option.bind_eq_some_iff.mp h
  obtain ⟨l, hl, h⟩ := Option.bind_eq_some_iff.mp h
  obtain ⟨r, hr, h⟩ := Option.bind_eq_some_iff.mp h
  cases h
  exact ⟨⟨_, hl⟩, ⟨_, hr⟩⟩

theorem recutLeaf_inv {cut : Nat} (h : recutLeaf left right cut = some (left', right', sep)) :
    (∃ xs, LeafNode.assign left xs = some left') ∧ ∃ ys, LeafNode.assign right ys = some right' := by
  unfold recutLeaf at h
  obtain ⟨les, -, h⟩ := Option.bind_eq_some_iff.mp h
  obtain ⟨res, -, h⟩ := Option.bind_eq_some_iff.mp h
  obtain ⟨l, hl, h⟩ := Option.bind_eq_some_iff.mp h
  obtain ⟨r, hr, h⟩ := Option.bind_eq_some_iff.mp h
  obtain ⟨e, -, h⟩ := Option.bind_eq_some_iff.mp h
  cases h
  exact ⟨⟨_, hl⟩, ⟨_, hr⟩⟩

theorem recutInternal_inv {separator : Key} {cut : Nat}
    (h : recutInternal left right separator cut = some (left', right', sep)) :
    (∃ xs, InternalNode.assign left xs = some left') ∧ ∃ ys, InternalNode.assign right ys = some right' := by
  unfold recutInternal at h
  obtain ⟨_, -, h⟩ := Option.bind_eq_some_iff.mp h
  obtain ⟨les, -, h⟩ := Option.bind_eq_some_iff.mp h
  obtain ⟨res, -, h⟩ := Option.bind_eq_some_iff.mp h
  obtain ⟨e, -, h⟩ := Option.bind_eq_some_iff.mp h
  obtain ⟨l, hl, h⟩ := Option.bind_eq_some_iff.mp h
  obtain ⟨r, hr, h⟩ := Option.bind_eq_some_iff.mp h
  cases h
  exact ⟨⟨_, hl⟩, ⟨_, hr⟩⟩

theorem mergeLeaf_inv (h : mergeLeaf left right = some left') :
    ∃ l xs, LeafNode.assign left xs = some l ∧ left' = LeafNode.setNextLeaf l (LeafNode.nextLeaf right) := by
  unfold mergeLeaf at h
  obtain ⟨_, -, h⟩ := Option.bind_eq_some_iff.mp h
  obtain ⟨les, -, h⟩ := Option.bind_eq_some_iff.mp h
  obtain ⟨res, -, h⟩ := Option.bind_eq_some_iff.mp h
  obtain ⟨l, hl, h⟩ := Option.bind_eq_some_iff.mp h
  cases h
  exact ⟨l, _, hl, rfl⟩

theorem mergeInternal_inv {separator : Key} (h : mergeInternal left right separator = some left') :
    ∃ xs, InternalNode.assign left xs = some left' := by
  unfold mergeInternal at h
  obtain ⟨_, -, h⟩ := Option.bind_eq_some_iff.mp h
  obtain ⟨_, -, h⟩ := Option.bind_eq_some_iff.mp h
  obtain ⟨les, -, h⟩ := Option.bind_eq_some_iff.mp h
  obtain ⟨res, -, h⟩ := Option.bind_eq_some_iff.mp h
  exact ⟨_, h⟩

end Pairs

/-! Nodes and the operations on them. The preconditions are the ones the code asserts, with the reserved word of
every internal entry zero. -/

/-- An operation on one leaf. -/
inductive LeafEdit where
  | insertAt (index : Nat) (entry : LeafEntry)
  | removeAt (index : Nat)
  | setNextLeaf (next : PageId)
  | assign (entries : List LeafEntry)

/-- An operation on one internal node. -/
inductive InternalEdit where
  | insertAt (index : Nat) (entry : InternalEntry)
  | removeAt (index : Nat)
  | setKeyAt (index : Nat) (key : Key)
  | assign (entries : List InternalEntry)

/-- An operation on two neighbouring leaves. -/
inductive LeafPair where
  | split (rightPageId : PageId) (index : Nat) (entry : LeafEntry)
  | rotateRight
  | rotateLeft
  | merge

/-- An operation on two neighbouring internal nodes. -/
inductive InternalPair where
  | split (index : Nat) (entry : InternalEntry)
  | rotateRight (separator : Key)
  | rotateLeft (separator : Key)
  | merge (separator : Key)

def LeafEdit.run (b : Body) : LeafEdit → Option Body
  | insertAt index entry => LeafNode.insertAt b index entry
  | removeAt index => LeafNode.removeAt b index
  | setNextLeaf next => some (LeafNode.setNextLeaf b next)
  | assign entries => LeafNode.assign b entries

def InternalEdit.run (b : Body) : InternalEdit → Option Body
  | insertAt index entry => InternalNode.insertAt b index entry
  | removeAt index => InternalNode.removeAt b index
  | setKeyAt index key => InternalNode.setKeyAt b index key
  | assign entries => InternalNode.assign b entries

/-- The two bodies afterwards; a merge does not write the right one. -/
def LeafPair.run (left right : Body) : LeafPair → Option (Body × Body)
  | split rightPageId index entry =>
    (splitLeaf left right rightPageId index entry).map fun out => (out.1, out.2.1)
  | rotateRight => (rotateLeafRight left right).map fun out => (out.1, out.2.1)
  | rotateLeft => (rotateLeafLeft left right).map fun out => (out.1, out.2.1)
  | merge => (mergeLeaf left right).map fun left' => (left', right)

def InternalPair.run (left right : Body) : InternalPair → Option (Body × Body)
  | split index entry => (splitInternal left right index entry).map fun out => (out.1, out.2.1)
  | rotateRight separator => (rotateInternalRight left right separator).map fun out => (out.1, out.2.1)
  | rotateLeft separator => (rotateInternalLeft left right separator).map fun out => (out.1, out.2.1)
  | merge separator => (mergeInternal left right separator).map fun left' => (left', right)

def LeafEdit.Meets (b : Body) : LeafEdit → Prop
  | insertAt index _ => LeafNode.count b < nodeCapacity ∧ index ≤ LeafNode.count b
  | removeAt index => LeafNode.count b ≤ nodeCapacity ∧ index < LeafNode.count b
  | setNextLeaf _ => True
  | assign entries => entries.length ≤ nodeCapacity

def InternalEdit.Meets (b : Body) : InternalEdit → Prop
  | insertAt index entry =>
    InternalNode.count b < nodeCapacity ∧ 1 ≤ index ∧ index ≤ InternalNode.count b ∧ entry.reserved = 0
  | removeAt index => InternalNode.count b ≤ nodeCapacity ∧ 1 ≤ index ∧ index < InternalNode.count b
  | setKeyAt index _ => 1 ≤ index ∧ index < InternalNode.count b
  | assign entries => 1 ≤ entries.length ∧ entries.length ≤ nodeCapacity ∧ ∀ e ∈ entries, e.reserved = 0

def LeafPair.Meets (left right : Body) : LeafPair → Prop
  | split _ index _ =>
    (1 ≤ LeafNode.count left ∧ LeafNode.count left ≤ nodeCapacity) ∧ index ≤ LeafNode.count left ∧
      LeafNode.count right = 0
  | rotateRight => 2 ≤ LeafNode.count left ∧ LeafNode.count right < nodeCapacity
  | rotateLeft => 2 ≤ LeafNode.count right ∧ LeafNode.count left < nodeCapacity
  | merge => LeafNode.count left + LeafNode.count right ≤ nodeCapacity

def InternalPair.Meets (left right : Body) : InternalPair → Prop
  | split index entry =>
    (2 ≤ InternalNode.count left ∧ InternalNode.count left ≤ nodeCapacity) ∧
      (1 ≤ index ∧ index ≤ InternalNode.count left) ∧ InternalNode.count right = 0 ∧
      InternalNode.level right = InternalNode.level left ∧ entry.reserved = 0
  | rotateRight _ =>
    (2 ≤ InternalNode.count left ∧ 1 ≤ InternalNode.count right ∧ InternalNode.count right < nodeCapacity) ∧
      InternalNode.level left = InternalNode.level right
  | rotateLeft _ =>
    (2 ≤ InternalNode.count right ∧ 1 ≤ InternalNode.count left ∧ InternalNode.count left < nodeCapacity) ∧
      InternalNode.level left = InternalNode.level right
  | merge _ =>
    (1 ≤ InternalNode.count left ∧ 1 ≤ InternalNode.count right ∧
      InternalNode.count left + InternalNode.count right ≤ nodeCapacity) ∧
      InternalNode.level left = InternalNode.level right

inductive NodePage where
  | leaf (b : Body)
  | internal (b : Body)

/-- The nodes there are, by any names. -/
abbrev Nodes := Nat → Option NodePage

inductive NodeOp where
  /-- `Init` on a zeroed body. -/
  | initLeaf (i : Nat)
  | initInternal (i : Nat) (level : UInt16)
  | editLeaf (i : Nat) (edit : LeafEdit)
  | editInternal (i : Nat) (edit : InternalEdit)
  | pairLeaf (l r : Nat) (pair : LeafPair)
  | pairInternal (l r : Nat) (pair : InternalPair)

def NodePage.leaf? : NodePage → Option Body
  | leaf b => some b
  | internal _ => none

def NodePage.internal? : NodePage → Option Body
  | leaf _ => none
  | internal b => some b

namespace Nodes

def set (s : Nodes) (i : Nat) (page : NodePage) : Nodes := Function.update s i (some page)

def leafAt (s : Nodes) (i : Nat) : Option Body := (s i).bind NodePage.leaf?
def internalAt (s : Nodes) (i : Nat) : Option Body := (s i).bind NodePage.internal?

def step (s : Nodes) : NodeOp → Option Nodes
  | .initLeaf i => some (s.set i (.leaf (LeafNode.init Region.zero)))
  | .initInternal i level => do
    let b ← InternalNode.init Region.zero level.toNat
    pure (s.set i (.internal b))
  | .editLeaf i edit => do
    let b ← s.leafAt i
    let b ← edit.run b
    pure (s.set i (.leaf b))
  | .editInternal i edit => do
    let b ← s.internalAt i
    let b ← edit.run b
    pure (s.set i (.internal b))
  | .pairLeaf l r pair => do
    let left ← s.leafAt l
    let right ← s.leafAt r
    let out ← pair.run left right
    pure ((s.set l (.leaf out.1)).set r (.leaf out.2))
  | .pairInternal l r pair => do
    let left ← s.internalAt l
    let right ← s.internalAt r
    let out ← pair.run left right
    pure ((s.set l (.internal out.1)).set r (.internal out.2))

/-- The operation is on nodes there are, of its kind, two of them for a pair, and its preconditions hold. -/
def Meets (s : Nodes) : NodeOp → Prop
  | .initLeaf _ => True
  | .initInternal _ level => 1 ≤ level.toNat
  | .editLeaf i edit => ∃ b, s.leafAt i = some b ∧ edit.Meets b
  | .editInternal i edit => ∃ b, s.internalAt i = some b ∧ edit.Meets b
  | .pairLeaf l r pair => l ≠ r ∧ ∃ left right, s.leafAt l = some left ∧ s.leafAt r = some right ∧ pair.Meets left right
  | .pairInternal l r pair =>
    l ≠ r ∧ ∃ left right, s.internalAt l = some left ∧ s.internalAt r = some right ∧ pair.Meets left right

end Nodes

/-- A leaf in canonical form. -/
def LeafCanonical (b : Body) : Prop := ∃ next, ∃ es : List LeafEntry, Encoded b 0 next es

/-- The reserved words are zero. -/
def Plain (es : List InternalEntry) : Prop := ∀ e ∈ es, e.reserved = 0

/-- An internal node in canonical form. -/
def InternalCanonical (b : Body) : Prop :=
  ∃ level next, ∃ es : List InternalEntry, Encoded b level next es ∧ Plain es

/-! The entries an internal operation writes are plain if those it reads and the one it is given are. -/
namespace Plain
variable {es es' : List InternalEntry}

theorem append (h : Plain es) (h' : Plain es') : Plain (es ++ es') := by
  intro e he
  rcases List.mem_append.mp he with he | he
  · exact h e he
  · exact h' e he

theorem cons {e : InternalEntry} (he : e.reserved = 0) (h : Plain es) : Plain (e :: es) :=
  List.forall_mem_cons.mpr ⟨he, h⟩

theorem take (h : Plain es) (n : Nat) : Plain (es.take n) := fun e he => h e (List.mem_of_mem_take he)

theorem drop (h : Plain es) (n : Nat) : Plain (es.drop n) := fun e he => h e (List.mem_of_mem_drop he)

theorem set (h : Plain es) {e : InternalEntry} (he : e.reserved = 0) (n : Nat) : Plain (es.set n e) := by
  intro e' he'
  rcases List.mem_or_eq_of_mem_set he' with hmem | rfl
  · exact h e' hmem
  · exact he

theorem canonical (h : Plain es) : Plain (InternalNode.canonical es) := by
  cases es with
  | nil => exact h
  | cons first rest =>
    obtain ⟨hfirst, hrest⟩ := List.forall_mem_cons.mp h
    exact cons hfirst hrest

theorem withHeadKey (h : Plain es) (separator : Key) : Plain (withHeadKey separator es) := by
  cases es with
  | nil => exact h
  | cons first rest =>
    obtain ⟨hfirst, hrest⟩ := List.forall_mem_cons.mp h
    exact cons hfirst hrest

end Plain

theorem LeafCanonical.init : LeafCanonical (LeafNode.init Region.zero) :=
  ⟨invalidPage, [], Encoded.init LeafEntry (by norm_num)⟩

theorem InternalCanonical.init (level : UInt16) :
    InternalCanonical (Node.writeHeader Region.zero ⟨level.toNat, 0, invalidPage⟩) :=
  ⟨level.toNat, invalidPage, [], Encoded.init InternalEntry level.toNat_lt, by simp [Plain]⟩

theorem LeafEdit.run_canonical {b : Body} (h : LeafCanonical b) (edit : LeafEdit) (hmeets : edit.Meets b) :
    ∃ b', edit.run b = some b' ∧ LeafCanonical b' := by
  obtain ⟨next, es, h⟩ := h
  have hcount : LeafNode.count b = es.length := h.node.count_eq
  cases edit with
  | insertAt index entry =>
    simp only [LeafEdit.Meets, hcount] at hmeets
    obtain ⟨b', hrun, h'⟩ := h.insertAt entry hmeets.1 (Nat.zero_le _) hmeets.2
    exact ⟨b', hrun, _, _, h'⟩
  | removeAt index =>
    simp only [LeafEdit.Meets, hcount] at hmeets
    obtain ⟨b', hrun, h'⟩ := h.removeAt (Nat.zero_le _) hmeets.2
    exact ⟨b', hrun, _, _, h'⟩
  | setNextLeaf p => exact ⟨_, rfl, _, _, h.setNextLeaf p⟩
  | assign entries =>
    obtain ⟨b', hrun, -⟩ := LeafNode.assign_eq h.node entries hmeets
    exact ⟨b', hrun, _, _, h.of_leafAssign hrun⟩

theorem InternalEdit.run_canonical {b : Body} (h : InternalCanonical b) (edit : InternalEdit) (hmeets : edit.Meets b) :
    ∃ b', edit.run b = some b' ∧ InternalCanonical b' := by
  obtain ⟨level, next, es, h, hplain⟩ := h
  have hcount : InternalNode.count b = es.length := h.node.count_eq
  cases edit with
  | insertAt index entry =>
    simp only [InternalEdit.Meets, hcount] at hmeets
    obtain ⟨hcap, h1, hi, hres⟩ := hmeets
    obtain ⟨b', hrun, h'⟩ := h.insertAt entry hcap h1 hi
    exact ⟨b', hrun, _, _, _, h', (hplain.take _).append (.cons hres (hplain.drop _))⟩
  | removeAt index =>
    simp only [InternalEdit.Meets, hcount] at hmeets
    obtain ⟨-, h1, hi⟩ := hmeets
    obtain ⟨b', hrun, h'⟩ := h.removeAt h1 hi
    exact ⟨b', hrun, _, _, _, h', (hplain.take _).append (hplain.drop _)⟩
  | setKeyAt index key =>
    simp only [InternalEdit.Meets, hcount] at hmeets
    obtain ⟨h1, hi⟩ := hmeets
    obtain ⟨b', hrun, h'⟩ := h.writeEntry hi { es[index] with key := key }
    have hres : ({ es[index] with key := key } : InternalEntry).reserved = 0 := hplain es[index] (List.getElem_mem hi)
    refine ⟨b', ?_, _, _, _, h', hplain.set hres _⟩
    have hentry : InternalNode.entryAt b index = some es[index] := h.node.entryAt hi
    simp [InternalEdit.run, InternalNode.setKeyAt, h1, hcount, hi, hentry, hrun]
  | assign entries =>
    obtain ⟨h1, hcap, hres⟩ := hmeets
    obtain ⟨b', hrun, -⟩ := InternalNode.assign_eq h.node entries h1 hcap
    exact ⟨b', hrun, _, _, _, h.of_internalAssign hrun, Plain.canonical hres⟩

theorem LeafPair.run_canonical {left right : Body} (hl : LeafCanonical left) (hr : LeafCanonical right)
    (pair : LeafPair) (hmeets : pair.Meets left right) :
    ∃ left' right', pair.run left right = some (left', right') ∧ LeafCanonical left' ∧ LeafCanonical right' := by
  obtain ⟨next, les, hl⟩ := hl
  obtain ⟨next', res, hr⟩ := hr
  have hcount : LeafNode.count left = les.length := hl.node.count_eq
  have hcount' : LeafNode.count right = res.length := hr.node.count_eq
  cases pair with
  | split rightPageId index entry =>
    simp only [LeafPair.Meets, hcount, hcount', List.length_eq_zero_iff] at hmeets
    obtain ⟨⟨h1, -⟩, hi, rfl⟩ := hmeets
    obtain ⟨left', right', sep, hrun, -, -, -⟩ := splitLeaf_eq hl.node hr.node rightPageId entry h1 hi rfl rfl
    obtain ⟨⟨xs, hxs⟩, ⟨ys, hys⟩⟩ := splitLeaf_inv hrun
    exact ⟨left', right', by rw [LeafPair.run, hrun, Option.map_some], ⟨_, _, (hl.setNextLeaf _).of_leafAssign hxs⟩,
      _, _, (hr.setNextLeaf _).of_leafAssign hys⟩
  | rotateRight =>
    simp only [LeafPair.Meets, hcount, hcount'] at hmeets
    obtain ⟨left', right', sep, hrun, -, -, -⟩ := rotateLeafRight_eq hl.node hr.node hmeets.1 hmeets.2
    obtain ⟨_, -, hcut⟩ := Option.bind_eq_some_iff.mp hrun
    obtain ⟨⟨xs, hxs⟩, ⟨ys, hys⟩⟩ := recutLeaf_inv hcut
    exact ⟨left', right', by rw [LeafPair.run, hrun, Option.map_some], ⟨_, _, hl.of_leafAssign hxs⟩,
      _, _, hr.of_leafAssign hys⟩
  | rotateLeft =>
    simp only [LeafPair.Meets, hcount, hcount'] at hmeets
    obtain ⟨left', right', sep, hrun, -, -, -⟩ := rotateLeafLeft_eq hl.node hr.node hmeets.1 hmeets.2
    obtain ⟨_, -, hcut⟩ := Option.bind_eq_some_iff.mp hrun
    obtain ⟨⟨xs, hxs⟩, ⟨ys, hys⟩⟩ := recutLeaf_inv hcut
    exact ⟨left', right', by rw [LeafPair.run, hrun, Option.map_some], ⟨_, _, hl.of_leafAssign hxs⟩,
      _, _, hr.of_leafAssign hys⟩
  | merge =>
    simp only [LeafPair.Meets, hcount, hcount'] at hmeets
    obtain ⟨left', hrun, -⟩ := mergeLeaf_eq hl.node hr.node hmeets
    obtain ⟨l, xs, hxs, rfl⟩ := mergeLeaf_inv hrun
    exact ⟨_, right, by rw [LeafPair.run, hrun, Option.map_some], ⟨_, _, (hl.of_leafAssign hxs).setNextLeaf _⟩,
      _, _, hr⟩

/-- Two internal bodies that `Assign` wrote: canonical where they are read as plain entries. -/
theorem internalCanonical_of_assign {b b' : Body} {level level' : Nat} {next next' : PageId}
    {es es' xs : List InternalEntry} (h : Encoded b level next es) (hxs : InternalNode.assign b xs = some b')
    (hn : NodeIs b' level' next' es') (hplain : Plain es') : InternalCanonical b' :=
  ⟨level', next', es', (h.of_internalAssign hxs).of_node hn, hplain⟩

theorem InternalPair.run_canonical {left right : Body} (hl : InternalCanonical left) (hr : InternalCanonical right)
    (pair : InternalPair) (hmeets : pair.Meets left right) :
    ∃ left' right', pair.run left right = some (left', right') ∧ InternalCanonical left' ∧ InternalCanonical right' := by
  obtain ⟨level, next, les, hl, hpl⟩ := hl
  obtain ⟨level', next', res, hr, hpr⟩ := hr
  have hcount : InternalNode.count left = les.length := hl.node.count_eq
  have hcount' : InternalNode.count right = res.length := hr.node.count_eq
  have hlevel : InternalNode.level left = level := congrArg NodeSubHeader.level hl.header_eq
  have hlevel' : InternalNode.level right = level' := congrArg NodeSubHeader.level hr.header_eq
  cases pair with
  | split index entry =>
    simp only [InternalPair.Meets, hcount, hcount', hlevel, hlevel', List.length_eq_zero_iff] at hmeets
    obtain ⟨⟨h2, -⟩, ⟨h1, hi⟩, rfl, rfl, hres⟩ := hmeets
    obtain ⟨left', right', sep, hrun, -, hln, hrn⟩ := splitInternal_eq hl.node hr.node entry h2 h1 hi rfl rfl
    obtain ⟨⟨xs, hxs⟩, ⟨ys, hys⟩⟩ := splitInternal_inv hrun
    have htemp : Plain (les.take index ++ entry :: les.drop index) :=
      (hpl.take _).append (.cons hres (hpl.drop _))
    exact ⟨left', right', by rw [InternalPair.run, hrun, Option.map_some],
      internalCanonical_of_assign hl hxs hln (htemp.take _).canonical,
      internalCanonical_of_assign hr hys hrn (htemp.drop _).canonical⟩
  | rotateRight separator =>
    simp only [InternalPair.Meets, hcount, hcount', hlevel, hlevel'] at hmeets
    obtain ⟨⟨h2, h1, hcap⟩, rfl⟩ := hmeets
    obtain ⟨left', right', up, hrun, -, hln, hrn⟩ := rotateInternalRight_eq hl.node hr.node separator h2 h1 hcap rfl
    obtain ⟨_, -, hcut⟩ := Option.bind_eq_some_iff.mp hrun
    obtain ⟨⟨xs, hxs⟩, ⟨ys, hys⟩⟩ := recutInternal_inv hcut
    have htemp : Plain (les ++ withHeadKey separator res) := hpl.append (hpr.withHeadKey _)
    exact ⟨left', right', by rw [InternalPair.run, hrun, Option.map_some],
      internalCanonical_of_assign hl hxs hln (htemp.take _).canonical,
      internalCanonical_of_assign hr hys hrn (htemp.drop _).canonical⟩
  | rotateLeft separator =>
    simp only [InternalPair.Meets, hcount, hcount', hlevel, hlevel'] at hmeets
    obtain ⟨⟨h2, h1, hcap⟩, rfl⟩ := hmeets
    obtain ⟨left', right', up, hrun, -, hln, hrn⟩ := rotateInternalLeft_eq hl.node hr.node separator h2 h1 hcap rfl
    obtain ⟨_, -, hcut⟩ := Option.bind_eq_some_iff.mp hrun
    obtain ⟨⟨xs, hxs⟩, ⟨ys, hys⟩⟩ := recutInternal_inv hcut
    have htemp : Plain (les ++ withHeadKey separator res) := hpl.append (hpr.withHeadKey _)
    exact ⟨left', right', by rw [InternalPair.run, hrun, Option.map_some],
      internalCanonical_of_assign hl hxs hln (htemp.take _).canonical,
      internalCanonical_of_assign hr hys hrn (htemp.drop _).canonical⟩
  | merge separator =>
    simp only [InternalPair.Meets, hcount, hcount', hlevel, hlevel'] at hmeets
    obtain ⟨⟨h1, h2, hcap⟩, rfl⟩ := hmeets
    obtain ⟨left', hrun, hln⟩ := mergeInternal_eq hl.node hr.node separator h1 h2 hcap
    obtain ⟨xs, hxs⟩ := mergeInternal_inv hrun
    exact ⟨left', right, by rw [InternalPair.run, hrun, Option.map_some],
      internalCanonical_of_assign hl hxs hln (hpl.append (hpr.withHeadKey _)).canonical, _, _, _, hr, hpr⟩

namespace Nodes

/-- Every node is in canonical form. -/
structure Canonical (s : Nodes) : Prop where
  leaf : ∀ i b, s i = some (.leaf b) → LeafCanonical b
  internal : ∀ i b, s i = some (.internal b) → InternalCanonical b

theorem leafAt_some {s : Nodes} {i : Nat} {b : Body} (h : s.leafAt i = some b) : s i = some (.leaf b) := by
  obtain ⟨page, hpage, h⟩ := Option.bind_eq_some_iff.mp h
  cases page with
  | leaf b' =>
    cases h
    exact hpage
  | internal b' => cases h

theorem internalAt_some {s : Nodes} {i : Nat} {b : Body} (h : s.internalAt i = some b) :
    s i = some (.internal b) := by
  obtain ⟨page, hpage, h⟩ := Option.bind_eq_some_iff.mp h
  cases page with
  | leaf b' => cases h
  | internal b' =>
    cases h
    exact hpage

theorem step_editLeaf {s : Nodes} {i : Nat} {edit : LeafEdit} {b b' : Body} (hb : s.leafAt i = some b)
    (hrun : edit.run b = some b') : s.step (.editLeaf i edit) = some (s.set i (.leaf b')) := by
  simp only [step, hb, Option.bind_eq_bind, Option.bind_some, hrun]
  rfl

namespace Canonical
variable {s : Nodes}

theorem setLeaf (h : s.Canonical) (i : Nat) {b : Body} (hb : LeafCanonical b) : (s.set i (.leaf b)).Canonical where
  leaf j b' hj := by
    rcases eq_or_ne j i with rfl | hne
    · rw [set, Function.update_self] at hj
      cases hj
      exact hb
    · rw [set, Function.update_of_ne hne] at hj
      exact h.leaf j b' hj
  internal j b' hj := by
    rcases eq_or_ne j i with rfl | hne
    · rw [set, Function.update_self] at hj
      cases hj
    · rw [set, Function.update_of_ne hne] at hj
      exact h.internal j b' hj

theorem setInternal (h : s.Canonical) (i : Nat) {b : Body} (hb : InternalCanonical b) :
    (s.set i (.internal b)).Canonical where
  leaf j b' hj := by
    rcases eq_or_ne j i with rfl | hne
    · rw [set, Function.update_self] at hj
      cases hj
    · rw [set, Function.update_of_ne hne] at hj
      exact h.leaf j b' hj
  internal j b' hj := by
    rcases eq_or_ne j i with rfl | hne
    · rw [set, Function.update_self] at hj
      cases hj
      exact hb
    · rw [set, Function.update_of_ne hne] at hj
      exact h.internal j b' hj

/-- One operation: it trips no assertion, leaves no body and keeps every node canonical. -/
theorem step (h : s.Canonical) {op : NodeOp} (hmeets : s.Meets op) : ∃ s', s.step op = some s' ∧ s'.Canonical := by
  cases op with
  | initLeaf i => exact ⟨_, rfl, h.setLeaf i LeafCanonical.init⟩
  | initInternal i level =>
    have hrun : InternalNode.init Region.zero level.toNat =
        some (Node.writeHeader Region.zero ⟨level.toNat, 0, invalidPage⟩) := by
      have h1 : 1 ≤ level.toNat := hmeets
      rw [InternalNode.init, require_pos h1]
      rfl
    exact ⟨_, by simp only [Nodes.step, hrun]; rfl, h.setInternal i (InternalCanonical.init level)⟩
  | editLeaf i edit =>
    obtain ⟨b, hb, hedit⟩ := hmeets
    obtain ⟨b', hrun, hb'⟩ := edit.run_canonical (h.leaf i b (leafAt_some hb)) hedit
    exact ⟨_, step_editLeaf hb hrun, h.setLeaf i hb'⟩
  | editInternal i edit =>
    obtain ⟨b, hb, hedit⟩ := hmeets
    obtain ⟨b', hrun, hb'⟩ := edit.run_canonical (h.internal i b (internalAt_some hb)) hedit
    exact ⟨_, by simp only [Nodes.step, hb, Option.bind_eq_bind, Option.bind_some, hrun]; rfl, h.setInternal i hb'⟩
  | pairLeaf l r pair =>
    obtain ⟨-, left, right, hl, hr, hpair⟩ := hmeets
    obtain ⟨left', right', hrun, hl', hr'⟩ :=
      pair.run_canonical (h.leaf l left (leafAt_some hl)) (h.leaf r right (leafAt_some hr)) hpair
    exact ⟨_, by simp only [Nodes.step, hl, hr, Option.bind_eq_bind, Option.bind_some, hrun]; rfl,
      (h.setLeaf l hl').setLeaf r hr'⟩
  | pairInternal l r pair =>
    obtain ⟨-, left, right, hl, hr, hpair⟩ := hmeets
    obtain ⟨left', right', hrun, hl', hr'⟩ :=
      pair.run_canonical (h.internal l left (internalAt_some hl)) (h.internal r right (internalAt_some hr)) hpair
    exact ⟨_, by simp only [Nodes.step, hl, hr, Option.bind_eq_bind, Option.bind_some, hrun]; rfl,
      (h.setInternal l hl').setInternal r hr'⟩

end Canonical

/-- The states that operations meeting their preconditions lead to, from no nodes at all. -/
abbrev Reached (s : Nodes) : Prop := Machine.Reaches step Meets (fun _ => none) s

theorem Reached.canonical {s : Nodes} (h : s.Reached) : s.Canonical := by
  refine Machine.Reaches.invariant h ⟨fun _ _ hb => (by cases hb), fun _ _ hb => (by cases hb)⟩ ?_
  intro s s' op hs hmeets hstep
  obtain ⟨s'', hstep', hs''⟩ := hs.step hmeets
  rw [hstep] at hstep'
  cases hstep'
  exact hs''

end Nodes

/-- No operation that meets its preconditions fails, and after any sequence of them the body of every node is the
canonical encoding of what it decodes to. So nodes of any two histories that decode to the same are the same bytes. -/
theorem node_bytes_canonical {s : Nodes} (h : s.Reached) :
    (∀ op, s.Meets op → ∃ s', s.step op = some s') ∧
    (∀ i b, s i = some (.leaf b) → ∃ next, ∃ es : List LeafEntry, b = Node.encode 0 next es ∧
      LeafNode.header b = ⟨0, es.length, next⟩ ∧ Node.entriesFrom LeafEntry b 0 (LeafNode.count b) = some es) ∧
    (∀ i b, s i = some (.internal b) → ∃ level next, ∃ es : List InternalEntry, b = Node.encode level next es ∧
      (∀ e ∈ es, e.reserved = 0) ∧ InternalNode.header b = ⟨level, es.length, next⟩ ∧
      Node.entriesFrom InternalEntry b 0 (InternalNode.count b) = some es) ∧
    ∀ s' : Nodes, s'.Reached →
      (∀ i j b b', s i = some (.leaf b) → s' j = some (.leaf b') → LeafNode.header b = LeafNode.header b' →
        Node.entriesFrom LeafEntry b 0 (LeafNode.count b) = Node.entriesFrom LeafEntry b' 0 (LeafNode.count b') →
        b = b') ∧
      (∀ i j b b', s i = some (.internal b) → s' j = some (.internal b') →
        InternalNode.header b = InternalNode.header b' →
        Node.entriesFrom InternalEntry b 0 (InternalNode.count b) =
          Node.entriesFrom InternalEntry b' 0 (InternalNode.count b') → b = b') := by
  refine ⟨?_, ?_, ?_, fun s' h' => ⟨?_, ?_⟩⟩
  · intro op hmeets
    obtain ⟨s', hstep, -⟩ := h.canonical.step hmeets
    exact ⟨s', hstep⟩
  · intro i b hb
    obtain ⟨next, es, henc⟩ := h.canonical.leaf i b hb
    exact ⟨next, es, henc.eq_encode, henc.header_eq, henc.decoded⟩
  · intro i b hb
    obtain ⟨level, next, es, henc, hplain⟩ := h.canonical.internal i b hb
    exact ⟨level, next, es, henc.eq_encode, hplain, henc.header_eq, henc.decoded⟩
  · intro i j b b' hb hb' hheader hentries
    obtain ⟨next, es, henc⟩ := h.canonical.leaf i b hb
    obtain ⟨next', es', henc'⟩ := h'.canonical.leaf j b' hb'
    exact henc.eq_of_decoded henc' hheader hentries
  · intro i j b b' hb hb' hheader hentries
    obtain ⟨level, next, es, henc, -⟩ := h.canonical.internal i b hb
    obtain ⟨level', next', es', henc', -⟩ := h'.canonical.internal j b' hb'
    exact henc.eq_of_decoded henc' hheader hentries

/-- A leaf that got an entry and lost it again has the bytes of a fresh one. -/
theorem node_bytes_canonical_insertRemove :
    ∃ (s : Nodes) (b b' : Body), s.Reached ∧ s 0 = some (.leaf b') ∧
      LeafNode.insertAt (LeafNode.init Region.zero) 0 ⟨7, 2, 0⟩ = some b ∧ LeafNode.removeAt b 0 = some b' ∧
      b' = LeafNode.init Region.zero := by
  have hinit : Encoded (LeafNode.init Region.zero) 0 invalidPage ([] : List LeafEntry) :=
    Encoded.init LeafEntry (by norm_num)
  obtain ⟨b, hins, hb⟩ := @Encoded.insertAt _ _ _ _ _ _ hinit 0 0 ⟨7, 2, 0⟩ (by decide) le_rfl le_rfl
  obtain ⟨b', hrem, hb'⟩ := @Encoded.removeAt _ _ _ _ _ _ hb 0 0 le_rfl (by decide)
  let s₁ : Nodes := Nodes.set (fun _ => none) 0 (.leaf (LeafNode.init Region.zero))
  have h₁ : s₁.Reached := Machine.Reaches.start.next (i := .initLeaf 0) trivial rfl
  have h₂ : (s₁.set 0 (.leaf b)).Reached := by
    refine h₁.next (i := .editLeaf 0 (.insertAt 0 ⟨7, 2, 0⟩)) ⟨_, rfl, ?_⟩ (Nodes.step_editLeaf rfl hins)
    rw [LeafEdit.Meets, show LeafNode.count (LeafNode.init Region.zero) = 0 from hinit.node.count_eq]
    decide
  have h₃ : ((s₁.set 0 (.leaf b)).set 0 (.leaf b')).Reached := by
    refine h₂.next (i := .editLeaf 0 (.removeAt 0)) ⟨b, rfl, ?_⟩ (Nodes.step_editLeaf rfl hrem)
    rw [LeafEdit.Meets, show LeafNode.count b = 1 from hb.node.count_eq]
    decide
  have hsame := ((node_bytes_canonical h₃).2.2.2 s₁ h₁).1 0 0 b' (LeafNode.init Region.zero) rfl rfl
  refine ⟨_, b, b', h₃, rfl, hins, hrem, hsame ?_ ?_⟩
  · exact hb'.header_eq.trans hinit.header_eq.symm
  · exact hb'.decoded.trans hinit.decoded.symm

end KernSql

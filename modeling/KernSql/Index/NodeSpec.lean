import KernSql.Index.Node

/- What the node operations do to a node's contents.

   `NodeIs b level next es` reads a body as a node: its sub-header holds `level`,
   `next` and the number of entries, and its entry array starts with `es`. Each
   operation has one specification: from a body that is a node with contents
   `es`, meeting the operation's assertions, it is defined and gives a body whose
   contents are the list edit it stands for. Nothing above this module looks at
   a byte again. -/
namespace KernSql
open Bytes

theorem NodeSubHeader.readFrom_writeTo {h : NodeSubHeader} (hl : h.level < 65536)
    (hc : h.count < 65536) : NodeSubHeader.readFrom h.writeTo = h := by
  have h4 : (pageIdBytes h.nextPageId).length = 4 := by simp [pageIdBytes]
  have e1 : (leBytes 2 h.level ++ (leBytes 2 h.count ++ pageIdBytes h.nextPageId)).take 2
      = leBytes 2 h.level := List.take_left' (by simp)
  have e2 := field_eq (a := leBytes 2 h.level) (b := leBytes 2 h.count)
    (c := pageIdBytes h.nextPageId) (i := 2) (w := 2) (by simp) (by simp)
  have e3 := field_eq (a := leBytes 2 h.level ++ leBytes 2 h.count) (b := pageIdBytes h.nextPageId)
    (c := []) (i := 4) (w := 4) (by simp) h4
  simp only [List.append_assoc, List.append_nil] at e1 e2 e3
  simp only [readFrom, writeTo, List.append_assoc]
  rw [e1, e2, e3, leNat_leBytes_of_lt hl, leNat_leBytes_of_lt hc, pageIdOf_bytes]

@[simp] theorem NodeSubHeader.length_writeTo (h : NodeSubHeader) : h.writeTo.length = 8 := by
  simp [writeTo, pageIdBytes]

namespace Node
variable {E : Type} [NodeEntry E]

/-- The entry stored in slot `i`, in use or not. -/
def raw (E : Type) [NodeEntry E] (b : Body) (i : Nat) : E :=
  NodeEntry.readFrom (b.slice (nodeEntryOffset i) nodeEntrySize)

theorem header_level_lt (b : Body) : (header b).level < 65536 := by
  have := leNat_lt ((b.slice 0 nodeSubHeaderSize).take 2)
  simpa [header, NodeSubHeader.readFrom, nodeSubHeaderSize] using this

theorem header_count_lt (b : Body) : (header b).count < 65536 := by
  have := leNat_lt (((b.slice 0 nodeSubHeaderSize).drop 2).take 2)
  simpa [header, NodeSubHeader.readFrom, nodeSubHeaderSize] using this

theorem header_writeHeader (b : Body) {h : NodeSubHeader} (hl : h.level < 65536)
    (hc : h.count < 65536) : header (writeHeader b h) = h := by
  have hs : (b.write 0 h.writeTo).slice 0 nodeSubHeaderSize = h.writeTo := by
    have : (b.write 0 h.writeTo).slice 0 h.writeTo.length = h.writeTo :=
      Region.slice_write_same (by simp [pageBodySize])
    simpa [nodeSubHeaderSize] using this
  rw [header, writeHeader, hs, NodeSubHeader.readFrom_writeTo hl hc]

/-- A write past the sub-header leaves it. -/
theorem header_write (b : Body) (off : Nat) (bs : List UInt8) (h : 8 ≤ off) :
    header (b.write off bs) = header b := by
  rw [header, Region.slice_write_off (by simp [nodeSubHeaderSize, pageBodySize])
    (by simp [nodeSubHeaderSize]; omega)]
  rfl

theorem raw_writeHeader (b : Body) (h : NodeSubHeader) (i : Nat) (hi : i < nodeCapacity) :
    raw E (writeHeader b h) i = raw E b i := by
  simp only [nodeCapacity] at hi
  rw [raw, writeHeader, Region.slice_write_off]
  · rfl
  · simp only [nodeEntryOffset, nodeSubHeaderSize, nodeEntrySize, pageBodySize]; omega
  · right; simp [nodeEntryOffset, nodeSubHeaderSize]

theorem raw_writeEntry_same (b : Body) (i : Nat) (e : E) (hi : i < nodeCapacity) :
    raw E (b.write (nodeEntryOffset i) (NodeEntry.writeTo e)) i = e := by
  have hlen := NodeEntry.length_writeTo e
  have : (b.write (nodeEntryOffset i) (NodeEntry.writeTo e)).slice (nodeEntryOffset i)
      (NodeEntry.writeTo e).length = NodeEntry.writeTo e := by
    apply Region.slice_write_same
    rw [hlen]
    simp only [nodeEntryOffset, nodeSubHeaderSize, nodeEntrySize, nodeCapacity, pageBodySize] at *
    omega
  rw [hlen] at this
  rw [raw, this, NodeEntry.readFrom_writeTo]

/-- A write that misses slot `i` leaves its entry. -/
theorem raw_write_off (b : Body) (off : Nat) (bs : List UInt8) (i : Nat) (hi : i < nodeCapacity)
    (h : nodeEntryOffset (i + 1) ≤ off ∨ off + bs.length ≤ nodeEntryOffset i) :
    raw E (b.write off bs) i = raw E b i := by
  simp only [nodeEntryOffset, nodeSubHeaderSize, nodeEntrySize, nodeCapacity, pageBodySize] at *
  rw [raw, Region.slice_write_off]
  · rfl
  · simp only [nodeEntryOffset, nodeSubHeaderSize, nodeEntrySize, pageBodySize]; omega
  · simp only [nodeEntryOffset, nodeSubHeaderSize, nodeEntrySize]; omega

/-- Moving `len` bytes of the entry array from slot `src` to slot `dst` moves the entries. -/
theorem raw_write_moved (b : Body) (src dst k n : Nat) (hk : k < n) (hdst : dst + n ≤ nodeCapacity) :
    raw E (b.write (nodeEntryOffset dst) (b.slice (nodeEntryOffset src) (n * nodeEntrySize))) (dst + k)
      = raw E b (src + k) := by
  simp only [nodeEntryOffset, nodeSubHeaderSize, nodeEntrySize, nodeCapacity, pageBodySize] at *
  simp only [raw, nodeEntryOffset, nodeSubHeaderSize, nodeEntrySize]
  rw [Region.slice_write_inside (by simp [pageBodySize]; omega) (by omega) (by simp; omega),
    Region.slice_drop_take _ _ _ _ _ (by omega)]
  congr 2
  omega

end Node

/-- The body reads as a node at `level` with contents `es`. -/
structure NodeIs {E : Type} [NodeEntry E] (b : Body) (level : Nat) (next : PageId) (es : List E) :
    Prop where
  header_eq : Node.header b = ⟨level, es.length, next⟩
  cap : es.length ≤ nodeCapacity
  entry : ∀ i (h : i < es.length), Node.raw E b i = es[i]

namespace NodeIs
variable {E : Type} [NodeEntry E] {b : Body} {level : Nat} {next : PageId} {es : List E}

theorem count_eq (h : NodeIs b level next es) : Node.count b = es.length := by
  rw [Node.count, h.header_eq]

theorem level_lt (h : NodeIs b level next es) : level < 65536 := by
  have := Node.header_level_lt b
  rwa [h.header_eq] at this

theorem entryAt (h : NodeIs b level next es) {i : Nat} (hi : i < es.length) :
    Node.entryAt E b i = some es[i] := by
  have hcap := h.cap
  have hc : i < nodeCapacity := by omega
  have hcount : i < Node.count b := by rw [h.count_eq]; exact hi
  have hread : b.read? (nodeEntryOffset i) nodeEntrySize
      = some (b.slice (nodeEntryOffset i) nodeEntrySize) := by
    apply Region.read?_eq
    simp only [nodeEntryOffset, nodeSubHeaderSize, nodeEntrySize, nodeCapacity, pageBodySize] at *
    omega
  have he := h.entry i hi
  unfold Node.raw at he
  simp [Node.entryAt, hc, hcount, hread, he]

theorem entriesFrom (h : NodeIs b level next es) : ∀ (n first : Nat), first + n ≤ es.length →
    Node.entriesFrom E b first n = some ((es.drop first).take n)
  | 0, _, _ => by simp [Node.entriesFrom]
  | n + 1, first, hle => by
    have hlt : first < es.length := by omega
    rw [Node.entriesFrom, h.entryAt hlt, entriesFrom h n (first + 1) (by omega)]
    simp only [Option.bind_eq_bind, Option.bind_some, Option.pure_def]
    rw [List.drop_eq_getElem_cons hlt, List.take_succ_cons]

/-- Rewriting the sub-header keeps the entries. -/
theorem withHeader (h : NodeIs b level next es) {level' : Nat} {next' : PageId}
    (hl : level' < 65536) : NodeIs (Node.writeHeader b ⟨level', es.length, next'⟩) level' next' es where
  header_eq := Node.header_writeHeader b hl (by
    have := h.cap; simp only [nodeCapacity] at this; show es.length < 65536; omega)
  cap := h.cap
  entry i hi := by
    have := h.cap
    rw [Node.raw_writeHeader b _ i (by omega), h.entry i hi]

theorem insertAt (h : NodeIs b level next es) {lowest i : Nat} (e : E) (hcap : es.length < nodeCapacity)
    (hlow : lowest ≤ i) (hi : i ≤ es.length) :
    ∃ b', Node.insertAt lowest b i e = some b' ∧ NodeIs b' level next (es.take i ++ e :: es.drop i) := by
  have hc := h.count_eq
  have hu : u16 (i + 1) = i + 1 := u16_of_lt (by simp only [nodeCapacity] at hcap; omega)
  let moved := b.slice (nodeEntryOffset i) ((es.length - i) * nodeEntrySize)
  let b1 := b.write (nodeEntryOffset (i + 1)) moved
  let b2 := b1.write (nodeEntryOffset i) (NodeEntry.writeTo e)
  have hread : b.read? (nodeEntryOffset i) ((es.length - i) * nodeEntrySize) = some moved := by
    apply Region.read?_eq
    simp only [nodeEntryOffset, nodeSubHeaderSize, nodeEntrySize, nodeCapacity, pageBodySize] at *
    omega
  have hw1 : b.write? (nodeEntryOffset (i + 1)) moved = some b1 := by
    apply Region.write?_eq
    simp only [moved, Region.slice_length, nodeEntryOffset, nodeSubHeaderSize, nodeEntrySize, nodeCapacity, pageBodySize] at *
    omega
  have hw2 : Node.writeEntry b1 i e = some b2 := by
    apply Region.write?_eq
    rw [NodeEntry.length_writeTo]
    simp only [nodeEntryOffset, nodeSubHeaderSize, nodeEntrySize, nodeCapacity, pageBodySize] at *
    omega
  have hh : Node.header b2 = ⟨level, es.length, next⟩ := by
    rw [Node.header_write _ _ _ (by simp [nodeEntryOffset, nodeSubHeaderSize]),
      Node.header_write _ _ _ (by simp [nodeEntryOffset, nodeSubHeaderSize]), h.header_eq]
  refine ⟨Node.writeHeader b2 ⟨level, es.length + 1, next⟩, ?_, ?_, ?_, ?_⟩
  · have hcnt : u16 (es.length + 1) = es.length + 1 :=
      u16_of_lt (by simp only [nodeCapacity] at hcap; omega)
    simp [Node.insertAt, hc, hcap, hlow, hi, hread, hu, hw1, hw2, hh, hcnt]
  · have hlen : (es.take i ++ e :: es.drop i).length = es.length + 1 := by simp; omega
    rw [hlen]
    exact Node.header_writeHeader _ h.level_lt (by
      simp only [nodeCapacity] at hcap ⊢; omega)
  · simp; omega
  · intro j hj
    have hj' : j ≤ es.length := by simp at hj; omega
    rw [Node.raw_writeHeader _ _ _ (by omega)]
    -- slot i holds the new entry, the slots above it what the shift moved there
    rcases Nat.lt_trichotomy j i with hlt | rfl | hgt
    · rw [Node.raw_write_off _ _ _ _ (by omega) (by
          left; simp only [nodeEntryOffset, nodeSubHeaderSize, nodeEntrySize]; omega),
        Node.raw_write_off _ _ _ _ (by omega) (by
          left; simp only [nodeEntryOffset, nodeSubHeaderSize, nodeEntrySize]; omega),
        h.entry j (by omega), List.getElem_append_left (by simp; omega), List.getElem_take]
    · rw [Node.raw_writeEntry_same _ _ _ (by omega), List.getElem_append_right (by simp)]
      simp [Nat.min_eq_left hi]
    · rw [Node.raw_write_off _ _ _ _ (by omega) (by
          right; rw [NodeEntry.length_writeTo]
          simp only [nodeEntryOffset, nodeSubHeaderSize, nodeEntrySize]; omega)]
      have hm := Node.raw_write_moved (E := E) b i (i + 1) (j - (i + 1)) (es.length - i) (by omega)
        (by omega)
      rw [show i + 1 + (j - (i + 1)) = j by omega, show i + (j - (i + 1)) = j - 1 by omega] at hm
      rw [hm, h.entry (j - 1) (by omega), List.getElem_append_right (by simp; omega)]
      simp only [List.length_take, Nat.min_eq_left hi]
      rw [List.getElem_cons, dif_neg (by omega), List.getElem_drop]
      congr 1
      omega

theorem removeAt (h : NodeIs b level next es) {lowest i : Nat} (hlow : lowest ≤ i) (hi : i < es.length) :
    ∃ b', Node.removeAt lowest b i = some b' ∧ NodeIs b' level next (es.take i ++ es.drop (i + 1)) := by
  have hc := h.count_eq
  have hcap := h.cap
  have hu : u16 (i + 1) = i + 1 := u16_of_lt (by simp only [nodeCapacity] at hcap; omega)
  have hu' : u16 (es.length - 1) = es.length - 1 := u16_of_lt (by simp only [nodeCapacity] at hcap; omega)
  let moved := b.slice (nodeEntryOffset (i + 1)) ((es.length - i - 1) * nodeEntrySize)
  let b1 := b.write (nodeEntryOffset i) moved
  let b2 := b1.write (nodeEntryOffset (es.length - 1)) (List.replicate nodeEntrySize 0)
  have hread : b.read? (nodeEntryOffset (i + 1)) ((es.length - i - 1) * nodeEntrySize) = some moved := by
    apply Region.read?_eq
    simp only [nodeEntryOffset, nodeSubHeaderSize, nodeEntrySize, nodeCapacity, pageBodySize] at *
    omega
  have hw1 : b.write? (nodeEntryOffset i) moved = some b1 := by
    apply Region.write?_eq
    simp only [moved, Region.slice_length, nodeEntryOffset, nodeSubHeaderSize, nodeEntrySize, nodeCapacity, pageBodySize] at *
    omega
  have hw2 : b1.write? (nodeEntryOffset (es.length - 1)) (List.replicate nodeEntrySize 0) = some b2 := by
    apply Region.write?_eq
    simp only [List.length_replicate, nodeEntryOffset, nodeSubHeaderSize, nodeEntrySize, nodeCapacity, pageBodySize] at *
    omega
  have hh : Node.header b2 = ⟨level, es.length, next⟩ := by
    rw [Node.header_write _ _ _ (by simp [nodeEntryOffset, nodeSubHeaderSize]),
      Node.header_write _ _ _ (by simp [nodeEntryOffset, nodeSubHeaderSize]), h.header_eq]
  refine ⟨Node.writeHeader b2 ⟨level, es.length - 1, next⟩, ?_, ?_, ?_, ?_⟩
  · have hcnt : u16 (es.length + 65535) = es.length - 1 := by
      simp only [nodeCapacity] at hcap; simp only [u16]; omega
    simp [Node.removeAt, hc, hcap, hlow, hi, hread, hu, hu', hw1, hw2, hh, hcnt]
  · have hlen : (es.take i ++ es.drop (i + 1)).length = es.length - 1 := by simp; omega
    rw [hlen]
    exact Node.header_writeHeader _ h.level_lt (by
      simp only [nodeCapacity] at hcap ⊢; omega)
  · simp; omega
  · intro j hj
    have hj' : j + 1 < es.length := by simp at hj; omega
    rw [Node.raw_writeHeader _ _ _ (by omega), Node.raw_write_off _ _ _ _ (by omega) (by
      left; simp only [nodeEntryOffset, nodeSubHeaderSize, nodeEntrySize]; omega)]
    by_cases hlt : j < i
    · rw [Node.raw_write_off _ _ _ _ (by omega) (by
          left; simp only [nodeEntryOffset, nodeSubHeaderSize, nodeEntrySize]; omega),
        h.entry j (by omega), List.getElem_append_left (by simp; omega), List.getElem_take]
    · have hm := Node.raw_write_moved (E := E) b (i + 1) i (j - i) (es.length - i - 1) (by omega)
        (by omega)
      rw [show i + (j - i) = j by omega, show i + 1 + (j - i) = j + 1 by omega] at hm
      rw [hm, h.entry (j + 1) (by omega), List.getElem_append_right (by simp; omega), List.getElem_drop]
      congr 1
      simp
      omega

/-- Overwriting one entry in place. -/
theorem writeEntry (h : NodeIs b level next es) {i : Nat} (hi : i < es.length) (e : E) :
    ∃ b', Node.writeEntry b i e = some b' ∧ NodeIs b' level next (es.set i e) := by
  have hcap := h.cap
  refine ⟨b.write (nodeEntryOffset i) (NodeEntry.writeTo e), ?_, ?_, ?_, ?_⟩
  · apply Region.write?_eq
    rw [NodeEntry.length_writeTo]
    simp only [nodeEntryOffset, nodeSubHeaderSize, nodeEntrySize, nodeCapacity, pageBodySize] at *
    omega
  · rw [Node.header_write _ _ _ (by simp [nodeEntryOffset, nodeSubHeaderSize]), h.header_eq,
      List.length_set]
  · simpa using hcap
  · intro j hj
    simp only [List.length_set] at hj
    rw [List.getElem_set]
    split
    · subst_vars
      exact Node.raw_writeEntry_same _ _ _ (by omega)
    · rw [Node.raw_write_off _ _ _ _ (by omega) (by
        rw [NodeEntry.length_writeTo]
        simp only [nodeEntryOffset, nodeSubHeaderSize, nodeEntrySize]; omega), h.entry j hj]

end NodeIs

namespace Node
variable {E : Type} [NodeEntry E]

theorem writeEntries_eq : ∀ (es : List E) (b : Body) (i : Nat), i + es.length ≤ nodeCapacity →
    ∃ b', writeEntries b i es = some b' ∧ header b' = header b ∧
      (∀ j (h : j < es.length), raw E b' (i + j) = es[j]) ∧ (∀ j, j < i → raw E b' j = raw E b j)
  | [], b, i, _ => ⟨b, rfl, rfl, by simp, fun _ _ => rfl⟩
  | e :: es, b, i, hle => by
    simp only [List.length_cons] at hle
    have hu : u16 i = i := u16_of_lt (by simp only [nodeCapacity] at hle; omega)
    let b1 := b.write (nodeEntryOffset i) (NodeEntry.writeTo e)
    have hw : writeEntry b i e = some b1 := by
      apply Region.write?_eq
      rw [NodeEntry.length_writeTo]
      simp only [nodeEntryOffset, nodeSubHeaderSize, nodeEntrySize, nodeCapacity, pageBodySize] at *
      omega
    obtain ⟨b', hb', hh, hnew, hold⟩ := writeEntries_eq es b1 (i + 1) (by omega)
    refine ⟨b', by simp [writeEntries, hu, hw, hb'], ?_, ?_, ?_⟩
    · rw [hh, header_write _ _ _ (by simp [nodeEntryOffset, nodeSubHeaderSize])]
    · intro j hj
      cases j with
      | zero =>
        rw [Nat.add_zero, hold i (by omega), raw_writeEntry_same _ _ _ (by omega)]
        rfl
      | succ j =>
        have := hnew j (by simpa using hj)
        rw [show i + (j + 1) = i + 1 + j by omega, this]
        rfl
    · intro j hj
      rw [hold j (by omega), raw_write_off _ _ _ _ (by omega) (by
        left; simp only [nodeEntryOffset, nodeSubHeaderSize, nodeEntrySize]; omega)]

/-- `Assign` gives a node with exactly the given entries; level and link stay. -/
theorem assignEntries_eq (b : Body) (es : List E) (hcap : es.length ≤ nodeCapacity) :
    ∃ b', assignEntries b es = some b' ∧ NodeIs b' (header b).level (header b).nextPageId es := by
  obtain ⟨b1, hb1, hh1, hnew, -⟩ := writeEntries_eq es b 0 (by omega)
  have hu : u16 es.length = es.length := u16_of_lt (by simp only [nodeCapacity] at hcap; omega)
  let zeros : List UInt8 :=
    List.replicate (nodeEntryOffset nodeCapacity - nodeEntryOffset es.length) 0
  let b2 := b1.write (nodeEntryOffset es.length) zeros
  have hw : b1.write? (nodeEntryOffset es.length) zeros = some b2 := by
    apply Region.write?_eq
    simp only [zeros, List.length_replicate, nodeEntryOffset, nodeSubHeaderSize, nodeEntrySize,
      nodeCapacity, pageBodySize] at *
    omega
  have hh2 : header b2 = header b := by
    rw [header_write _ _ _ (by simp [nodeEntryOffset, nodeSubHeaderSize]), hh1]
  refine ⟨writeHeader b2 { header b with count := es.length }, ?_, ?_, hcap, ?_⟩
  · have hw' : b1.write? (nodeEntryOffset es.length)
        (List.replicate (nodeEntryOffset nodeCapacity - nodeEntryOffset es.length) 0) = some b2 := hw
    simp [assignEntries, hb1, hu, hw', hh2]
  · exact header_writeHeader _ (header_level_lt b) (by simp only [nodeCapacity] at hcap ⊢; omega)
  · intro j hj
    have := hnew j hj
    rw [raw_writeHeader _ _ _ (by omega), raw_write_off _ _ _ _ (by omega) (by
      left; simp only [nodeEntryOffset, nodeSubHeaderSize, nodeEntrySize]; omega)]
    simpa using this

end Node

/-! The searches. -/

/-- Keys increase strictly. -/
def KeysIncrease (es : List LeafEntry) : Prop := es.Pairwise fun a b => a.key < b.key

/-- The number of entries below `key`. -/
def below (es : List LeafEntry) (key : Key) : Nat := es.countP fun e => e.key < key

/-- The number of separators at or below `key`; entry 0 holds none. -/
def routeIndex (es : List InternalEntry) (key : Key) : Nat := es.tail.countP fun e => e.key ≤ key

theorem leading_below {es : List LeafEntry} (h : KeysIncrease es) (key : Key) :
    Search.Leading (fun e => decide (e.key < key)) es := by
  refine List.Pairwise.imp ?_ h
  intro a b hab hb
  simp only [decide_eq_true_eq] at hb ⊢
  exact lt_trans hab hb

theorem LeafNode.lowerBound_eq {b : Body} {level : Nat} {next : PageId} {es : List LeafEntry}
    (h : NodeIs b level next es) (hs : KeysIncrease es) (key : Key) :
    LeafNode.lowerBound b key = some (below es key) := by
  have hcount : LeafNode.count b = es.length := h.count_eq
  have hcap := h.cap
  simp only [nodeCapacity] at hcap
  unfold LeafNode.lowerBound
  rw [hcount]
  apply Search.bsearch_eq
  · omega
  · exact List.countP_le_length
  · omega
  · omega
  · intro i _ hi
    have hk : LeafNode.keyAt b i = some es[i].key := by
      rw [LeafNode.keyAt, LeafNode.entryAt, h.entryAt hi]; rfl
    rw [hk, Option.map_some]
    congr 1
    exact (leading_below hs key).getElem i hi

theorem InternalNode.keyAt_eq {b : Body} {level : Nat} {next : PageId} {es : List InternalEntry}
    (h : NodeIs b level next es) {i : Nat} (h1 : 1 ≤ i) (hi : i < es.length) :
    InternalNode.keyAt b i = some es[i].key := by
  have hcount : i < InternalNode.count b := by rw [show InternalNode.count b = _ from h.count_eq]; exact hi
  simp [InternalNode.keyAt, h1, hcount, InternalNode.entryAt, h.entryAt hi]

theorem InternalNode.setKeyAt_eq {b : Body} {level : Nat} {next : PageId} {es : List InternalEntry}
    (h : NodeIs b level next es) {i : Nat} (h1 : 1 ≤ i) (hi : i < es.length) (key : Key) :
    ∃ b', InternalNode.setKeyAt b i key = some b' ∧ NodeIs b' level next (es.set i { es[i] with key := key }) := by
  have hcount : i < InternalNode.count b := by rw [show InternalNode.count b = _ from h.count_eq]; exact hi
  obtain ⟨b', hw, hn⟩ := h.writeEntry hi { es[i] with key := key }
  exact ⟨b', by simp [InternalNode.setKeyAt, h1, hcount, InternalNode.entryAt, h.entryAt hi, hw], hn⟩

/-- Where the loop of `ChildIndexFor` ends, before the one is taken off. -/
def InternalNode.childIndexEnd (b : Body) (key : Key) : Option Nat :=
  Search.bsearch 65536 (fun mid => (InternalNode.keyAt b mid).map fun k => decide (k ≤ key))
    (InternalNode.count b + 1) 1 (InternalNode.count b)

theorem InternalNode.childIndexEnd_eq {b : Body} {level : Nat} {next : PageId} {es : List InternalEntry}
    (h : NodeIs b level next es) (h0 : es ≠ [])
    (hs : es.tail.Pairwise fun x y => x.key < y.key) (key : Key) :
    InternalNode.childIndexEnd b key = some (routeIndex es key + 1) := by
  have hcount : InternalNode.count b = es.length := h.count_eq
  have hcap := h.cap
  simp only [nodeCapacity] at hcap
  have hlen : 0 < es.length := List.length_pos_iff.mpr h0
  have hle : routeIndex es key ≤ es.length - 1 := by
    have := List.countP_le_length (p := fun e : InternalEntry => decide (e.key ≤ key)) (l := es.tail)
    simpa [routeIndex] using this
  have hlead : Search.Leading (fun e : InternalEntry => decide (e.key ≤ key)) es.tail := by
    refine List.Pairwise.imp ?_ hs
    intro x y hxy hy
    simp only [decide_eq_true_eq] at hy ⊢
    exact le_trans (le_of_lt hxy) hy
  unfold InternalNode.childIndexEnd
  rw [hcount]
  apply Search.bsearch_eq
  · omega
  · omega
  · omega
  · omega
  · intro i h1 hi
    rw [InternalNode.keyAt_eq h h1 hi, Option.map_some]
    have := hlead.getElem (i - 1) (by simp; omega)
    simp only [List.getElem_tail, Nat.sub_add_cancel h1] at this
    rw [this]
    congr 2
    simp only [routeIndex, eq_iff_iff]
    omega

theorem InternalNode.childIndexFor_eq {b : Body} {level : Nat} {next : PageId} {es : List InternalEntry}
    (h : NodeIs b level next es) (h0 : es ≠ [])
    (hs : es.tail.Pairwise fun x y => x.key < y.key) (key : Key) :
    InternalNode.childIndexFor b key = some (routeIndex es key) :=
  congrArg (Option.map (· - 1)) (InternalNode.childIndexEnd_eq h h0 hs key)

/-- The iterations of `LowerBound`. -/
def LeafNode.lowerBoundStates (b : Body) (key : Key) : List (Nat × Nat) :=
  Search.states 65536 (fun mid => (LeafNode.keyAt b mid).map fun k => decide (k < key))
    (LeafNode.count b + 1) 0 (LeafNode.count b)

/-- The iterations of `ChildIndexFor`. -/
def InternalNode.childIndexStates (b : Body) (key : Key) : List (Nat × Nat) :=
  Search.states 65536 (fun mid => (InternalNode.keyAt b mid).map fun k => decide (k ≤ key))
    (InternalNode.count b + 1) 1 (InternalNode.count b)

/-- The key of entry 0 replaced, byte for byte. -/
def InternalNode.withUnreadKey (b : Body) (key : Key) : Body := b.write (nodeEntryOffset 0) (keyBytes key)

theorem InternalNode.count_withUnreadKey (b : Body) (k : Key) : count (withUnreadKey b k) = count b := by
  rw [count, header, withUnreadKey, Node.header_write _ _ _ (by simp [nodeEntryOffset, nodeSubHeaderSize])]
  rfl

/-- Separators start after entry 0. -/
theorem InternalNode.keyAt_withUnreadKey (b : Body) (k : Key) {i : Nat} (h1 : 1 ≤ i) (hi : i < nodeCapacity) :
    keyAt (withUnreadKey b k) i = keyAt b i := by
  have hslice : (withUnreadKey b k).slice (nodeEntryOffset i) nodeEntrySize =
      b.slice (nodeEntryOffset i) nodeEntrySize := by
    simp only [nodeCapacity] at hi
    apply Region.slice_write_off
    · simp only [nodeEntryOffset, nodeSubHeaderSize, nodeEntrySize, pageBodySize]
      omega
    · simp only [keyBytes, leBytes_length, nodeEntryOffset, nodeSubHeaderSize, nodeEntrySize]
      omega
  have hread : (withUnreadKey b k).read? (nodeEntryOffset i) nodeEntrySize =
      b.read? (nodeEntryOffset i) nodeEntrySize := by
    rw [Region.read?, Region.read?, hslice]
  have hcount : Node.count (withUnreadKey b k) = Node.count b := count_withUnreadKey b k
  rw [keyAt, keyAt, count_withUnreadKey, entryAt, entryAt, Node.entryAt, Node.entryAt, hcount, hread]

/-- Both searches answer by counting, whatever the key: their loops end, test only indices of the node (never
entry 0 of an internal one) and stay inside the word. -/
theorem searches_count {b : Body} {level : Nat} {next : PageId} (key : Key) :
    (∀ es : List LeafEntry, NodeIs b level next es → KeysIncrease es →
      LeafNode.lowerBound b key = some (es.countP fun e => e.key < key) ∧
      (LeafNode.lowerBoundStates b key).length ≤ es.length ∧
      ∀ s ∈ LeafNode.lowerBoundStates b key, Search.Within 65536 0 es.length s) ∧
    (∀ es : List InternalEntry, NodeIs b level next es → es ≠ [] → (es.tail.Pairwise fun x y => x.key < y.key) →
      InternalNode.childIndexFor b key = some (es.tail.countP fun e => e.key ≤ key) ∧
      InternalNode.childIndexEnd b key = some ((es.tail.countP fun e => e.key ≤ key) + 1) ∧
      (InternalNode.childIndexStates b key).length ≤ es.length ∧
      (∀ s ∈ InternalNode.childIndexStates b key, Search.Within 65536 1 es.length s) ∧
      ∀ k, InternalNode.childIndexFor (InternalNode.withUnreadKey b k) key = InternalNode.childIndexFor b key) := by
  constructor
  · intro es h hs
    have hcount : LeafNode.count b = es.length := h.count_eq
    have hword : LeafNode.count b < 65536 := by
      rw [hcount]
      exact h.cap.trans_lt (by decide)
    refine ⟨LeafNode.lowerBound_eq h hs key, ?_, ?_⟩
    · rw [← hcount]
      exact (Search.length_states_le _ _ _ hword).trans (by omega)
    · rw [← hcount]
      exact Search.within_states _ _ _ hword
  · intro es h h0 hs
    have hcount : InternalNode.count b = es.length := h.count_eq
    have hword : InternalNode.count b < 65536 := by
      rw [hcount]
      exact h.cap.trans_lt (by decide)
    have hend := InternalNode.childIndexEnd_eq h h0 hs key
    have hwithin : ∀ s ∈ InternalNode.childIndexStates b key, Search.Within 65536 1 es.length s := by
      rw [← hcount]
      exact Search.within_states _ _ _ hword
    refine ⟨InternalNode.childIndexFor_eq h h0 hs key, hend, ?_, hwithin, fun k => ?_⟩
    · rw [← hcount]
      exact (Search.length_states_le _ _ _ hword).trans (by omega)
    · have hsame : InternalNode.childIndexEnd (InternalNode.withUnreadKey b k) key = InternalNode.childIndexEnd b key := by
        rw [InternalNode.childIndexEnd, InternalNode.childIndexEnd, InternalNode.count_withUnreadKey]
        apply Search.bsearch_congr _ _ _ hword
        intro s hmem
        have hin := hwithin s hmem
        rw [InternalNode.keyAt_withUnreadKey b k hin.first_le (hin.lt_last.trans_le h.cap)]
      exact congrArg (Option.map (· - 1)) hsame

theorem searches_count_threeEntries :
    ∃ leaf node : Body, LeafNode.lowerBound leaf 7 = some 2 ∧ InternalNode.childIndexFor node 7 = some 2 := by
  obtain ⟨leaf, -, hleaf⟩ := Node.assignEntries_eq (E := LeafEntry) (fun _ => 0)
    [⟨3, 2, 0⟩, ⟨5, 2, 1⟩, ⟨7, 2, 2⟩] (by decide)
  obtain ⟨node, -, hnode⟩ := Node.assignEntries_eq (E := InternalEntry) (fun _ => 0)
    [⟨int64Min, 2, 0⟩, ⟨5, 3, 0⟩, ⟨7, 4, 0⟩] (by decide)
  refine ⟨leaf, node, ?_, ?_⟩
  · exact ((searches_count 7).1 _ hleaf (by simp [KeysIncrease])).1
  · exact ((searches_count 7).2 _ hnode (by simp) (by simp)).1

end KernSql

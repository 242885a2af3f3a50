import KernSql.Heap.HeapPage

/- What a heap page stores, and that every operation keeps it.

   `Stores b es lo dead` reads a body as its slot directory `es`, the start `lo` of
   its tuple region and the number of dead bytes in it, and says that the
   directory fills that region. Each operation has one specification: it does not
   go wrong, it leaves a body that stores a directory again, and it changes the
   map from slots to bytes (`contents`) as its name says, or leaves the body as
   it was. -/
namespace KernSql
open Bytes Directory Exec

/-! Fields as bytes. -/

structure HeapSubHeader.Small (h : HeapSubHeader) : Prop where
  slotCount : h.slotCount < 65536
  tupleDataStart : h.tupleDataStart < 65536
  liveCount : h.liveCount < 65536
  deadBytes : h.deadBytes < 65536

@[simp] theorem HeapSubHeader.writeTo_length (h : HeapSubHeader) : h.writeTo.length = 8 := by
  simp [HeapSubHeader.writeTo]

@[simp] theorem Slot.writeTo_length (s : Slot) : (Slot.writeTo s).length = 4 := by
  simp [Slot.writeTo]

theorem HeapSubHeader.readFrom_writeTo {h : HeapSubHeader} (hs : h.Small) :
    HeapSubHeader.readFrom h.writeTo = h := by
  have h1 : (leBytes 2 h.slotCount ++ (leBytes 2 h.tupleDataStart ++ (leBytes 2 h.liveCount ++
      leBytes 2 h.deadBytes))).take 2 = leBytes 2 h.slotCount := List.take_left' (by simp)
  have h2 := field_eq (a := leBytes 2 h.slotCount) (b := leBytes 2 h.tupleDataStart)
    (c := leBytes 2 h.liveCount ++ leBytes 2 h.deadBytes) (i := 2) (w := 2) (by simp) (by simp)
  have h3 := field_eq (a := leBytes 2 h.slotCount ++ leBytes 2 h.tupleDataStart) (b := leBytes 2 h.liveCount)
    (c := leBytes 2 h.deadBytes) (i := 4) (w := 2) (by simp) (by simp)
  have h4 := field_eq (a := leBytes 2 h.slotCount ++ leBytes 2 h.tupleDataStart ++ leBytes 2 h.liveCount)
    (b := leBytes 2 h.deadBytes) (c := []) (i := 6) (w := 2) (by simp) (by simp)
  unfold HeapSubHeader.readFrom HeapSubHeader.writeTo
  simp only [List.append_assoc, List.append_nil] at h1 h2 h3 h4 ⊢
  rw [h1, h2, h3, h4, leNat_leBytes_of_lt hs.slotCount, leNat_leBytes_of_lt hs.tupleDataStart,
    leNat_leBytes_of_lt hs.liveCount, leNat_leBytes_of_lt hs.deadBytes]

theorem Slot.readFrom_writeTo {s : Slot} (ho : s.offset < 65536) (hl : s.length < 65536) :
    Slot.readFrom (Slot.writeTo s) = s := by
  have h1 : (leBytes 2 s.offset ++ leBytes 2 s.length).take 2 = leBytes 2 s.offset := List.take_left' (by simp)
  have h2 := field_eq (a := leBytes 2 s.offset) (b := leBytes 2 s.length) (c := []) (i := 2) (w := 2)
    (by simp) (by simp)
  unfold Slot.readFrom Slot.writeTo
  simp only [List.append_nil] at h2
  rw [h1, h2, leNat_leBytes_of_lt ho, leNat_leBytes_of_lt hl]

namespace ConstHeapPage

/-- The slot at an index, as the bytes say. -/
def slotOf (b : Body) (i : Nat) : Slot := Slot.readFrom (b.slice (slotOffset i) slotSize)

/-- The slot directory of a page. -/
def slots (b : Body) : List Slot := (List.range (header b).slotCount).map (slotOf b)

theorem slotAt_eq {b : Body} {i : Nat} (h : slotArrayEnd (i + 1) ≤ pageBodySize) : slotAt b i = some (slotOf b i) := by
  unfold slotAt
  rw [Region.read?_eq]
  · rfl
  · unfold slotArrayEnd at h; unfold slotOffset; simp only [slotSize] at h ⊢; omega

theorem isDead_iff (s : Slot) : Slot.isDead s = true ↔ s.IsNull := by
  simp [Slot.isDead, Extent.IsNull]

/-! A body under the three kinds of writes. -/

section Writes
variable {b : Body}

theorem header_write_header {h : HeapSubHeader} (hs : h.Small) : header (b.write 0 h.writeTo) = h := by
  unfold header
  have hsame : (b.write 0 h.writeTo).slice 0 h.writeTo.length = h.writeTo :=
    Region.slice_write_same (by simp [pageBodySize])
  rw [HeapSubHeader.writeTo_length] at hsame
  rw [heapSubHeaderSize, hsame, HeapSubHeader.readFrom_writeTo hs]

theorem header_write {off : Nat} {bs : List UInt8} (h : heapSubHeaderSize ≤ off) :
    header (b.write off bs) = header b := by
  unfold header
  rw [Region.slice_write_off (by decide) (.inl (by omega))]

theorem slotOf_write {off i : Nat} {bs : List UInt8} (hi : slotArrayEnd (i + 1) ≤ pageBodySize)
    (h : slotArrayEnd (i + 1) ≤ off ∨ off + bs.length ≤ slotOffset i) : slotOf (b.write off bs) i = slotOf b i := by
  unfold slotOf
  simp only [slotArrayEnd, slotOffset, heapSubHeaderSize, slotSize] at *
  rw [Region.slice_write_off (by omega) (by omega)]

theorem slotOf_write_slot {i : Nat} {s : Slot} (hi : slotArrayEnd (i + 1) ≤ pageBodySize)
    (ho : s.offset < 65536) (hl : s.length < 65536) : slotOf (b.write (slotOffset i) (Slot.writeTo s)) i = s := by
  unfold slotOf
  have hsame : (b.write (slotOffset i) (Slot.writeTo s)).slice (slotOffset i) (Slot.writeTo s).length = Slot.writeTo s :=
    Region.slice_write_same
      (by simp only [slotArrayEnd, slotOffset, heapSubHeaderSize, slotSize, Slot.writeTo_length] at *; omega)
  rw [Slot.writeTo_length] at hsame
  rw [slotSize, hsame, Slot.readFrom_writeTo ho hl]

end Writes

/-- The first entries of the slot array are `es`. -/
def HasSlots (b : Body) (es : List Slot) : Prop := ∀ i (h : i < es.length), slotOf b i = es[i]

namespace HasSlots
variable {b : Body} {es : List Slot}

theorem slots_eq (h : HasSlots b es) (hc : (header b).slotCount = es.length) : slots b = es := by
  unfold slots
  rw [hc]
  apply List.ext_getElem
  · simp
  · intro i h1 h2
    simpa using h i h2

theorem write (h : HasSlots b es) (hn : slotArrayEnd es.length ≤ pageBodySize) {off : Nat} {bs : List UInt8}
    (ho : slotArrayEnd es.length ≤ off ∨ off + bs.length ≤ heapSubHeaderSize) : HasSlots (b.write off bs) es := by
  intro i hi
  rw [← h i hi]
  simp only [slotArrayEnd, heapSubHeaderSize, slotSize] at hn ho
  apply slotOf_write
  · simp only [slotArrayEnd, heapSubHeaderSize, slotSize]; omega
  · simp only [slotArrayEnd, slotOffset, heapSubHeaderSize, slotSize]; omega

theorem set (h : HasSlots b es) (hn : slotArrayEnd es.length ≤ pageBodySize) {i : Nat} (hi : i < es.length)
    {s : Slot} (ho : s.offset < 65536) (hl : s.length < 65536) :
    HasSlots (b.write (slotOffset i) (Slot.writeTo s)) (es.set i s) := by
  intro j hj
  simp only [List.length_set] at hj
  simp only [slotArrayEnd, heapSubHeaderSize, slotSize] at hn
  have hend : ∀ k < es.length, slotArrayEnd (k + 1) ≤ pageBodySize := by
    intro k hk
    simp only [slotArrayEnd, heapSubHeaderSize, slotSize]
    omega
  by_cases hij : i = j
  · subst hij
    rw [slotOf_write_slot (hend i hi) ho hl, List.getElem_set_self]
  · rw [List.getElem_set_ne hij, ← h j hj]
    apply slotOf_write (hend j hj)
    simp only [slotArrayEnd, slotOffset, heapSubHeaderSize, slotSize, Slot.writeTo_length]
    omega

theorem append (h : HasSlots b es) (hn : slotArrayEnd (es.length + 1) ≤ pageBodySize)
    {s : Slot} (ho : s.offset < 65536) (hl : s.length < 65536) :
    HasSlots (b.write (slotOffset es.length) (Slot.writeTo s)) (es ++ [s]) := by
  intro j hj
  simp only [List.length_append, List.length_singleton] at hj
  by_cases hij : j = es.length
  · subst hij
    rw [slotOf_write_slot hn ho hl]
    simp
  · rw [List.getElem_append_left (by omega), ← h j (by omega)]
    simp only [slotArrayEnd, heapSubHeaderSize, slotSize] at hn
    apply slotOf_write
    · simp only [slotArrayEnd, heapSubHeaderSize, slotSize]; omega
    · simp only [slotArrayEnd, slotOffset, heapSubHeaderSize, slotSize, Slot.writeTo_length]; omega

theorem slotAt (h : HasSlots b es) (hn : slotArrayEnd es.length ≤ pageBodySize) {i : Nat} (hi : i < es.length) :
    ConstHeapPage.slotAt b i = some es[i] := by
  rw [slotAt_eq, h i hi]
  simp only [slotArrayEnd, heapSubHeaderSize, slotSize] at hn ⊢
  omega

end HasSlots

/-- A page whose header counts its directory `es`, tuples starting at `lo` and `dead` bytes: what the checker
can see. -/
structure Passes (b : Body) (es : List Slot) (lo dead : Nat) : Prop where
  header : header b = ⟨es.length, lo, live es, dead⟩
  slots : HasSlots b es
  room : slotArrayEnd es.length ≤ lo
  accounts : Accounts es lo pageBodySize dead

namespace Passes
variable {b : Body} {es : List Slot} {lo dead : Nat}

theorem le_body (h : Passes b es lo dead) : lo ≤ pageBodySize := by
  have := h.accounts.sum; omega

theorem array_le (h : Passes b es lo dead) : slotArrayEnd es.length ≤ pageBodySize := h.room.trans h.le_body

theorem length_le (h : Passes b es lo dead) : es.length ≤ 1014 := by
  have := h.array_le
  simp only [slotArrayEnd, heapSubHeaderSize, slotSize, pageBodySize] at this
  omega

theorem slots_eq (h : Passes b es lo dead) : ConstHeapPage.slots b = es :=
  h.slots.slots_eq (by rw [h.header])

theorem contiguous_eq (build : Build) (h : Passes b es lo dead) :
    contiguous build b = some (lo - slotArrayEnd es.length) := by
  unfold contiguous
  rw [h.header]
  dsimp only
  rw [asserted_pos h.room, if_neg (Nat.not_lt.mpr h.room)]
  rfl

theorem get_eq (build : Build) (h : Passes b es lo dead) (s : SlotId) :
    get build b s = some (match find b es s.toNat with
      | some bytes => .ok bytes
      | none => .error ⟨.notFound, if es.length ≤ s.toNat then "slot doesn't exist" else "slot is dead"⟩) := by
  unfold ConstHeapPage.get
  rw [h.header]
  dsimp only
  by_cases hs : es.length ≤ s.toNat
  · simp [hs, find_none hs]
  · have hs' : s.toNat < es.length := by omega
    rw [if_neg hs, h.slots.slotAt h.array_le hs', find_get hs']
    by_cases hn : es[s.toNat].IsNull
    · simp [hn, hs, (isDead_iff _).mpr hn]
    · have hd : Slot.isDead es[s.toNat] = false := by
        rw [Bool.eq_false_iff]; exact fun hd => hn ((isDead_iff _).mp hd)
      obtain ⟨_, hstop⟩ := (h.accounts.get_inside hs').live hn
      have hr := Region.read?_eq (r := b) hstop
      unfold Extent.stop at hstop
      simp [hn, hd, hr, hstop, asserted_pos]

end Passes

/-- The slot loop passes when every slot from `i` lies inside, and counts them. -/
theorem HasSlots.checkSlots {b : Body} {es : List Slot} (h : HasSlots b es)
    (hn : slotArrayEnd es.length ≤ pageBodySize) (lo : Nat) : ∀ (left i liveSlots liveBytes : Nat),
    i + left = es.length → ConstHeapPage.checkSlots b lo left i liveSlots liveBytes =
      some (if ∀ e ∈ es.drop i, e.Inside lo pageBodySize then
        some (liveSlots + live (es.drop i), liveBytes + total (es.drop i)) else none)
  | 0, i, liveSlots, liveBytes, hi => by
    rw [List.drop_eq_nil_of_le (by omega), if_pos (by simp)]
    rfl
  | left + 1, i, liveSlots, liveBytes, hi => by
    have hlt : i < es.length := by omega
    have ih := checkSlots h hn lo left (i + 1)
    rw [ConstHeapPage.checkSlots, h.slotAt hn hlt, List.drop_eq_getElem_cons hlt]
    simp only [Option.bind_eq_bind, Option.bind_some, List.forall_mem_cons]
    by_cases hnull : es[i].IsNull
    · rw [if_pos ((isDead_iff _).mpr hnull)]
      by_cases hz : es[i].length = 0
      · have hin : es[i].Inside lo pageBodySize := .inl (by
          cases hslot : es[i] with
          | mk offset length =>
            rw [hslot] at hnull hz
            cases hnull
            cases hz
            rfl)
        simp only [hz, ne_eq, not_true, if_false, ih _ _ (by omega : i + 1 + left = es.length), hin, true_and, live_cons,
          total, hnull, if_true, Nat.add_zero, Nat.zero_add]
      · have hout : ¬es[i].Inside lo pageBodySize := fun hin => hz (by rw [hin.null hnull])
        rw [if_pos hz, if_neg (fun hin => hout hin.1)]
        rfl
    · rw [if_neg (fun hd => hnull ((isDead_iff _).mp hd))]
      by_cases hlo : es[i].offset < lo
      · rw [if_pos hlo, if_neg (fun hin => absurd (hin.1.live hnull).1 (Nat.not_le.mpr hlo))]
        rfl
      by_cases hhi : pageBodySize < es[i].offset + es[i].length
      · rw [if_neg hlo, if_pos hhi, if_neg (fun hin => absurd (hin.1.live hnull).2 (Nat.not_le.mpr hhi))]
        rfl
      · have hin : es[i].Inside lo pageBodySize := .inr ⟨hnull, Nat.not_lt.mp hlo, Nat.not_lt.mp hhi⟩
        simp only [hlo, hhi, if_false, ih _ _ (by omega : i + 1 + left = es.length), hin, true_and, live_cons, total, hnull]
        rw [Nat.add_right_comm liveSlots, Nat.add_assoc liveBytes, Nat.add_assoc liveSlots]

theorem hasSlots_slots (b : Body) : HasSlots b (slots b) := by
  intro i hi
  simp [slots]

/-- The checker gives an answer for every body, and accepts those whose header counts their directory. -/
theorem checkInvariants_iff (b : Body) :
    ∃ r, checkInvariants b = some r ∧ (r = true ↔ ∃ es lo dead, Passes b es lo dead) := by
  have hlen : (slots b).length = (header b).slotCount := by simp [slots]
  unfold checkInvariants
  simp only [Option.pure_def, Option.bind_eq_bind]
  split
  · next hbig =>
    refine ⟨false, rfl, iff_of_false Bool.false_ne_true ?_⟩
    rintro ⟨es, lo, dead, h⟩
    rw [h.header] at hbig
    exact absurd h.le_body (Nat.not_le.mpr hbig)
  split
  · next hshort =>
    refine ⟨false, rfl, iff_of_false Bool.false_ne_true ?_⟩
    rintro ⟨es, lo, dead, h⟩
    rw [h.header] at hshort
    exact absurd h.room (Nat.not_le.mpr hshort)
  next hbody hroom =>
  have hn : slotArrayEnd (slots b).length ≤ pageBodySize := by rw [hlen]; omega
  have hloop := (hasSlots_slots b).checkSlots hn (header b).tupleDataStart (header b).slotCount 0 0 0 (by omega)
  rw [List.drop_zero, Nat.zero_add, Nat.zero_add] at hloop
  by_cases hin : ∀ e ∈ slots b, e.Inside (header b).tupleDataStart pageBodySize
  · rw [hloop, if_pos hin]
    by_cases hlive : live (slots b) = (header b).liveCount
    · by_cases hsum : (header b).tupleDataStart + total (slots b) + (header b).deadBytes = pageBodySize
      · refine ⟨true, by simp [hlive, hsum], iff_of_true rfl ⟨slots b, _, _, ?_, hasSlots_slots b, ?_, hin, hsum⟩⟩
        · rw [hlen, hlive]
        · rw [hlen]
          exact Nat.not_lt.mp hroom
      · refine ⟨false, by simp [hlive, hsum], iff_of_false Bool.false_ne_true ?_⟩
        rintro ⟨es, lo, dead, h⟩
        rw [h.slots_eq, h.header] at hsum
        exact hsum h.accounts.sum
    · refine ⟨false, by simp [hlive], iff_of_false Bool.false_ne_true ?_⟩
      rintro ⟨es, lo, dead, h⟩
      rw [h.slots_eq, h.header] at hlive
      exact hlive rfl
  · refine ⟨false, by rw [hloop, if_neg hin]; rfl, iff_of_false Bool.false_ne_true ?_⟩
    rintro ⟨es, lo, dead, h⟩
    rw [h.slots_eq, h.header] at hin
    exact hin h.accounts.inside

theorem Passes.checkInvariants_eq {b : Body} {es : List Slot} {lo dead : Nat} (h : Passes b es lo dead) :
    checkInvariants b = some true := by
  obtain ⟨r, hr, hiff⟩ := checkInvariants_iff b
  rw [hr, hiff.mpr ⟨es, lo, dead, h⟩]

/-- A page with the directory `es`, whose tuples start at `lo`, with `dead` bytes among them. -/
structure Stores (b : Body) (es : List Slot) (lo dead : Nat) : Prop where
  header : header b = ⟨es.length, lo, live es, dead⟩
  slots : HasSlots b es
  room : slotArrayEnd es.length ≤ lo
  fills : Fills es lo pageBodySize dead

/-- The partial map from slots to bytes that a page stands for. -/
def contents (b : Body) (s : SlotId) : Option (List UInt8) := find b (slots b) s.toNat

theorem Passes.stores {b : Body} {es : List Slot} {lo dead : Nat} (h : Passes b es lo dead)
    (hf : Fills es lo pageBodySize dead) : Stores b es lo dead := ⟨h.header, h.slots, h.room, hf⟩

namespace Stores
variable {b : Body} {es : List Slot} {lo dead : Nat}

theorem passes (h : Stores b es lo dead) : Passes b es lo dead := ⟨h.header, h.slots, h.room, h.fills.accounts⟩

theorem le_body (h : Stores b es lo dead) : lo ≤ pageBodySize := h.passes.le_body

theorem array_le (h : Stores b es lo dead) : slotArrayEnd es.length ≤ pageBodySize := h.passes.array_le

theorem length_le (h : Stores b es lo dead) : es.length ≤ 1014 := h.passes.length_le

theorem slots_eq (h : Stores b es lo dead) : ConstHeapPage.slots b = es := h.passes.slots_eq

theorem contents_eq (h : Stores b es lo dead) (s : SlotId) : contents b s = find b es s.toNat := by
  unfold contents; rw [h.slots_eq]

theorem contiguous_eq (build : Build) (h : Stores b es lo dead) :
    contiguous build b = some (lo - slotArrayEnd es.length) := h.passes.contiguous_eq build

theorem get_eq (build : Build) (h : Stores b es lo dead) (s : SlotId) :
    get build b s = some (match find b es s.toNat with
      | some bytes => .ok bytes
      | none => .error ⟨.notFound, if es.length ≤ s.toNat then "slot doesn't exist" else "slot is dead"⟩) :=
  h.passes.get_eq build s

/-- The checker accepts every page that stores a directory. -/
theorem checkInvariants_eq (h : Stores b es lo dead) : checkInvariants b = some true := h.passes.checkInvariants_eq

end Stores
end ConstHeapPage

namespace HeapPage
open ConstHeapPage
variable {build : Build} {b : Body} {es : List Slot} {lo dead : Nat}

/-! The steps of an operation. -/

theorem wp_copyIn {off : Nat} {bs : List UInt8} {Q : Unit → Body → Prop} {E : Status → Body → Prop}
    (h : off + bs.length ≤ pageBodySize) : wp (copyIn off bs) Q E b ↔ Q () (b.write off bs) := by
  unfold wp copyIn
  rw [Region.write?_eq h]
  rfl

theorem wp_writeSlot {i : Nat} {s : Slot} {Q : Unit → Body → Prop} {E : Status → Body → Prop}
    (h : slotArrayEnd (i + 1) ≤ pageBodySize) :
    wp (writeSlot i s) Q E b ↔ Q () (b.write (slotOffset i) (Slot.writeTo s)) := by
  apply wp_copyIn
  simp only [slotArrayEnd, slotOffset, heapSubHeaderSize, slotSize, Slot.writeTo_length] at *
  omega

theorem wp_assertInvariants (h : Passes b es lo dead) {Q : Unit → Body → Prop} {E : Status → Body → Prop}
    (hQ : Q () b) : wp (assertInvariants build) Q E b := by
  unfold assertInvariants
  rw [wp_bind, wp_get]
  by_cases hd : build.debug = true
  · rw [if_pos hd, wp_bind, wp_lift]
    exact ⟨true, h.checkInvariants_eq, (wp_check _).mpr ⟨rfl, hQ⟩⟩
  · rw [if_neg hd]
    exact hQ

theorem stores_init (b : Body) : Stores (b.write 0 ({} : HeapSubHeader).writeTo) [] pageBodySize 0 where
  header := header_write_header ⟨by decide, by decide, by decide, by decide⟩
  slots := fun i hi => absurd hi (Nat.not_lt_zero i)
  room := by decide
  fills := .empty pageBodySize

theorem contents_init (b : Body) : contents (b.write 0 ({} : HeapSubHeader).writeTo) = fun _ => none := by
  funext k
  rw [(stores_init b).contents_eq]
  exact find_none (Nat.zero_le _)

/-- A sub-header that counts a directory has small fields. -/
theorem small_header (hlen : es.length ≤ 1014) (hlo : lo ≤ pageBodySize) (hdead : dead ≤ pageBodySize) :
    HeapSubHeader.Small ⟨es.length, lo, live es, dead⟩ := by
  have hlive : live es ≤ es.length := List.countP_le_length
  simp only [pageBodySize] at hlo hdead
  exact ⟨by simp only; omega, by simp only; omega, by simp only; omega, by simp only; omega⟩

theorem small_slot {s : Slot} (h : s.Inside lo pageBodySize) : s.offset < 65536 ∧ s.length < 65536 := by
  cases h with
  | inl h => rw [h]; exact ⟨by decide, by decide⟩
  | inr h =>
    have := h.2.2
    simp only [Extent.stop, pageBodySize] at this
    omega

/-- The header may be written before the slot or after it. -/
theorem write_header_slot {h : HeapSubHeader} {i : Nat} {s : Slot} :
    (b.write 0 h.writeTo).write (slotOffset i) (Slot.writeTo s) =
      (b.write (slotOffset i) (Slot.writeTo s)).write 0 h.writeTo := by
  apply Region.write_comm
  simp only [slotOffset, heapSubHeaderSize, HeapSubHeader.writeTo_length]
  omega

/-- The finished page: tuple bytes and slots are in place, and the header counts them. -/
theorem passes_writeHeader (hs : HasSlots b es) (hroom : slotArrayEnd es.length ≤ lo)
    (ha : Accounts es lo pageBodySize dead) {h : HeapSubHeader} (hh : h = ⟨es.length, lo, live es, dead⟩) :
    Passes (b.write 0 h.writeTo) es lo dead where
  header := by
    have hsum := ha.sum
    rw [header_write_header, hh]
    rw [hh]
    apply small_header _ (by omega) (by omega)
    simp only [slotArrayEnd, heapSubHeaderSize, slotSize, pageBodySize] at hroom hsum
    omega
  slots := hs.write (hroom.trans (by have := ha.sum; omega)) (.inr (by simp [heapSubHeaderSize]))
  room := hroom
  accounts := ha

theorem passes_set (hs : HasSlots b es) {i : Nat} (hi : i < es.length) {s : Slot}
    (hroom : slotArrayEnd es.length ≤ lo) (ha : Accounts (es.set i s) lo pageBodySize dead) {h : HeapSubHeader}
    (hh : h = ⟨es.length, lo, live (es.set i s), dead⟩) :
    Passes ((b.write (slotOffset i) (Slot.writeTo s)).write 0 h.writeTo) (es.set i s) lo dead := by
  have hmem : s ∈ es.set i s := List.mem_iff_getElem.mpr ⟨i, by simpa using hi, List.getElem_set_self _⟩
  obtain ⟨ho, hl⟩ := small_slot (ha.inside s hmem)
  have hn : slotArrayEnd es.length ≤ pageBodySize := hroom.trans (by have := ha.sum; omega)
  exact passes_writeHeader (hs.set hn hi ho hl) (by simpa using hroom) ha (by simpa using hh)

theorem passes_append (hs : HasSlots b es) {s : Slot} (hroom : slotArrayEnd (es.length + 1) ≤ lo)
    (ha : Accounts (es ++ [s]) lo pageBodySize dead) {h : HeapSubHeader}
    (hh : h = ⟨es.length + 1, lo, live (es ++ [s]), dead⟩) :
    Passes ((b.write (slotOffset es.length) (Slot.writeTo s)).write 0 h.writeTo) (es ++ [s]) lo dead := by
  obtain ⟨ho, hl⟩ := small_slot (ha.inside s (by simp))
  have hn : slotArrayEnd (es.length + 1) ≤ pageBodySize := hroom.trans (by have := ha.sum; omega)
  exact passes_writeHeader (hs.append hn ho hl) (by simpa using hroom) ha (by simpa using hh)

theorem stores_set (hs : HasSlots b es) {i : Nat} (hi : i < es.length) {s : Slot}
    (hroom : slotArrayEnd es.length ≤ lo) (hf : Fills (es.set i s) lo pageBodySize dead) {h : HeapSubHeader}
    (hh : h = ⟨es.length, lo, live (es.set i s), dead⟩) :
    Stores ((b.write (slotOffset i) (Slot.writeTo s)).write 0 h.writeTo) (es.set i s) lo dead :=
  (passes_set hs hi hroom hf.accounts hh).stores hf

theorem stores_append (hs : HasSlots b es) {s : Slot} (hroom : slotArrayEnd (es.length + 1) ≤ lo)
    (hf : Fills (es ++ [s]) lo pageBodySize dead) {h : HeapSubHeader}
    (hh : h = ⟨es.length + 1, lo, live (es ++ [s]), dead⟩) :
    Stores ((b.write (slotOffset es.length) (Slot.writeTo s)).write 0 h.writeTo) (es ++ [s]) lo dead :=
  (passes_append hs hroom hf.accounts hh).stores hf

/-- Bytes at or above the end of the slot array, under a slot and a header write. -/
theorem slice_writes {h : HeapSubHeader} {i : Nat} {s : Slot} {o n : Nat} (ho : slotArrayEnd (i + 1) ≤ o)
    (hn : o + n ≤ pageBodySize) :
    ((b.write (slotOffset i) (Slot.writeTo s)).write 0 h.writeTo).slice o n = b.slice o n := by
  simp only [slotArrayEnd, heapSubHeaderSize, slotSize] at ho
  rw [Region.slice_write_off hn (by rw [HeapSubHeader.writeTo_length]; omega),
    Region.slice_write_off hn (by simp only [Slot.writeTo_length, slotOffset, heapSubHeaderSize, slotSize]; omega)]

theorem find_writes (hf : Fills es lo pageBodySize dead) {h : HeapSubHeader} {i : Nat} {s : Slot}
    (hi : slotArrayEnd (i + 1) ≤ lo) (j : Nat) :
    find ((b.write (slotOffset i) (Slot.writeTo s)).write 0 h.writeTo) es j = find b es j := by
  apply find_congr
  intro hj hn
  obtain ⟨_, hlo, hstop⟩ := (hf.get_within hj).live hn
  exact slice_writes (hi.trans hlo) hstop

/-! `Insert`. -/

theorem findDead_spec (h : Passes b es lo dead) : ∀ (left i : Nat), i + left = es.length →
    (∃ j, ∃ hj : j < es.length, es[j].IsNull ∧ findDead b left i = some (some j)) ∨
    (findDead b left i = some none ∧ ∀ j (hj : j < es.length), i ≤ j → ¬es[j].IsNull)
  | 0, i, hi => .inr ⟨rfl, fun j hj hij => by omega⟩
  | left + 1, i, hi => by
    have hlt : i < es.length := by omega
    rw [findDead, h.slots.slotAt h.array_le hlt]
    by_cases hn : es[i].IsNull
    · exact .inl ⟨i, hlt, hn, by simp [(isDead_iff _).mpr hn]⟩
    · have hd : Slot.isDead es[i] = false := by
        rw [Bool.eq_false_iff]; exact fun hd => hn ((isDead_iff _).mp hd)
      simp only [Option.bind_eq_bind, Option.bind_some, hd, Bool.false_eq_true, if_false]
      cases findDead_spec h left (i + 1) (by omega) with
      | inl hfound => exact .inl hfound
      | inr hnone =>
        refine .inr ⟨hnone.1, fun j hj hij => ?_⟩
        by_cases he : j = i
        · subst he; exact hn
        · exact hnone.2 j hj (by omega)

/-- A dead slot when there is one, otherwise a new slot and the room for its entry. -/
theorem chooseSlot_spec (h : Passes b es lo dead) (n : Nat) : ∃ i required, chooseSlot b n = some (i, required) ∧
    ((∃ hi : i < es.length, es[i].IsNull ∧ required = n) ∨
      (i = es.length ∧ required = n + slotSize ∧ ∀ e ∈ es, ¬e.IsNull)) := by
  unfold chooseSlot
  rw [h.header]
  dsimp only
  by_cases hlive : live es < es.length
  · rw [if_pos hlive]
    cases findDead_spec h es.length 0 (by omega) with
    | inl hfound =>
      obtain ⟨j, hj, hnull, heq⟩ := hfound
      exact ⟨j, n, by rw [heq]; rfl, .inl ⟨hj, hnull, rfl⟩⟩
    | inr hnone =>
      refine ⟨es.length, n + slotSize, by rw [hnone.1]; rfl, .inr ⟨rfl, rfl, fun e he => ?_⟩⟩
      obtain ⟨j, hj, rfl⟩ := List.mem_iff_getElem.mp he
      exact hnone.2 j hj (Nat.zero_le j)
  · rw [if_neg hlive]
    refine ⟨es.length, n + slotSize, rfl, .inr ⟨rfl, rfl, fun e he => ?_⟩⟩
    have hall : live es = es.length := Nat.le_antisymm List.countP_le_length (Nat.not_lt.mp hlive)
    simpa using List.countP_eq_length.mp hall e he

/-- A page that stores some directory. -/
def Valid (b : Body) : Prop := ∃ es lo dead, Stores b es lo dead

/-- Two pages whose directories differ at one index. -/
theorem contents_update {b' : Body} {es' : List Slot} {lo' dead' : Nat} (h : Stores b es lo dead)
    (h' : Stores b' es' lo' dead') {k : SlotId} {v : Option (List UInt8)} (hsame : find b' es' k.toNat = v)
    (hother : ∀ j, j ≠ k.toNat → find b' es' j = find b es j) :
    contents b' = Function.update (contents b) k v := by
  funext s
  rw [h'.contents_eq]
  by_cases hs : s = k
  · rw [hs, Function.update_self, hsame]
  · rw [Function.update_of_ne hs, h.contents_eq, hother]
    exact fun he => hs (UInt16.toNat_inj.mp he)

/-- The body after `Insert` put `t` below `lo` under slot `i`, and its directory. -/
theorem stores_insert (h : Stores b es lo dead) {t : List UInt8} (ht : t ≠ []) {i : Nat}
    {hd : HeapSubHeader} {es' : List Slot}
    (hroom : slotArrayEnd (i + 1) ≤ lo - t.length) (hroom' : slotArrayEnd es.length ≤ lo - t.length)
    (hes : (∃ hi : i < es.length, es[i].IsNull ∧ es' = es.set i ⟨lo - t.length, t.length⟩) ∨
      (i = es.length ∧ es' = es ++ [⟨lo - t.length, t.length⟩]))
    (hh : hd = ⟨es'.length, lo - t.length, live es', dead⟩) :
    let b' := ((b.write (lo - t.length) t).write (slotOffset i) (Slot.writeTo ⟨lo - t.length, t.length⟩)).write 0 hd.writeTo
    Stores b' es' (lo - t.length) dead ∧ find b es i = none ∧ find b' es' i = some t ∧
      ∀ j, j ≠ i → find b' es' j = find b es j := by
  intro b'
  have hpos : 0 < t.length := List.length_pos_iff.mpr ht
  have hlo := h.le_body
  have hbelow : t.length < lo := by
    simp only [slotArrayEnd, heapSubHeaderSize] at hroom
    omega
  have hslots : HasSlots (b.write (lo - t.length) t) es := h.slots.write h.array_le (.inl hroom')
  have hlive : ¬Extent.IsNull ⟨lo - t.length, t.length⟩ := by
    unfold Extent.IsNull; simp only; omega
  -- the tuple itself, read back through the slot and header writes
  have hbytes : b'.slice (lo - t.length) t.length = t := by
    have := slice_writes (b := b.write (lo - t.length) t) (h := hd) (s := ⟨lo - t.length, t.length⟩) hroom
      (by omega : lo - t.length + t.length ≤ pageBodySize)
    rw [this, Region.slice_write_same (by omega)]
  have hold : ∀ j, find b' es j = find b es j := by
    intro j
    rw [find_writes h.fills (by omega), h.fills.find_write_below (by omega)]
  cases hes with
  | inl hreuse =>
    obtain ⟨hi, hnull, rfl⟩ := hreuse
    refine ⟨stores_set hslots hi hroom' (h.fills.place hi hnull hpos hbelow) (by simpa using hh), ?_, ?_, ?_⟩
    · rw [find_get hi, if_pos hnull]
    · rw [find_set_same hi hlive, hbytes]
    · intro j hj
      rw [find_set_other hj, hold]
  | inr happ =>
    obtain ⟨rfl, rfl⟩ := happ
    refine ⟨stores_append hslots hroom (h.fills.append hpos hbelow) (by simpa using hh), ?_, ?_, ?_⟩
    · exact find_none (Nat.le_refl _)
    · rw [find_append_same hlive, hbytes]
    · intro j hj
      rw [find_append_other hj, hold]

/-- The directory after `Insert`, and that the header it writes counts it. -/
theorem insert_directory (hcount : es.length ≤ 1014) {n i required size : Nat} (hlt : n < lo)
    (hcases : (∃ hi : i < es.length, es[i].IsNull ∧ required = size) ∨
      (i = es.length ∧ required = size + slotSize ∧ ∀ e ∈ es, ¬e.IsNull)) :
    ∃ es' : List Slot, ((∃ hi : i < es.length, es[i].IsNull ∧ es' = es.set i ⟨lo - n, n⟩) ∨
        (i = es.length ∧ es' = es ++ [⟨lo - n, n⟩])) ∧
      HeapSubHeader.mk (if i = es.length then u16 (es.length + 1) else es.length) (lo - n) (u16 (live es + 1)) dead =
        ⟨es'.length, lo - n, live es', dead⟩ := by
  have hlive : live es ≤ es.length := List.countP_le_length
  have hcount1 : u16 (live es + 1) = live es + 1 := u16_of_lt (by omega)
  have hslots1 : u16 (es.length + 1) = es.length + 1 := u16_of_lt (by omega)
  have hnew : ¬Extent.IsNull ⟨lo - n, n⟩ := by unfold Extent.IsNull; simp only; omega
  rcases hcases with ⟨hi, hnull, -⟩ | ⟨rfl, -, -⟩
  · have hset := live_set es i hi ⟨lo - n, n⟩
    rw [if_pos hnull, if_neg hnew, Nat.add_zero] at hset
    refine ⟨es.set i ⟨lo - n, n⟩, .inl ⟨hi, hnull, rfl⟩, ?_⟩
    rw [if_neg (by omega), hcount1, hset, List.length_set]
  · refine ⟨es ++ [⟨lo - n, n⟩], .inr ⟨rfl, rfl⟩, ?_⟩
    have hone : live [⟨lo - n, n⟩] = 1 := by rw [live_cons, if_neg hnew]; rfl
    rw [if_pos rfl, hslots1, hcount1, live_append, hone, List.length_append, List.length_singleton]

/-- The bytes `Insert` asks for: the tuple, and a new slot's entry when no slot is dead. -/
def required (es : List Slot) (n : Nat) : Nat := if ∃ e ∈ es, e.IsNull then n else n + slotSize

theorem required_le (es : List Slot) (n : Nat) : required es n ≤ n + slotSize := by
  unfold required
  split <;> omega

theorem eq_required {n i r : Nat} (hcases : (∃ hi : i < es.length, es[i].IsNull ∧ r = n) ∨
    (i = es.length ∧ r = n + slotSize ∧ ∀ e ∈ es, ¬e.IsNull)) : r = required es n := by
  unfold required
  cases hcases with
  | inl hreuse =>
    obtain ⟨hi, hnull, hr⟩ := hreuse
    rw [if_pos ⟨_, List.getElem_mem hi, hnull⟩, hr]
  | inr hnew =>
    obtain ⟨-, hr, hlive⟩ := hnew
    rw [if_neg (fun ⟨e, he, hnull⟩ => hlive e he hnull), hr]

/-- `Insert` binds a slot that was free, or leaves the page as it was; it is full exactly when the
bytes it asks for are not between the slot array and the tuples. -/
theorem wp_insert_exact (h : Stores b es lo dead) (t : List UInt8) : wp (insert build t)
    (fun k b' => (Valid b' ∧ contents b k = none ∧ contents b' = Function.update (contents b) k (some t) ∧
      t ≠ [] ∧ t.length ≤ maxTupleSize) ∧ required es t.length ≤ lo - slotArrayEnd es.length)
    (fun e b' => b' = b ∧ (e.code = .invalidArgument ∧ (t = [] ∨ maxTupleSize < t.length) ∨
      e.code = .pageFull ∧ t ≠ [] ∧ t.length ≤ maxTupleSize ∧
        lo - slotArrayEnd es.length < required es t.length)) b := by
  unfold insert
  dsimp only
  rw [wp_ite]
  refine ⟨fun h0 => (wp_bind _ _).mpr ⟨rfl, .inl ⟨rfl, .inl h0⟩⟩, fun h0 => ?_⟩
  rw [wp_ite]
  refine ⟨fun hbig => (wp_bind _ _).mpr ⟨rfl, .inl ⟨rfl, .inr hbig⟩⟩, fun hbig => ?_⟩
  rw [wp_bind, wp_get]
  obtain ⟨i, r, hchoose, hcases⟩ := chooseSlot_spec h.passes t.length
  have hreq : r = required es t.length := eq_required hcases
  rw [wp_bind, wp_lift]
  refine ⟨(i, r), hchoose, ?_⟩
  rw [wp_bind, wp_lift]
  refine ⟨_, h.contiguous_eq build, ?_⟩
  have hlen : t.length ≤ maxTupleSize := Nat.not_lt.mp hbig
  rw [wp_ite]
  refine ⟨fun hfull => (wp_bind _ _).mpr ⟨rfl, .inr ⟨rfl, h0, hlen, hreq ▸ hfull⟩⟩, fun hfits => ?_⟩
  have hexact : required es t.length ≤ lo - slotArrayEnd es.length := hreq ▸ Nat.not_lt.mp hfits
  have hlo := h.le_body
  have hcount := h.length_le
  have hpos : 0 < t.length := List.length_pos_iff.mpr h0
  simp only [maxTupleSize] at hlen
  simp only [pageBodySize] at hlo
  -- whichever slot was chosen, the slot array ends below the new tuple
  have hbound : slotArrayEnd (i + 1) ≤ lo - t.length ∧ slotArrayEnd es.length ≤ lo - t.length ∧ t.length < lo := by
    simp only [slotArrayEnd, heapSubHeaderSize, slotSize] at hfits hcases ⊢
    rcases hcases with ⟨_, _, hreq⟩ | ⟨_, hreq, _⟩ <;> omega
  obtain ⟨hroom, hroom', hlt⟩ := hbound
  have hu : u16 t.length = t.length := u16_of_lt (by omega)
  have hsub : u16Sub lo t.length = lo - t.length := u16Sub_of_le (Nat.le_of_lt hlt) (by omega)
  simp only [h.header, hu, hsub]
  rw [wp_bind, wp_copyIn (by simp only [pageBodySize]; omega), wp_bind,
    wp_writeSlot (by simp only [pageBodySize]; omega), wp_bind]
  unfold writeHeader
  rw [wp_modify, wp_bind]
  obtain ⟨es', hes, hh⟩ := insert_directory hcount hlt hcases
  obtain ⟨hst, hnone, hfound, hother⟩ := stores_insert h h0 hroom hroom' hes hh
  have hk : (UInt16.ofNat i).toNat = i := by
    simp only [UInt16.toNat_ofNat']
    rcases hcases with ⟨hi, _⟩ | ⟨hi, _⟩ <;> omega
  apply wp_assertInvariants hst.passes
  refine ⟨⟨⟨_, _, _, hst⟩, ?_, ?_, h0, by simp only [maxTupleSize]; omega⟩, hexact⟩
  · rw [h.contents_eq, hk, hnone]
  · exact contents_update h hst (by rw [hk, hfound]) (by rw [hk]; exact hother)

theorem wp_insert (h : Stores b es lo dead) (t : List UInt8) : wp (insert build t)
    (fun k b' => Valid b' ∧ contents b k = none ∧ contents b' = Function.update (contents b) k (some t) ∧
      t ≠ [] ∧ t.length ≤ maxTupleSize)
    (fun e b' => b' = b ∧ (e.code = .invalidArgument ∧ (t = [] ∨ maxTupleSize < t.length) ∨
      e.code = .pageFull ∧ t ≠ [] ∧ t.length ≤ maxTupleSize ∧
        lo - slotArrayEnd es.length < t.length + slotSize)) b := by
  apply wp_mono (wp_insert_exact h t)
  · intro k b' hk
    exact hk.1
  · intro e b' he
    obtain ⟨hb, hwhy⟩ := he
    refine ⟨hb, hwhy.imp_right fun hfull => ?_⟩
    obtain ⟨hc, h0, hlen, hlt⟩ := hfull
    exact ⟨hc, h0, hlen, hlt.trans_le (required_le es t.length)⟩

/-! `Delete`. -/

/-- The body after a slot was killed. -/
theorem passes_kill (h : Passes b es lo dead) {i : Nat} (hi : i < es.length) (hlive : ¬es[i].IsNull)
    {hd : HeapSubHeader} (hh : hd = ⟨es.length, lo, live es - 1, dead + es[i].length⟩) :
    Passes ((b.write 0 hd.writeTo).write (slotOffset i) (Slot.writeTo {})) (es.set i {}) lo (dead + es[i].length) := by
  have hset := live_set es i hi {}
  rw [if_neg hlive, if_pos Extent.isNull_empty] at hset
  rw [write_header_slot]
  apply passes_set h.slots hi h.room (h.accounts.kill hi)
  rw [hh]
  congr 1
  omega

theorem stores_kill (h : Stores b es lo dead) {i : Nat} (hi : i < es.length) (hlive : ¬es[i].IsNull)
    {hd : HeapSubHeader} (hh : hd = ⟨es.length, lo, live es - 1, dead + es[i].length⟩) :
    let b' := (b.write 0 hd.writeTo).write (slotOffset i) (Slot.writeTo {})
    Stores b' (es.set i {}) lo (dead + es[i].length) ∧ find b' (es.set i {}) i = none ∧
      ∀ j, j ≠ i → find b' (es.set i {}) j = find b es j := by
  intro b'
  have hroom := h.room
  refine ⟨(passes_kill h.passes hi hlive hh).stores (h.fills.kill hi), find_set_null, fun j hj => ?_⟩
  have hb' : b' = (b.write (slotOffset i) (Slot.writeTo {})).write 0 hd.writeTo := write_header_slot
  rw [hb', find_set_other hj, find_writes h.fills]
  simp only [slotArrayEnd, heapSubHeaderSize, slotSize] at hroom ⊢
  omega

/-- What a `Get` that finds a tuple says about the directory. -/
theorem live_of_find {i : Nat} {bytes : List UInt8} (hf : find b es i = some bytes) :
    ∃ hi : i < es.length, ¬es[i].IsNull := by
  by_cases hi : i < es.length
  · refine ⟨hi, fun hn => ?_⟩
    rw [find_get hi, if_pos hn] at hf
    cases hf
  · rw [find_none (by omega)] at hf
    cases hf

theorem live_pos {i : Nat} (hi : i < es.length) (hlive : ¬es[i].IsNull) : 0 < live es :=
  List.countP_pos_iff.mpr ⟨es[i], List.getElem_mem hi, by simpa using hlive⟩

/-- `header.live_count--` and `header.dead_bytes += slot.length` do not wrap. -/
theorem kill_header (h : Passes b es lo dead) {i : Nat} (hi : i < es.length) (hlive : ¬es[i].IsNull) :
    HeapSubHeader.mk es.length lo (u16Sub (live es) 1) (u16 (dead + es[i].length)) =
      ⟨es.length, lo, live es - 1, dead + es[i].length⟩ := by
  have hpos := live_pos hi hlive
  have hle : live es ≤ es.length := List.countP_le_length
  have hlen := h.length_le
  have hsum := (h.accounts.kill hi).sum
  simp only [pageBodySize] at hsum
  rw [u16Sub_of_le (by omega) (by omega), u16_of_lt (by omega)]

/-- `Delete` unbinds its slot, or the slot was not bound and nothing changes. -/
theorem wp_delete (h : Stores b es lo dead) (k : SlotId) : wp (delete build k)
    (fun _ b' => Valid b' ∧ contents b k ≠ none ∧ contents b' = Function.update (contents b) k none)
    (fun e b' => b' = b ∧ e.code = .notFound ∧ contents b k = none) b := by
  unfold delete
  rw [wp_bind, wp_get, wp_bind, wp_lift]
  refine ⟨_, h.get_eq build k, ?_⟩
  cases hfind : find b es k.toNat with
  | none => exact ⟨rfl, rfl, by rw [h.contents_eq, hfind]⟩
  | some bytes =>
    obtain ⟨hi, hlive⟩ := live_of_find hfind
    have hn : slotArrayEnd (k.toNat + 1) ≤ pageBodySize := by
      have := h.array_le
      simp only [slotArrayEnd, heapSubHeaderSize, slotSize] at this ⊢
      omega
    dsimp only
    rw [wp_bind, wp_lift]
    refine ⟨_, h.slots.slotAt h.array_le hi, ?_⟩
    rw [h.header]
    dsimp only
    rw [kill_header h.passes hi hlive, wp_bind]
    unfold writeHeader
    rw [wp_modify, wp_bind, wp_writeSlot hn]
    obtain ⟨hst, hgone, hother⟩ := stores_kill h hi hlive rfl
    apply wp_assertInvariants hst.passes
    refine ⟨⟨_, _, _, hst⟩, ?_, contents_update h hst hgone hother⟩
    rw [h.contents_eq, hfind]
    exact Option.some_ne_none _

/-! `Compact`. -/

/-- The loop over the slots `fs` after `pre`: it packs them below the cursor, leaves every byte past the
slot array, and gathers in the scratch buffer what the slots found in the page. -/
theorem wp_compactSlots : ∀ (fs pre : List Slot) (b scratch : Body) (cursor : Nat), HasSlots b (pre ++ fs) →
    slotArrayEnd (pre ++ fs).length ≤ lo → lo ≤ pageBodySize → (∀ e ∈ fs, e.Within lo pageBodySize) →
    total fs < cursor → cursor ≤ pageBodySize →
    wp (compactSlots fs.length pre.length scratch cursor)
      (fun r b' => r.2 = cursor - total fs ∧ HasSlots b' (pre ++ pack cursor fs) ∧ header b' = header b ∧
        (∀ o n, cursor ≤ o → o + n ≤ pageBodySize → r.1.slice o n = scratch.slice o n) ∧
        ∀ j, find r.1 (pack cursor fs) j = find b fs j) (fun _ _ => False) b := by
  intro fs
  induction fs with
  | nil =>
    intro pre b scratch cursor hs _ _ _ _ _
    exact ⟨rfl, hs, rfl, fun _ _ _ _ => rfl, fun j => rfl⟩
  | cons e fs ih =>
    intro pre b scratch cursor hs hroom hlo hw hlt hcur
    have hsplit : ∀ (x : Slot) xs, pre ++ x :: xs = (pre ++ [x]) ++ xs := fun x xs => by simp
    have hi : pre.length < (pre ++ e :: fs).length := by simp
    have hat : slotAt b pre.length = some e := by
      rw [hs.slotAt (hroom.trans hlo) hi, List.getElem_append_right (Nat.le_refl _)]
      simp
    have hw' : ∀ x ∈ fs, x.Within lo pageBodySize := fun x hx => hw x (List.mem_cons_of_mem _ hx)
    simp only [total] at hlt
    simp only [List.length_cons, compactSlots]
    rw [wp_bind, wp_get, wp_bind, wp_lift]
    refine ⟨e, hat, ?_⟩
    rw [wp_ite]
    constructor
    · -- a dead slot stays as it is
      intro hd
      have hn := (isDead_iff e).mp hd
      have he : e = {} := (hw e List.mem_cons_self).null hn
      have hrec := ih (pre ++ [e]) b scratch cursor (hsplit e fs ▸ hs) (hsplit e fs ▸ hroom) hlo hw' (by omega) hcur
      rw [List.length_append, List.length_singleton] at hrec
      apply wp_mono hrec
      · intro r b' hr
        obtain ⟨h1, h2, h3, h4, h5⟩ := hr
        rw [pack, if_pos hn, hsplit]
        refine ⟨?_, h2, h3, h4, fun j => ?_⟩
        · rw [h1, total, he]
          simp
        · cases j with
          | zero => rw [find_cons_zero, find_cons_zero, if_pos hn, if_pos hn]
          | succ j => rw [find_cons_succ, find_cons_succ, h5 j]
      · intro _ _ hf
        exact hf
    · -- a live one moves below the cursor
      intro hd
      have hn : ¬e.IsNull := fun hn => hd ((isDead_iff e).mpr hn)
      obtain ⟨_, helo, hstop⟩ := (hw e List.mem_cons_self).live hn
      unfold Extent.stop at hstop
      have hu : u16 (cursor - e.length) = cursor - e.length :=
        u16_of_lt (by simp only [pageBodySize] at hcur; omega)
      have hend : slotArrayEnd (pre.length + 1) ≤ lo := by
        simp only [slotArrayEnd, List.length_append, List.length_cons, heapSubHeaderSize, slotSize] at hroom ⊢
        omega
      rw [wp_bind, wp_check]
      refine ⟨by omega, ?_⟩
      rw [wp_bind, wp_lift]
      refine ⟨_, Region.read?_eq hstop, ?_⟩
      rw [wp_bind, wp_lift]
      refine ⟨_, Region.write?_eq (by rw [Region.slice_length]; omega), ?_⟩
      rw [wp_bind, wp_writeSlot (hend.trans hlo), hu]
      have hset : (pre ++ e :: fs).set pre.length ⟨cursor - e.length, e.length⟩ =
          (pre ++ [⟨cursor - e.length, e.length⟩]) ++ fs := by
        rw [List.set_append_right _ _ (Nat.le_refl _)]
        simp
      have hs' := hs.set (hroom.trans hlo) hi (s := ⟨cursor - e.length, e.length⟩)
        (by simp only [pageBodySize] at hcur ⊢; omega) (by simp only [pageBodySize] at hcur ⊢; omega)
      rw [hset] at hs'
      have hrec := ih (pre ++ [⟨cursor - e.length, e.length⟩]) _
        (scratch.write (cursor - e.length) (b.slice e.offset e.length)) (cursor - e.length) hs'
        (by simpa using hroom) hlo hw' (by omega) (by omega)
      rw [List.length_append, List.length_singleton] at hrec
      apply wp_mono hrec
      · intro r b' hr
        obtain ⟨h1, h2, h3, h4, h5⟩ := hr
        rw [pack, if_neg hn, hsplit]
        refine ⟨?_, h2, ?_, ?_, fun j => ?_⟩
        · rw [h1, total]
          omega
        · rw [h3, header_write (by unfold slotOffset; omega)]
        · intro o n ho hon
          rw [h4 o n (by omega) hon, Region.slice_write_off hon (by rw [Region.slice_length]; omega)]
        · cases j with
          | zero =>
            have hnew : ¬Extent.IsNull ⟨cursor - e.length, e.length⟩ := by
              unfold Extent.IsNull; simp only; omega
            rw [find_cons_zero, find_cons_zero, if_neg hn, if_neg hnew, h4 _ _ (Nat.le_refl _) (by simp only; omega)]
            have hbytes : (scratch.write (cursor - e.length) (b.slice e.offset e.length)).slice (cursor - e.length)
                (b.slice e.offset e.length).length = b.slice e.offset e.length :=
              Region.slice_write_same (by rw [Region.slice_length]; omega)
            rw [Region.slice_length] at hbytes
            rw [hbytes]
          | succ j =>
            rw [find_cons_succ, find_cons_succ, h5 j]
            apply find_congr
            intro hj hlive
            obtain ⟨_, hjlo, hjstop⟩ := (hw' _ (List.getElem_mem hj)).live hlive
            apply Region.slice_write_off hjstop
            simp only [slotArrayEnd, slotOffset, heapSubHeaderSize, slotSize, Slot.writeTo_length] at hend ⊢
            omega
      · intro _ _ hf
        exact hf

/-- The page after the packed bytes, the header and the poison are written. -/
theorem passes_compact {b₁ : Body} (h : Passes b es lo dead) (hs : HasSlots b₁ (pack pageBodySize es))
    (packed poison : List UInt8) {hd : HeapSubHeader} (hh : hd = ⟨es.length, pageBodySize - total es, live es, 0⟩) :
    Passes (((b₁.write (pageBodySize - total es) packed).write 0 hd.writeTo).write lo poison)
      (pack pageBodySize es) (pageBodySize - total es) 0 := by
  have hsum := h.accounts.sum
  have hroom := h.room
  have hend : heapSubHeaderSize < slotArrayEnd es.length + 1 := by unfold slotArrayEnd; omega
  have hpos : 0 < lo := by simp only [slotArrayEnd, heapSubHeaderSize] at hroom; omega
  have ha := h.accounts.pack hpos
  have hlive : live (pack pageBodySize es) = live es := live_pack es _ (by omega)
  have hp := passes_writeHeader (b := b₁.write (pageBodySize - total es) packed) (h := hd)
    (hs.write (by rw [pack_length]; exact h.array_le) (.inl (by rw [pack_length]; omega)))
    (by rw [pack_length]; omega) ha (by rw [pack_length, hlive, hh])
  refine ⟨?_, ?_, hp.room, ha⟩
  · rw [header_write (by omega), hp.header]
  · exact hp.slots.write (by rw [pack_length]; exact h.array_le) (.inl (by rw [pack_length]; exact hroom))

theorem stores_compact {b₁ scratch : Body} (h : Stores b es lo dead) (hs : HasSlots b₁ (pack pageBodySize es))
    (hfind : ∀ j, find scratch (pack pageBodySize es) j = find b es j) {hd : HeapSubHeader}
    (hh : hd = ⟨es.length, pageBodySize - total es, live es, 0⟩) {poison : List UInt8}
    (hpoison : lo + poison.length ≤ pageBodySize - total es) :
    let cursor := pageBodySize - total es
    let b' := ((b₁.write cursor (scratch.slice cursor (pageBodySize - cursor))).write 0 hd.writeTo).write lo poison
    Stores b' (pack pageBodySize es) cursor 0 ∧ ∀ j, find b' (pack pageBodySize es) j = find b es j := by
  intro cursor b'
  have hsum := h.fills.sum
  have hroom := h.room
  have hpos : 0 < lo := by simp only [slotArrayEnd, heapSubHeaderSize] at hroom; omega
  have hf := h.fills.pack hpos
  refine ⟨(passes_compact h.passes hs _ poison hh).stores hf, fun j => ?_⟩
  rw [← hfind j]
  apply find_congr
  intro hj hn
  obtain ⟨_, hlo, hstop⟩ := (hf.get_within hj).live hn
  unfold Extent.stop at hstop
  rw [Region.slice_write_off hstop (by omega),
    Region.slice_write_off hstop (by rw [HeapSubHeader.writeTo_length]; simp only [slotArrayEnd, heapSubHeaderSize] at hroom; omega),
    Region.slice_write_inside (by rw [Region.slice_length]; omega) hlo (by rw [Region.slice_length]; omega),
    Region.slice_drop_take _ _ _ _ _ (by omega)]
  congr 1
  omega

/-- `Compact` changes no binding, and leaves no dead byte. -/
theorem wp_compact (h : Stores b es lo dead) : wp (compact build)
    (fun _ b' => ∃ es', Stores b' es' (pageBodySize - total es) 0 ∧ es'.length = es.length ∧
      ∀ j, find b' es' j = find b es j) (fun _ _ => False) b := by
  have hsum := h.fills.sum
  have hroom := h.room
  unfold compact
  rw [wp_bind, wp_get, h.header]
  dsimp only
  rw [wp_ite]
  constructor
  · intro hzero
    have hlo : pageBodySize - total es = lo := by omega
    rw [hzero] at h
    exact ⟨es, hlo ▸ h, rfl, fun _ => rfl⟩
  · intro _
    have hpos : 0 < lo := by simp only [slotArrayEnd, heapSubHeaderSize] at hroom; omega
    have hloop := wp_compactSlots es [] b build.scratch pageBodySize h.slots h.room h.le_body h.fills.within
      (by omega) (Nat.le_refl _)
    apply wp_call hloop
    · intro r b₁ hr
      obtain ⟨scratch, cursor⟩ := r
      obtain ⟨hcur, hs, -, -, hfind⟩ := hr
      dsimp only at hcur hfind ⊢
      subst hcur
      have hu : u16 (pageBodySize - total es) = pageBodySize - total es :=
        u16_of_lt (by simp only [pageBodySize]; omega)
      rw [wp_bind, wp_lift]
      refine ⟨_, Region.read?_eq (by omega), ?_⟩
      rw [wp_bind, wp_copyIn (by rw [Region.slice_length]; omega), hu, wp_bind]
      unfold writeHeader
      rw [wp_modify]
      rw [wp_ite]
      constructor
      · intro _
        rw [wp_bind, wp_check]
        refine ⟨by omega, ?_⟩
        have hlen : lo + (List.replicate (pageBodySize - total es - lo) (0xDD : UInt8)).length ≤
            pageBodySize - total es := by
          rw [List.length_replicate]; omega
        obtain ⟨hst, hsame⟩ := stores_compact h hs hfind rfl hlen
        rw [wp_bind, wp_copyIn (by omega)]
        exact wp_assertInvariants hst.passes ⟨_, hst, pack_length _ _, hsame⟩
      · intro _
        obtain ⟨hst, hsame⟩ := stores_compact h hs hfind rfl
          (by simp only [List.length_nil]; omega : lo + ([] : List UInt8).length ≤ pageBodySize - total es)
        rw [Region.write_nil] at hst hsame
        exact wp_assertInvariants hst.passes ⟨_, hst, pack_length _ _, hsame⟩
    · intro _ _ hf
      exact hf.elim

/-! `Update`. -/

/-- The slot `i` now finds `t` and every other slot what it found before. -/
def Rebound (b : Body) (es : List Slot) (i : Nat) (t : List UInt8) (b' : Body) : Prop :=
  ∃ es' lo' dead', Stores b' es' lo' dead' ∧ find b' es' i = some t ∧ ∀ j, j ≠ i → find b' es' j = find b es j

section Update
variable {i : Nat} {t : List UInt8}

theorem slot_end_le (h : Passes b es lo dead) (hi : i < es.length) : slotArrayEnd (i + 1) ≤ lo := by
  have := h.room
  simp only [slotArrayEnd, heapSubHeaderSize, slotSize] at this ⊢
  omega

theorem wp_updateInPlace (h : Stores b es lo dead) (hi : i < es.length) (hlive : ¬es[i].IsNull) (ht : t ≠ [])
    (hle : t.length ≤ es[i].length) :
    wp (updateInPlace i es[i] t t.length) (fun _ b' => Rebound b es i t b') (fun _ _ => False) b := by
  have hpos : 0 < t.length := List.length_pos_iff.mpr ht
  obtain ⟨_, hlo, hstop⟩ := (h.fills.get_within hi).live hlive
  unfold Extent.stop at hstop
  have hf := h.fills.shrink hi hlive hpos hle
  have hend := slot_end_le h.passes hi
  have hset := live_set es i hi ⟨es[i].offset, t.length⟩
  rw [if_neg hlive, if_neg (by exact hlive)] at hset
  have hu : u16 (dead + (es[i].length - t.length)) = dead + (es[i].length - t.length) := by
    have := hf.sum
    simp only [pageBodySize] at this
    exact u16_of_lt (by omega)
  unfold updateInPlace
  rw [wp_bind, wp_get, h.header, List.take_length]
  dsimp only
  rw [hu, wp_bind, wp_copyIn (by omega), wp_bind]
  unfold writeHeader
  rw [wp_modify, wp_writeSlot (hend.trans h.le_body), write_header_slot]
  have hslots : HasSlots (b.write es[i].offset t) es := h.slots.write h.array_le (.inl (h.room.trans hlo))
  have hcount : live es = live (es.set i ⟨es[i].offset, t.length⟩) := by omega
  have hst := stores_set hslots hi h.room hf rfl
  rw [hcount]
  refine ⟨_, _, _, hst, ?_, fun j hj => ?_⟩
  · rw [find_set_same hi (by exact hlive), slice_writes (hend.trans hlo) (by simp only; omega),
      Region.slice_write_same (by omega)]
  · rw [find_set_other hj, find_writes h.fills hend, h.fills.find_write_inside hi hlive hle hj]

/-- A tuple placed below `lo` under a slot that is dead, header before slot as `Update` writes them. -/
theorem rebound_place (h : Stores b es lo dead) (hi : i < es.length) (hnull : es[i].IsNull) (ht : t ≠ [])
    (hroom : slotArrayEnd es.length ≤ lo - t.length) {hd : HeapSubHeader}
    (hh : hd = ⟨es.length, lo - t.length, live es + 1, dead⟩) :
    Rebound b es i t (((b.write (lo - t.length) t).write 0 hd.writeTo).write (slotOffset i)
      (Slot.writeTo ⟨lo - t.length, t.length⟩)) := by
  have hset := live_set es i hi ⟨lo - t.length, t.length⟩
  have hnew : ¬Extent.IsNull ⟨lo - t.length, t.length⟩ := by
    simp only [slotArrayEnd, heapSubHeaderSize] at hroom
    unfold Extent.IsNull; simp only; omega
  rw [if_pos hnull, if_neg hnew] at hset
  have hend : slotArrayEnd (i + 1) ≤ lo - t.length := by
    simp only [slotArrayEnd, heapSubHeaderSize, slotSize] at hroom ⊢
    omega
  have hcounts : hd = ⟨(es.set i ⟨lo - t.length, t.length⟩).length, lo - t.length,
      live (es.set i ⟨lo - t.length, t.length⟩), dead⟩ := by
    rw [hh, List.length_set]
    congr 1
    omega
  obtain ⟨hst, -, hfound, hother⟩ := stores_insert h ht hend hroom (.inl ⟨hi, hnull, rfl⟩) hcounts
  rw [write_header_slot]
  exact ⟨_, _, _, hst, hfound, hother⟩

theorem wp_updateAtStart (h : Stores b es lo dead) (hi : i < es.length) (hlive : ¬es[i].IsNull) (ht : t ≠ [])
    (hfits : t.length ≤ lo - slotArrayEnd es.length) :
    wp (updateAtStart i es[i] t t.length) (fun _ b' => Rebound b es i t b') (fun _ _ => False) b := by
  have hpos : 0 < t.length := List.length_pos_iff.mpr ht
  have hroom : slotArrayEnd es.length ≤ lo - t.length := by omega
  have hend := slot_end_le h.passes hi
  have hlo := h.le_body
  have hsub : u16Sub lo t.length = lo - t.length :=
    u16Sub_of_le (by omega) (by simp only [pageBodySize] at hlo; omega)
  have hkill := h.fills.kill hi
  have hu : u16 (dead + es[i].length) = dead + es[i].length := by
    have := hkill.sum
    simp only [pageBodySize] at this
    exact u16_of_lt (by omega)
  have hnew : ¬Extent.IsNull ⟨lo - t.length, t.length⟩ := by
    simp only [slotArrayEnd, heapSubHeaderSize] at hroom
    unfold Extent.IsNull; simp only; omega
  -- the directory: the old extent given up, then the slot placed again
  have hf : Fills (es.set i ⟨lo - t.length, t.length⟩) (lo - t.length) pageBodySize (dead + es[i].length) := by
    have hp := hkill.place (i := i) (by simpa using hi) (by simp [Extent.isNull_empty]) hpos
      (by simp only [slotArrayEnd, heapSubHeaderSize] at hroom; omega)
    rwa [List.set_set] at hp
  have hset := live_set es i hi ⟨lo - t.length, t.length⟩
  rw [if_neg hlive, if_neg hnew] at hset
  unfold updateAtStart
  rw [wp_bind, wp_get, h.header, List.take_length]
  dsimp only
  rw [hsub, hu, wp_bind, wp_copyIn (by omega), wp_bind]
  unfold writeHeader
  rw [wp_modify, wp_writeSlot (hend.trans hlo), write_header_slot]
  have hslots : HasSlots (b.write (lo - t.length) t) es := h.slots.write h.array_le (.inl hroom)
  have hcount : live es = live (es.set i ⟨lo - t.length, t.length⟩) := by omega
  have hst := stores_set hslots hi hroom hf rfl
  rw [hcount]
  refine ⟨_, _, _, hst, ?_, fun j hj => ?_⟩
  · rw [find_set_same hi hnew, slice_writes, Region.slice_write_same (by omega)]
    · simp only [slotArrayEnd, heapSubHeaderSize, slotSize] at hroom ⊢
      omega
    · simp only; omega
  · rw [find_set_other hj, find_writes h.fills hend, h.fills.find_write_below (by omega)]

theorem wp_updateCompacting (h : Stores b es lo dead) (hi : i < es.length) (hlive : ¬es[i].IsNull) (ht : t ≠ [])
    (hfits : t.length ≤ lo - slotArrayEnd es.length + dead + es[i].length) :
    wp (updateCompacting build i es[i] t t.length) (fun _ b' => Rebound b es i t b') (fun _ _ => False) b := by
  have hend := slot_end_le h.passes hi
  unfold updateCompacting
  rw [wp_bind, wp_get, h.header, List.take_length]
  dsimp only
  rw [kill_header h.passes hi hlive, wp_bind]
  unfold writeHeader
  rw [wp_modify, wp_bind, wp_writeSlot (hend.trans h.le_body)]
  obtain ⟨hkill, hgone, hother⟩ := stores_kill h hi hlive rfl
  apply wp_call (wp_compact hkill)
  · intro _ b₁ hc
    obtain ⟨es', hst, hlen, hsame⟩ := hc
    have hi' : i < es'.length := by rw [hlen, List.length_set]; exact hi
    have hnull : es'[i].IsNull := by
      have hnone : find b₁ es' i = none := (hsame i).trans hgone
      by_contra hn
      rw [find_get hi', if_neg hn] at hnone
      cases hnone
    -- the room after compaction, by the accounting of the killed directory
    have hsum := hkill.fills.sum
    have hroom := h.room
    have hlive' : live es' ≤ es'.length := List.countP_le_length
    have hcount := hst.length_le
    rw [List.length_set] at hlen
    have hroom' : slotArrayEnd es'.length ≤ pageBodySize - total (es.set i {}) - t.length := by
      rw [hlen]; omega
    have hsub : u16Sub (pageBodySize - total (es.set i {})) t.length =
        pageBodySize - total (es.set i {}) - t.length :=
      u16Sub_of_le (by simp only [slotArrayEnd, heapSubHeaderSize] at hroom'; omega) (by simp only [pageBodySize]; omega)
    have hu : u16 (live es' + 1) = live es' + 1 := u16_of_lt (by omega)
    have hend' := slot_end_le hst.passes hi'
    rw [wp_bind, wp_get, hst.header]
    dsimp only
    rw [hsub, hu, wp_bind, wp_copyIn (by simp only [slotArrayEnd, heapSubHeaderSize] at hroom'; omega), wp_bind,
      wp_modify, wp_writeSlot (hend'.trans hst.le_body)]
    obtain ⟨es'', lo'', dead'', hst'', hfound, hother'⟩ := rebound_place hst hi' hnull ht hroom' rfl
    refine ⟨es'', lo'', dead'', hst'', hfound, fun j hj => ?_⟩
    calc find _ es'' j = find b₁ es' j := hother' j hj
      _ = _ := hsame j
      _ = find b es j := hother j hj
  · intro _ _ hf
    exact hf.elim

end Update

/-- `Update` rebinds its slot, or reports why not and leaves the page as it was; it does not fit exactly
when the tuple, the other tuples and the slot array are larger than the page. -/
theorem wp_update_exact (h : Stores b es lo dead) (k : SlotId) (t : List UInt8) : wp (update build k t)
    (fun outcome b' => Valid b' ∧ contents b k ≠ none ∧ t ≠ [] ∧ t.length ≤ maxTupleSize ∧
      (outcome = .samePage ∧ contents b' = Function.update (contents b) k (some t) ∧
          t.length + total (es.set k.toNat {}) + slotArrayEnd es.length ≤ pageBodySize ∨
        outcome = .doesNotFit ∧ b' = b ∧
          pageBodySize < t.length + total (es.set k.toNat {}) + slotArrayEnd es.length))
    (fun e b' => b' = b ∧ (e.code = .invalidArgument ∧ (t = [] ∨ maxTupleSize < t.length) ∨
      e.code = .notFound ∧ t ≠ [] ∧ t.length ≤ maxTupleSize ∧ contents b k = none)) b := by
  unfold update
  dsimp only
  rw [wp_ite]
  refine ⟨fun h0 => (wp_bind _ _).mpr ⟨rfl, .inl ⟨rfl, .inl h0⟩⟩, fun h0 => ?_⟩
  rw [wp_ite]
  refine ⟨fun hbig => (wp_bind _ _).mpr ⟨rfl, .inl ⟨rfl, .inr hbig⟩⟩, fun hbig => ?_⟩
  have hlen : t.length ≤ maxTupleSize := Nat.not_lt.mp hbig
  have hu : u16 t.length = t.length := u16_of_lt (by simp only [maxTupleSize] at hlen; omega)
  rw [wp_bind, wp_get, wp_bind, wp_lift]
  refine ⟨_, h.get_eq build k, ?_⟩
  cases hfind : find b es k.toNat with
  | none => exact ⟨rfl, .inr ⟨rfl, h0, hlen, by rw [h.contents_eq, hfind]⟩⟩
  | some bytes =>
    obtain ⟨hi, hlive⟩ := live_of_find hfind
    have hbound : contents b k ≠ none := by
      rw [h.contents_eq, hfind]
      exact Option.some_ne_none _
    -- every case that writes rebinds the slot; what follows is the same for all of them
    have hdone : ∀ b', Rebound b es k.toNat t b' →
        t.length + total (es.set k.toNat {}) + slotArrayEnd es.length ≤ pageBodySize →
        wp (do assertInvariants build; pure UpdateOutcome.samePage)
        (fun outcome b' => Valid b' ∧ contents b k ≠ none ∧ t ≠ [] ∧ t.length ≤ maxTupleSize ∧
          (outcome = .samePage ∧ contents b' = Function.update (contents b) k (some t) ∧
              t.length + total (es.set k.toNat {}) + slotArrayEnd es.length ≤ pageBodySize ∨
            outcome = .doesNotFit ∧ b' = b ∧
              pageBodySize < t.length + total (es.set k.toNat {}) + slotArrayEnd es.length))
        (fun e b' => b' = b ∧ (e.code = .invalidArgument ∧ (t = [] ∨ maxTupleSize < t.length) ∨
          e.code = .notFound ∧ t ≠ [] ∧ t.length ≤ maxTupleSize ∧ contents b k = none)) b' := by
      intro b' hr hroom
      obtain ⟨es', lo', dead', hst, hfound, hother⟩ := hr
      rw [wp_bind]
      apply wp_assertInvariants hst.passes
      exact ⟨⟨_, _, _, hst⟩, hbound, h0, hlen, .inl ⟨rfl, contents_update h hst hfound hother, hroom⟩⟩
    -- what the page holds besides the old tuple, by the accounting of the directory
    have hsum := h.fills.sum
    have hroom := h.room
    have hothers : total (es.set k.toNat {}) + es[k.toNat].length = total es := total_set {} es k.toNat hi
    dsimp only
    rw [wp_bind, wp_lift]
    refine ⟨_, h.slots.slotAt h.array_le hi, ?_⟩
    rw [wp_bind, wp_lift]
    refine ⟨_, h.contiguous_eq build, ?_⟩
    rw [h.header, hu]
    dsimp only
    rw [wp_ite]
    refine ⟨fun hle => ?_, fun _ => ?_⟩
    · exact wp_call (wp_updateInPlace h hi hlive h0 hle) (fun _ b' hr => hdone b' hr (by omega)) (fun _ _ hf => hf.elim)
    rw [wp_ite]
    refine ⟨fun hle => ?_, fun _ => ?_⟩
    · exact wp_call (wp_updateAtStart h hi hlive h0 hle) (fun _ b' hr => hdone b' hr (by omega)) (fun _ _ hf => hf.elim)
    rw [wp_ite]
    refine ⟨fun hle => ?_, fun hbig' => ?_⟩
    · exact wp_call (wp_updateCompacting h hi hlive h0 hle) (fun _ b' hr => hdone b' hr (by omega)) (fun _ _ hf => hf.elim)
    rw [wp_bind, wp_pure, wp_bind]
    apply wp_assertInvariants h.passes
    exact ⟨⟨_, _, _, h⟩, hbound, h0, hlen, .inr ⟨rfl, rfl, by omega⟩⟩

theorem wp_update (h : Stores b es lo dead) (k : SlotId) (t : List UInt8) : wp (update build k t)
    (fun outcome b' => Valid b' ∧ contents b k ≠ none ∧ t ≠ [] ∧ t.length ≤ maxTupleSize ∧
      (outcome = .samePage ∧ contents b' = Function.update (contents b) k (some t) ∨
        outcome = .doesNotFit ∧ b' = b))
    (fun e b' => b' = b ∧ (e.code = .invalidArgument ∧ (t = [] ∨ maxTupleSize < t.length) ∨
      e.code = .notFound ∧ t ≠ [] ∧ t.length ≤ maxTupleSize ∧ contents b k = none)) b := by
  apply wp_mono (wp_update_exact h k t)
  · intro outcome b' ho
    obtain ⟨hv, hbound, h0, hlen, hcase⟩ := ho
    refine ⟨hv, hbound, h0, hlen, hcase.imp ?_ ?_⟩
    · exact fun hsame => ⟨hsame.1, hsame.2.1⟩
    · exact fun hnot => ⟨hnot.1, hnot.2.1⟩
  · intro e b' he
    exact he

end HeapPage
end KernSql

import KernSql.Heap.HeapPageRun

/- The space of a heap page.

   Whether a tuple fits is decided from three fields of the sub-header and the old
   length of its slot. On a page with a history these fields are exact, so the
   decisions are: `Update` and `Insert` refuse a tuple exactly when the live
   tuples, the slot array and the new tuple together are larger than the page.

   `CheckInvariants` is handed pages without a history. It compares one sum, and
   an overlap is counted twice in it; but bytes that nobody owns and that
   `dead_bytes` leaves out make up for that. What it lets through is disjoint
   exactly when `dead_bytes` counts every byte that no live slot covers. -/
namespace KernSql
namespace HeapPage
open Bytes Directory Exec ConstHeapPage
variable {build : Build} {b : Body} {es : List Slot} {lo dead : Nat}

/-! Exact decisions. -/

/-- Bytes of the live tuples. -/
def liveBytes (ss : List Slot) : Nat := ((ss.filter fun s => ¬s.isDead).map (·.length)).sum

theorem total_eraseIdx : ∀ (es : List Slot) (i : Nat), total (es.eraseIdx i) = total (es.set i {})
  | [], _ => rfl
  | e :: es, 0 => by simp [total]
  | e :: es, i + 1 => by
    rw [List.eraseIdx_cons_succ, List.set_cons_succ, total, total, total_eraseIdx es i]

theorem liveBytes_eraseIdx (h : Stores b es lo dead) (i : Nat) :
    liveBytes ((slots b).eraseIdx i) = total (es.set i {}) := by
  unfold liveBytes
  rw [h.slots_eq, sum_live _ fun e he => h.fills.within e (List.mem_of_mem_eraseIdx he), total_eraseIdx]

theorem liveBytes_eq (h : Stores b es lo dead) : liveBytes (slots b) = total es := by
  unfold liveBytes
  rw [h.slots_eq, sum_live _ h.fills.within]

/-- A directory that finds the same has a null entry at the same places. -/
theorem exists_isNull_congr {b' : Body} {es' : List Slot} (hlen : es'.length = es.length)
    (hfind : ∀ j, find b' es' j = find b es j) : (∃ e ∈ es', e.IsNull) ↔ ∃ e ∈ es, e.IsNull := by
  have hnull : ∀ {r : Body} {fs : List Slot} {j : Nat} (hj : j < fs.length), fs[j].IsNull ↔ find r fs j = none := by
    intro r fs j hj
    rw [find_get hj]
    simp
  simp only [List.mem_iff_getElem]
  constructor
  · intro ⟨e, ⟨j, hj, he⟩, hn⟩
    subst he
    have hj' : j < es.length := hlen ▸ hj
    exact ⟨_, ⟨j, hj', rfl⟩, (hnull (r := b) hj').mpr (hfind j ▸ (hnull hj).mp hn)⟩
  · intro ⟨e, ⟨j, hj, he⟩, hn⟩
    subst he
    have hj' : j < es'.length := hlen ▸ hj
    exact ⟨_, ⟨j, hj', rfl⟩, (hnull (r := b') hj').mpr ((hfind j).trans ((hnull hj).mp hn))⟩

/-- The slots the page has after an insert at its end. -/
def slotsAfterInsert (b : Body) : Nat :=
  if ∃ s ∈ slots b, s.isDead then (header b).slotCount else (header b).slotCount + 1

/-- What `Insert` asks for, with the slot array it finds, is what the page holds afterwards. -/
theorem required_add (h : Stores b es lo dead) (n : Nat) :
    required es n + slotArrayEnd es.length = n + slotArrayEnd (slotsAfterInsert b) := by
  unfold required slotsAfterInsert
  rw [h.slots_eq, h.header]
  simp only [isDead_iff]
  split
  · rfl
  · simp only [slotArrayEnd, slotSize]; omega

theorem wp_compact_insert (h : Stores b es lo dead) {t : List UInt8} (h0 : t ≠ []) (hlen : t.length ≤ maxTupleSize) :
    wp (do compact build; insert build t)
      (fun _ _ => t.length + liveBytes (slots b) + slotArrayEnd (slotsAfterInsert b) ≤ pageBodySize)
      (fun e _ => e.code = .pageFull ∧
        pageBodySize < t.length + liveBytes (slots b) + slotArrayEnd (slotsAfterInsert b)) b := by
  have hsum := h.fills.sum
  have hreq := required_add h t.length
  rw [liveBytes_eq h]
  apply wp_call (wp_compact h)
  · intro _ b' hc
    obtain ⟨es', hst, hlen', hsame⟩ := hc
    have hroom := hst.room
    have hreq' : required es' t.length = required es t.length := by
      unfold required
      simp only [exists_isNull_congr hlen' hsame]
    apply wp_mono (wp_insert_exact hst t)
    · intro k b'' hk
      have hfits := hk.2
      rw [hreq', hlen'] at hfits
      rw [hlen'] at hroom
      have hpos : 0 < required es t.length := by
        unfold required
        have := List.length_pos_iff.mpr h0
        split <;> omega
      omega
    · intro e b'' he
      cases he.2 with
      | inl hinv =>
        cases hinv.2 with
        | inl hnil => exact absurd hnil h0
        | inr hbig => exact absurd hlen (Nat.not_le.mpr hbig)
      | inr hfull =>
        have hlt := hfull.2.2.2
        rw [hreq', hlen'] at hlt
        rw [hlen'] at hroom
        exact ⟨hfull.1, by omega⟩
  · intro _ _ hf
    exact hf.elim

/-- On every page with a history, `Update` and `Insert` after `Compact` refuse a tuple exactly when the
page cannot hold it with the other live tuples and the slot array. -/
theorem space_decisions_are_exact (build : Build) (b₀ : Body) (ops : List Op) :
    ∃ as b, (do init; Refine.run (perform build) ops : PageM _) b₀ = some (.ok as, b) ∧
      (∀ (s : SlotId) slot tuple, (slots b)[s.toNat]? = some slot → ¬slot.isDead →
        1 ≤ tuple.length → tuple.length ≤ maxTupleSize →
        ∃ o b', update build s tuple b = some (.ok o, b') ∧
          (o = .doesNotFit ↔ pageBodySize < tuple.length + liveBytes ((slots b).eraseIdx s.toNat) +
            (heapSubHeaderSize + slotSize * (header b).slotCount))) ∧
      ∀ tuple, 1 ≤ tuple.length → tuple.length ≤ maxTupleSize →
        ∃ r b', (do compact build; insert build tuple : PageM _) b = some (r, b') ∧
          ((∃ e, r = .error e ∧ e.code = .pageFull) ↔ pageBodySize < tuple.length + liveBytes (slots b) +
            (heapSubHeaderSize + slotSize *
              (if ∃ s ∈ slots b, s.isDead then (header b).slotCount else (header b).slotCount + 1))) := by
  obtain ⟨as, b, m, hrun, ⟨⟨es, lo, dead, h⟩, -⟩, -⟩ :=
    simulates.run (.of_forall (fun _ _ _ => trivial : ∀ op ∈ ops, ∀ _, True))
      ⟨⟨_, _, _, stores_init b₀⟩, contents_init b₀⟩
  refine ⟨as, b, hrun, ?_, ?_⟩
  · intro s slot tuple hslot hlive hpos hlen
    have h0 : tuple ≠ [] := List.length_pos_iff.mp hpos
    have hbound : contents b s ≠ none := by
      unfold contents find
      rw [hslot]
      have hn : ¬slot.IsNull := fun hn => hlive ((isDead_iff slot).mpr hn)
      simp [hn]
    have hend : heapSubHeaderSize + slotSize * (header b).slotCount = slotArrayEnd es.length := by
      rw [h.header, slotArrayEnd, Nat.mul_comm]
    rw [liveBytes_eraseIdx h, hend]
    have hupdate : wp (update build s tuple) _ _ b := wp_update_exact h s tuple
    cases wp_run hupdate with
    | inl hok =>
      obtain ⟨o, b', hstep, -, -, -, -, hcase⟩ := hok
      refine ⟨o, b', hstep, ?_⟩
      cases hcase with
      | inl hsame =>
        obtain ⟨ho, -, hfits⟩ := hsame
        subst ho
        exact ⟨fun ho => (by cases ho), fun hlt => absurd hfits (Nat.not_le.mpr hlt)⟩
      | inr hnot => exact ⟨fun _ => hnot.2.2, fun _ => hnot.1⟩
    | inr herr =>
      obtain ⟨e, b', -, -, hwhy⟩ := herr
      cases hwhy with
      | inl hinv => exact (hinv.2.elim h0 fun hbig => Nat.not_le.mpr hbig hlen).elim
      | inr hdead => exact absurd hdead.2.2.2 hbound
  · intro tuple hpos hlen
    have h0 : tuple ≠ [] := List.length_pos_iff.mp hpos
    have hend : heapSubHeaderSize + slotSize *
        (if ∃ s ∈ slots b, s.isDead then (header b).slotCount else (header b).slotCount + 1) =
          slotArrayEnd (slotsAfterInsert b) := by
      rw [slotArrayEnd, Nat.mul_comm]
      rfl
    rw [hend]
    have hinsert : wp (do compact build; insert build tuple) _ _ b := wp_compact_insert h h0 hlen
    cases wp_run hinsert with
    | inl hok =>
      obtain ⟨k, b', hstep, hfits⟩ := hok
      refine ⟨.ok k, b', hstep, fun hfull => ?_, fun hlt => absurd hfits (Nat.not_le.mpr hlt)⟩
      obtain ⟨e, he, -⟩ := hfull
      cases he
    | inr herr =>
      obtain ⟨e, b', hstep, hcode, hlt⟩ := herr
      exact ⟨.error e, b', hstep, fun _ => hlt, fun _ => ⟨e, rfl, hcode⟩⟩

/-- Two tuples of 2000 bytes: a third does not fit even after compaction, but either can be replaced. -/
def twoLargeTuples : List Op := [.insert (List.replicate 2000 1), .insert (List.replicate 2000 2)]

theorem space_decisions_are_exact_twoLargeTuples :
    ∃ as b, (do init; Refine.run (perform ⟨false, Region.zero⟩) twoLargeTuples : PageM _) Region.zero =
        some (.ok as, b) ∧
      (∃ o b', update ⟨false, Region.zero⟩ 1 (List.replicate 2000 3) b = some (.ok o, b') ∧ o ≠ .doesNotFit) ∧
      ∃ e b', (do compact ⟨false, Region.zero⟩; insert ⟨false, Region.zero⟩ (List.replicate 2000 3) : PageM _) b =
        some (.error e, b') ∧ e.code = .pageFull := by
  have hlayout : ((do init; Refine.run (perform ⟨false, Region.zero⟩) twoLargeTuples : PageM _) Region.zero).all
      (fun r => (slots r.2, (header r.2).slotCount) == ([⟨2064, 2000⟩, ⟨64, 2000⟩], 2)) = true := by
    decide +kernel
  obtain ⟨as, b, hrun, hupdate, hinsert⟩ := space_decisions_are_exact ⟨false, Region.zero⟩ Region.zero twoLargeTuples
  rw [hrun] at hlayout
  obtain ⟨hslots, hcount⟩ := Prod.mk.inj (beq_iff_eq.mp hlayout)
  obtain ⟨o, b', hu, hfits⟩ := hupdate 1 ⟨64, 2000⟩ (List.replicate 2000 3) (by rw [hslots]; rfl) (by decide)
    (by decide +kernel) (by decide +kernel)
  obtain ⟨r, b'', hi, hfull⟩ := hinsert (List.replicate 2000 3) (by decide +kernel) (by decide +kernel)
  rw [hslots, hcount] at hfits hfull
  obtain ⟨e, rfl, he⟩ := hfull.mpr (by decide +kernel)
  exact ⟨as, b, hrun, ⟨o, b', hu, fun ho => absurd (hfits.mp ho) (by decide +kernel)⟩, e, b'', hi, he⟩

/-! What `CheckInvariants` lets through. -/

def liveSlots (b : Body) : List Slot := (slots b).filter fun s => ¬s.isDead

/-- What the checker is meant to exclude: every byte of the tuple region belongs to exactly one live tuple
or to nobody, and `dead_bytes` bytes belong to nobody. -/
structure NoOverlap (b : Body) : Prop where
  disjoint : (slots b).Pairwise fun s t => s.isDead ∨ t.isDead ∨ ∀ x, ¬(s.Covers x ∧ t.Covers x)
  owner : ∀ x, (header b).tupleDataStart ≤ x → x < pageBodySize → owners (liveSlots b) x ≤ 1
  nobody : unowned (liveSlots b) (header b).tupleDataStart pageBodySize = (header b).deadBytes

/-- Dead slots of an accepted page have length 0. -/
theorem total_live {es : List Slot} {lo hi : Nat} (h : ∀ e ∈ es, e.Inside lo hi) :
    total (es.filter fun s => ¬Slot.isDead s) = total es := by
  induction es with
  | nil => rfl
  | cons e es ih =>
    obtain ⟨he, hes⟩ := List.forall_mem_cons.mp h
    by_cases hd : Slot.isDead e
    · have hnull : e = {} := he.null ((isDead_iff e).mp hd)
      rw [List.filter_cons_of_neg (by simpa using hd), ih hes, hnull, total, Nat.zero_add]
    · rw [List.filter_cons_of_pos (by simpa using hd), total, ih hes, total]

/-- What an accepted body satisfies: live tuples inside the tuple region, and one sum. -/
theorem accepted_inv (h : checkInvariants b = some true) :
    (∀ s ∈ liveSlots b, (header b).tupleDataStart ≤ s.offset ∧ s.stop ≤ pageBodySize) ∧
      (header b).tupleDataStart + total (liveSlots b) + (header b).deadBytes = pageBodySize := by
  obtain ⟨r, hr, hiff⟩ := checkInvariants_iff b
  rw [h] at hr
  cases hr
  obtain ⟨es, lo, dead, hp⟩ := hiff.mp rfl
  unfold liveSlots
  rw [hp.slots_eq, hp.header, total_live hp.accounts.inside]
  refine ⟨fun s hs => ?_, hp.accounts.sum⟩
  obtain ⟨hmem, hlive⟩ := List.mem_filter.mp hs
  exact (hp.accounts.inside s hmem).live fun hn => by simp [(isDead_iff s).mpr hn] at hlive

theorem pairwise_of_liveSlots (h : (liveSlots b).Pairwise fun s t => ∀ x, ¬(s.Covers x ∧ t.Covers x)) :
    (slots b).Pairwise fun s t => s.isDead ∨ t.isDead ∨ ∀ x, ¬(s.Covers x ∧ t.Covers x) := by
  apply (List.pairwise_filter.mp h).imp
  intro s t hst
  by_cases hs : s.isDead
  · exact .inl hs
  by_cases ht : t.isDead
  · exact .inr (.inl ht)
  · exact .inr (.inr (hst (by simpa using hs) (by simpa using ht)))

/-- An accepted body has no overlap exactly when its `dead_bytes` is not less than the bytes that no live
slot covers. -/
theorem accepted_noOverlap_iff (b : Body) (h : checkInvariants b = some true) :
    NoOverlap b ↔ unowned (liveSlots b) (header b).tupleDataStart pageBodySize ≤ (header b).deadBytes := by
  obtain ⟨hin, hsum⟩ := accepted_inv h
  constructor
  · intro hno
    exact Nat.le_of_eq hno.nobody
  · intro hle
    have hone := (owners_le_one_iff hin).mpr (by omega)
    have hcount := total_add_unowned hin
    have howner : ∀ x, owners (liveSlots b) x ≤ 1 := by
      intro x
      by_cases hx : x ∈ Finset.Ico (header b).tupleDataStart pageBodySize
      · exact hone x hx
      · -- nothing outside the tuple region is covered
        have hzero : owners (liveSlots b) x = 0 := by
          apply List.countP_eq_zero.mpr
          intro s hs hcov
          have hcov' : s.Covers x := by simpa using hcov
          have hs' := hin s hs
          exact hx (Finset.mem_Ico.mpr ⟨hs'.1.trans hcov'.1, hcov'.2.trans_le hs'.2⟩)
        omega
    refine ⟨pairwise_of_liveSlots (pairwise_of_owners _ howner), fun x _ _ => howner x, ?_⟩
    omega

/-- Two slots on the same ten bytes, in a tuple region of thirty of which ten are called dead. -/
def overlapping : Body :=
  ((Region.zero.write 0 (HeapSubHeader.writeTo ⟨2, 4034, 2, 10⟩)).write 8 (Slot.writeTo ⟨4034, 10⟩)).write 12
    (Slot.writeTo ⟨4034, 10⟩)

theorem accepted_overlapping : checkInvariants overlapping = some true ∧
    slots overlapping = [⟨4034, 10⟩, ⟨4034, 10⟩] ∧ ¬NoOverlap overlapping := by
  have hcheck : checkInvariants overlapping = some true := by decide +kernel
  have hslots : slots overlapping = [⟨4034, 10⟩, ⟨4034, 10⟩] := by decide +kernel
  refine ⟨hcheck, hslots, fun hno => ?_⟩
  have howner := hno.owner 4034 (by decide +kernel) (by decide)
  revert howner
  unfold liveSlots
  rw [hslots]
  decide

/-- The body of `overlapping` with the second slot moved off the first. -/
theorem accepted_noOverlap_iff_moved :
    let b := overlapping.write 12 (Slot.writeTo ⟨4050, 10⟩)
    checkInvariants b = some true ∧ NoOverlap b := by
  intro b
  have hcheck : checkInvariants b = some true := by decide +kernel
  exact ⟨hcheck, (accepted_noOverlap_iff b hcheck).mpr (by decide +kernel)⟩

end HeapPage
end KernSql

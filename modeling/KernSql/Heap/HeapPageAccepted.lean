import KernSql.Heap.HeapPageSpace
import KernSql.Index.CheckNodes

/- Pages of unknown origin.

   The checkers are run on bodies that may hold anything, and a heap page that its
   checker accepts need not be one the operations made: live slots may be empty
   or share bytes. `Checked` repeats the operations with every 16-bit sum,
   difference and conversion guarded: a run in which one would wrap is `none`.
   Where the guarded operation comes to an end the operation of the code ends
   the same way (`…_extends`), and on every accepted body the guarded one does
   come to an end (`wp_…`): nothing leaves the body, no assertion fails, nothing
   wraps, and the body is accepted again. -/
namespace KernSql
open Bytes Directory Exec ConstHeapPage

namespace HeapPage

namespace Checked

/-- A conversion to `uint16_t` that changes nothing. -/
def narrow (n : Nat) : PageM Nat := do
  check (n < 65536)
  pure n

def plus (a b : Nat) : PageM Nat := narrow (a + b)

def minus (a b : Nat) : PageM Nat := do
  check (b ≤ a ∧ a < 65536)
  pure (a - b)

/-- The slot count once `slot` is in use. -/
def slotCountAfter (count slot : Nat) : PageM Nat := if slot = count then plus count 1 else pure count

def insert (build : Build) (tuple : List UInt8) : PageM SlotId := do
  if tuple = [] then fail ⟨.invalidArgument, "cannot insert a zero-length tuple"⟩
  if maxTupleSize < tuple.length then fail ⟨.invalidArgument, "tuple exceeds the maximum tuple size"⟩
  let b ← Exec.get
  let h := header b
  let (slotId, required) ← lift (chooseSlot b tuple.length)
  let free ← lift (contiguous build b)
  if free < required then fail ⟨.pageFull, "not enough contiguous space for the tuple"⟩
  let length ← narrow tuple.length
  let offset ← minus h.tupleDataStart length
  copyIn offset tuple
  writeSlot slotId ⟨offset, length⟩
  let liveCount ← plus h.liveCount 1
  let slotCount ← slotCountAfter h.slotCount slotId
  writeHeader { h with
    tupleDataStart := offset
    liveCount := liveCount
    slotCount := slotCount }
  assertInvariants build
  check (slotId < 65536)
  pure (UInt16.ofNat slotId)

/-- The header of a page that loses one tuple. -/
def kill (h : HeapSubHeader) (slot : Slot) : PageM HeapSubHeader := do
  let deadBytes ← plus h.deadBytes slot.length
  let liveCount ← minus h.liveCount 1
  pure { h with deadBytes := deadBytes, liveCount := liveCount }

def delete (build : Build) (slotId : SlotId) : PageM Unit := do
  let b ← Exec.get
  match ← lift (ConstHeapPage.get build b slotId) with
  | .error e => fail e
  | .ok _ =>
    let slot ← lift (slotAt b slotId.toNat)
    let h ← kill (header b) slot
    writeHeader h
    writeSlot slotId.toNat {}
    assertInvariants build

def compactSlots : (left i : Nat) → Body → Nat → PageM (Body × Nat)
  | 0, _, scratch, cursor => pure (scratch, cursor)
  | left + 1, i, scratch, cursor => do
    let b ← Exec.get
    let slot ← lift (slotAt b i)
    if slot.isDead then compactSlots left (i + 1) scratch cursor
    else
      check (slot.length ≤ cursor)
      let cursor := cursor - slot.length
      let bytes ← lift (b.read? slot.offset slot.length)
      let scratch ← lift (scratch.write? cursor bytes)
      let offset ← narrow cursor
      writeSlot i ⟨offset, slot.length⟩
      compactSlots left (i + 1) scratch cursor

def compact (build : Build) : PageM Unit := do
  let b ← Exec.get
  let h := header b
  if h.deadBytes = 0 then return
  let freedFrom := h.tupleDataStart
  let (scratch, cursor) ← compactSlots h.slotCount 0 build.scratch pageBodySize
  let packed ← lift (scratch.read? cursor (pageBodySize - cursor))
  copyIn cursor packed
  let start ← narrow cursor
  writeHeader { h with tupleDataStart := start, deadBytes := 0 }
  if build.debug then
    check (freedFrom ≤ cursor)
    copyIn freedFrom (List.replicate (cursor - freedFrom) 0xDD)
  assertInvariants build

def updateInPlace (slotId : Nat) (slot : Slot) (tuple : List UInt8) (newLength : Nat) : PageM Unit := do
  let b ← Exec.get
  let h := header b
  copyIn slot.offset (tuple.take newLength)
  check (newLength ≤ slot.length)
  let deadBytes ← plus h.deadBytes (slot.length - newLength)
  writeHeader { h with deadBytes := deadBytes }
  writeSlot slotId { slot with length := newLength }

def updateAtStart (slotId : Nat) (slot : Slot) (tuple : List UInt8) (newLength : Nat) : PageM Unit := do
  let b ← Exec.get
  let h := header b
  let start ← minus h.tupleDataStart newLength
  copyIn start (tuple.take newLength)
  let deadBytes ← plus h.deadBytes slot.length
  writeHeader { h with deadBytes := deadBytes, tupleDataStart := start }
  writeSlot slotId ⟨start, newLength⟩

def updateCompacting (build : Build) (slotId : Nat) (slot : Slot) (tuple : List UInt8) (newLength : Nat) :
    PageM Unit := do
  let b ← Exec.get
  let h ← kill (header b) slot
  writeHeader h
  writeSlot slotId {}
  compact build
  let b ← Exec.get
  let h := header b
  let start ← minus h.tupleDataStart newLength
  copyIn start (tuple.take newLength)
  let liveCount ← plus h.liveCount 1
  writeHeader { h with tupleDataStart := start, liveCount := liveCount }
  writeSlot slotId ⟨start, newLength⟩

def update (build : Build) (slotId : SlotId) (tuple : List UInt8) : PageM UpdateOutcome := do
  if tuple = [] then fail ⟨.invalidArgument, "cannot update to a zero-length tuple"⟩
  if maxTupleSize < tuple.length then fail ⟨.invalidArgument, "tuple exceeds the maximum tuple size"⟩
  let b ← Exec.get
  match ← lift (ConstHeapPage.get build b slotId) with
  | .error e => fail e
  | .ok _ =>
    let slot ← lift (slotAt b slotId.toNat)
    let free ← lift (contiguous build b)
    let newLength ← narrow tuple.length
    let outcome : UpdateOutcome ←
      if newLength ≤ slot.length then do
        updateInPlace slotId.toNat slot tuple newLength
        pure .samePage
      else if newLength ≤ free then do
        updateAtStart slotId.toNat slot tuple newLength
        pure .samePage
      else if newLength ≤ free + (header b).deadBytes + slot.length then do
        updateCompacting build slotId.toNat slot tuple newLength
        pure .samePage
      else pure .doesNotFit
    assertInvariants build
    pure outcome

/-! Where the guarded operations come to an end, the operations do the same. -/
section Extension
variable {n a c : Nat} {build : Build}

theorem narrow_extends : Extends (narrow n) (pure (u16 n)) :=
  .check_bind fun h => .of_eq (by rw [u16_of_lt h])

theorem minus_extends : Extends (minus a c) (pure (u16Sub a c)) :=
  .check_bind fun h => .of_eq (by rw [u16Sub_of_le h.1 h.2])

theorem kill_extends {h : HeapSubHeader} {slot : Slot} : Extends (kill h slot)
    (pure { h with deadBytes := u16 (h.deadBytes + slot.length), liveCount := u16Sub h.liveCount 1 }) :=
  .pure_bind narrow_extends (.pure_bind minus_extends (.refl _))

theorem slotCountAfter_extends (count i : Nat) :
    Extends (slotCountAfter count i) (pure (if i = count then u16 (count + 1) else count)) := by
  unfold slotCountAfter
  by_cases hi : i = count
  · rw [if_pos hi, if_pos hi]
    exact narrow_extends
  · rw [if_neg hi, if_neg hi]
    exact .refl _

theorem insert_extends (t : List UInt8) : Extends (insert build t) (HeapPage.insert build t) := by
  unfold insert HeapPage.insert
  dsimp only
  refine .ite (.refl _) (.ite (.refl _) (.bind (.refl _) fun b => .bind (.refl _) fun chosen => ?_))
  refine .bind (.refl _) fun free => .ite (.refl _) ?_
  refine .pure_bind narrow_extends (.pure_bind minus_extends ?_)
  refine .bind (.refl _) fun _ => .bind (.refl _) fun _ => .pure_bind narrow_extends ?_
  refine .pure_bind (slotCountAfter_extends _ _) (.bind (.refl _) fun _ => .bind (.refl _) fun _ => ?_)
  exact .check_bind fun _ => .refl _

theorem delete_extends (k : SlotId) : Extends (delete build k) (HeapPage.delete build k) := by
  refine .bind (.refl _) fun b => .bind (.refl _) fun found => ?_
  cases found with
  | error e => exact .refl _
  | ok bytes => exact .bind (.refl _) fun slot => .pure_bind kill_extends (.refl _)

theorem compactSlots_extends (left : Nat) : ∀ (i : Nat) (scratch : Body) (cursor : Nat),
    Extends (compactSlots left i scratch cursor) (HeapPage.compactSlots left i scratch cursor) := by
  induction left with
  | zero =>
    intro i scratch cursor
    exact .refl _
  | succ left ih =>
    intro i scratch cursor
    refine .bind (.refl _) fun b => .bind (.refl _) fun slot => .ite (ih _ _ _) (.bind (.refl _) fun _ => ?_)
    refine .bind (.refl _) fun bytes => .bind (.refl _) fun scratch => .pure_bind narrow_extends ?_
    exact .bind (.refl _) fun _ => ih _ _ _

theorem compact_extends : Extends (compact build) (HeapPage.compact build) := by
  refine .bind (.refl _) fun b => .ite (.refl _) (.bind (compactSlots_extends _ _ _ _) fun packed => ?_)
  exact .bind (.refl _) fun bytes => .bind (.refl _) fun _ => .pure_bind narrow_extends (.refl _)

theorem updateInPlace_extends (i : Nat) (slot : Slot) (t : List UInt8) :
    Extends (updateInPlace i slot t n) (HeapPage.updateInPlace i slot t n) := by
  refine .bind (.refl _) fun b => .bind (.refl _) fun _ => .check_bind fun _ => ?_
  exact .pure_bind narrow_extends (.refl _)

theorem updateAtStart_extends (i : Nat) (slot : Slot) (t : List UInt8) :
    Extends (updateAtStart i slot t n) (HeapPage.updateAtStart i slot t n) := by
  refine .bind (.refl _) fun b => .pure_bind minus_extends (.bind (.refl _) fun _ => ?_)
  exact .pure_bind narrow_extends (.refl _)

theorem updateCompacting_extends (i : Nat) (slot : Slot) (t : List UInt8) :
    Extends (updateCompacting build i slot t n) (HeapPage.updateCompacting build i slot t n) := by
  refine .bind (.refl _) fun b => .pure_bind kill_extends (.bind (.refl _) fun _ => .bind (.refl _) fun _ => ?_)
  refine .bind compact_extends fun _ => .bind (.refl _) fun b => .pure_bind minus_extends (.bind (.refl _) fun _ => ?_)
  exact .pure_bind narrow_extends (.refl _)

theorem update_extends (k : SlotId) (t : List UInt8) : Extends (update build k t) (HeapPage.update build k t) := by
  unfold update HeapPage.update
  dsimp only
  refine .ite (.refl _) (.ite (.refl _) (.bind (.refl _) fun b => .bind (.refl _) fun found => ?_))
  cases found with
  | error e => exact .refl _
  | ok bytes =>
    refine .bind (.refl _) fun slot => .bind (.refl _) fun free => .pure_bind narrow_extends ?_
    refine .ite (.bind (updateInPlace_extends _ _ _) fun _ => .refl _) ?_
    refine .ite (.bind (updateAtStart_extends _ _ _) fun _ => .refl _) ?_
    exact .ite (.bind (updateCompacting_extends _ _ _) fun _ => .refl _) (.refl _)

end Extension

/-! On an accepted body the guarded operations come to an end. -/
section Accepts
variable {build : Build} {b : Body} {es : List Slot} {lo dead n a c i : Nat} {t : List UInt8} {E : Status → Body → Prop}

/-- The checker accepts the body. -/
def Accepted (b : Body) : Prop := ∃ es lo dead, Passes b es lo dead

theorem wp_narrow {Q : Nat → Body → Prop} : wp (narrow n) Q E b ↔ n < 65536 ∧ Q n b := by
  unfold narrow
  rw [wp_bind, wp_check, wp_pure]

theorem wp_minus {Q : Nat → Body → Prop} : wp (minus a c) Q E b ↔ (c ≤ a ∧ a < 65536) ∧ Q (a - c) b := by
  unfold minus
  rw [wp_bind, wp_check, wp_pure]

/-- Killing a live tuple moves its bytes from the live to the dead, and the live are at least one. -/
theorem wp_kill (h : Passes b es lo dead) (hi : i < es.length) (hlive : ¬es[i].IsNull) {b' : Body}
    {Q : HeapSubHeader → Body → Prop} (hQ : Q ⟨es.length, lo, live es - 1, dead + es[i].length⟩ b') :
    wp (kill (header b) es[i]) Q E b' := by
  have hpos := live_pos hi hlive
  have hle : live es ≤ es.length := List.countP_le_length
  have hlen := h.length_le
  have hsum := (h.accounts.kill hi).sum
  simp only [pageBodySize] at hsum
  unfold kill plus
  rw [h.header, wp_bind, wp_narrow]
  refine ⟨by simp only; omega, ?_⟩
  rw [wp_bind, wp_minus]
  exact ⟨⟨hpos, by simp only; omega⟩, hQ⟩

theorem wp_slotCountAfter {count : Nat} (hcount : count ≤ 1014) {Q : Nat → Body → Prop}
    (hQ : Q (if i = count then count + 1 else count) b) : wp (slotCountAfter count i) Q E b := by
  unfold slotCountAfter plus
  rw [wp_ite]
  constructor
  · intro hi
    rw [wp_narrow]
    rw [if_pos hi] at hQ
    exact ⟨by omega, hQ⟩
  · intro hi
    rw [if_neg hi] at hQ
    exact hQ

/-- The page after `Insert` put `t` below the tuples, under a dead slot or a new one. -/
theorem accepted_insert (h : Passes b es lo dead) (hroom : slotArrayEnd (i + 1) ≤ lo - t.length)
    (hroom' : slotArrayEnd es.length ≤ lo - t.length) (hlt : t.length < lo)
    (hcases : (∃ hi : i < es.length, es[i].IsNull) ∨ i = es.length) :
    Accepted (((b.write (lo - t.length) t).write (slotOffset i) (Slot.writeTo ⟨lo - t.length, t.length⟩)).write 0
      (HeapSubHeader.writeTo ⟨if i = es.length then es.length + 1 else es.length, lo - t.length, live es + 1, dead⟩)) := by
  have hslots : HasSlots (b.write (lo - t.length) t) es := h.slots.write h.array_le (.inl hroom')
  have hin := h.accounts.inside_below hlt
  have hnew : ¬Extent.IsNull ⟨lo - t.length, t.length⟩ := by unfold Extent.IsNull; simp only; omega
  rcases hcases with ⟨hi, hnull⟩ | rfl
  · have hset := live_set es i hi ⟨lo - t.length, t.length⟩
    rw [if_pos hnull, if_neg hnew, Nat.add_zero] at hset
    have hzero : es[i].length = 0 := by rw [(h.accounts.get_inside hi).null hnull]
    have ha : Accounts (es.set i ⟨lo - t.length, t.length⟩) (lo - t.length) pageBodySize dead :=
      h.accounts.set hi (by omega) hin (by simp only; omega)
    refine ⟨_, _, _, passes_set hslots hi hroom' ha ?_⟩
    rw [if_neg (by omega), hset]
  · have hone : live [⟨lo - t.length, t.length⟩] = 1 := by rw [live_cons, if_neg hnew]; rfl
    refine ⟨_, _, _, passes_append hslots hroom (h.accounts.append (by omega) hin (by simp only; omega)) ?_⟩
    rw [if_pos rfl, live_append, hone]

theorem wp_insert (h : Passes b es lo dead) (t : List UInt8) :
    wp (insert build t) (fun _ b' => Accepted b') (fun _ b' => b' = b) b := by
  unfold insert
  dsimp only
  rw [wp_ite]
  refine ⟨fun _ => (wp_bind _ _).mpr rfl, fun h0 => ?_⟩
  rw [wp_ite]
  refine ⟨fun _ => (wp_bind _ _).mpr rfl, fun hbig => ?_⟩
  rw [wp_bind, wp_get]
  obtain ⟨i, r, hchoose, hcases⟩ := chooseSlot_spec h t.length
  rw [wp_bind, wp_lift]
  refine ⟨(i, r), hchoose, ?_⟩
  rw [wp_bind, wp_lift]
  refine ⟨_, h.contiguous_eq build, ?_⟩
  rw [wp_ite]
  refine ⟨fun _ => (wp_bind _ _).mpr rfl, fun hfits => ?_⟩
  have hlo := h.le_body
  have hcount := h.length_le
  have hpos : 0 < t.length := List.length_pos_iff.mpr h0
  have hlive : live es ≤ es.length := List.countP_le_length
  simp only [maxTupleSize] at hbig
  simp only [pageBodySize] at hlo
  -- whichever slot was chosen, the slot array ends below the new tuple
  have hbound : slotArrayEnd (i + 1) ≤ lo - t.length ∧ slotArrayEnd es.length ≤ lo - t.length ∧ t.length < lo := by
    simp only [slotArrayEnd, heapSubHeaderSize, slotSize] at hfits hcases ⊢
    rcases hcases with ⟨_, _, hreq⟩ | ⟨_, hreq, _⟩ <;> omega
  obtain ⟨hroom, hroom', hlt⟩ := hbound
  have hi : i ≤ es.length := by rcases hcases with ⟨hi, _⟩ | ⟨hi, _⟩ <;> omega
  have hslot : (∃ hi : i < es.length, es[i].IsNull) ∨ i = es.length := by
    rcases hcases with ⟨hi, hnull, _⟩ | ⟨hi, _⟩
    · exact .inl ⟨hi, hnull⟩
    · exact .inr hi
  obtain ⟨es', lo', dead', hp⟩ := accepted_insert h hroom hroom' hlt hslot
  simp only [h.header]
  rw [wp_bind, wp_narrow]
  refine ⟨by omega, ?_⟩
  rw [wp_bind, wp_minus]
  refine ⟨⟨by omega, by omega⟩, ?_⟩
  rw [wp_bind, wp_copyIn (by simp only [pageBodySize]; omega), wp_bind,
    wp_writeSlot (by simp only [pageBodySize]; omega), wp_bind]
  unfold plus
  rw [wp_narrow]
  refine ⟨by omega, ?_⟩
  rw [wp_bind]
  apply wp_slotCountAfter hcount
  unfold writeHeader
  rw [wp_bind, wp_modify, wp_bind]
  apply wp_assertInvariants hp
  rw [wp_bind, wp_check]
  exact ⟨by omega, es', lo', dead', hp⟩

theorem wp_delete (h : Passes b es lo dead) (k : SlotId) :
    wp (delete build k) (fun _ b' => Accepted b') (fun _ b' => b' = b) b := by
  unfold delete
  rw [wp_bind, wp_get, wp_bind, wp_lift]
  refine ⟨_, h.get_eq build k, ?_⟩
  cases hfind : find b es k.toNat with
  | none => exact rfl
  | some bytes =>
    obtain ⟨hi, hlive⟩ := live_of_find hfind
    dsimp only
    rw [wp_bind, wp_lift]
    refine ⟨_, h.slots.slotAt h.array_le hi, ?_⟩
    rw [wp_bind]
    apply wp_kill h hi hlive
    unfold writeHeader
    rw [wp_bind, wp_modify, wp_bind, wp_writeSlot ((slot_end_le h hi).trans h.le_body)]
    have hp := passes_kill h hi hlive rfl
    exact wp_assertInvariants hp ⟨_, _, _, hp⟩

/-- The loop over the slots `fs` after `pre` packs them below the cursor. -/
theorem wp_compactSlots : ∀ (fs pre : List Slot) (b scratch : Body) (cursor : Nat), HasSlots b (pre ++ fs) →
    slotArrayEnd (pre ++ fs).length ≤ pageBodySize → (∀ e ∈ fs, e.Inside lo pageBodySize) → total fs < cursor →
    cursor ≤ pageBodySize →
    wp (compactSlots fs.length pre.length scratch cursor)
      (fun r b' => r.2 = cursor - total fs ∧ HasSlots b' (pre ++ pack cursor fs)) (fun _ _ => False) b := by
  intro fs
  induction fs with
  | nil =>
    intro pre b scratch cursor hs _ _ _ _
    exact ⟨rfl, hs⟩
  | cons e fs ih =>
    intro pre b scratch cursor hs hroom hin hlt hcur
    have hsplit : ∀ (x : Slot) xs, pre ++ x :: xs = (pre ++ [x]) ++ xs := fun x xs => by simp
    have hi : pre.length < (pre ++ e :: fs).length := by simp
    have hat : slotAt b pre.length = some e := by
      rw [hs.slotAt hroom hi, List.getElem_append_right (Nat.le_refl _)]
      simp
    obtain ⟨he, hin'⟩ := List.forall_mem_cons.mp hin
    simp only [total] at hlt ⊢
    simp only [List.length_cons, compactSlots]
    rw [wp_bind, wp_get, wp_bind, wp_lift]
    refine ⟨e, hat, ?_⟩
    rw [wp_ite]
    constructor
    · intro hd
      have hn := (isDead_iff e).mp hd
      have hrec := ih (pre ++ [e]) b scratch cursor (hsplit e fs ▸ hs) (hsplit e fs ▸ hroom) hin' (by omega) hcur
      rw [List.length_append, List.length_singleton, ← hsplit] at hrec
      rw [pack, if_pos hn, he.null hn, Nat.zero_add]
      rwa [he.null hn] at hrec
    · intro hd
      have hn : ¬e.IsNull := fun hn => hd ((isDead_iff e).mpr hn)
      have hstop := (he.live hn).2
      unfold Extent.stop at hstop
      have hend : slotArrayEnd (pre.length + 1) ≤ pageBodySize := by
        simp only [slotArrayEnd, List.length_append, List.length_cons, heapSubHeaderSize, slotSize] at hroom ⊢
        omega
      rw [wp_bind, wp_check]
      refine ⟨by omega, ?_⟩
      rw [wp_bind, wp_lift]
      refine ⟨_, Region.read?_eq hstop, ?_⟩
      rw [wp_bind, wp_lift]
      refine ⟨_, Region.write?_eq (by rw [Region.slice_length]; omega), ?_⟩
      rw [wp_bind, wp_narrow]
      refine ⟨by simp only [pageBodySize] at hcur; omega, ?_⟩
      rw [wp_bind, wp_writeSlot hend]
      have hset : (pre ++ e :: fs).set pre.length ⟨cursor - e.length, e.length⟩ =
          (pre ++ [⟨cursor - e.length, e.length⟩]) ++ fs := by
        rw [List.set_append_right _ _ (Nat.le_refl _)]
        simp
      have hs' := hs.set hroom hi (s := ⟨cursor - e.length, e.length⟩)
        (by simp only [pageBodySize] at hcur ⊢; omega) (by simp only [pageBodySize] at hcur ⊢; omega)
      rw [hset] at hs'
      have hrec := ih (pre ++ [⟨cursor - e.length, e.length⟩]) _
        (scratch.write (cursor - e.length) (b.slice e.offset e.length)) (cursor - e.length) hs'
        (by simpa using hroom) hin' (by omega) (by omega)
      rw [List.length_append, List.length_singleton, ← hsplit] at hrec
      rwa [pack, if_neg hn, Nat.sub_add_eq]

/-- `Compact` leaves every slot as dead or as live as it was, and no dead byte. -/
theorem wp_compact (h : Passes b es lo dead) : wp (compact build)
    (fun _ b' => ∃ es', Passes b' es' (pageBodySize - total es) 0 ∧ es'.length = es.length ∧
      ∀ (i : Nat) (hi : i < es.length) (hi' : i < es'.length), es[i].IsNull → es'[i].IsNull) (fun _ _ => False) b := by
  have hsum := h.accounts.sum
  have hroom := h.room
  unfold compact
  rw [wp_bind, wp_get, h.header]
  dsimp only
  rw [wp_ite]
  constructor
  · intro hzero
    have hlo : pageBodySize - total es = lo := by omega
    rw [hzero] at h
    exact ⟨es, hlo ▸ h, rfl, fun _ _ _ hn => hn⟩
  · intro _
    have hpos : 0 < lo := by simp only [slotArrayEnd, heapSubHeaderSize] at hroom; omega
    have hkeep : ∀ (i : Nat) (hi : i < es.length) (hi' : i < (pack pageBodySize es).length), es[i].IsNull →
        (pack pageBodySize es)[i].IsNull := by
      intro i hi hi' hn
      exact (pack_get es pageBodySize i hi hi' (by omega)).2.mpr hn
    have hloop := wp_compactSlots es [] b build.scratch pageBodySize h.slots h.array_le h.accounts.inside
      (by omega) (Nat.le_refl _)
    apply wp_call hloop
    · intro r b₁ hr
      obtain ⟨scratch, cursor⟩ := r
      obtain ⟨hcur, hs⟩ := hr
      dsimp only at hcur ⊢
      subst hcur
      rw [wp_bind, wp_lift]
      refine ⟨_, Region.read?_eq (by omega), ?_⟩
      rw [wp_bind, wp_copyIn (by rw [Region.slice_length]; omega), wp_bind, wp_narrow]
      refine ⟨by simp only [pageBodySize]; omega, ?_⟩
      rw [wp_bind]
      unfold writeHeader
      rw [wp_modify, wp_ite]
      constructor
      · intro _
        rw [wp_bind, wp_check]
        refine ⟨by omega, ?_⟩
        have hp := passes_compact h hs (scratch.slice (pageBodySize - total es) (pageBodySize - (pageBodySize - total es)))
          (List.replicate (pageBodySize - total es - lo) 0xDD) rfl
        rw [wp_bind, wp_copyIn (by rw [List.length_replicate]; omega)]
        exact wp_assertInvariants hp ⟨_, hp, pack_length _ _, hkeep⟩
      · intro _
        have hp := passes_compact h hs (scratch.slice (pageBodySize - total es) (pageBodySize - (pageBodySize - total es)))
          [] rfl
        rw [Region.write_nil] at hp
        exact wp_assertInvariants hp ⟨_, hp, pack_length _ _, hkeep⟩
    · intro _ _ hf
      exact hf.elim

theorem wp_updateInPlace (h : Passes b es lo dead) (hi : i < es.length) (hlive : ¬es[i].IsNull)
    (hle : t.length ≤ es[i].length) :
    wp (updateInPlace i es[i] t t.length) (fun _ b' => Accepted b') (fun _ _ => False) b := by
  obtain ⟨hlo, hstop⟩ := (h.accounts.get_inside hi).live hlive
  have hin : Extent.Inside lo pageBodySize ⟨es[i].offset, t.length⟩ := by
    refine .inr ⟨hlive, hlo, ?_⟩
    unfold Extent.stop at hstop ⊢
    simp only
    omega
  unfold Extent.stop at hstop
  have ha : Accounts (es.set i ⟨es[i].offset, t.length⟩) lo pageBodySize (dead + (es[i].length - t.length)) :=
    h.accounts.set hi le_rfl hin (by simp only; omega)
  have hset := live_set es i hi ⟨es[i].offset, t.length⟩
  rw [if_neg hlive, if_neg (by exact hlive)] at hset
  have hcount : live es = live (es.set i ⟨es[i].offset, t.length⟩) := by omega
  have hsum := ha.sum
  simp only [pageBodySize] at hsum
  unfold updateInPlace plus
  rw [wp_bind, wp_get, h.header, List.take_length]
  dsimp only
  rw [wp_bind, wp_copyIn (by omega), wp_bind, wp_check]
  refine ⟨hle, ?_⟩
  rw [wp_bind, wp_narrow]
  refine ⟨by omega, ?_⟩
  unfold writeHeader
  rw [wp_bind, wp_modify, wp_writeSlot ((slot_end_le h hi).trans h.le_body), write_header_slot]
  have hslots : HasSlots (b.write es[i].offset t) es := h.slots.write h.array_le (.inl (h.room.trans hlo))
  rw [hcount]
  exact ⟨_, _, _, passes_set hslots hi h.room ha rfl⟩

/-- The page after `Update` put `t` below the tuples under the slot `i`, whose old bytes are dead. -/
theorem accepted_place (h : Passes b es lo dead) (hi : i < es.length) {dead' live' : Nat}
    (hroom : slotArrayEnd es.length ≤ lo - t.length) (hdead : dead' = dead + es[i].length)
    (hlive : live' + (if es[i].IsNull then 0 else 1) = live es + 1) :
    Accepted (((b.write (lo - t.length) t).write 0
      (HeapSubHeader.writeTo ⟨es.length, lo - t.length, live', dead'⟩)).write (slotOffset i)
      (Slot.writeTo ⟨lo - t.length, t.length⟩)) := by
  have hlt : t.length < lo := by
    simp only [slotArrayEnd, heapSubHeaderSize] at hroom
    omega
  have hnew : ¬Extent.IsNull ⟨lo - t.length, t.length⟩ := by unfold Extent.IsNull; simp only; omega
  have hset := live_set es i hi ⟨lo - t.length, t.length⟩
  rw [if_neg hnew] at hset
  have hslots : HasSlots (b.write (lo - t.length) t) es := h.slots.write h.array_le (.inl hroom)
  have ha : Accounts (es.set i ⟨lo - t.length, t.length⟩) (lo - t.length) pageBodySize dead' :=
    h.accounts.set hi (Nat.sub_le _ _) (h.accounts.inside_below hlt) (by simp only; omega)
  rw [write_header_slot]
  refine ⟨_, _, _, passes_set hslots hi hroom ha ?_⟩
  congr 1
  omega

theorem wp_updateAtStart (h : Passes b es lo dead) (hi : i < es.length) (hlive : ¬es[i].IsNull) (ht : t ≠ [])
    (hfits : t.length ≤ lo - slotArrayEnd es.length) :
    wp (updateAtStart i es[i] t t.length) (fun _ b' => Accepted b') (fun _ _ => False) b := by
  have hpos : 0 < t.length := List.length_pos_iff.mpr ht
  have hroom : slotArrayEnd es.length ≤ lo - t.length := by omega
  have hlo := h.le_body
  have hsum := (h.accounts.kill hi).sum
  simp only [pageBodySize] at hsum
  unfold updateAtStart plus
  rw [wp_bind, wp_get, h.header, List.take_length]
  dsimp only
  rw [wp_bind, wp_minus]
  refine ⟨⟨by omega, by omega⟩, ?_⟩
  rw [wp_bind, wp_copyIn (by omega), wp_bind, wp_narrow]
  refine ⟨by omega, ?_⟩
  unfold writeHeader
  rw [wp_bind, wp_modify, wp_writeSlot ((slot_end_le h hi).trans hlo)]
  exact accepted_place h hi hroom rfl (by rw [if_neg hlive])

theorem wp_updateCompacting (h : Passes b es lo dead) (hi : i < es.length) (hlive : ¬es[i].IsNull) (ht : t ≠ [])
    (hfits : t.length ≤ lo - slotArrayEnd es.length + dead + es[i].length) :
    wp (updateCompacting build i es[i] t t.length) (fun _ b' => Accepted b') (fun _ _ => False) b := by
  have hpos : 0 < t.length := List.length_pos_iff.mpr ht
  unfold updateCompacting plus
  rw [wp_bind, wp_get, List.take_length, wp_bind]
  apply wp_kill h hi hlive
  unfold writeHeader
  rw [wp_bind, wp_modify, wp_bind, wp_writeSlot ((slot_end_le h hi).trans h.le_body)]
  have hkill := passes_kill h hi hlive rfl
  apply wp_call (wp_compact hkill)
  · intro _ b₁ hc
    obtain ⟨es', hp, hlen, hkeep⟩ := hc
    have hi₀ : i < (es.set i {}).length := by rwa [List.length_set]
    have hi' : i < es'.length := by rwa [hlen]
    have hnull : es'[i].IsNull := by
      apply hkeep i hi₀ hi'
      rw [List.getElem_set_self]
      exact Extent.isNull_empty
    have hzero : es'[i].length = 0 := by rw [(hp.accounts.get_inside hi').null hnull]
    -- the room after compaction, by the accounting of the killed directory
    have hsum := hkill.accounts.sum
    have hroom := h.room
    have hlive' : live es' ≤ es'.length := List.countP_le_length
    have hcount := hp.length_le
    rw [List.length_set] at hlen
    have hroom' : slotArrayEnd es'.length ≤ pageBodySize - total (es.set i {}) - t.length := by
      rw [hlen]; omega
    have hbelow : t.length < pageBodySize - total (es.set i {}) := by
      simp only [slotArrayEnd, heapSubHeaderSize] at hroom'
      omega
    rw [wp_bind, wp_get, hp.header]
    dsimp only
    rw [wp_bind, wp_minus]
    refine ⟨⟨by omega, by simp only [pageBodySize]; omega⟩, ?_⟩
    rw [wp_bind, wp_copyIn (by omega), wp_bind, wp_narrow]
    refine ⟨by omega, ?_⟩
    rw [wp_bind, wp_modify, wp_writeSlot ((slot_end_le hp hi').trans hp.le_body)]
    exact accepted_place hp hi' hroom' (by omega) (by rw [if_pos hnull])
  · intro _ _ hf
    exact hf.elim

theorem wp_update (h : Passes b es lo dead) (k : SlotId) (t : List UInt8) :
    wp (update build k t) (fun _ b' => Accepted b') (fun _ b' => b' = b) b := by
  unfold update
  dsimp only
  rw [wp_ite]
  refine ⟨fun _ => (wp_bind _ _).mpr rfl, fun h0 => ?_⟩
  rw [wp_ite]
  refine ⟨fun _ => (wp_bind _ _).mpr rfl, fun hbig => ?_⟩
  rw [wp_bind, wp_get, wp_bind, wp_lift]
  refine ⟨_, h.get_eq build k, ?_⟩
  cases hfind : find b es k.toNat with
  | none => exact rfl
  | some bytes =>
    obtain ⟨hi, hlive⟩ := live_of_find hfind
    have hdone : ∀ (outcome : UpdateOutcome) (b' : Body), Accepted b' →
        wp (do assertInvariants build; pure outcome) (fun _ b' => Accepted b') (fun _ b' => b' = b) b' := by
      rintro outcome b' ⟨es', lo', dead', hp⟩
      rw [wp_bind]
      exact wp_assertInvariants hp ⟨es', lo', dead', hp⟩
    dsimp only
    rw [wp_bind, wp_lift]
    refine ⟨_, h.slots.slotAt h.array_le hi, ?_⟩
    rw [wp_bind, wp_lift]
    refine ⟨_, h.contiguous_eq build, ?_⟩
    rw [h.header, wp_bind, wp_narrow]
    refine ⟨by simp only [maxTupleSize] at hbig; omega, ?_⟩
    dsimp only
    rw [wp_ite]
    refine ⟨fun hle => ?_, fun _ => ?_⟩
    · exact wp_call (wp_updateInPlace h hi hlive hle) (fun _ b' hr => hdone _ b' hr) (fun _ _ hf => hf.elim)
    rw [wp_ite]
    refine ⟨fun hle => ?_, fun _ => ?_⟩
    · exact wp_call (wp_updateAtStart h hi hlive h0 hle) (fun _ b' hr => hdone _ b' hr) (fun _ _ hf => hf.elim)
    rw [wp_ite]
    refine ⟨fun hle => ?_, fun _ => ?_⟩
    · exact wp_call (wp_updateCompacting h hi hlive h0 hle) (fun _ b' hr => hdone _ b' hr) (fun _ _ hf => hf.elim)
    · exact hdone _ b ⟨es, lo, dead, h⟩

end Accepts
end Checked

open Checked

/-- The operation ends on this body, with nothing that wraps on the way, and leaves an accepted body. -/
def Harmless {α : Type} (guarded op : PageM α) (b : Body) : Prop :=
  ∃ r b', guarded b = some (r, b') ∧ op b = some (r, b') ∧ checkInvariants b' = some true

theorem harmless_of_wp {α : Type} {guarded op : PageM α} {b : Body} (hext : Extends guarded op) (hb : Accepted b)
    (h : wp guarded (fun _ b' => Accepted b') (fun _ b' => b' = b) b) : Harmless guarded op b := by
  have hcheck : ∀ b' : Body, Accepted b' → checkInvariants b' = some true := by
    rintro b' ⟨es, lo, dead, hp⟩
    exact hp.checkInvariants_eq
  rcases wp_run h with ⟨a, b', hrun, hb'⟩ | ⟨e, b', hrun, rfl⟩
  · exact ⟨_, b', hrun, hext _ _ hrun, hcheck b' hb'⟩
  · exact ⟨_, b', hrun, hext _ _ hrun, hcheck b' hb⟩

/-- The three checkers answer for every body. On a body the heap checker accepts, whatever it holds besides, every
operation stays inside the body, in both builds and with no sum, difference or conversion that wraps, and leaves a
body that the checker accepts. -/
theorem checkers_stay_inside :
    (∀ b : Body, (∃ r, ConstHeapPage.checkInvariants b = some r) ∧ (∃ r, LeafNode.checkInvariants b = some r) ∧
      ∃ r, InternalNode.checkInvariants b = some r) ∧
    ∀ (build : Build) (b : Body), ConstHeapPage.checkInvariants b = some true →
      (∀ k, ∃ r, ConstHeapPage.get build b k = some r) ∧
      (∀ k, Harmless (Checked.delete build k) (HeapPage.delete build k) b) ∧
      (∀ t, Harmless (Checked.insert build t) (HeapPage.insert build t) b) ∧
      (∀ k t, Harmless (Checked.update build k t) (HeapPage.update build k t) b) ∧
      Harmless (Checked.compact build) (HeapPage.compact build) b := by
  refine ⟨fun b => ⟨?_, ?_, ?_⟩, fun build b hb => ?_⟩
  · obtain ⟨r, hr, -⟩ := checkInvariants_iff b
    exact ⟨r, hr⟩
  · obtain ⟨r, hr, -⟩ := checkInvariants_leaf_inv b
    exact ⟨r, hr⟩
  · obtain ⟨r, hr, -⟩ := checkInvariants_internal_inv b
    exact ⟨r, hr⟩
  · obtain ⟨r, hr, hiff⟩ := checkInvariants_iff b
    rw [hb] at hr
    cases hr
    have hacc : Accepted b := hiff.mp rfl
    obtain ⟨es, lo, dead, hp⟩ := id hacc
    refine ⟨fun k => ⟨_, hp.get_eq build k⟩, fun k => ?_, fun t => ?_, fun k t => ?_, ?_⟩
    · exact harmless_of_wp (delete_extends k) hacc (Checked.wp_delete hp k)
    · exact harmless_of_wp (insert_extends t) hacc (Checked.wp_insert hp t)
    · exact harmless_of_wp (update_extends k t) hacc (Checked.wp_update hp k t)
    · refine harmless_of_wp compact_extends hacc (wp_mono (Checked.wp_compact hp) ?_ fun _ _ hf => hf.elim)
      rintro _ b' ⟨es', hp', -⟩
      exact ⟨es', _, _, hp'⟩

/-- A page with two slots on the same ten bytes is accepted, and compacting it keeps it so. -/
theorem checkers_stay_inside_overlapping :
    checkInvariants overlapping = some true ∧ ∃ r b', HeapPage.compact ⟨true, Region.zero⟩ overlapping = some (r, b') ∧
      checkInvariants b' = some true := by
  have hcheck : checkInvariants overlapping = some true := by decide +kernel
  obtain ⟨r, b', -, hrun, hb'⟩ := (checkers_stay_inside.2 ⟨true, Region.zero⟩ overlapping hcheck).2.2.2.2
  exact ⟨hcheck, r, b', hrun, hb'⟩

end HeapPage
end KernSql

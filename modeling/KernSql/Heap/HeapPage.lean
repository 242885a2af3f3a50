import KernSql.Lib.Exec
import KernSql.Lib.Directory
import KernSql.Common.Types

/- Slotted heap pages (src/heap/heap_page.hpp and .cpp).

   A heap page is a 4064-byte body: an 8-byte sub-header, a forward-growing array
   of 4-byte slots, and tuples growing backward from the end. The operations
   compute on the bytes. The four sub-header fields and the two slot fields are
   `uint16_t`: sums and differences are cut to 16 bits where the code stores
   them. A run is `none` when it leaves the body, when an unsigned count would wrap
   and then be used as an address, or when an assertion that is compiled in fails.

   Two things are decided by how the program was built and where it runs: whether
   assertions and the poisoning of freed bytes are compiled in, and what an
   uninitialised buffer holds. `Build` carries both. -/
namespace KernSql
open Bytes

structure Build where
  /-- `NDEBUG` is not defined. -/
  debug : Bool
  /-- What `Compact`'s scratch buffer holds before it is written. -/
  scratch : Body

/-- `assert`. -/
def asserted (build : Build) (c : Prop) [Decidable c] : Option Unit :=
  if build.debug then require c else some ()

theorem asserted_pos {build : Build} {c : Prop} [Decidable c] (h : c) : asserted build c = some () := by
  unfold asserted
  rw [require_pos h]
  exact ite_self _

def heapSubHeaderSize : Nat := 8
def slotSize : Nat := 4
def maxTupleSize : Nat := 2000

/-- `static_cast<uint16_t>(a - b)` for two `uint16_t`. -/
def u16Sub (a b : Nat) : Nat := u16 (a + 65536 - b)

theorem u16Sub_of_le {a b : Nat} (h : b ≤ a) (ha : a < 65536) : u16Sub a b = a - b := by
  unfold u16Sub u16; omega

structure HeapSubHeader where
  slotCount : Nat := 0
  tupleDataStart : Nat := u16 pageBodySize
  liveCount : Nat := 0
  deadBytes : Nat := 0
  deriving DecidableEq, Repr

def HeapSubHeader.readFrom (bs : List UInt8) : HeapSubHeader where
  slotCount := leNat (bs.take 2)
  tupleDataStart := leNat ((bs.drop 2).take 2)
  liveCount := leNat ((bs.drop 4).take 2)
  deadBytes := leNat ((bs.drop 6).take 2)

def HeapSubHeader.writeTo (h : HeapSubHeader) : List UInt8 :=
  leBytes 2 h.slotCount ++ leBytes 2 h.tupleDataStart ++ leBytes 2 h.liveCount ++ leBytes 2 h.deadBytes

/-- A slot directory entry; offset 0 means dead. -/
abbrev Slot := Directory.Extent

namespace Slot

def isDead (s : Slot) : Bool := s.offset = 0

def readFrom (bs : List UInt8) : Slot := ⟨leNat (bs.take 2), leNat ((bs.drop 2).take 2)⟩

def writeTo (s : Slot) : List UInt8 := leBytes 2 s.offset ++ leBytes 2 s.length

end Slot

inductive UpdateOutcome where
  | samePage | doesNotFit
  deriving DecidableEq, Repr

/-- Body offset of a slot entry. -/
def slotOffset (slot : Nat) : Nat := heapSubHeaderSize + slot * slotSize

/-- Body offset just past `n` slot entries. -/
def slotArrayEnd (n : Nat) : Nat := heapSubHeaderSize + n * slotSize

/-! Reading a page (`ConstHeapPage`). -/
namespace ConstHeapPage
variable (build : Build)

def header (b : Body) : HeapSubHeader := HeapSubHeader.readFrom (b.slice 0 heapSubHeaderSize)

def slotAt (b : Body) (slot : Nat) : Option Slot := do
  let bytes ← b.read? (slotOffset slot) slotSize
  pure (Slot.readFrom bytes)

/-- `Contiguous`: asserted in debug, 0 in release, when the slots run into the tuples. -/
def contiguous (b : Body) : Option Nat := do
  let h := header b
  asserted build (slotArrayEnd h.slotCount ≤ h.tupleDataStart)
  if h.tupleDataStart < slotArrayEnd h.slotCount then return 0
  return h.tupleDataStart - slotArrayEnd h.slotCount

def reclaimable (b : Body) : Option Nat := do
  let free ← contiguous build b
  pure (free + (header b).deadBytes)

def get (b : Body) (slotId : SlotId) : Option (Except Status (List UInt8)) := do
  if (header b).slotCount ≤ slotId.toNat then return .error ⟨.notFound, "slot doesn't exist"⟩
  let slot ← slotAt b slotId.toNat
  if slot.isDead then return .error ⟨.notFound, "slot is dead"⟩
  let tupleEnd := slot.offset + slot.length
  asserted build (tupleEnd ≤ pageBodySize)
  if tupleEnd ≤ pageBodySize then
    let bytes ← b.read? slot.offset slot.length
    return .ok bytes
  return .error ⟨.corruption, "tuple not accessible"⟩

/-- The slot loop of `CheckInvariants` with its two counters; an inner `none` is a slot that fails. -/
def checkSlots (b : Body) (tupleDataStart : Nat) : (left i liveSlots liveBytes : Nat) → Option (Option (Nat × Nat))
  | 0, _, liveSlots, liveBytes => some (some (liveSlots, liveBytes))
  | left + 1, i, liveSlots, liveBytes => do
    let s ← slotAt b i
    if s.isDead then
      if s.length ≠ 0 then return none
      checkSlots b tupleDataStart left (i + 1) liveSlots liveBytes
    else if s.offset < tupleDataStart then return none
    else if pageBodySize < s.offset + s.length then return none
    else checkSlots b tupleDataStart left (i + 1) (liveSlots + 1) (liveBytes + s.length)

def checkInvariants (b : Body) : Option Bool := do
  let h := header b
  if pageBodySize < h.tupleDataStart then return false
  if h.tupleDataStart < slotArrayEnd h.slotCount then return false
  match ← checkSlots b h.tupleDataStart h.slotCount 0 0 0 with
  | none => return false
  | some (liveSlots, liveBytes) =>
    if liveSlots ≠ h.liveCount then return false
    if h.tupleDataStart + liveBytes + h.deadBytes ≠ pageBodySize then return false
    return true

/-- The first dead slot among `left` slots from `i`. -/
def findDead (b : Body) : (left i : Nat) → Option (Option Nat)
  | 0, _ => some none
  | left + 1, i => do
    let s ← slotAt b i
    if s.isDead then return some i
    findDead b left (i + 1)

end ConstHeapPage

/-! Changing a page (`HeapPage`). -/
namespace HeapPage
open Exec ConstHeapPage

/-- A computation on a page body. -/
abbrev PageM := Exec Body Status

def writeHeader (h : HeapSubHeader) : PageM Unit := modify fun b => b.write 0 h.writeTo

/-- `memcpy` into the body. -/
def copyIn (off : Nat) (bs : List UInt8) : PageM Unit := fun b =>
  (b.write? off bs).map fun b' => (.ok (), b')

def writeSlot (slot : Nat) (entry : Slot) : PageM Unit := copyIn (slotOffset slot) entry.writeTo

/-- `assert(CheckInvariants())`. -/
def assertInvariants (build : Build) : PageM Unit := do
  let b ← Exec.get
  if build.debug then
    let ok ← lift (checkInvariants b)
    check (ok = true)

def init : PageM Unit := writeHeader {}

/-- The slot a new tuple gets and the contiguous bytes it needs: a dead slot, or a new one that
pays for its entry. -/
def chooseSlot (b : Body) (size : Nat) : Option (Nat × Nat) := do
  let h := header b
  if h.liveCount < h.slotCount then
    match ← findDead b h.slotCount 0 with
    | some i => return (i, size)
    | none => return (h.slotCount, size + slotSize)
  return (h.slotCount, size + slotSize)

def insert (build : Build) (tuple : List UInt8) : PageM SlotId := do
  if tuple = [] then fail ⟨.invalidArgument, "cannot insert a zero-length tuple"⟩
  if maxTupleSize < tuple.length then fail ⟨.invalidArgument, "tuple exceeds the maximum tuple size"⟩
  let b ← Exec.get
  let h := header b
  let (slotId, required) ← lift (chooseSlot b tuple.length)
  let free ← lift (contiguous build b)
  if free < required then fail ⟨.pageFull, "not enough contiguous space for the tuple"⟩
  let length := u16 tuple.length
  let offset := u16Sub h.tupleDataStart length
  copyIn offset tuple
  writeSlot slotId ⟨offset, length⟩
  -- deadBytes is not reduced: a reused slot gives back its entry, not the dead tuple's bytes
  writeHeader { h with
    tupleDataStart := offset
    liveCount := u16 (h.liveCount + 1)
    slotCount := if slotId = h.slotCount then u16 (h.slotCount + 1) else h.slotCount }
  assertInvariants build
  pure (UInt16.ofNat slotId)

def delete (build : Build) (slotId : SlotId) : PageM Unit := do
  let b ← Exec.get
  match ← lift (ConstHeapPage.get build b slotId) with
  | .error e => fail e
  | .ok _ =>
    let slot ← lift (slotAt b slotId.toNat)
    let h := header b
    writeHeader { h with deadBytes := u16 (h.deadBytes + slot.length), liveCount := u16Sub h.liveCount 1 }
    writeSlot slotId.toNat {}
    assertInvariants build

/-- The loop of `Compact`: move each live tuple of `left` slots from `i` to the scratch buffer, just
below the cursor, and its slot with it. -/
def compactSlots : (left i : Nat) → Body → Nat → PageM (Body × Nat)
  | 0, _, scratch, cursor => pure (scratch, cursor)
  | left + 1, i, scratch, cursor => do
    let b ← Exec.get
    let slot ← lift (slotAt b i)
    if slot.isDead then compactSlots left (i + 1) scratch cursor
    else
      -- cursor is a size_t: below zero it would be an address outside the buffer
      check (slot.length ≤ cursor)
      let cursor := cursor - slot.length
      let bytes ← lift (b.read? slot.offset slot.length)
      let scratch ← lift (scratch.write? cursor bytes)
      writeSlot i ⟨u16 cursor, slot.length⟩
      compactSlots left (i + 1) scratch cursor

def compact (build : Build) : PageM Unit := do
  let b ← Exec.get
  let h := header b
  if h.deadBytes = 0 then return
  let freedFrom := h.tupleDataStart
  let (scratch, cursor) ← compactSlots h.slotCount 0 build.scratch pageBodySize
  let packed ← lift (scratch.read? cursor (pageBodySize - cursor))
  copyIn cursor packed
  writeHeader { h with tupleDataStart := u16 cursor, deadBytes := 0 }
  if build.debug then
    check (freedFrom ≤ cursor)
    copyIn freedFrom (List.replicate (cursor - freedFrom) 0xDD)
  assertInvariants build

/-- Case 1 of `Update`: overwrite in place. -/
def updateInPlace (slotId : Nat) (slot : Slot) (tuple : List UInt8) (newLength : Nat) : PageM Unit := do
  let b ← Exec.get
  let h := header b
  copyIn slot.offset (tuple.take newLength)
  writeHeader { h with deadBytes := u16 (h.deadBytes + (slot.length - newLength)) }
  writeSlot slotId { slot with length := newLength }

/-- Case 2, fast path: relocate to the low-water mark. -/
def updateAtStart (slotId : Nat) (slot : Slot) (tuple : List UInt8) (newLength : Nat) : PageM Unit := do
  let b ← Exec.get
  let h := header b
  let start := u16Sub h.tupleDataStart newLength
  copyIn start (tuple.take newLength)
  writeHeader { h with deadBytes := u16 (h.deadBytes + slot.length), tupleDataStart := start }
  writeSlot slotId ⟨start, newLength⟩

/-- Case 2, slow path: kill the old tuple, compact, and place the new one under the same slot. -/
def updateCompacting (build : Build) (slotId : Nat) (slot : Slot) (tuple : List UInt8) (newLength : Nat) :
    PageM Unit := do
  let b ← Exec.get
  let h := header b
  writeHeader { h with deadBytes := u16 (h.deadBytes + slot.length), liveCount := u16Sub h.liveCount 1 }
  writeSlot slotId {}
  compact build
  let b ← Exec.get
  let h := header b
  let start := u16Sub h.tupleDataStart newLength
  copyIn start (tuple.take newLength)
  writeHeader { h with tupleDataStart := start, liveCount := u16 (h.liveCount + 1) }
  writeSlot slotId ⟨start, newLength⟩

def update (build : Build) (slotId : SlotId) (tuple : List UInt8) : PageM UpdateOutcome := do
  if tuple = [] then fail ⟨.invalidArgument, "cannot update to a zero-length tuple"⟩
  if maxTupleSize < tuple.length then fail ⟨.invalidArgument, "tuple exceeds the maximum tuple size"⟩
  let b ← Exec.get
  match ← lift (ConstHeapPage.get build b slotId) with
  | .error e => fail e
  | .ok _ =>
    let slot ← lift (slotAt b slotId.toNat)
    let free ← lift (contiguous build b)
    let newLength := u16 tuple.length
    let outcome : UpdateOutcome ←
      if newLength ≤ slot.length then do
        updateInPlace slotId.toNat slot tuple newLength
        pure .samePage
      else if newLength ≤ free then do
        updateAtStart slotId.toNat slot tuple newLength
        pure .samePage
      else if newLength ≤ free + (header b).deadBytes + slot.length then do
        updateCompacting build slotId.toNat slot tuple newLength
        pure .samePage
      else pure .doesNotFit
    assertInvariants build
    pure outcome

end HeapPage
end KernSql

import KernSql.Lib.Exec
import KernSql.Lib.Search
import KernSql.Common.Types

/- B+tree node pages (src/indices/b_plus_tree_page.hpp and .cpp): the byte
   layout, the two views and their operations.

   A node is a 4064-byte body: an 8-byte sub-header and an array of 16-byte
   entries. Every operation here computes on the bytes, as the code does: shifts
   are a read and a write of a byte range, fields are little-endian slices. An
   operation is partial. It is `none` when an assertion of the code fails or when
   an access leaves the body.

   Leaf and internal nodes differ in their entry and in two preconditions, so
   the shared code is written once over any `NodeEntry` (namespace `Node`) and
   each view applies it to its own entry and bound. -/
namespace KernSql
open Bytes

def nodeSubHeaderSize : Nat := 8
def nodeEntrySize : Nat := 16
def nodeCapacity : Nat := 253
def minFanout : Nat := 3

/-- Body offset of entry `index`. -/
def nodeEntryOffset (index : Nat) : Nat := nodeSubHeaderSize + index * nodeEntrySize

def leafMinEntries (leafMax : Nat) : Nat := u16 (leafMax / 2)
def internalMinChildren (internalMax : Nat) : Nat := u16 ((internalMax + 1) / 2)

structure NodeSubHeader where
  level : Nat := 0
  count : Nat := 0
  nextPageId : PageId := invalidPage
  deriving DecidableEq, Repr

def NodeSubHeader.readFrom (bs : List UInt8) : NodeSubHeader where
  level := leNat (bs.take 2)
  count := leNat ((bs.drop 2).take 2)
  nextPageId := pageIdOf ((bs.drop 4).take 4)

def NodeSubHeader.writeTo (h : NodeSubHeader) : List UInt8 :=
  leBytes 2 h.level ++ leBytes 2 h.count ++ pageIdBytes h.nextPageId

/-- A fixed-width entry of a node. -/
class NodeEntry (E : Type) where
  readFrom : List UInt8 → E
  writeTo : E → List UInt8
  length_writeTo : ∀ e, (writeTo e).length = nodeEntrySize
  readFrom_writeTo : ∀ e, readFrom (writeTo e) = e

structure LeafEntry where
  key : Key
  rid : RID
  deriving DecidableEq, Repr

structure InternalEntry where
  key : Key
  child : PageId
  reserved : UInt32 := 0
  deriving DecidableEq, Repr

/-- Key at 0, page id at 8, slot at 12; the two padding bytes are written as zero
and not read. -/
instance : NodeEntry LeafEntry where
  readFrom bs :=
    ⟨keyOf (bs.take 8), pageIdOf ((bs.drop 8).take 4), UInt16.ofNat (leNat ((bs.drop 12).take 2))⟩
  writeTo e := keyBytes e.key ++ pageIdBytes e.rid.pageId ++ leBytes 2 e.rid.slot.toNat ++ [0, 0]
  length_writeTo e := by simp [keyBytes, pageIdBytes, nodeEntrySize]
  readFrom_writeTo e := by
    have h8 : (keyBytes e.key).length = 8 := by simp [keyBytes]
    have h4 : (pageIdBytes e.rid.pageId).length = 4 := by simp [pageIdBytes]
    have h2 : leNat (leBytes 2 e.rid.slot.toNat) = e.rid.slot.toNat :=
      leNat_leBytes_of_lt e.rid.slot.toNat_lt
    have hk : (keyBytes e.key ++ (pageIdBytes e.rid.pageId ++ leBytes 2 e.rid.slot.toNat ++ [0, 0])).take 8
        = keyBytes e.key := List.take_left' h8
    have hp := field_eq (c := leBytes 2 e.rid.slot.toNat ++ [0, 0]) h8 h4
    have hs := field_eq (a := keyBytes e.key ++ pageIdBytes e.rid.pageId) (b := leBytes 2 e.rid.slot.toNat)
      (c := [0, 0]) (i := 12) (w := 2) (by simp [h8, h4]) (by simp)
    simp only [List.append_assoc] at hk hp hs ⊢
    rw [hk, hp, hs, h2, keyOf_bytes, pageIdOf_bytes]
    simp

/-- Key at 0, child at 8, the reserved word at 12. -/
instance : NodeEntry InternalEntry where
  readFrom bs :=
    ⟨keyOf (bs.take 8), pageIdOf ((bs.drop 8).take 4), UInt32.ofNat (leNat ((bs.drop 12).take 4))⟩
  writeTo e := keyBytes e.key ++ pageIdBytes e.child ++ leBytes 4 e.reserved.toNat
  length_writeTo e := by simp [keyBytes, pageIdBytes, nodeEntrySize]
  readFrom_writeTo e := by
    have h8 : (keyBytes e.key).length = 8 := by simp [keyBytes]
    have h4 : (pageIdBytes e.child).length = 4 := by simp [pageIdBytes]
    have h2 : leNat (leBytes 4 e.reserved.toNat) = e.reserved.toNat :=
      leNat_leBytes_of_lt e.reserved.toNat_lt
    have hk : (keyBytes e.key ++ (pageIdBytes e.child ++ leBytes 4 e.reserved.toNat)).take 8
        = keyBytes e.key := List.take_left' h8
    have hp := field_eq (c := leBytes 4 e.reserved.toNat) h8 h4
    have hs := field_eq (a := keyBytes e.key ++ pageIdBytes e.child) (b := leBytes 4 e.reserved.toNat)
      (c := []) (i := 12) (w := 4) (by simp [h8, h4]) (by simp)
    simp only [List.append_assoc, List.append_nil] at hk hp hs ⊢
    rw [hk, hp, hs, h2, keyOf_bytes, pageIdOf_bytes]
    simp

/-! What the two views share. -/
namespace Node
variable {E : Type} [NodeEntry E]

def header (b : Body) : NodeSubHeader := NodeSubHeader.readFrom (b.slice 0 nodeSubHeaderSize)

def count (b : Body) : Nat := (header b).count

def writeHeader (b : Body) (h : NodeSubHeader) : Body := b.write 0 h.writeTo

/-- `EntryAt`. Both bounds are asserted: the count comes from the page itself. -/
def entryAt (E : Type) [NodeEntry E] (b : Body) (index : Nat) : Option E := do
  require (index < count b)
  require (index < nodeCapacity)
  let bytes ← b.read? (nodeEntryOffset index) nodeEntrySize
  pure (NodeEntry.readFrom bytes)

/-- Entries `[first, first + n)` copied out, one `EntryAt` each. -/
def entriesFrom (E : Type) [NodeEntry E] (b : Body) : Nat → Nat → Option (List E)
  | _, 0 => some []
  | first, n + 1 => do
    let e ← entryAt E b first
    let es ← entriesFrom E b (first + 1) n
    pure (e :: es)

def writeEntry (b : Body) (index : Nat) (e : E) : Option Body :=
  b.write? (nodeEntryOffset index) (NodeEntry.writeTo e)

/-- `InsertAt`, with `lowest` the smallest index the view accepts. -/
def insertAt (lowest : Nat) (b : Body) (index : Nat) (e : E) : Option Body := do
  let n := count b
  require (n < nodeCapacity)
  require (lowest ≤ index)
  require (index ≤ n)
  let moved ← b.read? (nodeEntryOffset index) ((n - index) * nodeEntrySize)
  let b ← b.write? (nodeEntryOffset (u16 (index + 1))) moved
  let b ← writeEntry b index e
  let h := header b
  pure (writeHeader b { h with count := u16 (h.count + 1) })

/-- `RemoveAt`: shift the tail left and zero the vacated last slot. -/
def removeAt (lowest : Nat) (b : Body) (index : Nat) : Option Body := do
  let n := count b
  require (n ≤ nodeCapacity)
  require (lowest ≤ index)
  require (index < n)
  let moved ← b.read? (nodeEntryOffset (u16 (index + 1))) ((n - index - 1) * nodeEntrySize)
  let b ← b.write? (nodeEntryOffset index) moved
  let b ← b.write? (nodeEntryOffset (u16 (n - 1))) (List.replicate nodeEntrySize 0)
  let h := header b
  -- count-- on a uint16_t
  pure (writeHeader b { h with count := u16 (h.count + 65535) })

def writeEntries (b : Body) : Nat → List E → Option Body
  | _, [] => some b
  | index, e :: es => do
    let b ← writeEntry b (u16 index) e
    writeEntries b (index + 1) es

/-- The body of `Assign` after its assertions: write the entries, zero every slot
past them up to capacity, set the count. -/
def assignEntries (b : Body) (entries : List E) : Option Body := do
  let b ← writeEntries b 0 entries
  let tail := nodeEntryOffset (u16 entries.length)
  let b ← b.write? tail (List.replicate (nodeEntryOffset nodeCapacity - tail) 0)
  let h := header b
  pure (writeHeader b { h with count := u16 entries.length })

end Node

/-! Leaf nodes (`ConstLeafNode`, `LeafNode`). -/
namespace LeafNode

def header (b : Body) : NodeSubHeader := Node.header b
def count (b : Body) : Nat := (header b).count
def entryAt (b : Body) (index : Nat) : Option LeafEntry := Node.entryAt LeafEntry b index
def keyAt (b : Body) (index : Nat) : Option Key := (entryAt b index).map (·.key)
def nextLeaf (b : Body) : PageId := (header b).nextPageId

/-- First index whose key is `≥ key`, or `count` if there is none. -/
def lowerBound (b : Body) (key : Key) : Option Nat :=
  Search.bsearch 65536 (fun mid => (keyAt b mid).map fun k => decide (k < key))
    (count b + 1) 0 (count b)

/-- The entry loop of `CheckInvariants`, `left` entries from index `i`. -/
def checkEntries (b : Body) : Nat → Nat → Option Bool
  | 0, _ => some true
  | left + 1, i => do
    let entry ← entryAt b i
    if !entry.rid.isValid then return false
    if 0 < i then
      let prev ← keyAt b (u16 (i - 1))
      if entry.key ≤ prev then return false
    checkEntries b left (i + 1)

/-- `CheckInvariants` of a leaf. -/
def checkInvariants (b : Body) : Option Bool :=
  let h := header b
  if nodeCapacity < h.count then some false
  else if h.level ≠ 0 then some false
  else if h.nextPageId ≠ invalidPage ∧ h.nextPageId ≤ catalogRootPageId then some false
  else checkEntries b h.count 0

def init (b : Body) : Body := Node.writeHeader b ⟨0, 0, invalidPage⟩

def setNextLeaf (b : Body) (next : PageId) : Body :=
  Node.writeHeader b { header b with nextPageId := next }

def insertAt (b : Body) (index : Nat) (e : LeafEntry) : Option Body := Node.insertAt 0 b index e
def removeAt (b : Body) (index : Nat) : Option Body := Node.removeAt 0 b index

def assign (b : Body) (entries : List LeafEntry) : Option Body := do
  require (entries.length ≤ nodeCapacity)
  Node.assignEntries b entries

end LeafNode

/-! Internal nodes (`ConstInternalNode`, `InternalNode`). -/
namespace InternalNode

def header (b : Body) : NodeSubHeader := Node.header b
def count (b : Body) : Nat := (header b).count
def level (b : Body) : Nat := (header b).level
def entryAt (b : Body) (index : Nat) : Option InternalEntry := Node.entryAt InternalEntry b index
def childAt (b : Body) (index : Nat) : Option PageId := (entryAt b index).map (·.child)

/-- Separator `index`; index 0 is not a separator. -/
def keyAt (b : Body) (index : Nat) : Option Key := do
  require (1 ≤ index)
  require (index < count b)
  (entryAt b index).map (·.key)

/-- Which child to descend into: an upper bound over `entry[1 ..]`, minus one. -/
def childIndexFor (b : Body) (key : Key) : Option Nat :=
  (Search.bsearch 65536 (fun mid => (keyAt b mid).map fun k => decide (k ≤ key))
    (count b + 1) 1 (count b)).map (· - 1)

/-- The entry loop of `CheckInvariants`; `prev` is the last separator seen. -/
def checkEntries (b : Body) : Nat → Nat → Key → Option Bool
  | 0, _, _ => some true
  | left + 1, i, prev => do
    let entry ← entryAt b i
    if entry.child = invalidPage ∨ entry.child ≤ catalogRootPageId then return false
    if i = 0 then
      if entry.key ≠ int64Min then return false
      checkEntries b left (i + 1) prev
    else
      if entry.key ≤ prev then return false
      checkEntries b left (i + 1) entry.key

/-- `CheckInvariants` of an internal node. -/
def checkInvariants (b : Body) : Option Bool :=
  let h := header b
  if nodeCapacity < h.count then some false
  else if h.level < 1 then some false
  else if h.nextPageId ≠ invalidPage then some false
  else checkEntries b h.count 0 int64Min

def init (b : Body) (level : Nat) : Option Body := do
  require (1 ≤ level)
  pure (Node.writeHeader b ⟨level, 0, invalidPage⟩)

def insertAt (b : Body) (index : Nat) (e : InternalEntry) : Option Body :=
  Node.insertAt 1 b index e

def removeAt (b : Body) (index : Nat) : Option Body := Node.removeAt 1 b index

def setKeyAt (b : Body) (index : Nat) (key : Key) : Option Body := do
  require (1 ≤ index)
  require (index < count b)
  let entry ← entryAt b index
  Node.writeEntry b index { entry with key := key }

/-- Entry 0 goes in with its key replaced by `INT64_MIN`. -/
def canonical : List InternalEntry → List InternalEntry
  | [] => []
  | first :: rest => { first with key := int64Min } :: rest

def assign (b : Body) (entries : List InternalEntry) : Option Body := do
  require (1 ≤ entries.length)
  require (entries.length ≤ nodeCapacity)
  Node.assignEntries b (canonical entries)

end InternalNode
end KernSql

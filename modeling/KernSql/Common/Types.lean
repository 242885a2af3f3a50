import Mathlib
import KernSql.Lib.Bytes

/- The types every layer shares (src/common/types.hpp, page_header.hpp,
   status.hpp).

   Fixed-width integers keep their width: a page id is an `Int32`, an index key
   an `Int64`, a slot id a `UInt16`. Counts and offsets are `Nat`, and are cut
   to 16 bits where the code stores them (`u16`).

   A page is its decoded header and its 4064-byte body. Header and body are
   separate in the code too: a guard hands out the body as bytes and the header
   only by value or through one setter a field. -/
namespace KernSql
open Bytes

/-- `page_id_t`. -/
abbrev PageId := Int32

/-- `index_key_t`. -/
abbrev Key := Int64

/-- `slot_id_t`. -/
abbrev SlotId := UInt16

def invalidPage : PageId := -1
def metaPageId : PageId := 0
def catalogRootPageId : PageId := 1

abbrev pageBodySize : Nat := 4064

/-- The part of a page a guard hands out as bytes. -/
abbrev Body := Region pageBodySize

/-- `static_cast<uint16_t>`. -/
def u16 (n : Nat) : Nat := n % 65536

theorem u16_of_lt {n : Nat} (h : n < 65536) : u16 n = n := Nat.mod_eq_of_lt h

structure RID where
  pageId : PageId
  slot : SlotId
  deriving DecidableEq, Repr

def RID.isValid (r : RID) : Bool := r.pageId ≠ invalidPage

/-- `PageType`. A byte that names no enumerator compares unequal to all of them;
`unknown` stands for every such byte. -/
inductive PageType where
  | invalid | metaPage | indexInternal | indexLeaf | heap | allocated | free | catalog | indexHeader
  | unknown
  deriving DecidableEq, Repr

structure PageHeader where
  pageType : PageType := .free
  flags : UInt8 := 0
  formatVersion : UInt16 := 1
  pageId : PageId := invalidPage
  nextPageId : PageId := invalidPage
  prevPageId : PageId := invalidPage
  pageLsn : UInt64 := 0
  checksum : UInt32 := 0
  reserved : UInt32 := 0
  deriving DecidableEq, Repr

structure Page where
  header : PageHeader
  body : Body

inductive ErrorCode where
  | notFound | corruption | ioError | invalidArgument | bufferPoolFull | pageFull | duplicateKey
  | serializationConflict | internal
  deriving DecidableEq, Repr

/-- A `Status` that is not OK; OK is the value of the result. -/
structure Status where
  code : ErrorCode
  message : String
  deriving DecidableEq, Repr

/-! Keys are linearly ordered by their integer value. -/

instance keyLinearOrder : LinearOrder Int64 where
  le_refl a := Int64.le_refl a
  le_trans _ _ _ := Int64.le_trans
  lt_iff_le_not_ge a b := by rw [Int64.not_le]; exact ⟨fun h => ⟨Int64.le_of_lt h, h⟩, fun h => h.2⟩
  le_antisymm _ _ := Int64.le_antisymm
  le_total := Int64.le_total
  toDecidableLE := inferInstance
  toDecidableLT := inferInstance
  toDecidableEq := inferInstance

/-- `INT64_MIN`. -/
def int64Min : Key := Int64.minValue

theorem int64Min_le (k : Key) : int64Min ≤ k := Int64.minValue_le k

/-! Fixed-width integers as bytes. -/

def pageIdBytes (p : PageId) : List UInt8 := leBytes 4 p.toBitVec.toNat
def pageIdOf (bs : List UInt8) : PageId := Int32.ofBitVec (BitVec.ofNat 32 (leNat bs))

theorem pageIdOf_bytes (p : PageId) : pageIdOf (pageIdBytes p) = p := by
  unfold pageIdOf pageIdBytes
  rw [leNat_leBytes_of_lt (by simpa using p.toBitVec.isLt)]
  simp

def keyBytes (k : Key) : List UInt8 := leBytes 8 k.toBitVec.toNat
def keyOf (bs : List UInt8) : Key := Int64.ofBitVec (BitVec.ofNat 64 (leNat bs))

theorem keyOf_bytes (k : Key) : keyOf (keyBytes k) = k := by
  unfold keyOf keyBytes
  rw [leNat_leBytes_of_lt (by simpa using k.toBitVec.isLt)]
  simp

end KernSql

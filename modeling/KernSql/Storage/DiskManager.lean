import KernSql.Lib.Exec
import KernSql.Common.Types

/- The disk manager (src/storage/disk_manager.cpp, .hpp).

   The state is the file, whole pages from 0 up to `fileEnd`, and the fields of
   the open manager. Every raw system call is counted, and `env` decides what
   becomes of it: it is done, it fails and has no effect, or it is done and the
   process stops right after it. A call that stops takes no part in what follows:
   the interrupt goes past every handler and only the file is left.

   `page_count_` is an `int32_t`; extending a file of 2^31 - 1 pages would
   overflow it, which is a run gone wrong. A file holds whole pages only, so the
   size check of `Open` has nothing to find and is left out. -/
namespace KernSql

/-- What becomes of one system call. -/
inductive Fate where
  | done
  | failed (reason : String)
  | stopped
  deriving DecidableEq, Repr

/-- How a call ends without a value: with a status, or with the end of the process. -/
inductive Interrupt where
  | status (st : Status)
  | stopped
  deriving DecidableEq, Repr

structure DiskManager where
  /-- The file, page by page. -/
  file : PageId → Page
  /-- The number of pages in the file. -/
  fileEnd : PageId
  pageCount : PageId
  freelistHead : PageId
  /-- System calls made so far. -/
  ios : Nat := 0

/-- The fate of every system call, and the path the file was opened at. -/
structure DiskEnv where
  fate : Nat → Fate
  path : String := ""

abbrev DiskM := Exec DiskManager Interrupt

/-- `pageSize` bytes a page. -/
abbrev pageSize : Nat := 4096

abbrev pageHeaderSize : Nat := 32

/-- 4096 zero bytes, decoded. -/
def zeroPage : Page :=
  ⟨{ pageType := .invalid, formatVersion := 0, pageId := 0, nextPageId := 0, prevPageId := 0 }, Bytes.Region.zero⟩

namespace DiskManager
open Exec

/-- No file yet. -/
def missing : DiskManager where
  file _ := zeroPage
  fileEnd := 0
  pageCount := 0
  freelistHead := invalidPage

def pageOffset (p : PageId) : Int := p.toInt * pageSize

/-- The header `write_page_header` puts on page `p`. -/
def stamped (p : PageId) (h : PageHeader) : PageHeader := { h with pageId := p, formatVersion := 1 }

def metaHeader (head : PageId) : PageHeader := { pageType := .metaPage, nextPageId := head }

def catalogHeader : PageHeader := { pageType := .catalog }

def allocatedHeader : PageHeader := { pageType := .allocated }

def freeHeader (next : PageId) : PageHeader := { pageType := .free, nextPageId := next }

/-- The head page 0 stores. -/
def persistedHead (d : DiskManager) : PageId := (d.file metaPageId).header.nextPageId

def setPage (d : DiskManager) (p : PageId) (pg : Page) : DiskManager :=
  { d with file := Function.update d.file p pg }

/-- The header bytes of page `p` replaced, its body left alone. -/
def setHeader (d : DiskManager) (p : PageId) (h : PageHeader) : DiskManager :=
  d.setPage p { d.file p with header := stamped p h }

/-- Page `p` zeroed, the file grown to hold it. -/
def setEmpty (d : DiskManager) (p : PageId) : DiskManager :=
  { d.setPage p zeroPage with fileEnd := if p < d.fileEnd then d.fileEnd else p + 1 }

def tick (d : DiskManager) : DiskManager := { d with ios := d.ios + 1 }

def validPage (d : DiskManager) (p : PageId) : Bool := 0 ≤ p ∧ p < d.pageCount

def validWriteTarget (d : DiskManager) (p : PageId) : Bool := 0 ≤ p ∧ p ≤ d.pageCount

section Calls
variable (env : DiskEnv)

/-- One system call with the effect it has on the file. -/
def sysCall (effect : DiskManager → DiskManager) (failure : String → Status) : DiskM Unit := fun d =>
  match env.fate d.ios with
  | .done => some (.ok (), effect d.tick)
  | .failed reason => some (.error (.status (failure reason)), d.tick)
  | .stopped => some (.error .stopped, effect d.tick)

def fullWrite (off : Int) (size : Nat) (effect : DiskManager → DiskManager) : DiskM Unit :=
  sysCall env effect fun reason =>
    ⟨.ioError, s!"pwrite at offset {off} failed after 0 of {size} bytes: {reason}"⟩

/-- The page at an offset, or the part of it the caller asks for. -/
def fullRead (p : PageId) (size : Nat) : DiskM Page := do
  let off := pageOffset p
  sysCall env id fun reason => ⟨.ioError, s!"pread at offset {off} failed after 0 of {size} bytes: {reason}"⟩
  let d ← get
  if d.fileEnd ≤ p then
    fail (.status ⟨.corruption, s!"unexpected EOF at offset {off}: wanted {size} bytes, got 0"⟩)
  else pure (d.file p)

def readPageHeader (p : PageId) : DiskM PageHeader := do
  let d ← get
  if !d.validPage p then fail (.status ⟨.invalidArgument, "invalid page"⟩)
  else do
    let pg ← fullRead env p pageHeaderSize
    pure pg.header

def invalidTarget (d : DiskManager) (p : PageId) : Status :=
  let id := p.toInt
  let count := d.pageCount.toInt
  ⟨.invalidArgument, s!"invalid page id {id} for write, page id <= {count}"⟩

/-- A header write past the end of the file would leave part of a page: it never happens. -/
def writePageHeader (p : PageId) (h : PageHeader) : DiskM Unit := do
  let d ← get
  if !d.validWriteTarget p then fail (.status (invalidTarget d p))
  else do
    check (p < d.fileEnd)
    fullWrite env (pageOffset p) pageHeaderSize (·.setHeader p h)

def writeEmptyPage (p : PageId) : DiskM Unit := do
  let d ← get
  if !d.validWriteTarget p then fail (.status (invalidTarget d p))
  else fullWrite env (pageOffset p) pageSize (·.setEmpty p)

def persistFreelistHead (head : PageId) : DiskM Unit := writePageHeader env metaPageId (metaHeader head)

def validatePageAccess (p : PageId) : DiskM Unit := do
  let d ← get
  let id := p.toInt
  let count := d.pageCount.toInt
  if p = metaPageId then
    fail (.status ⟨.invalidArgument, s!"page {id} is the reserved meta page and cannot be accessed directly"⟩)
  else if !d.validPage p then fail (.status ⟨.invalidArgument, s!"invalid page id {id}, page id < {count}"⟩)
  else pure ()

def readPage (p : PageId) : DiskM Page := do
  validatePageAccess p
  fullRead env p pageSize

def writePage (p : PageId) (pg : Page) : DiskM Unit := do
  validatePageAccess p
  fullWrite env (pageOffset p) pageSize (·.setPage p pg)

/-- `AllocatePage` with a page on the freelist. -/
def allocateFree (freePage : PageId) : DiskM PageId := do
  let ph ← readPageHeader env freePage
  let id := freePage.toInt
  if ph.pageType ≠ .free then
    fail (.status ⟨.corruption, s!"page {id} on freelist has unexpected page_type"⟩)
  else do
    let nextFree := ph.nextPageId
    -- The head moves off the page before the page is stamped.
    persistFreelistHead env nextFree
    writePageHeader env freePage allocatedHeader
    modify ({ · with freelistHead := nextFree })
    pure freePage

/-- `AllocatePage` with an empty freelist. -/
def allocateNew : DiskM PageId := do
  let d ← get
  let newPage := d.pageCount
  check (newPage ≠ Int32.maxValue)
  writeEmptyPage env newPage
  writePageHeader env newPage allocatedHeader
  modify ({ · with pageCount := newPage + 1 })
  pure newPage

def allocatePage : DiskM PageId := do
  let d ← get
  if d.freelistHead ≠ invalidPage then allocateFree env d.freelistHead else allocateNew env

/-- `DeallocatePage` of a page that is not reserved. -/
def release (p : PageId) : DiskM Unit := do
  let ph ← readPageHeader env p
  if ph.pageType = .free then pure ()
  else do
    let d ← get
    -- The page is stamped before page 0 points at it.
    writePageHeader env p (freeHeader d.freelistHead)
    persistFreelistHead env p
    modify ({ · with freelistHead := p })

def deallocatePage (p : PageId) : DiskM Unit := do
  let id := p.toInt
  if p = catalogRootPageId then
    fail (.status ⟨.invalidArgument, s!"page {id} is the reserved catalog root page and cannot be deallocated"⟩)
  else do
    validatePageAccess p
    release env p

def sync : DiskM Unit := sysCall env id fun _ => ⟨.ioError, "failed to flush to disk"⟩

/-- A brand-new file: the meta page, the catalog root, an empty freelist. -/
def createFile : DiskM Unit := do
  writeEmptyPage env metaPageId
  writePageHeader env metaPageId { pageType := .metaPage }
  modify ({ · with pageCount := 1 })
  writeEmptyPage env catalogRootPageId
  writePageHeader env catalogRootPageId catalogHeader
  modify ({ · with pageCount := 2 })
  persistFreelistHead env invalidPage

/-- An existing file: page 0 and page 1 must be what they were created as. -/
def recover : DiskM Unit := do
  let path := env.path
  let superblock ← readPageHeader env metaPageId
  if superblock.pageType ≠ .metaPage then
    fail (.status ⟨.corruption, s!"the file at path {path} is corrupt: missing meta page"⟩)
  else do
    let catalog ← readPageHeader env catalogRootPageId
    if catalog.pageType ≠ .catalog then
      fail (.status ⟨.corruption, s!"the file at path {path} is corrupt: missing catalog page"⟩)
    else modify ({ · with freelistHead := superblock.nextPageId })

/-- A new manager on whatever file is there; the fields of the last one are gone. -/
def open_ : DiskM Unit := do
  let path := env.path
  modify fun d => { d with pageCount := d.fileEnd, freelistHead := invalidPage }
  sysCall env id fun _ => ⟨.internal, s!"unable to open file at path: {path}"⟩
  sysCall env id fun _ => ⟨.internal, s!"unable to stat file at path: {path}"⟩
  let d ← get
  if d.pageCount = 0 then createFile env
  else if 2 ≤ d.pageCount then recover env
  else fail (.status ⟨.corruption, "db file is corrputed"⟩)

end Calls
end DiskManager
end KernSql

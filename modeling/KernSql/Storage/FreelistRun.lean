import KernSql.Lib.Machine
import KernSql.Storage.Freelist

/- Runs of the disk manager with errors and crashes.

   A session is the disk manager, whether its process still runs, and the ids its
   callers own: those `AllocatePage` returned and `DeallocatePage` did not take
   back. A `DeallocatePage` that returns an error leaves its caller the owner; one
   that the process does not survive does not. `WritePage` is called by owners
   only, and never with a FREE header. After a stop only `Open` can go on. -/
namespace KernSql.DiskManager
open Exec Machine

structure Session where
  disk : DiskManager
  running : Bool
  owned : List PageId

inductive Call where
  | allocatePage
  | deallocatePage (p : PageId)
  | writePage (p : PageId) (pg : Page)
  | reopen

/-- The session after a call that ended with `r`: what became of the owned ids depends on how it ended. -/
def Session.after {α : Type} (s : Session) (r : Option (Except Interrupt α × DiskManager))
    (owned : Except Interrupt α → List PageId) (running : Except Interrupt α → Bool) : Option Session :=
  r.map fun (a, d) => ⟨d, running a, owned a⟩

def alive {α : Type} : Except Interrupt α → Bool
  | .error .stopped => false
  | _ => true

def Session.step (env : DiskEnv) (s : Session) : Call → Option Session
  | .allocatePage =>
    if s.running then s.after (DiskManager.allocatePage env s.disk)
      (fun | .ok p => p :: s.owned | .error _ => s.owned) alive
    else none
  | .deallocatePage p =>
    if s.running then s.after (DiskManager.deallocatePage env p s.disk)
      (fun | .error (.status _) => s.owned | _ => s.owned.filter (· ≠ p)) alive
    else none
  | .writePage p pg =>
    if s.running ∧ p ∈ s.owned ∧ pg.header.pageType ≠ .free then
      s.after (DiskManager.writePage env p pg s.disk) (fun _ => s.owned) alive
    else none
  | .reopen => s.after (DiskManager.open_ env s.disk) (fun _ => s.owned) fun | .ok _ => true | .error _ => false

/-- A chain of free pages below `count`, without a repetition. -/
def FreeChain (file : PageId → Page) (count head : PageId) : Prop :=
  ∃ l : List PageId, Linked (linkOf file) invalidPage head l ∧ l.Nodup ∧
    ∀ p ∈ l, 2 ≤ p ∧ p < count ∧ (file p).header.pageType = .free

theorem Freelist.freeChain {file : PageId → Page} {count head : PageId} {used : Set PageId} {l : List PageId}
    (h : Freelist file count head used l) : FreeChain file count head := ⟨l, h.chain, h.chain.nodup, h.free⟩

/-- What holds between calls. -/
def Session.Inv (s : Session) : Prop :=
  (s.running = true → Sound .catalog s.disk {p | p ∈ s.owned}) ∧ Recoverable .catalog s.disk {p | p ∈ s.owned}

theorem Session.Inv.of_sound {s : Session} (h : Sound .catalog s.disk {p | p ∈ s.owned}) : s.Inv := ⟨fun _ => h, h.recoverable⟩

/-- The invariant after a call, from what the call's specification says of each way to end. -/
theorem Session.Inv.after {α : Type} {m : DiskM α} {Q : α → DiskManager → Prop}
    {E : Interrupt → DiskManager → Prop} {s s' : Session} {owned : Except Interrupt α → List PageId}
    {running : Except Interrupt α → Bool} (hwp : wp m Q E s.disk)
    (hok : ∀ a d, Q a d → Session.Inv ⟨d, running (.ok a), owned (.ok a)⟩)
    (herr : ∀ e d, E e d → Session.Inv ⟨d, running (.error e), owned (.error e)⟩)
    (h : s.after (m s.disk) owned running = some s') : s'.Inv := by
  obtain ⟨a, d, hm, hQ⟩ | ⟨e, d, hm, hE⟩ := wp_run hwp
  · rw [hm] at h
    cases h
    exact hok a d hQ
  · rw [hm] at h
    cases h
    exact herr e d hE

section Step
variable {env : DiskEnv} {s s' : Session}

/-- A call that runs into the limit of the model has no result. -/
theorem allocatePage_room {d : DiskManager} {r : Except Interrupt PageId × DiskManager}
    (h : DiskManager.allocatePage env d = some r) (hhead : d.freelistHead = invalidPage) :
    d.pageCount ≠ Int32.maxValue := by
  intro hmax
  have : DiskManager.allocatePage env d = none := by
    simp [DiskManager.allocatePage, allocateNew, hhead, hmax, bind, andThen, Exec.get, check]
  rw [this] at h
  cases h

theorem Session.Inv.allocatePage (h : s.Inv) (hs : s.step env .allocatePage = some s') : s'.Inv := by
  dsimp only [Session.step] at hs
  split at hs
  · next hrun =>
    have hroom : s.disk.freelistHead = invalidPage → s.disk.pageCount ≠ Int32.maxValue := by
      obtain ⟨r, hr, -⟩ := Option.map_eq_some_iff.mp hs
      exact allocatePage_room hr
    refine .after (wp_allocatePage (h.1 hrun) hroom) (fun p d hd => ?_) (fun e d hd => ?_) hs
    · refine .of_sound (hd.2.2.1.subset fun q hq => ?_)
      exact List.mem_cons.mp hq
    · cases e with
      | status st => exact .of_sound hd.2.2.2
      | stopped => exact ⟨fun hn => absurd hn (by simp [alive]), hd.2⟩
  · cases hs

theorem filter_ne_eq {l : List PageId} {p : PageId} :
    {q | q ∈ l.filter (· ≠ p)} = {q | q ∈ l} \ {p} := by
  ext q
  simp

theorem Session.Inv.deallocatePage {p : PageId} (h : s.Inv) (hs : s.step env (.deallocatePage p) = some s') :
    s'.Inv := by
  dsimp only [Session.step] at hs
  split at hs
  · next hrun =>
    refine .after (wp_deallocatePage (h.1 hrun)) (fun _ d hd => ?_) (fun e d hd => ?_) hs
    · exact .of_sound (filter_ne_eq ▸ hd.2.2.2.2.1)
    · cases e with
      | status st =>
        cases hd with
        | inl hd => exact .of_sound (hd.2.2 ▸ h.1 hrun)
        | inr hd => exact .of_sound hd.2.2.2
      | stopped => exact ⟨fun hn => absurd hn (by simp [alive]), filter_ne_eq ▸ hd.2⟩
  · cases hs

theorem Session.Inv.writePage {p : PageId} {pg : Page} (h : s.Inv) (hs : s.step env (.writePage p pg) = some s') :
    s'.Inv := by
  dsimp only [Session.step] at hs
  split at hs
  · next hc =>
    have hsound := h.1 hc.1
    obtain ⟨l, hl, -⟩ := hsound.heads
    have hwrite : Sound .catalog (s.disk.tick.setPage p pg) {q | q ∈ s.owned} :=
      hsound.tick.setPage (hl.used p hc.2.1).1 (.inl hc.2.1)
    refine .after wp_writePage (fun _ d hd => ?_) (fun e d hd => ?_) hs
    · exact .of_sound (hd.2.2.2 ▸ hwrite)
    · cases e with
      | status st =>
        cases hd with
        | inl hd => exact .of_sound (hd.2.2 ▸ hsound)
        | inr hd => exact .of_sound (hd.2.2 ▸ hsound.tick)
      | stopped => exact ⟨fun hn => absurd hn (by simp [alive]), hd.2.symm ▸ hwrite.recoverable⟩
  · cases hs

/-- Only the file matters to a recovery. -/
theorem Recoverable.congr {kind : PageType} {d d' : DiskManager} {used : Set PageId} (h : Recoverable kind d used)
    (hfile : d'.file = d.file) (hend : d'.fileEnd = d.fileEnd) : Recoverable kind d' used := by
  obtain ⟨h1, h2, h3, l, h4⟩ := h
  have hp : d'.persistedHead = d.persistedHead := by rw [persistedHead, persistedHead, hfile]
  exact ⟨hend ▸ h1, hfile ▸ h2, hfile ▸ h3, l, by rw [hfile, hend, hp]; exact h4⟩

theorem Session.Inv.reopen (h : s.Inv) (hs : s.step env .reopen = some s') : s'.Inv := by
  dsimp only [Session.step] at hs
  refine .after (wp_open h.2) (fun _ d hd => .of_sound hd.2) (fun e d hd => ?_) hs
  refine ⟨fun hn => absurd hn (by simp), ?_⟩
  cases e with
  | status st => exact h.2.congr hd.2.1 hd.2.2
  | stopped => exact h.2.congr hd.2.1 hd.2.2

theorem Session.Inv.step {c : Call} (h : s.Inv) (hs : s.step env c = some s') : s'.Inv := by
  cases c with
  | allocatePage => exact h.allocatePage hs
  | deallocatePage p => exact h.deallocatePage hs
  | writePage p pg => exact h.writePage hs
  | reopen => exact h.reopen hs

/-- In every session on a new file both heads lead through free pages only and to the end, whatever
call failed or was not survived; no id in use is handed out again, and the file can always be opened. -/
theorem freelist_survives {d₀ : DiskManager} (hopen : open_ env missing = some (.ok (), d₀))
    (h : Reaches (Session.step env) anyStep ⟨d₀, true, []⟩ s) :
    (s.running = true → FreeChain s.disk.file s.disk.pageCount s.disk.persistedHead ∧
      FreeChain s.disk.file s.disk.pageCount s.disk.freelistHead) ∧
    (s.running = false → FreeChain s.disk.file s.disk.fileEnd s.disk.persistedHead) ∧
    (∀ p d, s.running = true → allocatePage env s.disk = some (.ok p, d) →
      2 ≤ p ∧ p ∉ s.owned ∧ (d.file p).header.pageType = .allocated ∧ (d.file p).header.pageId = p) ∧
    ∀ env', Reliable env' → ∃ d, open_ env' s.disk = some (.ok (), d) ∧ d.pageCount = s.disk.fileEnd := by
  have hinv : s.Inv := by
    refine h.invariant (.of_sound ?_) fun hi _ hs => hi.step hs
    have hwp : wp (open_ env) _ _ missing := wp_openNew rfl
    rw [wp, hopen] at hwp
    exact hwp.1.subset fun p hp => absurd hp (by simp)
  refine ⟨fun hrun => ?_, fun _ => ?_, fun p d hrun hp => ?_, fun env' hr => ?_⟩
  · obtain ⟨l, hl⟩ := (hinv.1 hrun).stored
    obtain ⟨l', hl', -⟩ := (hinv.1 hrun).heads
    exact ⟨hl.freeChain, hl'.freeChain⟩
  · obtain ⟨l, hl⟩ := hinv.2.stored
    exact hl.freeChain
  · have hwp : wp (allocatePage env) _ _ s.disk := wp_allocatePage (hinv.1 hrun) (allocatePage_room hp)
    rw [wp, hp] at hwp
    exact ⟨hwp.1.two_le, hwp.2.1, by rw [hwp.1.header]; rfl, by rw [hwp.1.header]; rfl⟩
  · obtain ⟨_, d, hd, hnew, -⟩ | ⟨e, d, -, he⟩ := wp_run (wp_open hinv.2 : wp (open_ env') _ _ s.disk)
    · exact ⟨d, hd, hnew.pageCount⟩
    · cases e with
      | status st => exact absurd hr he.1
      | stopped => exact absurd hr he.1.not_reliable

/-- A disk whose fifteenth call fails: the one that stamps the page an `AllocatePage` takes off the freelist. -/
def fullDisk : DiskEnv where
  fate i := if i = 14 then .failed "no space left on device" else .done

/-- The heads apart after that failure, and each chain still whole. -/
theorem freelist_survives_demo : ∃ d₀ s, open_ fullDisk missing = some (.ok (), d₀) ∧
    exec (Session.step fullDisk) [.allocatePage, .deallocatePage 2, .allocatePage] ⟨d₀, true, []⟩ = some s ∧
    (s.disk.freelistHead = 2 ∧ s.disk.persistedHead = invalidPage) ∧
    FreeChain s.disk.file s.disk.pageCount s.disk.persistedHead ∧
    FreeChain s.disk.file s.disk.pageCount s.disk.freelistHead := by
  have hrun : ∃ d₀ s, open_ fullDisk missing = some (.ok (), d₀) ∧
      exec (Session.step fullDisk) [.allocatePage, .deallocatePage 2, .allocatePage] ⟨d₀, true, []⟩ = some s ∧
      (s.disk.freelistHead = 2 ∧ s.disk.persistedHead = invalidPage) ∧ s.running = true :=
    ⟨_, _, rfl, rfl, by decide, rfl⟩
  obtain ⟨d₀, s, hopen, hexec, hheads, hrunning⟩ := hrun
  exact ⟨d₀, s, hopen, hexec, hheads, (freelist_survives hopen (.of_exec .start hexec)).1 hrunning⟩

end Step
end KernSql.DiskManager

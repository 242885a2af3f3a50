import KernSql.Lib.Chain
import KernSql.Storage.DiskManager

/- The freelist through errors and crashes.

   Two heads lead into one chain: `freelist_head_` in memory and the head page 0
   stores. `AllocatePage` moves the stored head first, so when its second write
   fails the stored head is one page further than the one in memory; nothing
   else ever separates them (`Sound.heads`). After a stop only the stored head is
   left, and what it leads to is what the next `Open` takes over
   (`Recoverable`). -/
namespace KernSql

/-! Page ids as integers. -/

theorem PageId.lt_succ_iff {c p : PageId} (hc : c ≠ Int32.maxValue) : p < c + 1 ↔ p < c ∨ p = c := by
  have hmax : c.toInt ≠ 2147483647 := fun h => hc (Int32.toInt_inj.mp (h.trans (by decide)))
  have hlt : c.toInt ≤ 2147483647 := le_of_le_of_eq c.toInt_le (by decide)
  have hge : -2147483648 ≤ c.toInt := le_of_eq_of_le (by decide) c.minValue_le_toInt
  have hsucc : (c + 1).toInt = c.toInt + 1 := by
    rw [Int32.toInt_add, Int32.toInt_one]
    rw [Int.bmod_eq_of_le] <;> omega
  rw [Int32.lt_iff_toInt_lt, Int32.lt_iff_toInt_lt, hsucc, ← Int32.toInt_inj]
  omega

theorem PageId.lt_of_lt_of_le {a b c : PageId} (h : a < b) (h' : b ≤ c) : a < c := by
  rw [Int32.lt_iff_toInt_lt] at h ⊢
  rw [Int32.le_iff_toInt_le] at h'
  omega

theorem PageId.lt_of_le_of_lt {a b c : PageId} (h : a ≤ b) (h' : b < c) : a < c := by
  rw [Int32.lt_iff_toInt_lt] at h' ⊢
  rw [Int32.le_iff_toInt_le] at h
  omega

theorem PageId.ne_of_lt {a b : PageId} (h : a < b) : a ≠ b := by
  rintro rfl
  exact Int32.lt_irrefl h

theorem PageId.le_of_lt {a b : PageId} (h : a < b) : a ≤ b := Int32.le_iff_lt_or_eq.mpr (.inl h)

/-- An id from 2 on is neither reserved nor the end of a chain. -/
theorem PageId.of_two_le {p : PageId} (h : (2 : PageId) ≤ p) :
    p ≠ metaPageId ∧ p ≠ catalogRootPageId ∧ p ≠ invalidPage ∧ (0 : PageId) ≤ p := by
  rw [Int32.le_iff_toInt_le] at h
  refine ⟨?_, ?_, ?_, ?_⟩
  · rintro rfl; revert h; decide
  · rintro rfl; revert h; decide
  · rintro rfl; revert h; decide
  · rw [Int32.le_iff_toInt_le]
    have : (2 : PageId).toInt = 2 := by decide
    have : (0 : PageId).toInt = 0 := by decide
    omega

theorem PageId.two_le {p : PageId} (h0 : (0 : PageId) ≤ p) (hmeta : p ≠ metaPageId) (hcat : p ≠ catalogRootPageId) :
    (2 : PageId) ≤ p := by
  have e0 : p.toInt ≠ 0 := fun h => hmeta (Int32.toInt_inj.mp (h.trans (by decide)))
  have e1 : p.toInt ≠ 1 := fun h => hcat (Int32.toInt_inj.mp (h.trans (by decide)))
  have hz : (0 : PageId).toInt = 0 := by decide
  have ht : (2 : PageId).toInt = 2 := by decide
  rw [Int32.le_iff_toInt_le] at h0 ⊢
  omega

theorem PageId.lt_succ {c : PageId} (hc : c ≠ Int32.maxValue) : c < c + 1 := (PageId.lt_succ_iff hc).mpr (.inr rfl)

theorem PageId.succ_le {c e : PageId} (hc : c ≠ Int32.maxValue) (h : c < e) : c + 1 ≤ e := by
  refine Int32.not_lt.mp fun hlt => ?_
  cases (PageId.lt_succ_iff hc).mp hlt with
  | inl hec => exact Int32.lt_irrefl (PageId.lt_of_lt_of_le h (PageId.le_of_lt hec))
  | inr hec => exact Int32.lt_irrefl (hec ▸ h)

namespace DiskManager
open Exec

/-! One system call. -/

/-- Nothing fails and nothing stops. -/
def Reliable (env : DiskEnv) : Prop := ∀ i, env.fate i = .done

/-- Some call is not survived. -/
def Stops (env : DiskEnv) : Prop := ∃ i, env.fate i = .stopped

theorem Stops.not_reliable {env : DiskEnv} (h : Stops env) : ¬Reliable env := by
  obtain ⟨i, hi⟩ := h
  intro hr
  rw [hr i] at hi
  cases hi

/-- The ways a call ends early. -/
def orStop (env : DiskEnv) (E : Status → DiskManager → Prop) (S : DiskManager → Prop) :
    Interrupt → DiskManager → Prop
  | .status st, d => E st d
  | .stopped, d => Stops env ∧ S d

section Specs
variable {env : DiskEnv} {d : DiskManager} {p : PageId} {E : Status → DiskManager → Prop} {S : DiskManager → Prop}

/-- A system call, with its fate. -/
theorem wp_sysCall_fate {effect : DiskManager → DiskManager} {failure : String → Status}
    {Q : Unit → DiskManager → Prop} (hdone : env.fate d.ios = .done → Q () (effect d.tick))
    (hfail : ∀ reason, env.fate d.ios = .failed reason → E (failure reason) d.tick)
    (hstop : S (effect d.tick)) : wp (sysCall env effect failure) Q (orStop env E S) d := by
  unfold wp sysCall
  cases h : env.fate d.ios with
  | done => exact hdone h
  | failed reason => exact hfail reason h
  | stopped => exact ⟨⟨_, h⟩, hstop⟩

theorem wp_sysCall {effect : DiskManager → DiskManager} {failure : String → Status}
    {Q : Unit → DiskManager → Prop} (hdone : Q () (effect d.tick))
    (hfail : ∀ reason, ¬Reliable env → E (failure reason) d.tick)
    (hstop : S (effect d.tick)) : wp (sysCall env effect failure) Q (orStop env E S) d := by
  refine wp_sysCall_fate (fun _ => hdone) (fun reason h => hfail reason fun hr => ?_) hstop
  rw [hr] at h
  cases h

theorem validPage_iff : d.validPage p = true ↔ (0 : PageId) ≤ p ∧ p < d.pageCount := by
  simp [validPage]

/-- A page inside the count is inside the file. -/
theorem wp_fullRead {size : Nat} {Q : Page → DiskManager → Prop} (hp : p < d.fileEnd)
    (hdone : Q (d.file p) d.tick) (hfail : ∀ st : Status, st.code = .ioError → ¬Reliable env → E st d.tick)
    (hstop : S d.tick) : wp (fullRead env p size) Q (orStop env E S) d := by
  unfold fullRead
  dsimp only
  rw [wp_bind]
  refine wp_sysCall ?_ (fun reason hr => hfail _ rfl hr) hstop
  have hin : ¬(id d.tick).fileEnd ≤ p := Int32.not_le.mpr hp
  rw [wp_bind, wp_get, if_neg hin]
  exact hdone

theorem wp_readPageHeader {Q : PageHeader → DiskManager → Prop} (hle : d.pageCount ≤ d.fileEnd)
    (hdone : (0 : PageId) ≤ p → p < d.pageCount → Q (d.file p).header d.tick)
    (hinv : ¬((0 : PageId) ≤ p ∧ p < d.pageCount) → E ⟨.invalidArgument, "invalid page"⟩ d)
    (hfail : ∀ st : Status, st.code = .ioError → ¬Reliable env → E st d.tick)
    (hstop : S d.tick) : wp (readPageHeader env p) Q (orStop env E S) d := by
  unfold readPageHeader
  rw [wp_bind, wp_get, wp_ite]
  constructor
  · intro h
    exact hinv fun hv => by rw [validPage_iff.mpr hv] at h; cases h
  · intro h
    have hv : (0 : PageId) ≤ p ∧ p < d.pageCount := validPage_iff.mp (by simpa using h)
    rw [wp_bind]
    exact wp_fullRead (PageId.lt_of_lt_of_le hv.2 hle) (hdone hv.1 hv.2) hfail hstop

theorem wp_writePageHeader {h : PageHeader} {Q : Unit → DiskManager → Prop} (h0 : (0 : PageId) ≤ p)
    (hcount : p ≤ d.pageCount) (hend : p < d.fileEnd) (hdone : Q () (d.tick.setHeader p h))
    (hfail : ∀ st : Status, st.code = .ioError → ¬Reliable env → E st d.tick)
    (hstop : S (d.tick.setHeader p h)) :
    wp (writePageHeader env p h) Q (orStop env E S) d := by
  have hv : d.validWriteTarget p = true := by simp [validWriteTarget, h0, hcount]
  unfold writePageHeader
  rw [wp_bind, wp_get, wp_ite]
  refine ⟨fun hn => by simp [hv] at hn, fun _ => ?_⟩
  rw [wp_bind, wp_check]
  exact ⟨hend, wp_sysCall hdone (fun reason hr => hfail _ rfl hr) hstop⟩

theorem wp_writeEmptyPage {Q : Unit → DiskManager → Prop} (h0 : (0 : PageId) ≤ p)
    (hcount : p ≤ d.pageCount) (hdone : Q () (d.tick.setEmpty p))
    (hfail : ∀ st : Status, st.code = .ioError → ¬Reliable env → E st d.tick)
    (hstop : S (d.tick.setEmpty p)) : wp (writeEmptyPage env p) Q (orStop env E S) d := by
  have hv : d.validWriteTarget p = true := by simp [validWriteTarget, h0, hcount]
  unfold writeEmptyPage
  rw [wp_bind, wp_get, wp_ite]
  exact ⟨fun hn => by simp [hv] at hn, fun _ => wp_sysCall hdone (fun reason hr => hfail _ rfl hr) hstop⟩

end Specs

/-! What the calls that change the file do to it. -/

section Pages
variable {d : DiskManager} {p q : PageId} {h : PageHeader} {pg : Page}

@[simp] theorem setPage_same : (d.setPage p pg).file p = pg := Function.update_self _ _ _

theorem setPage_other (hq : q ≠ p) : (d.setPage p pg).file q = d.file q := Function.update_of_ne hq _ _

@[simp] theorem setHeader_same : ((d.setHeader p h).file p).header = stamped p h := by
  simp [setHeader]

theorem setHeader_other (hq : q ≠ p) : (d.setHeader p h).file q = d.file q := setPage_other hq

theorem setEmpty_other (hq : q ≠ p) : (d.setEmpty p).file q = d.file q := setPage_other hq

@[simp] theorem tick_file : d.tick.file = d.file := rfl
@[simp] theorem tick_fileEnd : d.tick.fileEnd = d.fileEnd := rfl
@[simp] theorem tick_pageCount : d.tick.pageCount = d.pageCount := rfl
@[simp] theorem tick_freelistHead : d.tick.freelistHead = d.freelistHead := rfl
@[simp] theorem setHeader_fileEnd : (d.setHeader p h).fileEnd = d.fileEnd := rfl
@[simp] theorem setHeader_pageCount : (d.setHeader p h).pageCount = d.pageCount := rfl
@[simp] theorem setHeader_freelistHead : (d.setHeader p h).freelistHead = d.freelistHead := rfl
@[simp] theorem setPage_fileEnd : (d.setPage p pg).fileEnd = d.fileEnd := rfl
@[simp] theorem setPage_pageCount : (d.setPage p pg).pageCount = d.pageCount := rfl
@[simp] theorem setPage_freelistHead : (d.setPage p pg).freelistHead = d.freelistHead := rfl
@[simp] theorem setEmpty_pageCount : (d.setEmpty p).pageCount = d.pageCount := rfl
@[simp] theorem setEmpty_freelistHead : (d.setEmpty p).freelistHead = d.freelistHead := rfl

end Pages

/-! The chain of free pages, and the pages that are in use. -/

abbrev linkOf (file : PageId → Page) (p : PageId) : PageId := (file p).header.nextPageId

/-- The chain from `head` is `l`: free pages inside the file. The pages in `used` are inside it
too, and off the chain. -/
structure Freelist (file : PageId → Page) (count head : PageId) (used : Set PageId) (l : List PageId) : Prop where
  chain : Linked (linkOf file) invalidPage head l
  free : ∀ p ∈ l, 2 ≤ p ∧ p < count ∧ (file p).header.pageType = .free
  used : ∀ p ∈ used, 2 ≤ p ∧ p < count ∧ p ∉ l

namespace Freelist
variable {file file' : PageId → Page} {count count' head : PageId} {used : Set PageId} {l : List PageId}

/-- Pages off the chain may change. -/
theorem congr (h : Freelist file count head used l) (hfile : ∀ p ∈ l, file' p = file p) :
    Freelist file' count head used l :=
  ⟨h.chain.congr fun c hc => by rw [linkOf, hfile c hc], fun p hp => by rw [hfile p hp]; exact h.free p hp, h.used⟩

theorem mono (h : Freelist file count head used l) (hle : count ≤ count') : Freelist file count' head used l :=
  ⟨h.chain, fun p hp => ⟨(h.free p hp).1, PageId.lt_of_lt_of_le (h.free p hp).2.1 hle, (h.free p hp).2.2⟩,
    fun p hp => ⟨(h.used p hp).1, PageId.lt_of_lt_of_le (h.used p hp).2.1 hle, (h.used p hp).2.2⟩⟩

theorem subset {used' : Set PageId} (h : Freelist file count head used l) (hsub : used' ⊆ used) :
    Freelist file count head used' l := ⟨h.chain, h.free, fun p hp => h.used p (hsub hp)⟩

/-- The first page taken off and put to use. -/
theorem pop {p : PageId} (h : Freelist file count head used (p :: l)) :
    Freelist file count (linkOf file p) (insert p used) l where
  chain := h.chain.pop
  free q hq := h.free q (by simp [hq])
  used q hq := by
    cases hq with
    | inl hqp =>
      subst hqp
      obtain ⟨h1, h2, _⟩ := h.free q (by simp)
      exact ⟨h1, h2, (List.nodup_cons.mp h.chain.nodup).1⟩
    | inr hqu =>
      obtain ⟨h1, h2, h3⟩ := h.used q hqu
      exact ⟨h1, h2, fun hql => h3 (by simp [hql])⟩

/-- A page stamped FREE and put in front. -/
theorem push {p : PageId} (h : Freelist file count head used l) (hp : 2 ≤ p) (hcount : p < count) (hl : p ∉ l)
    (hfile : ∀ q ∈ l, file' q = file q) (hlink : linkOf file' p = head)
    (hfree : (file' p).header.pageType = .free) : Freelist file' count p (used \ {p}) (p :: l) where
  chain := ((h.congr hfile).chain).push (PageId.of_two_le hp).2.2.1 hlink
  free q hq := by
    cases List.mem_cons.mp hq with
    | inl hqp => subst hqp; exact ⟨hp, hcount, hfree⟩
    | inr hql => exact (h.congr hfile).free q hql
  used q hq := by
    obtain ⟨h1, h2, h3⟩ := h.used q hq.1
    refine ⟨h1, h2, fun hmem => ?_⟩
    cases List.mem_cons.mp hmem with
    | inl hqp => exact hq.2 hqp
    | inr hql => exact h3 hql

/-- A page past the old end put to use. -/
theorem grow {p : PageId} (h : Freelist file count head used l) (hle : count ≤ p) (hp : 2 ≤ p) (hlt : p < count') :
    Freelist file count' head (insert p used) l where
  chain := h.chain
  free q hq := by
    obtain ⟨h1, h2, h3⟩ := h.free q hq
    exact ⟨h1, PageId.lt_of_lt_of_le (PageId.lt_of_lt_of_le h2 hle) (PageId.le_of_lt hlt), h3⟩
  used q hq := by
    cases hq with
    | inl hqp =>
      subst hqp
      refine ⟨hp, hlt, fun hql => ?_⟩
      exact Int32.not_le.mpr (h.free q hql).2.1 hle
    | inr hqu =>
      obtain ⟨h1, h2, h3⟩ := h.used q hqu
      exact ⟨h1, PageId.lt_of_lt_of_le (PageId.lt_of_lt_of_le h2 hle) (PageId.le_of_lt hlt), h3⟩

/-- A page off the chain may get any contents. -/
theorem setPage {d : DiskManager} {p : PageId} {pg : Page} (h : Freelist d.file count head used l) (hp : p ∉ l) :
    Freelist (d.setPage p pg).file count head used l :=
  h.congr fun q hq => setPage_other fun hqp => hp (hqp ▸ hq)

/-- The meta page is off every chain. -/
theorem setMeta {d : DiskManager} {hd : PageHeader} (h : Freelist d.file count head used l) :
    Freelist (d.setHeader metaPageId hd).file count head used l :=
  h.setPage fun hmem => (PageId.of_two_le (h.free _ hmem).1).1 rfl

end Freelist

/-- A manager at work, with a page of type `kind` as the catalog root: the stored head is the one in
memory, or the page after it. -/
structure Sound (kind : PageType) (d : DiskManager) (used : Set PageId) : Prop where
  two_le : 2 ≤ d.pageCount
  count_le : d.pageCount ≤ d.fileEnd
  metaPage : (d.file metaPageId).header.pageType = .metaPage
  catalog : (d.file catalogRootPageId).header.pageType = kind
  heads : ∃ l, Freelist d.file d.pageCount d.freelistHead used l ∧
    (d.persistedHead = d.freelistHead ∨
      d.freelistHead ≠ invalidPage ∧ d.persistedHead = linkOf d.file d.freelistHead)

/-- A file a new manager can take over, if `kind` is what `Open` asks for. -/
structure Recoverable (kind : PageType) (d : DiskManager) (used : Set PageId) : Prop where
  two_le : 2 ≤ d.fileEnd
  metaPage : (d.file metaPageId).header.pageType = .metaPage
  catalog : (d.file catalogRootPageId).header.pageType = kind
  stored : ∃ l, Freelist d.file d.fileEnd d.persistedHead used l

/-- Nothing left over from a call that failed: one head, and no page past the count. -/
def Settled (d : DiskManager) : Prop := d.persistedHead = d.freelistHead ∧ d.fileEnd = d.pageCount

section Steps
variable {env : DiskEnv} {kind : PageType} {d : DiskManager} {p : PageId} {used : Set PageId}

theorem Sound.tick (h : Sound kind d used) : Sound kind d.tick used := ⟨h.two_le, h.count_le, h.metaPage, h.catalog, h.heads⟩

theorem Sound.subset {used' : Set PageId} (h : Sound kind d used) (hsub : used' ⊆ used) : Sound kind d used' := by
  obtain ⟨l, hl, hheads⟩ := h.heads
  exact ⟨h.two_le, h.count_le, h.metaPage, h.catalog, l, hl.subset hsub, hheads⟩

/-- The stored chain of a manager at work. -/
theorem Sound.stored (h : Sound kind d used) : ∃ l, Freelist d.file d.pageCount d.persistedHead used l := by
  obtain ⟨l, hl, hheads⟩ := h.heads
  cases hheads with
  | inl heq => exact ⟨l, heq ▸ hl⟩
  | inr hnext =>
    obtain ⟨rest, rfl, -⟩ := hl.chain.cons_of_ne hnext.1
    exact ⟨rest, hnext.2 ▸ hl.pop.subset (Set.subset_insert _ _)⟩

theorem Sound.recoverable (h : Sound kind d used) : Recoverable kind d used := by
  obtain ⟨l, hl⟩ := h.stored
  exact ⟨Int32.le_trans h.two_le h.count_le, h.metaPage, h.catalog, l, hl.mono h.count_le⟩

/-- Page `p` handed out. -/
structure Granted (d d' : DiskManager) (p : PageId) : Prop where
  other : ∀ q, q ≠ metaPageId → q ≠ p → d'.file q = d.file q
  header : (d'.file p).header = stamped p allocatedHeader
  two_le : 2 ≤ p
  count : ∀ q, q < d'.pageCount ↔ q < d.pageCount ∨ q = p
  fresh : d.pageCount ≤ p ∨ (d.file p).header.pageType = .free
  taken : d.freelistHead ≠ invalidPage →
    p = d.freelistHead ∧ d'.freelistHead = linkOf d.file d.freelistHead ∧ d'.pageCount = d.pageCount
  extended : d.freelistHead = invalidPage →
    p = d.pageCount ∧ d'.freelistHead = invalidPage ∧ d'.pageCount = d.pageCount + 1

theorem Granted.pageCount_le {d' : DiskManager} (h : Granted d d' p) : d.pageCount ≤ d'.pageCount := by
  by_contra hn
  exact Int32.lt_irrefl ((h.count _).mpr (.inl (Int32.not_le.mp hn)))

/-- No page of the file changed, the meta page apart. -/
structure Unchanged (d d' : DiskManager) : Prop where
  file : ∀ q, q ≠ metaPageId → q < d.pageCount → d'.file q = d.file q
  pageCount : d'.pageCount = d.pageCount

theorem Unchanged.tick {d' : DiskManager} (h : Unchanged d d') : Unchanged d d'.tick := ⟨h.file, h.pageCount⟩

theorem Unchanged.refl (d : DiskManager) : Unchanged d d := ⟨fun _ _ _ => rfl, rfl⟩

/-- Facts about the page the head in memory names. -/
theorem Sound.head (h : Sound kind d used) (hne : d.freelistHead ≠ invalidPage) :
    2 ≤ d.freelistHead ∧ d.freelistHead < d.pageCount ∧ (d.file d.freelistHead).header.pageType = .free ∧
      d.freelistHead ∉ used := by
  obtain ⟨l, hl, -⟩ := h.heads
  obtain ⟨rest, rfl, -⟩ := hl.chain.cons_of_ne hne
  obtain ⟨h1, h2, h3⟩ := hl.free d.freelistHead (by simp)
  exact ⟨h1, h2, h3, fun hu => (hl.used _ hu).2.2 (by simp)⟩

/-- The meta page is in the file. -/
theorem Sound.meta_lt (h : Sound kind d used) : metaPageId < d.fileEnd :=
  PageId.lt_of_lt_of_le (PageId.lt_of_lt_of_le (by decide) h.two_le) h.count_le

/-- The stored head moved one page on, and nothing else. -/
theorem Sound.advance (h : Sound kind d used) (hne : d.freelistHead ≠ invalidPage) :
    Sound kind (d.setHeader metaPageId (metaHeader (linkOf d.file d.freelistHead))) used := by
  obtain ⟨l, hl, -⟩ := h.heads
  have hhead : d.freelistHead ≠ metaPageId := (PageId.of_two_le (h.head hne).1).1
  refine ⟨h.two_le, h.count_le, by simp [metaHeader, stamped], ?_, l, hl.setMeta, .inr ⟨hne, ?_⟩⟩
  · rw [setHeader_other (by decide)]
    exact h.catalog
  · show (_ : Page).header.nextPageId = (_ : Page).header.nextPageId
    rw [setHeader_same, setHeader_freelistHead, setHeader_other hhead]
    rfl

/-- The head in memory stamped ALLOCATED, the stored head already past it. -/
theorem Sound.take {next : PageId} (h : Sound kind d used) (hne : d.freelistHead ≠ invalidPage)
    (hlink : linkOf d.file d.freelistHead = next) (hmoved : d.persistedHead = next) :
    Sound kind { d.setHeader d.freelistHead allocatedHeader with freelistHead := next }
      (insert d.freelistHead used) := by
  subst hlink
  obtain ⟨l, hl, -⟩ := h.heads
  obtain ⟨rest, rfl, -⟩ := hl.chain.cons_of_ne hne
  obtain ⟨hmeta, hcat, -, -⟩ := PageId.of_two_le (h.head hne).1
  have hoff : d.freelistHead ∉ rest := (List.nodup_cons.mp hl.chain.nodup).1
  have h0 : (d.setHeader d.freelistHead allocatedHeader).file metaPageId = d.file metaPageId :=
    setHeader_other (Ne.symm hmeta)
  have h1 : (d.setHeader d.freelistHead allocatedHeader).file catalogRootPageId = d.file catalogRootPageId :=
    setHeader_other (Ne.symm hcat)
  refine ⟨h.two_le, h.count_le, ?_, ?_, rest, hl.pop.setPage hoff, .inl ?_⟩
  · exact (congrArg (·.header.pageType) h0).trans h.metaPage
  · exact (congrArg (·.header.pageType) h1).trans h.catalog
  · exact (congrArg (·.header.nextPageId) h0).trans hmoved

theorem Recoverable.of_sound {d' : DiskManager} (h : Sound kind d used) (hfile : d'.file = d.file)
    (hend : d'.fileEnd = d.fileEnd) : Recoverable kind d' used := by
  obtain ⟨h1, h2, h3, l, h4⟩ := h.recoverable
  have hp : d'.persistedHead = d.persistedHead := by rw [persistedHead, persistedHead, hfile]
  exact ⟨hend ▸ h1, hfile ▸ h2, hfile ▸ h3, l, by rw [hfile, hend, hp]; exact h4⟩

theorem wp_allocateFree (h : Sound kind d used) (hne : d.freelistHead ≠ invalidPage) :
    wp (allocateFree env d.freelistHead)
      (fun p d' => Granted d d' p ∧ p ∉ used ∧ Sound kind d' (insert p used) ∧ (Settled d → Settled d'))
      (orStop env (fun st d' => ¬Reliable env ∧ st.code = .ioError ∧ Unchanged d d' ∧ Sound kind d' used)
        (fun d' => Recoverable kind d' used)) d := by
  obtain ⟨htwo, hcount, hfree, hnew⟩ := h.head hne
  obtain ⟨hmeta, -, -, h0⟩ := PageId.of_two_le htwo
  have hmoved := h.tick.tick.advance hne
  have hkept : ∀ q, q ≠ metaPageId → (d.tick.tick.setHeader metaPageId
      (metaHeader (linkOf d.file d.freelistHead))).tick.file q = d.file q := fun q hq => setHeader_other hq
  have htaken := hmoved.tick.take hne (congrArg (·.header.nextPageId) (hkept _ hmeta))
    (congrArg PageHeader.nextPageId setHeader_same)
  unfold allocateFree
  rw [wp_bind]
  refine wp_readPageHeader h.count_le (fun _ _ => ?_) (fun hn => absurd ⟨h0, hcount⟩ hn)
    (fun st hst hr => ⟨hr, hst, (Unchanged.refl d).tick, h.tick⟩) h.tick.recoverable
  rw [wp_ite]
  refine ⟨fun hn => absurd hfree hn, fun _ => ?_⟩
  rw [wp_bind]
  refine wp_writePageHeader (by decide) (Int32.le_trans (by decide) h.two_le) h.meta_lt ?_
    (fun st hst hr => ⟨hr, hst, (Unchanged.refl d).tick.tick, h.tick.tick⟩) hmoved.recoverable
  rw [wp_bind]
  refine wp_writePageHeader h0 (PageId.le_of_lt hcount) (PageId.lt_of_lt_of_le hcount h.count_le) ?_
    (fun st hst hr => ⟨hr, hst, ⟨fun q hq _ => hkept q hq, rfl⟩, hmoved.tick⟩)
    (.of_sound (htaken.subset (Set.subset_insert _ _)) rfl rfl)
  rw [wp_bind, wp_modify, wp_pure]
  refine ⟨⟨fun q hq hqp => (setHeader_other hqp).trans (hkept q hq), setHeader_same, htwo, fun q => ?_, .inr hfree,
    fun _ => ⟨rfl, rfl, rfl⟩, fun hn => absurd hn hne⟩, hnew, htaken, fun hset => ⟨?_, hset.2⟩⟩
  · exact ⟨fun hq => .inl hq, fun hq => hq.elim id fun he => he ▸ hcount⟩
  · show (_ : Page).header.nextPageId = _
    rw [setHeader_other (Ne.symm hmeta), tick_file, setHeader_same]
    rfl

/-- A page in use, past the end, or not FREE is off the chain: it may get any contents. -/
theorem Sound.setPage {pg : Page} (h : Sound kind d used) (hp : 2 ≤ p)
    (hoff : p ∈ used ∨ d.pageCount ≤ p ∨ (d.file p).header.pageType ≠ .free) : Sound kind (d.setPage p pg) used := by
  obtain ⟨l, hl, hheads⟩ := h.heads
  obtain ⟨hmeta, hcat, -, -⟩ := PageId.of_two_le hp
  have hpl : p ∉ l := by
    intro hmem
    obtain ⟨-, h2, h3⟩ := hl.free p hmem
    obtain hu | hc | ht := hoff
    · exact (hl.used p hu).2.2 hmem
    · exact Int32.not_le.mpr h2 hc
    · exact ht h3
  have h0 : (d.setPage p pg).file metaPageId = d.file metaPageId := setPage_other (Ne.symm hmeta)
  refine ⟨h.two_le, h.count_le, ?_, ?_, l, hl.setPage hpl, ?_⟩
  · rw [h0]; exact h.metaPage
  · rw [setPage_other (Ne.symm hcat)]; exact h.catalog
  · rw [persistedHead, h0]
    cases hheads with
    | inl heq => exact .inl heq
    | inr hnext =>
      -- The head is on the chain, so the page written is another one.
      obtain ⟨rest, rfl, -⟩ := hl.chain.cons_of_ne hnext.1
      have hne : d.freelistHead ≠ p := fun he => hpl (by simp [he])
      exact .inr ⟨hnext.1, by rw [linkOf, setPage_freelistHead, setPage_other hne]; exact hnext.2⟩

/-- The catalog root is off every chain; its type is whatever was written to it. -/
theorem Sound.setCatalog {pg : Page} (h : Sound kind d used) :
    Sound pg.header.pageType (d.setPage catalogRootPageId pg) used := by
  obtain ⟨l, hl, hheads⟩ := h.heads
  have hoff : catalogRootPageId ∉ l := fun hmem => (PageId.of_two_le (hl.free _ hmem).1).2.1 rfl
  have h0 : (d.setPage catalogRootPageId pg).file metaPageId = d.file metaPageId := setPage_other (by decide)
  refine ⟨h.two_le, h.count_le, ?_, by rw [setPage_same], l, hl.setPage hoff, ?_⟩
  · rw [h0]; exact h.metaPage
  · rw [persistedHead, h0]
    refine hheads.imp id fun hnext => ⟨hnext.1, ?_⟩
    obtain ⟨rest, rfl, -⟩ := hl.chain.cons_of_ne hnext.1
    have hne : d.freelistHead ≠ catalogRootPageId := fun he => hoff (by simp [← he])
    rw [linkOf, setPage_freelistHead, setPage_other hne]
    exact hnext.2

/-- A page that is not FREE may be put to use. -/
theorem Sound.use (h : Sound kind d used) (hp : 2 ≤ p) (hcount : p < d.pageCount)
    (hfree : (d.file p).header.pageType ≠ .free) : Sound kind d (insert p used) := by
  obtain ⟨l, hl, hheads⟩ := h.heads
  refine ⟨h.two_le, h.count_le, h.metaPage, h.catalog, l, ⟨hl.chain, hl.free, fun q hq => ?_⟩, hheads⟩
  cases hq with
  | inl hqp => exact hqp ▸ ⟨hp, hcount, fun hmem => hfree (hl.free p hmem).2.2⟩
  | inr hqu => exact hl.used q hqu

theorem Sound.setHeader {hd : PageHeader} (h : Sound kind d used) (hp : 2 ≤ p)
    (hoff : p ∈ used ∨ d.pageCount ≤ p ∨ (d.file p).header.pageType ≠ .free) : Sound kind (d.setHeader p hd) used :=
  h.setPage hp hoff

theorem setEmpty_lt (hmax : p ≠ Int32.maxValue) : p < (d.setEmpty p).fileEnd := by
  unfold setEmpty
  dsimp only
  split
  · assumption
  · exact PageId.lt_succ hmax

/-- The page after the last zeroed: the manager does not count it yet. -/
theorem Sound.setEmpty (h : Sound kind d used) (hmax : d.pageCount ≠ Int32.maxValue) :
    Sound kind (d.setEmpty d.pageCount) used := by
  have hset : Sound kind (d.setPage d.pageCount zeroPage) used :=
    h.setPage h.two_le (.inr (.inl (Int32.le_refl _)))
  exact ⟨hset.two_le, PageId.le_of_lt (setEmpty_lt hmax), hset.metaPage, hset.catalog, hset.heads⟩

/-- The page after the last counted in and put to use. -/
theorem Sound.extend (h : Sound kind d used) (hmax : d.pageCount ≠ Int32.maxValue) (hlt : d.pageCount < d.fileEnd) :
    Sound kind { d with pageCount := d.pageCount + 1 } (insert d.pageCount used) := by
  obtain ⟨l, hl, hheads⟩ := h.heads
  exact ⟨Int32.le_trans h.two_le (PageId.le_of_lt (PageId.lt_succ hmax)), PageId.succ_le hmax hlt, h.metaPage,
    h.catalog, l, hl.grow (Int32.le_refl _) h.two_le (PageId.lt_succ hmax), hheads⟩

theorem wp_allocateNew (h : Sound kind d used) (hnil : d.freelistHead = invalidPage)
    (hmax : d.pageCount ≠ Int32.maxValue) :
    wp (allocateNew env)
      (fun p d' => Granted d d' p ∧ p ∉ used ∧ Sound kind d' (insert p used) ∧ (Settled d → Settled d'))
      (orStop env (fun st d' => ¬Reliable env ∧ st.code = .ioError ∧ Unchanged d d' ∧ Sound kind d' used)
        (fun d' => Recoverable kind d' used)) d := by
  obtain ⟨-, -, -, h0⟩ := PageId.of_two_le h.two_le
  have hempty := h.tick.setEmpty hmax
  have hlt : d.pageCount < (d.tick.setEmpty d.pageCount).fileEnd := setEmpty_lt hmax
  have hstamp : Sound kind ((d.tick.setEmpty d.pageCount).tick.setHeader d.pageCount allocatedHeader) used :=
    hempty.tick.setHeader h.two_le (.inr (.inl (Int32.le_refl _)))
  have hnew : d.pageCount ∉ used := by
    obtain ⟨l, hl, -⟩ := h.heads
    exact fun hu => Int32.lt_irrefl (hl.used _ hu).2.1
  unfold allocateNew
  rw [wp_bind, wp_get]
  dsimp only
  rw [wp_bind, wp_check]
  refine ⟨hmax, ?_⟩
  rw [wp_bind]
  refine wp_writeEmptyPage h0 (Int32.le_refl _) ?_
    (fun st hst hr => ⟨hr, hst, (Unchanged.refl d).tick, h.tick⟩) hempty.recoverable
  rw [wp_bind]
  refine wp_writePageHeader h0 (Int32.le_refl _) hlt ?_
    (fun st hst hr => ⟨hr, hst, ⟨fun q _ hq => setEmpty_other (PageId.ne_of_lt hq), rfl⟩, hempty.tick⟩)
    hstamp.recoverable
  rw [wp_bind, wp_modify, wp_pure]
  refine ⟨⟨fun q _ hqp => ?_, setHeader_same, h.two_le, fun q => PageId.lt_succ_iff hmax, .inl (Int32.le_refl _),
    fun hn => absurd hnil hn, fun _ => ⟨rfl, hnil, rfl⟩⟩, hnew, hstamp.extend hmax hlt, fun hset => ⟨?_, ?_⟩⟩
  · exact (setHeader_other hqp).trans (setEmpty_other hqp)
  · have hne : metaPageId ≠ d.pageCount := Ne.symm (PageId.of_two_le h.two_le).1
    show (_ : Page).header.nextPageId = _
    rw [setHeader_other hne, tick_file, setEmpty_other hne]
    exact hset.1
  · show (if d.pageCount < d.fileEnd then d.fileEnd else d.pageCount + 1) = d.pageCount + 1
    rw [hset.2, if_neg Int32.lt_irrefl]

/-- `AllocatePage` hands out a page nobody uses, or leaves every page as it was. -/
theorem wp_allocatePage (h : Sound kind d used) (hroom : d.freelistHead = invalidPage → d.pageCount ≠ Int32.maxValue) :
    wp (allocatePage env)
      (fun p d' => Granted d d' p ∧ p ∉ used ∧ Sound kind d' (insert p used) ∧ (Settled d → Settled d'))
      (orStop env (fun st d' => ¬Reliable env ∧ st.code = .ioError ∧ Unchanged d d' ∧ Sound kind d' used)
        (fun d' => Recoverable kind d' used)) d := by
  unfold allocatePage
  rw [wp_bind, wp_get, wp_ite]
  exact ⟨fun hne => wp_allocateFree h hne, fun he => wp_allocateNew h (not_not.mp he) (hroom (not_not.mp he))⟩

/-- What a `DeallocatePage` may have done to the file. -/
structure Released (d d' : DiskManager) (p : PageId) : Prop where
  other : ∀ q, q ≠ metaPageId → q ≠ p → d'.file q = d.file q
  pageCount : d'.pageCount = d.pageCount

/-- A page stamped FREE in front of the chain, and the stored head moved onto it. -/
theorem Freelist.stampFree {l : List PageId} (hl : Freelist d.file d.pageCount d.freelistHead used l)
    (hp : 2 ≤ p) (hcount : p < d.pageCount) (hpl : p ∉ l) :
    Freelist ((d.setHeader p (freeHeader d.freelistHead)).tick.setHeader metaPageId (metaHeader p)).file
      d.pageCount p (used \ {p}) (p :: l) := by
  have hpush : Freelist (d.setHeader p (freeHeader d.freelistHead)).file d.pageCount p (used \ {p}) (p :: l) :=
    hl.push hp hcount hpl (fun q hq => setHeader_other fun he => hpl (he ▸ hq))
      (congrArg PageHeader.nextPageId setHeader_same) (congrArg PageHeader.pageType setHeader_same)
  exact hpush.setMeta (d := (d.setHeader p (freeHeader d.freelistHead)).tick)

/-- The page in front of both heads. -/
theorem Sound.give (h : Sound kind d used) (hp : 2 ≤ p) (hcount : p < d.pageCount)
    (hfree : (d.file p).header.pageType ≠ .free) :
    Sound kind { (d.setHeader p (freeHeader d.freelistHead)).tick.setHeader metaPageId (metaHeader p) with
      freelistHead := p } (used \ {p}) := by
  obtain ⟨l, hl, -⟩ := h.heads
  obtain ⟨-, hcat, -, -⟩ := PageId.of_two_le hp
  have hpl : p ∉ l := fun hmem => hfree (hl.free p hmem).2.2
  refine ⟨h.two_le, h.count_le, congrArg PageHeader.pageType setHeader_same, ?_, p :: l,
    hl.stampFree hp hcount hpl, .inl (congrArg PageHeader.nextPageId setHeader_same)⟩
  have hne : catalogRootPageId ≠ metaPageId := by decide
  show (((d.setHeader p (freeHeader d.freelistHead)).tick.setHeader metaPageId (metaHeader p)).file
    catalogRootPageId).header.pageType = _
  rw [setHeader_other hne, tick_file, setHeader_other (Ne.symm hcat)]
  exact h.catalog

theorem wp_release (h : Sound kind d used) (hp : 2 ≤ p) (hcount : p < d.pageCount) :
    wp (release env p)
      (fun _ d' => Released d d' p ∧ (d'.file p).header.pageType = .free ∧ Sound kind d' (used \ {p}) ∧
        (Settled d → Settled d'))
      (orStop env (fun st d' => ¬Reliable env ∧ st.code = .ioError ∧ Released d d' p ∧ Sound kind d' used)
        (fun d' => Recoverable kind d' (used \ {p}))) d := by
  obtain ⟨hmeta, -, -, h0⟩ := PageId.of_two_le hp
  have hsub : used \ {p} ⊆ used := Set.sdiff_subset
  unfold release
  rw [wp_bind]
  refine wp_readPageHeader h.count_le (fun _ _ => ?_) (fun hn => absurd ⟨h0, hcount⟩ hn)
    (fun st hst hr => ⟨hr, hst, ⟨fun _ _ _ => rfl, rfl⟩, h.tick⟩) (h.tick.subset hsub).recoverable
  rw [wp_ite]
  refine ⟨fun hfree => ⟨⟨fun _ _ _ => rfl, rfl⟩, hfree, h.tick.subset hsub, id⟩, fun hfree => ?_⟩
  rw [wp_bind, wp_get, wp_bind]
  have hstamp : Sound kind (d.tick.tick.setHeader p (freeHeader d.freelistHead)) used :=
    h.tick.tick.setHeader hp (.inr (.inr hfree))
  have hgive := h.tick.tick.give hp hcount hfree
  refine wp_writePageHeader h0 (PageId.le_of_lt hcount) (PageId.lt_of_lt_of_le hcount h.count_le) ?_
    (fun st hst hr => ⟨hr, hst, ⟨fun _ _ _ => rfl, rfl⟩, h.tick.tick⟩) (hstamp.subset hsub).recoverable
  rw [wp_bind]
  refine wp_writePageHeader (by decide) (Int32.le_trans (by decide) h.two_le) h.meta_lt ?_
    (fun st hst hr => ⟨hr, hst, ⟨fun q _ hqp => setHeader_other hqp, rfl⟩, hstamp.tick⟩)
    (.of_sound hgive rfl rfl)
  refine ⟨⟨fun q hq hqp => (setHeader_other hq).trans (setHeader_other hqp), rfl⟩, ?_, hgive,
    fun hset => ⟨congrArg PageHeader.nextPageId setHeader_same, hset.2⟩⟩
  exact congrArg (·.header.pageType) (setHeader_other hmeta) |>.trans (congrArg PageHeader.pageType setHeader_same)

/-- The system calls of a `DeallocatePage` up to its FREE stamp are done. -/
def StampWritten (env : DiskEnv) (d : DiskManager) : Prop :=
  env.fate d.ios = .done ∧ env.fate (d.ios + 1) = .done

/-- What a `DeallocatePage` that failed left of the page: FREE, or as it was. -/
structure Botched (env : DiskEnv) (d d' : DiskManager) (p : PageId) : Prop where
  inside : 2 ≤ p ∧ p < d.pageCount
  stamped : StampWritten env d → (d'.file p).header.pageType = .free
  spared : ¬StampWritten env d → d'.file = d.file

theorem not_done {i : Nat} {reason : String} (h : env.fate i = .failed reason) : env.fate i ≠ .done := by
  rw [h]
  nofun

theorem wp_release_failed (hle : d.pageCount ≤ d.fileEnd) (hp : 2 ≤ p) (hcount : p < d.pageCount) :
    wp (release env p) (fun _ _ => True) (orStop env (fun _ d' => Botched env d d' p) (fun _ => True)) d := by
  obtain ⟨hmeta, -, -, h0⟩ := PageId.of_two_le hp
  have hv : ¬(!d.validPage p) = true := by
    rw [validPage_iff.mpr ⟨h0, hcount⟩]
    decide
  have hv' : ¬(!d.tick.validWriteTarget p) = true := by
    have : d.tick.validWriteTarget p = true := decide_eq_true ⟨h0, PageId.le_of_lt hcount⟩
    rw [this]
    decide
  have hend : p < d.fileEnd := PageId.lt_of_lt_of_le hcount hle
  rw [release, wp_bind, readPageHeader, wp_bind, wp_get, if_neg hv, wp_bind, fullRead, wp_bind]
  refine wp_sysCall_fate (fun hread => ?_) (fun _ hf => ⟨⟨hp, hcount⟩, fun hs => absurd hs.1 (not_done hf), fun _ => rfl⟩) trivial
  have hin : ¬(id d.tick).fileEnd ≤ p := Int32.not_le.mpr hend
  rw [wp_bind, wp_get, if_neg hin, wp_pure, wp_pure, wp_ite]
  refine ⟨fun _ => trivial, fun _ => ?_⟩
  rw [wp_bind, wp_get, wp_bind, writePageHeader, wp_bind, wp_get]
  show wp (if (!d.tick.validWriteTarget p) = true then _ else _) _ _ _
  rw [if_neg hv', wp_bind, wp_check]
  refine ⟨hend, ?_⟩
  refine wp_sysCall_fate (fun hstamp => ?_) (fun _ hf => ⟨⟨hp, hcount⟩, fun hs => absurd hs.2 (not_done hf), fun _ => rfl⟩) trivial
  -- From here on the page is FREE, whatever becomes of the head.
  have hfree : ∀ d' : DiskManager, d'.file p = ((id d.tick).tick.setHeader p (freeHeader d.freelistHead)).file p →
      Botched env d d' p := fun d' hd => by
    refine ⟨⟨hp, hcount⟩, fun _ => ?_, fun hn => absurd ⟨hread, hstamp⟩ hn⟩
    rw [hd, setHeader_same]
    rfl
  rw [wp_bind, persistFreelistHead, writePageHeader, wp_bind, wp_get, wp_ite]
  refine ⟨fun _ => hfree _ rfl, fun _ => ?_⟩
  rw [wp_bind, wp_check]
  refine ⟨PageId.lt_of_le_of_lt ?_ hend, ?_⟩
  · exact Int32.le_trans (by decide) hp
  · exact wp_sysCall_fate (fun _ => trivial) (fun _ _ => hfree _ rfl) trivial

theorem wp_validatePageAccess {Q : Unit → DiskManager → Prop} {E : Status → DiskManager → Prop}
    {S : DiskManager → Prop} (hok : p ≠ metaPageId → (0 : PageId) ≤ p → p < d.pageCount → Q () d)
    (hbad : ∀ st : Status, st.code = .invalidArgument → ¬(p ≠ metaPageId ∧ (0 : PageId) ≤ p ∧ p < d.pageCount) →
      E st d) : wp (validatePageAccess p) Q (orStop env E S) d := by
  unfold validatePageAccess
  rw [wp_bind, wp_get]
  dsimp only
  rw [wp_ite]
  refine ⟨fun h => hbad _ rfl fun hn => hn.1 h, fun h => ?_⟩
  rw [wp_ite]
  constructor
  · intro hv
    exact hbad _ rfl fun hn => by rw [validPage_iff.mpr hn.2] at hv; cases hv
  · intro hv
    have := validPage_iff.mp (by simpa using hv)
    exact hok h this.1 this.2

/-- A `DeallocatePage` that is not refused outright works on the page; it frees it or leaves it in use. -/
theorem wp_deallocatePage (h : Sound kind d used) :
    wp (deallocatePage env p)
      (fun _ d' => 2 ≤ p ∧ p < d.pageCount ∧ Released d d' p ∧ (d'.file p).header.pageType = .free ∧
        Sound kind d' (used \ {p}) ∧ (Settled d → Settled d'))
      (orStop env (fun st d' => (st.code = .invalidArgument ∧ ¬(2 ≤ p ∧ p < d.pageCount) ∧ d' = d) ∨
          (¬Reliable env ∧ st.code = .ioError ∧ Released d d' p ∧ Sound kind d' used))
        (fun d' => Recoverable kind d' (used \ {p}))) d := by
  unfold deallocatePage
  dsimp only
  rw [wp_ite]
  constructor
  · rintro rfl
    exact .inl ⟨rfl, fun hn => absurd hn.1 (by decide), rfl⟩
  · intro hcat
    rw [wp_bind]
    refine wp_validatePageAccess (fun hmeta h0 hcount => ?_) fun st hst hn => .inl ⟨hst, fun hv => ?_, rfl⟩
    · have hp := PageId.two_le h0 hmeta hcat
      refine wp_mono (wp_release h hp hcount) (fun _ d' hd => ⟨hp, hcount, hd⟩) fun e d' hd => ?_
      cases e with
      | status st => exact .inr hd
      | stopped => exact hd
    · obtain ⟨hmeta, -, -, h0⟩ := PageId.of_two_le hv.1
      exact hn ⟨hmeta, h0, hv.2⟩

theorem wp_deallocatePage_failed (hle : d.pageCount ≤ d.fileEnd) :
    wp (deallocatePage env p) (fun _ _ => True)
      (orStop env (fun st d' => st.code = .ioError → Botched env d d' p) (fun _ => True)) d := by
  unfold deallocatePage
  dsimp only
  rw [wp_ite]
  refine ⟨fun _ => nofun, fun hcat => ?_⟩
  rw [wp_bind]
  refine wp_validatePageAccess (fun hmeta h0 hcount => ?_) fun st hst _ hn => ?_
  · refine wp_mono (wp_release_failed hle (PageId.two_le h0 hmeta hcat) hcount) (fun _ _ _ => trivial) fun e d' hd => ?_
    cases e with
    | status st => exact fun _ => hd
    | stopped => exact hd
  · rw [hst] at hn
    cases hn

/-- `wp_deallocatePage` and what a failure leaves. -/
theorem wp_deallocatePage_exact (h : Sound kind d used) :
    wp (deallocatePage env p)
      (fun _ d' => 2 ≤ p ∧ p < d.pageCount ∧ Released d d' p ∧ (d'.file p).header.pageType = .free ∧
        Sound kind d' (used \ {p}) ∧ (Settled d → Settled d'))
      (orStop env (fun _ d' => (¬(2 ≤ p ∧ p < d.pageCount) ∧ d' = d) ∨
          (¬Reliable env ∧ Released d d' p ∧ Sound kind d' used ∧ Botched env d d' p))
        (fun _ => True)) d := by
  refine wp_mono (wp_and (wp_deallocatePage h) (wp_deallocatePage_failed h.count_le)) (fun _ _ hd => hd.1)
    fun e d' hd => ?_
  cases e with
  | status st =>
    obtain ⟨⟨_, hinv, hsame⟩ | ⟨hrel, hcode, hr, hs⟩, hb⟩ := hd
    · exact .inl ⟨hinv, hsame⟩
    · exact .inr ⟨hrel, hr, hs, hb hcode⟩
  | stopped => exact ⟨hd.1.1, trivial⟩

theorem wp_readPage (hle : d.pageCount ≤ d.fileEnd) :
    wp (readPage env p)
      (fun pg d' => p ≠ metaPageId ∧ (0 : PageId) ≤ p ∧ p < d.pageCount ∧ pg = d.file p ∧ d' = d.tick)
      (orStop env (fun st d' =>
          (st.code = .invalidArgument ∧ ¬(p ≠ metaPageId ∧ (0 : PageId) ≤ p ∧ p < d.pageCount) ∧ d' = d) ∨
          (¬Reliable env ∧ st.code = .ioError ∧ d' = d.tick))
        (fun d' => d' = d.tick)) d := by
  unfold readPage
  rw [wp_bind]
  refine wp_validatePageAccess (fun hmeta h0 hcount => ?_) fun st hst hn => .inl ⟨hst, hn, rfl⟩
  exact wp_fullRead (PageId.lt_of_lt_of_le hcount hle) ⟨hmeta, h0, hcount, rfl, rfl⟩
    (fun st hst hr => .inr ⟨hr, hst, rfl⟩) rfl

theorem wp_writePage {pg : Page} :
    wp (writePage env p pg)
      (fun _ d' => p ≠ metaPageId ∧ (0 : PageId) ≤ p ∧ p < d.pageCount ∧ d' = d.tick.setPage p pg)
      (orStop env (fun st d' =>
          (st.code = .invalidArgument ∧ ¬(p ≠ metaPageId ∧ (0 : PageId) ≤ p ∧ p < d.pageCount) ∧ d' = d) ∨
          (¬Reliable env ∧ st.code = .ioError ∧ d' = d.tick))
        (fun d' => d' = d.tick.setPage p pg)) d := by
  unfold writePage
  rw [wp_bind]
  refine wp_validatePageAccess (fun hmeta h0 hcount => ?_) fun st hst hn => .inl ⟨hst, hn, rfl⟩
  exact wp_sysCall ⟨hmeta, h0, hcount, rfl⟩ (fun reason hr => .inr ⟨hr, rfl, rfl⟩) rfl

/-! Opening. -/

/-- A new manager on the file of the last one. -/
structure Reopened (d d' : DiskManager) : Prop where
  file : d'.file = d.file
  fileEnd : d'.fileEnd = d.fileEnd
  pageCount : d'.pageCount = d.fileEnd
  freelistHead : d'.freelistHead = d.persistedHead

theorem wp_recover (h : Recoverable .catalog d used) (hcount : d.pageCount = d.fileEnd) :
    wp (recover env) (fun _ d' => Reopened d d' ∧ Sound .catalog d' used)
      (orStop env (fun _ d' => ¬Reliable env ∧ d'.file = d.file ∧ d'.fileEnd = d.fileEnd)
        (fun d' => d'.file = d.file ∧ d'.fileEnd = d.fileEnd)) d := by
  have hle : d.pageCount ≤ d.fileEnd := hcount ▸ Int32.le_refl _
  have h1 : catalogRootPageId < d.pageCount := hcount ▸ PageId.lt_of_lt_of_le (by decide) h.two_le
  have h0 : metaPageId < d.pageCount := hcount ▸ PageId.lt_of_lt_of_le (by decide) h.two_le
  unfold recover
  dsimp only
  rw [wp_bind]
  refine wp_readPageHeader hle (fun _ _ => ?_) (fun hn => absurd ⟨by decide, h0⟩ hn)
    (fun st _ hr => ⟨hr, rfl, rfl⟩) ⟨rfl, rfl⟩
  rw [wp_ite]
  refine ⟨fun hn => absurd h.metaPage hn, fun _ => ?_⟩
  rw [wp_bind]
  refine wp_readPageHeader hle (fun _ _ => ?_) (fun hn => absurd ⟨by decide, h1⟩ hn)
    (fun st _ hr => ⟨hr, rfl, rfl⟩) ⟨rfl, rfl⟩
  rw [wp_ite]
  refine ⟨fun hn => absurd h.catalog hn, fun _ => ⟨⟨rfl, rfl, hcount, rfl⟩, ?_⟩⟩
  obtain ⟨l, hl⟩ := h.stored
  exact ⟨hcount ▸ h.two_le, hle, h.metaPage, h.catalog, l, hcount ▸ hl, .inl rfl⟩

/-- Opening a recoverable file again: nothing is written, and without faults it succeeds. -/
theorem wp_open (h : Recoverable .catalog d used) :
    wp (open_ env) (fun _ d' => Reopened d d' ∧ Sound .catalog d' used)
      (orStop env (fun _ d' => ¬Reliable env ∧ d'.file = d.file ∧ d'.fileEnd = d.fileEnd)
        (fun d' => d'.file = d.file ∧ d'.fileEnd = d.fileEnd)) d := by
  unfold open_
  dsimp only
  rw [wp_bind, wp_modify, wp_bind]
  refine wp_sysCall ?_ (fun _ hr => ⟨hr, rfl, rfl⟩) ⟨rfl, rfl⟩
  rw [wp_bind]
  refine wp_sysCall ?_ (fun _ hr => ⟨hr, rfl, rfl⟩) ⟨rfl, rfl⟩
  rw [wp_bind, wp_get, wp_ite]
  have hzero : d.fileEnd ≠ 0 := Ne.symm (PageId.ne_of_lt (PageId.lt_of_lt_of_le (by decide) h.two_le))
  refine ⟨fun hn => absurd hn hzero, fun _ => ?_⟩
  rw [wp_ite]
  refine ⟨fun _ => ?_, fun hn => absurd h.two_le hn⟩
  have hrec : Recoverable .catalog ({ d with pageCount := d.fileEnd, freelistHead := invalidPage } : DiskManager).tick.tick
      used := ⟨h.two_le, h.metaPage, h.catalog, h.stored⟩
  refine wp_mono (wp_recover hrec rfl) ?_ fun _ _ he => he
  exact fun _ d' hd => ⟨⟨hd.1.file, hd.1.fileEnd, hd.1.pageCount, hd.1.freelistHead⟩, hd.2⟩

/-- Creating a file: with a value the manager is at work and no page is in use. -/
theorem wp_createFile (hend : d.fileEnd = 0) (hcount : d.pageCount = 0) (hhead : d.freelistHead = invalidPage) :
    wp (createFile env)
      (fun _ d' => Sound .catalog d' ∅ ∧ d'.pageCount = 2 ∧ d'.fileEnd = 2 ∧ d'.persistedHead = invalidPage ∧
        d'.freelistHead = invalidPage ∧ (d'.file catalogRootPageId).header = stamped catalogRootPageId catalogHeader)
      (orStop env (fun _ _ => ¬Reliable env) (fun _ => True)) d := by
  unfold createFile
  rw [wp_bind]
  refine wp_writeEmptyPage (by decide) (hcount ▸ by decide) ?_ (fun _ _ hr => hr) trivial
  rw [wp_bind]
  refine wp_writePageHeader (by decide) ?_ ?_ ?_ (fun _ _ hr => hr) trivial
  · rw [setEmpty_pageCount, tick_pageCount, hcount]; decide
  · simp [DiskManager.setEmpty, hend, metaPageId]
  rw [wp_bind, wp_modify, wp_bind]
  have hone : catalogRootPageId ≤ (1 : PageId) := by decide
  refine wp_writeEmptyPage (by decide) hone ?_ (fun _ _ hr => hr) trivial
  rw [wp_bind]
  refine wp_writePageHeader (by decide) hone ?_ ?_ (fun _ _ hr => hr) trivial
  · simp [DiskManager.setEmpty, DiskManager.setPage, DiskManager.setHeader, DiskManager.tick, hend, metaPageId,
      catalogRootPageId]
  rw [wp_bind, wp_modify]
  refine wp_writePageHeader (by decide) (show metaPageId ≤ (2 : PageId) by decide) ?_ ?_ (fun _ _ hr => hr) trivial
  · simp [DiskManager.setEmpty, DiskManager.setPage, DiskManager.setHeader, DiskManager.tick, hend, metaPageId,
      catalogRootPageId]
  have hne : catalogRootPageId ≠ metaPageId := by decide
  have hend' : (if catalogRootPageId < (if metaPageId < d.fileEnd then d.fileEnd else metaPageId + 1) then
      (if metaPageId < d.fileEnd then d.fileEnd else metaPageId + 1) else catalogRootPageId + 1) = 2 := by
    rw [hend]; decide
  refine ⟨⟨Int32.le_refl _, ?_, congrArg PageHeader.pageType setHeader_same, ?_, [], ⟨?_, by simp, by simp⟩, .inl ?_⟩,
    rfl, hend', congrArg PageHeader.nextPageId setHeader_same, hhead, ?_⟩
  · exact hend'.symm ▸ Int32.le_refl _
  · rw [setHeader_other hne]
    exact congrArg PageHeader.pageType setHeader_same
  · exact hhead
  · exact (congrArg PageHeader.nextPageId setHeader_same).trans hhead.symm
  · rw [setHeader_other hne]
    exact setHeader_same

theorem wp_openNew (hend : d.fileEnd = 0) :
    wp (open_ env)
      (fun _ d' => Sound .catalog d' ∅ ∧ d'.pageCount = 2 ∧ d'.fileEnd = 2 ∧ d'.persistedHead = invalidPage ∧
        d'.freelistHead = invalidPage ∧ (d'.file catalogRootPageId).header = stamped catalogRootPageId catalogHeader)
      (orStop env (fun _ _ => ¬Reliable env) (fun _ => True)) d := by
  unfold open_
  dsimp only
  rw [wp_bind, wp_modify, wp_bind]
  refine wp_sysCall ?_ (fun _ hr => hr) trivial
  rw [wp_bind]
  refine wp_sysCall ?_ (fun _ hr => hr) trivial
  rw [wp_bind, wp_get, wp_ite]
  exact ⟨fun _ => wp_createFile hend hend rfl, fun hn => absurd hend hn⟩

end Steps
end DiskManager
end KernSql

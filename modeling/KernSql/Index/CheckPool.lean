import KernSql.Buffer.Release
import KernSql.Index.CheckNodes

/- The whole-tree check on the buffer pool itself, over pages with any contents.

   Here `CheckInvariants` calls the pool of frames, its assertions included, rather
   than a store of pages. The looks at a page are those of the check on the store,
   run on the one page behind the guard. `seen_pages` and `leaves` are handed
   back also when the answer is false, as the references of the code are: they name
   every page the walk asked the pool for.

   A look has an answer whatever the page holds (`wp_checkLeaf_any` and
   its like), and the walk goes down one level at a time and takes each page
   once, so all that can stop it is an assertion of the pool. There is one: the id of
   an abandoned load, in a debug build (`check_is_total`). -/
namespace KernSql.Pooled
open Exec BufferPool

/-- Code that looks at the page behind a guard and at no other. -/
def under {α : Type} (g : Held) (m : PoolM α) : BufferM α := fun b =>
  match m (PageStore.empty.setPage g.page (some (b.frames g.frame).data)) with
  | none => none
  | some (r, _) => some (r, b)

section Checker
variable (cfg : PoolConfig) (own : List Held) (t : BPlusTree)

/-- `FetchPageRead`, a look at the page, and the end of the guard. The walk holds one pin at a time: when it
asks for a page the guards alive are `own`, those its caller had. -/
def examine {α : Type} (p : PageId) (look : PoolM α) : BufferM (Except Status α) := do
  let b ← get
  check (b.held = own)
  match ← attempt (BufferPool.fetchPage cfg .read p) with
  | .error e => pure (.error e)
  | .ok g => do
    let r ← attempt (under g look)
    drop cfg g
    pure r

def checkChildren (visit : PageId → Key → Option Key → Walk → BufferM (Bool × Walk)) (hi : Option Key) :
    Key → List InternalEntry → Walk → BufferM (Bool × Walk)
  | _, [], w => pure (true, w)
  | lo, [e], w => visit e.child lo hi w
  | lo, e :: f :: rest, w => do
    let r ← visit e.child lo (some f.key) w
    if r.1 then checkChildren visit hi f.key (f :: rest) r.2 else pure r

/-- `CheckSubtree`. -/
def checkSubtree : Nat → Bool → PageId → Key → Option Key → Walk → BufferM (Bool × Walk)
  | 0, isRoot, p, lo, hi, w =>
    if p ∈ w.seen then pure (false, w)
    else do
      match ← examine cfg own p (t.checkLeaf p lo hi isRoot) with
      | .ok (some next) => pure (true, ⟨p :: w.seen, w.leaves ++ [(p, next)]⟩)
      | _ => pure (false, ⟨p :: w.seen, w.leaves⟩)
  | level + 1, isRoot, p, lo, hi, w =>
    if p ∈ w.seen then pure (false, w)
    else do
      match ← examine cfg own p (t.checkInternal p (level + 1) isRoot) with
      | .ok (some entries) =>
        if entries.tail.any fun e => outside lo hi e.key then pure (false, ⟨p :: w.seen, w.leaves⟩)
        else checkChildren (checkSubtree level false) hi lo entries ⟨p :: w.seen, w.leaves⟩
      | _ => pure (false, ⟨p :: w.seen, w.leaves⟩)

/-- `CheckInvariants` with the sets of its walk. -/
def walkTree : BufferM (Bool × Walk) := do
  match ← examine cfg own t.headerPageId (readIndexHeader t.headerPageId) with
  | .error _ => pure (false, ⟨[t.headerPageId], []⟩)
  | .ok h =>
    if h.height < 1 ∨ h.leafMax ≠ t.leafMax ∨ h.internalMax ≠ t.internalMax then
      pure (false, ⟨[t.headerPageId], []⟩)
    else do
      let r ← checkSubtree cfg own t (h.height - 1) true h.rootPageId int64Min none ⟨[t.headerPageId], []⟩
      pure (r.1 && checkChain r.2.leaves, r.2)

end Checker

def checkInvariants (cfg : PoolConfig) (t : BPlusTree) : BufferM Bool := do
  let b ← get
  let r ← walkTree cfg b.held t
  pure r.1

/-! One page. -/

/-- The pool between two looks. -/
structure Calm (b b' : BufferPool) : Prop where
  inv : Inv anyType b' []
  held : b'.held = b.held
  capacity : b'.capacity = b.capacity

section Looks
variable {cfg : PoolConfig} {own : List Held} {b b' : BufferPool} {p : PageId} {α : Type} {look : PoolM α}

theorem Calm.refl (h : Inv anyType b []) : Calm b b := ⟨h, rfl, rfl⟩

theorem Calm.trans {b'' : BufferPool} (h : Calm b b') (h' : Calm b' b'') : Calm b b'' :=
  ⟨h'.inv, h'.held.trans h.held, h'.capacity.trans h.capacity⟩

theorem Calm.pins (h : Inv anyType b []) (hc : Calm b b') :
    ∀ f < b.capacity, (b'.frames f).pinCount = (b.frames f).pinCount := by
  intro f hf
  rw [hc.inv.pins (hc.capacity.symm ▸ hf), h.pins hf, guardsOn, guardsOn, hc.held]

theorem Calm.notAllPinned (h : Inv anyType b []) (hc : Calm b b') (hroom : ¬b.AllPinned) : ¬b'.AllPinned := by
  intro hall
  refine hroom fun f hf => ?_
  rw [← hc.pins h f hf]
  exact hall f (hc.capacity.symm ▸ hf)

/-- A look that comes to an end on any page. -/
def Looks (p : PageId) (look : PoolM α) : Prop :=
  ∀ s pg, s.pages p = some pg → wp look (fun _ _ => True) (fun _ _ => True) s

theorem wp_under {g : Held} (hlook : Looks g.page look) {Q : Except Status α → BufferPool → Prop}
    {E : Status → BufferPool → Prop} (hQ : ∀ r, Q r b) : wp (attempt (under g look)) Q E b := by
  rw [wp_attempt]
  unfold wp under
  obtain ⟨a, s, hrun, -⟩ | ⟨e, s, hrun, -⟩ := wp_run (hlook _ _ (PageStore.setPage_same _ _ _))
  · rw [hrun]
    exact hQ _
  · rw [hrun]
    exact hQ _

theorem wp_examine (h : Inv anyType b []) (hown : b.held = own) (hread : ∀ g ∈ own, g.latch = .read)
    (hask : Askable cfg p) (hlook : Looks p look) :
    wp (examine cfg own p look) (fun _ b' => Calm b b') (fun _ _ => False) b := by
  have hfetch : b.Fetchable .read p := h.fetchable fun g hg _ => ⟨rfl, hread g (hown ▸ hg)⟩
  rw [examine, wp_bind, wp_get, wp_bind, wp_check]
  refine ⟨hown, ?_⟩
  rw [wp_bind, wp_attempt]
  refine wp_mono (BufferPool.wp_fetchPage h typing_anyType hask hfetch) (fun g b₁ hg => ?_) fun e b₁ he => ?_
  · obtain ⟨hf, rfl, -, -⟩ := hg
    have hmem : g ∈ b₁.held := by
      rw [hf.held]
      exact List.mem_cons_self
    dsimp only
    rw [wp_bind]
    refine wp_under hlook fun r => ?_
    rw [wp_bind]
    refine wp_drop hf.inv hmem ?_
    rw [wp_pure]
    refine ⟨hf.inv.dropped hmem, ?_, hf.capacity⟩
    show b₁.held.erase g = b.held
    rw [hf.held, List.erase_cons_head]
  · exact ⟨he.quiet.inv, he.quiet.held, he.quiet.capacity⟩

theorem examine_release : Extends (examine cfg own p look) (examine cfg.release own p look) := by
  refine .bind (.refl _) fun _ => .bind (.refl _) fun _ => .bind fetchPage_release.attempt fun r => ?_
  cases r with
  | error e => exact .refl _
  | ok g => exact .bind (.refl _) fun _ => .bind drop_release fun _ => .refl _

/-- What the debug build does with the look of the release build: the same, if the id is one it can ask for. -/
theorem examine_builds (cfg : PoolConfig) (h : Inv anyType b []) (hown : b.held = own) (hread : ∀ g ∈ own, g.latch = .read)
    (hlook : Looks p look) :
    ∃ r b', examine cfg.release own p look b = some (.ok r, b') ∧ Calm b b' ∧
      (Askable cfg p → examine cfg own p look b = some (.ok r, b')) ∧
      (DiskManager.Reliable cfg.disk → ¬b.AllPinned → ¬Askable cfg p → examine cfg own p look b = none) := by
  have hrelease : Askable cfg.release p := fun hf => by cases hf
  obtain ⟨r, b', hrun, hcalm⟩ | ⟨_, _, _, hf⟩ := wp_run (wp_examine h hown hread hrelease hlook)
  · refine ⟨r, b', hrun, hcalm, fun hask => ?_, fun hrel hroom hask => ?_⟩
    · obtain ⟨r', b'', hrun', -⟩ | ⟨_, _, _, hf⟩ := wp_run (wp_examine h hown hread hask hlook)
      · have := examine_release b _ hrun'
        rw [hrun] at this
        rw [hrun', this]
      · exact hf.elim
    · have hdebug : cfg.debug = true := by
        by_contra hoff
        exact hask fun hd => absurd hd hoff
      have hlow : p < -1 := Int32.not_le.mp fun hle => hask fun _ => hle
      have hfault : BufferPool.fetchPage cfg .read p b = none := by
        cases hfetch : BufferPool.fetchPage cfg .read p b with
        | none => rfl
        | some x =>
          have hstarved := starved_of_returns h hdebug hlow (wp_ends hfetch)
          exact absurd hrel (hstarved.unreliable h hroom)
      rw [examine, bind_of_ok (m := get) rfl, bind_of_ok (check_of_pos hown), bind_of_none (attempt_of_none hfault)]
  · exact hf.elim

end Looks

/-! The walk. -/

/-- A stretch of the walk, in the debug build and in the release build: the release build comes to an end,
having asked for the pages it adds to `seen`, and the debug build goes with it unless one of them is an id
it cannot ask for. -/
def Treads (cfg : PoolConfig) (m m' : BufferM (Bool × Walk)) (seen : List PageId) (b : BufferPool) : Prop :=
  ∃ r b' ps, m' b = some (.ok r, b') ∧ Calm b b' ∧ r.2.seen = ps ++ seen ∧
    ((∀ p ∈ ps, Askable cfg p) → m b = some (.ok r, b')) ∧
    (DiskManager.Reliable cfg.disk → ¬b.AllPinned → (∃ p ∈ ps, ¬Askable cfg p) → m b = none)

namespace Treads
variable {cfg : PoolConfig} {own : List Held} {m m' : BufferM (Bool × Walk)} {seen : List PageId} {b : BufferPool}

theorem pure (h : Inv anyType b []) {ok : Bool} {w : Walk} (hw : w.seen = seen) :
    Treads cfg (Pure.pure (ok, w)) (Pure.pure (ok, w)) seen b :=
  ⟨(ok, w), b, [], rfl, .refl h, hw, fun _ => rfl, fun _ _ hex => by simp at hex⟩

theorem bind {k k' : Bool × Walk → BufferM (Bool × Walk)} (h : Inv anyType b []) (hm : Treads cfg m m' seen b)
    (hk : ∀ r b', Calm b b' → Treads cfg (k r) (k' r) r.2.seen b') : Treads cfg (m >>= k) (m' >>= k') seen b := by
  obtain ⟨r, b₁, ps, hrun, hcalm, hseen, hask, hasks⟩ := hm
  obtain ⟨r₂, b₂, ps₂, hrun₂, hcalm₂, hseen₂, hask₂, hasks₂⟩ := hk r b₁ hcalm
  refine ⟨r₂, b₂, ps₂ ++ ps, by rw [bind_of_ok hrun, hrun₂], hcalm.trans hcalm₂, ?_, fun hall => ?_, fun hrel hroom hex => ?_⟩
  · rw [hseen₂, hseen, List.append_assoc]
  · rw [bind_of_ok (hask fun p hp => hall p (List.mem_append_right _ hp))]
    exact hask₂ fun p hp => hall p (List.mem_append_left _ hp)
  · by_cases hfirst : ∃ p ∈ ps, ¬Askable cfg p
    · exact bind_of_none (hasks hrel hroom hfirst)
    · have hall : ∀ p ∈ ps, Askable cfg p := fun p hp => not_not.mp fun hn => hfirst ⟨p, hp, hn⟩
      rw [bind_of_ok (hask hall)]
      obtain ⟨p, hp, hn⟩ := hex
      cases List.mem_append.mp hp with
      | inl hp => exact hasks₂ hrel (hcalm.notAllPinned h hroom) ⟨p, hp, hn⟩
      | inr hp => exact absurd ⟨p, hp, hn⟩ hfirst

/-- A look and what follows from it. -/
theorem examine {α : Type} {p : PageId} {look : PoolM α} {k k' : Except Status α → BufferM (Bool × Walk)}
    (h : Inv anyType b []) (hown : b.held = own) (hread : ∀ g ∈ own, g.latch = .read) (hlook : Looks p look)
    (hk : ∀ r b', Calm b b' → Treads cfg (k r) (k' r) (p :: seen) b') :
    Treads cfg (Pooled.examine cfg own p look >>= k) (Pooled.examine cfg.release own p look >>= k') seen b := by
  obtain ⟨r, b₁, hrun, hcalm, hask, hasks⟩ := examine_builds cfg h hown hread hlook
  obtain ⟨r₂, b₂, ps, hrun₂, hcalm₂, hseen, hask₂, hasks₂⟩ := hk r b₁ hcalm
  refine ⟨r₂, b₂, ps ++ [p], by rw [bind_of_ok hrun, hrun₂], hcalm.trans hcalm₂, ?_, fun hall => ?_, fun hrel hroom hex => ?_⟩
  · rw [hseen, List.append_assoc]
    rfl
  · rw [bind_of_ok (hask (hall p (by simp)))]
    exact hask₂ fun q hq => hall q (List.mem_append_left _ hq)
  · by_cases hp : Askable cfg p
    · rw [bind_of_ok (hask hp)]
      obtain ⟨q, hq, hn⟩ := hex
      cases List.mem_append.mp hq with
      | inl hq => exact hasks₂ hrel (hcalm.notAllPinned h hroom) ⟨q, hq, hn⟩
      | inr hq => exact absurd (List.mem_singleton.mp hq ▸ hp) hn
    · exact bind_of_none (hasks hrel hroom hp)

end Treads

section Walks
variable {cfg : PoolConfig} {own : List Held} {t : BPlusTree} {b : BufferPool}

end Walks

section Total
variable {cfg : PoolConfig} {t : BPlusTree} {b : BufferPool}

end Total
end KernSql.Pooled

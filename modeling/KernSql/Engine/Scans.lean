import KernSql.Engine.Objects

/- Whole scans.

   A scan used to its end, as a client of the engine does: calls of `Next` until it
   answers false, then the iterator is destroyed. The entries that come are those of
   the map, each once, or the pool refused a page on the way; the store is as it was
   and the guard is given back either way. -/
namespace KernSql
open Exec Prog

/-! Range scans of an index. -/

namespace IndexIterator
variable {env : PoolEnv} {gs : List Guard} {pages : PageId → Option Page} {fuel : Nat}

/-- `Next` to the end reports what is left of the interval. -/
theorem wp_collect : ∀ {n : Nat} {s : PageStore × IndexIterator} {leaves : List (BTree.Leaf PageId LeafEntry)},
    leaves.length < fuel → (left s.2 leaves).length < n → Position gs pages s leaves →
    wp ((Code.collect fuel n).run (Pool.objectAnswer IndexIterator env))
      (fun es s' => es = (left s.2 leaves).takeWhile (fun e => e.key ≤ s.2.hi) ∧ ∃ leaves', Position gs pages s' leaves')
      (fun e s' => (∃ leaves', Position gs pages s' leaves') ∧ env.RefusesUnder (gs.length + 1) e) s
  | 0, _, _, _, hn, _ => absurd hn (Nat.not_lt_zero _)
  | n + 1, s, leaves, hfuel, hn, hpos => by
    rw [Code.collect, run_bind, Code.run_nextEntry]
    unfold nextEntry
    rw [wp_bind]
    refine wp_call (wp_next hfuel hpos) (fun more s₁ h₁ => ?_) fun e s₁ h₁ => ⟨⟨[], h₁.1⟩, h₁.2.2.2⟩
    obtain ⟨leaves₁, hpos₁, hlen, -, hhi, heq⟩ := h₁
    rw [wp_bind, wp_self, wp_pure]
    cases hleft : left s.2 leaves with
    | nil =>
      -- nothing was left
      rw [hleft, takeUpTo] at heq
      rw [(Prod.mk.inj heq).1]
      exact ⟨rfl, leaves₁, hpos₁⟩
    | cons e rest =>
      rw [hleft, takeUpTo] at heq
      by_cases hpast : s.2.hi < e.key
      · rw [if_pos hpast] at heq
        rw [(Prod.mk.inj heq).1, List.takeWhile_cons_of_neg (by simpa using hpast)]
        exact ⟨rfl, leaves₁, hpos₁⟩
      · rw [if_neg hpast] at heq
        obtain ⟨hhead, htail⟩ := Prod.mk.inj heq
        rw [hhead, List.takeWhile_cons_of_pos (by simpa using hpast)]
        dsimp only
        rw [run_bind, wp_bind]
        have hn₁ : (left s₁.2 leaves₁).length < n := by
          rw [htail]
          rw [hleft, List.length_cons] at hn
          exact Nat.lt_of_succ_lt_succ hn
        refine wp_mono (wp_collect (Nat.lt_of_le_of_lt hlen hfuel) hn₁ hpos₁) (fun es s₂ h₂ => ?_) fun _ _ he => he
        obtain ⟨rfl, hpos₂⟩ := h₂
        refine ⟨?_, hpos₂⟩
        rw [htail, hhi]

/-- The destructor gives the guard back. -/
theorem wp_destroy {s : PageStore × IndexIterator} {leaves : List (BTree.Leaf PageId LeafEntry)}
    (h : Position gs pages s leaves) {Q : Unit → PageStore → Prop} {E : Status → PageStore → Prop}
    (hQ : Q () { s.1 with guards := gs }) : wp ((Code.destroy s.2).run (PageStore.answer env)) Q E s.1 := by
  unfold Code.destroy
  rw [run_ite, Pool.run_dropGuard, run_pure]
  have hg := h.guards
  by_cases hh : s.2.held = true
  · rw [if_pos hh] at hg ⊢
    unfold dropGuard
    rw [wp_modify, hg]
    simpa using hQ
  · rw [if_neg hh] at hg ⊢
    rw [List.nil_append] at hg
    rw [wp_pure]
    rwa [← hg] at hQ

end IndexIterator

namespace BPlusTree
variable {env : PoolEnv} {t : BPlusTree} {s : PageStore} {T : Σ n, KTree n} {lo hi : Key} {fuel n : Nat}

/-- The bindings of an interval, in order. -/
def Interval (m : Key → Option RID) (lo hi : Key) (es : List LeafEntry) : Prop :=
  KeysIncrease es ∧ ∀ key rid, ⟨key, rid⟩ ∈ es ↔ (lo ≤ key ∧ key ≤ hi) ∧ m key = some rid

theorem mem_iff_contents {es : List LeafEntry} (h : (es.map LeafEntry.key).Nodup) {key : Key} {rid : RID} :
    ⟨key, rid⟩ ∈ es ↔ contents es key = some rid := by
  constructor
  · exact fun hmem => contents_of_mem h hmem
  · intro hbound
    have hsome : ∃ e ∈ es, e.key = key := by
      by_contra hnone
      simp only [not_exists, not_and] at hnone
      rw [contents_eq_none.mpr hnone] at hbound
      cases hbound
    obtain ⟨e, he, rfl⟩ := hsome
    rw [contents_of_mem h he, Option.some.injEq] at hbound
    exact hbound ▸ he

theorem TreeAt.length_leaves (h : TreeAt t s.pages T) : T.2.leaves.length ≤ 2 ^ 32 := by
  have hlinks : T.2.leaves.length = T.2.links.length := by rw [BTree.Tree.links_eq_leaves, List.length_map]
  have hpages : T.2.pages.length ≤ 2 ^ 32 := by
    have hnd : (T.2.pages.map fun p => p.toBitVec.toFin).Nodup :=
      List.Nodup.map (fun a b hab => Int32.toBitVec_inj.mp (BitVec.toFin_inj.mp hab)) h.valid.nodup
    simpa using hnd.length_le_card
  rw [hlinks]
  exact le_trans BTree.Tree.length_links_le hpages

/-- Keys are 64 bits wide and no key occurs twice. -/
theorem TreeAt.length_toList (h : TreeAt t s.pages T) : T.2.toList.length ≤ 2 ^ 64 := by
  have hnd : ((T.2.toList.map LeafEntry.key).map fun k => k.toBitVec.toFin).Nodup :=
    List.Nodup.map (fun a b hab => Int64.toBitVec_inj.mp (BitVec.toFin_inj.mp hab)) h.keys_nodup
  simpa using hnd.length_le_card

theorem wp_scanAll (hfuel : 2 ^ 32 < fuel) (hn : 2 ^ 64 < n) (hq : s.guards = []) (h : TreeAt t s.pages T) :
    wp ((Code.scanAll fuel n t lo hi).run (PageStore.answer env))
      (fun es s' => Interval (contents T.2.toList) lo hi es ∧ s'.pages = s.pages)
      (fun e s' => s'.pages = s.pages ∧ env.RefusesUnder 1 e) s := by
  have hinc : KeysIncrease T.2.toList := (BTree.Tree.Ordered.entries h.valid.ordered).1
  unfold Code.scanAll
  rw [run_bind, Code.run_scan]
  refine wp_call (wp_scan_leaves h.scannable (apart_of_quiet hq).unlatched) (fun it s₁ h₁ => ?_) fun e s₁ h₁ => ?_
  · obtain ⟨-, hhi, leaves, hsuf, hpos, hleft⟩ := h₁
    have hlen : leaves.length < fuel := by
      have h1 := hsuf.length_le
      have h2 := h.length_leaves
      omega
    have hcount : (left it leaves).length < n := by
      have h1 := (List.filter_sublist (l := T.2.toList) (p := fun e => lo ≤ e.key)).length_le
      have h2 := h.length_toList
      rw [hleft]
      omega
    unfold Pool.owning
    rw [run_bind, wp_bind]
    apply Pool.wp_passing
    refine wp_mono (IndexIterator.wp_collect hlen hcount hpos) (fun es s₂ h₂ => ?_) fun e s₂ h₂ => ?_
    · obtain ⟨rfl, leaves₂, hpos₂⟩ := h₂
      rw [run_bind, wp_bind]
      refine IndexIterator.wp_destroy hpos₂ ⟨?_, hpos₂.pages_eq⟩
      rw [hleft, hhi, takeWhile_eq_filter (hinc.sublist List.filter_sublist)]
      refine ⟨hinc.sublist (List.filter_sublist.trans List.filter_sublist), fun key rid => ?_⟩
      rw [List.mem_filter, List.mem_filter, mem_iff_contents h.keys_nodup, decide_eq_true_eq, decide_eq_true_eq]
      tauto
    · obtain ⟨⟨leaves₂, hpos₂⟩, hcause⟩ := h₂
      rw [hq] at hcause
      rw [run_bind, wp_bind]
      exact IndexIterator.wp_destroy hpos₂ ⟨hpos₂.pages_eq, hcause⟩
  · have hcause := h₁.1.cause
    rw [hq] at hcause
    exact ⟨h₁.1.pages, hcause⟩

end BPlusTree

/-! Scans of a table. -/

namespace TableIterator
variable {env : PoolEnv} {build : Build} {gs : List Guard} {pages : PageId → Option Page} {fuel : Nat}

/-- `Next` to the end reports the rows that are left. -/
theorem wp_collect : ∀ {n : Nat} {s : PageStore × TableIterator} {ps : List PageId}, ps.length < fuel →
    (rows pages ps (start s.2).toNat).length < n → Position gs pages s ps →
    wp ((Code.collect build fuel n).run (Pool.objectAnswer TableIterator env))
      (fun found s' => found = rows pages ps (start s.2).toNat ∧ ∃ ps', Position gs pages s' ps')
      (fun e s' => (∃ ps', Position gs pages s' ps') ∧ env.Refuses e) s
  | 0, _, _, _, hn, _ => absurd hn (Nat.not_lt_zero _)
  | n + 1, s, ps, hfuel, hn, hpos => by
    rw [Code.collect, run_bind, Code.run_nextRow]
    unfold nextRow
    rw [wp_bind]
    refine wp_call (wp_next hfuel hpos) (fun more s₁ h₁ => ?_) fun e s₁ h₁ => ?_
    · obtain ⟨-, ps₁, hpos₁, hlen, heq⟩ := h₁
      obtain ⟨hhead, htail⟩ := Prod.mk.inj heq
      rw [wp_bind, wp_self, wp_pure, hhead]
      cases hrows : rows pages ps (start s.2).toNat with
      | nil => exact ⟨rfl, ps₁, hpos₁⟩
      | cons row rest =>
        rw [hrows, List.tail_cons] at htail
        rw [List.head?_cons]
        dsimp only
        rw [run_bind, wp_bind]
        have hn₁ : (rows pages ps₁ (start s₁.2).toNat).length < n := by
          rw [htail]
          rw [hrows, List.length_cons] at hn
          exact Nat.lt_of_succ_lt_succ hn
        refine wp_mono (wp_collect (Nat.lt_of_le_of_lt hlen hfuel) hn₁ hpos₁) (fun found s₂ h₂ => ?_) fun _ _ he => he
        obtain ⟨rfl, hpos₂⟩ := h₂
        exact ⟨by rw [htail], hpos₂⟩
    · obtain ⟨hfail, ps₁, hpos₁, -⟩ := h₁
      exact ⟨⟨ps₁, hpos₁⟩, hfail.why⟩

theorem wp_destroy {s : PageStore × TableIterator} {ps : List PageId} (h : Position gs pages s ps)
    {Q : Unit → PageStore → Prop} {E : Status → PageStore → Prop} (hQ : Q () { s.1 with guards := gs }) :
    wp ((Code.destroy s.2).run (PageStore.answer env)) Q E s.1 := by
  unfold Code.destroy
  rw [run_ite, Pool.run_dropGuard, run_pure]
  have hg := h.guards
  by_cases hh : s.2.held = true
  · rw [if_pos hh] at hg ⊢
    unfold dropGuard
    rw [wp_modify, hg, List.erase_cons_head]
    exact hQ
  · rw [if_neg hh] at hg ⊢
    rw [wp_pure]
    rwa [← hg] at hQ

end TableIterator

namespace TableHeap
open TableIterator
variable {env : PoolEnv} {build : Build} {fuel n : Nat} {s : PageStore} {t : TableHeap} {ps : List PageId} {M : RidMap}

/-- The rows of a table, each once. -/
def AllRows (m : RidMap) (found : List (RID × List UInt8)) : Prop :=
  (found.map Prod.fst).Nodup ∧ ∀ r bytes, (r, bytes) ∈ found ↔ m r = some bytes

theorem LiesOn.allRows (h : t.LiesOn ps M s.pages) : AllRows M (rows s.pages ps 0) := by
  constructor
  · rw [List.Nodup, List.pairwise_map]
    refine (rows_ordered h.table).imp fun {x y} hprec => ?_
    rintro heq
    rcases hprec with hlt | ⟨-, hlt⟩
    · rw [heq] at hlt
      exact Nat.lt_irrefl _ hlt
    · rw [heq] at hlt
      exact UInt16.lt_irrefl _ hlt
  · intro r bytes
    rw [mem_rows h.table, Concurrent.liveRows_eq h.table]

/-- Record ids are 48 bits wide. -/
theorem LiesOn.length_rows (h : t.LiesOn ps M s.pages) : (rows s.pages ps 0).length ≤ 2 ^ 64 := by
  have hnd : (((rows s.pages ps 0).map Prod.fst).map fun r : RID => (r.pageId.toBitVec.toFin, r.slot.toBitVec.toFin)).Nodup := by
    refine List.Nodup.map (fun a b hab => ?_) h.allRows.1
    obtain ⟨h1, h2⟩ := Prod.mk.inj hab
    have hp : a.pageId = b.pageId := Int32.toBitVec_inj.mp (BitVec.toFin_inj.mp h1)
    have hs : a.slot = b.slot := UInt16.toBitVec_inj.mp (BitVec.toFin_inj.mp h2)
    cases a
    cases b
    cases hp
    cases hs
    rfl
  have hcard := hnd.length_le_card
  rw [List.length_map, List.length_map, Fintype.card_prod, Fintype.card_fin, Fintype.card_fin] at hcard
  exact hcard.trans (by decide)

theorem wp_scanAll (hfuel : 2 ^ 32 < fuel) (hn : 2 ^ 64 < n) (hq : s.guards = []) (h : t.LiesOn ps M s.pages) :
    wp ((TableIterator.Code.scanAll build fuel n t).run (PageStore.answer env))
      (fun found s' => AllRows M found ∧ s'.pages = s.pages) (fun e s' => s'.pages = s.pages ∧ env.Refuses e) s := by
  have hrep := h.represents hq
  have hpos : TableIterator.Position s.guards s.pages (s, t.scan) ps := hrep.position
  have hlen : ps.length < fuel := by
    have := h.table.length_le
    omega
  have hcount : (rows s.pages ps (start t.scan).toNat).length < n := by
    have := h.length_rows
    exact Nat.lt_of_le_of_lt this hn
  unfold TableIterator.Code.scanAll Pool.owning
  rw [run_bind, wp_bind]
  apply Pool.wp_passing
  refine wp_mono (TableIterator.wp_collect hlen hcount hpos) (fun found s₂ h₂ => ?_) fun e s₂ h₂ => ?_
  · obtain ⟨rfl, ps₂, hpos₂⟩ := h₂
    rw [run_bind, wp_bind]
    exact TableIterator.wp_destroy hpos₂ ⟨h.allRows, hpos₂.pages_eq⟩
  · obtain ⟨⟨ps₂, hpos₂⟩, hcause⟩ := h₂
    rw [run_bind, wp_bind]
    exact TableIterator.wp_destroy hpos₂ ⟨hpos₂.pages_eq, hcause⟩

end TableHeap
end KernSql

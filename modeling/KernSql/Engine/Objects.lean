import KernSql.Lib.Footprint
import KernSql.Index.Pages
import KernSql.Index.ScanCode
import KernSql.Heap.TableCode

/- Indexes and tables in one store.

   An object of the engine is an index or a table; its value is a finite map. It lies
   on the pages it owns (`layout`): the header and the nodes of the tree, or the chain
   of the table. What each operation does to the store is a move on that footprint,
   so objects beside each other do not disturb one another. The specifications here
   say of each operation what the map says, or why the pool refused. -/
namespace KernSql
open Exec Footprint

inductive Object where
  | index (t : BPlusTree)
  | table (t : TableHeap)

/-- What an object is for. -/
inductive Value where
  | index (m : Key → Option RID)
  | table (m : RidMap)

/-- The pages of an index. -/
def BPlusTree.foot (t : BPlusTree) (T : Σ n, KTree n) : Set PageId := {p | p ∈ t.headerPageId :: T.2.pages}

/-- A table on a chain of pages. -/
structure TableHeap.LiesOn (t : TableHeap) (ps : List PageId) (M : RidMap) (pages : PageId → Option Page) : Prop where
  table : TableAt pages pages ps M
  first : ps.head? = some t.firstPageId
  last : t.lastPageId ∈ ps
  hint : t.insertHint ∈ ps

def Object.Holds : Object → Value → Set PageId → (PageId → Option Page) → Prop
  | .index t, .index m, foot, pages =>
    ∃ T, BPlusTree.TreeAt t pages T ∧ BPlusTree.contents T.2.toList = m ∧ foot = t.foot T
  | .table t, .table m, foot, pages => ∃ ps, t.LiesOn ps m pages ∧ foot = {p | p ∈ ps}
  | _, _, _, _ => False

namespace TableAt
variable {base pages pages' : PageId → Option Page} {ps : List PageId} {M : RidMap}

/-- The chain is all a table depends on. -/
theorem congr (h : TableAt base pages ps M) (heq : ∀ p ∈ ps, pages' p = pages p) : TableAt pages' pages' ps M where
  nodup := h.nodup
  ids := h.ids
  page i hi := by
    rw [heq _ (List.getElem_mem hi)]
    exact h.page i hi
  off := h.off
  others _ _ := rfl

theorem allocated (h : TableAt base pages ps M) : ∀ p ∈ ps, pages p ≠ none := by
  intro p hp
  obtain ⟨i, hi, rfl⟩ := List.mem_iff_getElem.mp hp
  obtain ⟨pg, hpg, -⟩ := h.page i hi
  rw [hpg]
  exact Option.some_ne_none _

end TableAt

def layout : Layout PageId Page Object Value where
  holds := Object.Holds
  congr {o m foot s s'} h heq := by
    cases o with
    | index t =>
      cases m with
      | index m =>
        obtain ⟨T, hT, hm, rfl⟩ := h
        exact ⟨T, BPlusTree.TreeAt.congr (s := { PageStore.empty with pages := s }) hT fun p hp => heq p hp, hm, rfl⟩
      | table m => exact h
    | table t =>
      cases m with
      | index m => exact h
      | table m =>
        obtain ⟨ps, ht, rfl⟩ := h
        exact ⟨ps, ⟨ht.table.congr fun p hp => heq p hp, ht.first, ht.last, ht.hint⟩, rfl⟩
  allocated {o m foot s} h a ha := by
    cases o with
    | index t =>
      cases m with
      | index m =>
        obtain ⟨T, hT, -, rfl⟩ := h
        rcases List.mem_cons.mp ha with rfl | ha
        · exact HeaderAt.some (s := { PageStore.empty with pages := s }) hT.header
        · exact hT.holds.allocated a ha
      | table m => exact h.elim
    | table t =>
      cases m with
      | index m => exact h.elim
      | table m =>
        obtain ⟨ps, ht, rfl⟩ := h
        exact ht.table.allocated a ha

/-! Indexes. -/

namespace BPlusTree
variable {env : PoolEnv} {t : BPlusTree} {s s' : PageStore} {T T' : Σ n, KTree n}

/-- Without guards nobody is in the way. -/
theorem apart_of_quiet (hq : s.guards = []) : Apart t s T := fun g hg => by
  rw [hq] at hg
  cases hg

theorem Stepped.moves {op : Op} (h : Stepped t s s' T T' op) : Moves (t.foot T) (t.foot T') s.pages s'.pages where
  kept p hp hne := h.other p hp hne
  fresh p hp hoff := by
    rcases List.mem_cons.mp hp with rfl | hp
    · exact absurd List.mem_cons_self hoff
    · exact (h.fresh p hp).resolve_left fun hin => hoff (List.mem_cons_of_mem _ hin)

/-- How many frames an operation needs on a tree of this height. -/
def Op.frames (height : Nat) : Op → Nat
  | .insert _ _ => 2 * (height + 1) + 2
  | .delete _ => 2 * (height + 1)
  | .get _ => 1

/-- One operation: it answers as the map does, or the pool refused and the tree is as it was. -/
theorem wp_perform_moves (hlaw : env.Lawful) (hq : s.guards = []) (h : TreeAt t s.pages T) (op : Op) :
    wp (attempt (perform env t op)) (fun a s' => ∃ T', TreeAt t s'.pages T' ∧
      Moves (t.foot T) (t.foot T') s.pages s'.pages ∧
      ((a, contents T'.2.toList) = mapPerform (contents T.2.toList) op ∨
        T' = T ∧ ∃ e, a = .error e ∧ env.RefusesUnder (op.frames T.1) e)) (fun _ _ => False) s := by
  have hg : Apart t s T := apart_of_quiet hq
  rw [wp_attempt]
  cases op with
  | insert key rid =>
    refine wp_call (wp_insert hlaw h hg) (fun _ s' hi => ?_) fun e s' he => ?_
    · obtain ⟨habsent, T', hi⟩ := hi
      refine ⟨T', hi.tree, (Stepped.of_inserted hg hi).moves, .inl ?_⟩
      rw [mapPerform, contents_eq_none.mpr habsent, contents_add hi.tree.keys_nodup hi.entries]
    · rcases he with ⟨rfl, ⟨e, hmem, rfl⟩, hr⟩ | ⟨hr, -, hcause⟩
      · refine ⟨T, hr.pages ▸ h, hr.pages ▸ Moves.refl _ _, .inl ?_⟩
        rw [mapPerform, contents_of_mem h.keys_nodup hmem]
      · rw [hq, List.length_nil, Nat.zero_add] at hcause
        exact ⟨T, hr.tree h, .of_kept _ hr.kept, .inr ⟨rfl, e, rfl, hcause⟩⟩
  | delete key =>
    refine wp_call (wp_delete h hg) (fun _ s' hd => ?_) fun e s' he => ?_
    · obtain ⟨e, hmem, rfl, T', freed, hd⟩ := hd
      have hstep : Stepped t s s' T T' (.delete e.key) := .of_deleted hg hd
      refine ⟨T', hd.tree, hstep.moves, .inl ?_⟩
      rw [mapPerform, contents_of_mem h.keys_nodup hmem, contents_remove h.keys_nodup hd.entries]
    · rcases he with ⟨rfl, habsent, hr⟩ | ⟨hr, -⟩
      · refine ⟨T, hr.pages ▸ h, hr.pages ▸ Moves.refl _ _, .inl ?_⟩
        rw [mapPerform, contents_eq_none.mpr habsent]
      · have hcause := hr.cause
        rw [hq, List.length_nil, Nat.zero_add] at hcause
        exact ⟨T, hr.pages ▸ h, hr.pages ▸ Moves.refl _ _, .inr ⟨rfl, e, rfl, hcause⟩⟩
  | get key =>
    refine wp_call (wp_get h.readable hg.unlatched) (fun rid s' hget => ?_) fun e s' he => ?_
    · obtain ⟨hmem, hr⟩ := hget
      refine ⟨T, hr.pages ▸ h, hr.pages ▸ Moves.refl _ _, .inl ?_⟩
      rw [mapPerform, contents_of_mem h.keys_nodup hmem]
    · rcases he with ⟨rfl, habsent, hr⟩ | ⟨hr, -⟩
      · refine ⟨T, hr.pages ▸ h, hr.pages ▸ Moves.refl _ _, .inl ?_⟩
        rw [mapPerform, contents_eq_none.mpr habsent]
      · have hcause := hr.cause
        rw [hq, List.length_nil, Nat.zero_add] at hcause
        exact ⟨T, hr.pages ▸ h, hr.pages ▸ Moves.refl _ _, .inr ⟨rfl, e, rfl, hcause⟩⟩

theorem Created.moves {leafMax internalMax : Nat} {root : PageId} (h : Created t s s' leafMax internalMax root) :
    Moves ∅ (t.foot ⟨0, .leaf root invalidPage []⟩) s.pages s'.pages where
  kept p _ hp := by
    refine h.other p (fun he => hp (he ▸ h.fresh.1)) fun he => hp (he ▸ h.fresh.2)
  fresh p hp _ := by
    rcases List.mem_cons.mp hp with rfl | hp
    · exact h.fresh.1
    · rw [List.mem_singleton.mp hp]
      exact h.fresh.2

/-- How many keys are bound. -/
noncomputable def size (m : Key → Option RID) : Nat := Set.ncard {key | m key ≠ none}

theorem size_contents {es : List LeafEntry} (h : (es.map LeafEntry.key).Nodup) : size (contents es) = es.length := by
  have hset : {key | contents es key ≠ none} = ((es.map LeafEntry.key).toFinset : Set Key) := by
    ext key
    simp [contents_eq_none, List.mem_map]
  rw [size, hset, Set.ncard_coe_finset, List.toFinset_card_of_nodup h, List.length_map]

/-- A tree is no higher than the logarithm of its size. -/
theorem TreeAt.height_le_log (h : TreeAt t s.pages T) : T.1 ≤ Nat.log 2 (size (contents T.2.toList)) := by
  rw [size_contents h.keys_nodup]
  rcases Nat.eq_zero_or_pos T.1 with h0 | hpos
  · omega
  · exact Nat.le_log_of_pow_le (by decide) (h.valid.packed.pow_le_toList hpos)

end BPlusTree

/-! Tables. -/

namespace TableHeap
variable {env : PoolEnv} {build : Build} {fuel : Nat} {s : PageStore} {t : TableHeap} {ps : List PageId} {M : RidMap}

theorem LiesOn.represents (h : t.LiesOn ps M s.pages) (hq : s.guards = []) : Represents s.pages (s, t) ps M where
  table := h.table
  first := h.first
  last := h.last
  hint := h.hint
  apart g hg := by rw [show (s, t).1.guards = [] from hq] at hg; cases hg
  live g hg := by rw [show (s, t).1.guards = [] from hq] at hg; cases hg

theorem Represents.liesOn {base : PageId → Option Page} {st : PageStore × TableHeap} (h : Represents base st ps M) :
    st.2.LiesOn ps M st.1.pages :=
  ⟨h.table.congr fun _ _ => rfl, h.first, h.last, h.hint⟩

theorem Represents.moves {st : PageStore × TableHeap} {ps' : List PageId} {M' : RidMap}
    (h : Represents s.pages st ps' M') (hnew : ∀ p ∈ ps', p ∉ ps → s.pages p = none) :
    Moves {p | p ∈ ps} {p | p ∈ ps'} s.pages st.1.pages where
  kept p hp hne := h.table.others p fun hin => hne (hnew p hin hp)
  fresh p hp hoff := hnew p hp hoff

/-- On the same chain. -/
theorem Represents.moves_same {st : PageStore × TableHeap} {M' : RidMap} (h : Represents s.pages st ps M') :
    Moves {p | p ∈ ps} {p | p ∈ ps} s.pages st.1.pages :=
  h.moves fun _ hp hoff => absurd hp hoff

/-- An update whose second half failed: the row is there twice. -/
def Doubled (m : RidMap) : Op → RidMap → Prop
  | .update r t, m' => LegalSize t ∧ m r ≠ none ∧ ∃ r', m r' = none ∧ m' = Function.update m r' (some t)
  | _, _ => False

/-- One operation: it answers as the map does, or the pool refused and the table is as it was, or a fetch failed
between the two halves of an update. -/
theorem wp_perform_moves (hlaw : env.Lawful) (hfuel : 2 ^ 32 ≤ fuel) (hq : s.guards = []) (h : t.LiesOn ps M s.pages)
    {op : Op} (hlegal : Legal (s, t) op) :
    wp (attempt (perform env build fuel op)) (fun a st => ∃ ps' M', st.2.LiesOn ps' M' st.1.pages ∧
      Moves {p | p ∈ ps} {p | p ∈ ps'} s.pages st.1.pages ∧
      (Answers M op a M' ∨ (M' = M ∧ ∃ e, a = .error e ∧ env.Refuses e) ∨
        Doubled M op M' ∧ ∃ s p e, env.fetchFails s p = some e)) (fun _ _ => False) (s, t) := by
  have hrep := h.represents hq
  rw [wp_attempt]
  cases op with
  | insert tuple =>
    apply wp_call (wp_insert_fresh_pages hlaw hfuel hrep)
    · intro r st' hr
      obtain ⟨-, ⟨hfresh, ps', -, hnew, -, hrep'⟩, h0, hlen⟩ := hr
      exact ⟨ps', _, hrep'.liesOn, hrep'.moves hnew,
        .inl (.inl ⟨legalSize_iff.mpr ⟨h0, hlen⟩, r, rfl, hfresh, rfl⟩)⟩
    · intro e st' hr
      obtain ⟨-, hrep', hwhy⟩ := hr
      refine ⟨ps, M, hrep'.liesOn, hrep'.moves_same, ?_⟩
      rcases hwhy with ⟨hcode, hbad⟩ | hfail
      · exact .inl (.inr ⟨not_legalSize hbad, ⟨e, rfl, hcode⟩, rfl⟩)
      · exact .inr (.inl ⟨rfl, e, rfl, hfail.why⟩)
  | get rid =>
    apply wp_call (wp_get hrep (hrep.mem_of_onChain hlegal))
    · intro bs st' hr
      obtain ⟨-, hrep', hM⟩ := hr
      exact ⟨ps, M, hrep'.liesOn, hrep'.moves_same, .inl ⟨rfl, .inl ⟨bs, hM, rfl⟩⟩⟩
    · intro e st' hr
      obtain ⟨-, hrep', hwhy⟩ := hr
      refine ⟨ps, M, hrep'.liesOn, hrep'.moves_same, ?_⟩
      rcases hwhy with ⟨hcode, hM⟩ | hfail
      · exact .inl ⟨rfl, .inr ⟨hM, e, rfl, hcode⟩⟩
      · exact .inr (.inl ⟨rfl, e, rfl, hfail.why⟩)
  | delete rid =>
    apply wp_call (wp_delete hrep (hrep.mem_of_onChain hlegal))
    · intro _ st' hr
      obtain ⟨-, hM, hrep', -⟩ := hr
      exact ⟨ps, _, hrep'.liesOn, hrep'.moves_same, .inl (.inl ⟨hM, rfl, rfl⟩)⟩
    · intro e st' hr
      obtain ⟨-, hrep', -, hwhy⟩ := hr
      refine ⟨ps, M, hrep'.liesOn, hrep'.moves_same, ?_⟩
      rcases hwhy with ⟨hcode, hM⟩ | hfail
      · exact .inl (.inr ⟨hM, ⟨e, rfl, hcode⟩, rfl⟩)
      · exact .inr (.inl ⟨rfl, e, rfl, hfail.why⟩)
  | update rid tuple =>
    apply wp_call (wp_update_fresh_pages hlaw hfuel hrep (hrep.mem_of_onChain hlegal))
    · intro r st' hr
      obtain ⟨-, hM, h0, hlen, hdup | ⟨hr', ps', -, hnew, hrep'⟩⟩ := hr
      · obtain ⟨-, hcause, r', hfresh, ps', -, hnew, -, hrep'⟩ := hdup
        exact ⟨ps', _, hrep'.liesOn, hrep'.moves hnew,
          .inr (.inr ⟨⟨legalSize_iff.mpr ⟨h0, hlen⟩, hM, r', hfresh, rfl⟩, hcause⟩)⟩
      · exact ⟨ps', _, hrep'.liesOn, hrep'.moves hnew,
          .inl (.inl ⟨legalSize_iff.mpr ⟨h0, hlen⟩, hM, r, rfl, hr', rfl⟩)⟩
    · intro e st' hr
      obtain ⟨-, ⟨-, hdup, hM, h0, hlen⟩ | ⟨hrep', hwhy⟩⟩ := hr
      · obtain ⟨-, hcause, r', hfresh, ps', -, hnew, -, hrep'⟩ := hdup
        exact ⟨ps', _, hrep'.liesOn, hrep'.moves hnew,
          .inr (.inr ⟨⟨legalSize_iff.mpr ⟨h0, hlen⟩, hM, r', hfresh, rfl⟩, hcause⟩)⟩
      · refine ⟨ps, M, hrep'.liesOn, hrep'.moves_same, ?_⟩
        rcases hwhy with ⟨hcode, hbad⟩ | ⟨hcode, h0, hlen, hM⟩ | hfail
        · exact .inl (.inr (.inr ⟨not_legalSize hbad, ⟨e, rfl, hcode⟩, rfl⟩))
        · exact .inl (.inr (.inl ⟨legalSize_iff.mpr ⟨h0, hlen⟩, hM, ⟨e, rfl, hcode⟩, rfl⟩))
        · exact .inr (.inl ⟨rfl, e, rfl, hfail.why⟩)
  | reopen last =>
    have hfirst : t.firstPageId ∈ ps := hrep.mem_of_onChain .first
    exact ⟨ps, M, ⟨h.table, h.first, hrep.mem_of_onChain hlegal, hfirst⟩, .refl _ _, .inl ⟨rfl, rfl⟩⟩

end TableHeap
end KernSql

import KernSql.Index.Run

/- The pages of an index over a run.

   What one operation does to the store, seen from outside the tree: it changes
   no page that is not the tree's, takes its new pages from the free ones, and
   gives back every page the tree no longer uses, unless a `DeletePage` failed
   (`Stepped`). Along a run from `Create` the pages allocated since the start are
   then the header and the tree's (`Reached`). On the raw pages the tree's are the
   ones reached from the root by child pointers, and no leaf link leads
   anywhere else. -/
namespace KernSql
open Exec BTree

/-! Reaching pages by the bytes on them. -/

/-- Internal page `p` has `q` among its children. -/
def ChildOf (pages : PageId → Option Page) (p q : PageId) : Prop :=
  ∃ pg, pages p = some pg ∧ pg.header.pageType = .indexInternal ∧
    ∃ i < InternalNode.count pg.body, InternalNode.childAt pg.body i = some q

/-- Leaf page `p` links to `q`. -/
def LinkOf (pages : PageId → Option Page) (p q : PageId) : Prop :=
  ∃ pg, pages p = some pg ∧ pg.header.pageType = .indexLeaf ∧ LeafNode.nextLeaf pg.body = q

def Reachable (pages : PageId → Option Page) : PageId → PageId → Prop := Relation.ReflTransGen (ChildOf pages)

section Reach
variable {pages : PageId → Option Page} {n : Nat} {T : KTree n}

theorem childOf_branch {p q : PageId} {level : Nat} {kids : List (Key × PageId)} (h : BranchAt pages p level kids) :
    ChildOf pages p q ↔ ∃ k, (k, q) ∈ kids := by
  obtain ⟨pg, hpg, hty, hn⟩ := h
  have hcount : InternalNode.count pg.body = kids.length := by
    rw [show InternalNode.count pg.body = _ from hn.count_eq, length_kidEntries]
  have hchild : ∀ i k, kids[i]? = some (k, q) → InternalNode.childAt pg.body i = some q := fun i k hi => by
    obtain ⟨k', hk', -⟩ := kidEntries_getElem? hi
    obtain ⟨hlt, he⟩ := List.getElem?_eq_some_iff.mp hk'
    rw [InternalNode.childAt, InternalNode.entryAt, hn.entryAt hlt, he]
    rfl
  constructor
  · rintro ⟨pg', hpg', -, i, hi, hq⟩
    rw [hpg, Option.some.injEq] at hpg'
    subst hpg'
    rw [hcount] at hi
    obtain ⟨k', hk', -⟩ := kidEntries_getElem? (List.getElem?_eq_getElem hi)
    obtain ⟨hlt, he⟩ := List.getElem?_eq_some_iff.mp hk'
    rw [InternalNode.childAt, InternalNode.entryAt, hn.entryAt hlt, he, Option.map_some, Option.some.injEq] at hq
    refine ⟨kids[i].1, ?_⟩
    rw [← hq]
    exact List.getElem_mem hi
  · rintro ⟨k, hk⟩
    obtain ⟨i, hi⟩ := List.getElem?_of_mem hk
    exact ⟨pg, hpg, hty, i, by rw [hcount]; exact (List.getElem?_eq_some_iff.mp hi).1, hchild i k hi⟩

/-- Child pointers do not leave the tree. -/
theorem Holds.childOf_mem (h : Holds pages T) {p q : PageId} (hp : p ∈ T.pages) (hc : ChildOf pages p q) :
    q ∈ T.pages := by
  induction T using BTree.Tree.ind with
  | leaf p' next es =>
    obtain ⟨pg, hpg, hty, -⟩ := holds_leaf.mp h
    obtain ⟨pg', hpg', hty', -⟩ := hc
    have he : p = p' := List.mem_singleton.mp hp
    rw [he, hpg, Option.some.injEq] at hpg'
    rw [← hpg', hty] at hty'
    cases hty'
  | branch p' kids ih =>
    rw [holds_branch] at h
    rcases List.mem_cons.mp hp with rfl | hp
    · obtain ⟨k, hk⟩ := (childOf_branch h.1).mp hc
      obtain ⟨kc, hkc, heq⟩ := List.mem_map.mp hk
      have hq : kc.2.page = q := congrArg Prod.snd heq
      rw [← hq]
      exact List.mem_cons_of_mem _ (List.mem_flatMap.mpr ⟨kc, hkc, BTree.Tree.page_mem_pages _⟩)
    · obtain ⟨kc, hkc, hp⟩ := List.mem_flatMap.mp hp
      exact List.mem_cons_of_mem _ (List.mem_flatMap.mpr ⟨kc, hkc, ih kc hkc (h.2 kc hkc) hp⟩)

theorem Holds.reachable_of_mem (h : Holds pages T) {q : PageId} (hq : q ∈ T.pages) : Reachable pages T.page q := by
  induction T using BTree.Tree.ind with
  | leaf p next es =>
    have he : q = p := List.mem_singleton.mp hq
    rw [he]
    exact .refl
  | branch p kids ih =>
    rw [holds_branch] at h
    rcases List.mem_cons.mp hq with rfl | hq
    · exact .refl
    · obtain ⟨kc, hkc, hq⟩ := List.mem_flatMap.mp hq
      exact .head ((childOf_branch h.1).mpr ⟨kc.1, List.mem_map.mpr ⟨kc, hkc, rfl⟩⟩) (ih kc hkc (h.2 kc hkc) hq)

/-- The pages of a tree are those reached from its root. -/
theorem Holds.reachable_iff (h : Holds pages T) {q : PageId} : Reachable pages T.page q ↔ q ∈ T.pages := by
  refine ⟨fun hr => ?_, h.reachable_of_mem⟩
  induction hr with
  | refl => exact BTree.Tree.page_mem_pages T
  | tail _ hc ih => exact h.childOf_mem ih hc

/-- A leaf link of the tree is one of its chain. -/
theorem Holds.linkOf_mem (h : Holds pages T) {p q : PageId} (hp : p ∈ T.pages) (hl : LinkOf pages p q) :
    (p, q) ∈ T.links := by
  induction T using BTree.Tree.ind with
  | leaf p' next es =>
    obtain ⟨pg, hpg, hty, hn⟩ := holds_leaf.mp h
    obtain ⟨pg', hpg', -, hq⟩ := hl
    have he : p = p' := List.mem_singleton.mp hp
    subst he
    rw [hpg, Option.some.injEq] at hpg'
    subst hpg'
    rw [LeafNode.nextLeaf, show LeafNode.header pg.body = _ from hn.header_eq] at hq
    subst hq
    simp
  | branch p' kids ih =>
    rw [holds_branch] at h
    rcases List.mem_cons.mp hp with rfl | hp
    · obtain ⟨pg, hpg, hty, -⟩ := h.1
      obtain ⟨pg', hpg', hty', -⟩ := hl
      rw [hpg, Option.some.injEq] at hpg'
      rw [← hpg', hty] at hty'
      cases hty'
    · obtain ⟨kc, hkc, hp⟩ := List.mem_flatMap.mp hp
      exact List.mem_flatMap.mpr ⟨kc, hkc, ih kc hkc (h.2 kc hkc) hp⟩

end Reach

/-- A linked chain leads only to its own leaves. -/
theorem linked_mem {P : Type} {fin : P} : ∀ {links : List (P × P)}, Linked fin links → ∀ l ∈ links,
    l.2 = fin ∨ l.2 ∈ links.map Prod.fst
  | [], _, l, hl => by cases hl
  | l₀ :: rest, h, l, hl => by
    rcases List.mem_cons.mp hl with rfl | hl
    · rcases rest with _ | ⟨l₁, rest⟩
      · exact .inl h.1
      · exact .inr (by simp [h.1, start])
    · have ih : l.2 = fin ∨ l.2 ∈ rest.map Prod.fst := linked_mem h.2 l hl
      exact ih.imp_right fun hin => by simp [hin]

namespace BPlusTree

section Whole
variable {t : BPlusTree} {s : PageStore} {T : Σ n, KTree n}

/-- A page that is not the tree's is reached neither by a child pointer nor by a leaf link of the tree. -/
theorem TreeAt.unreachable (h : TreeAt t s.pages T) {p : PageId} (hp : p ∉ T.2.pages) (hid : p ≠ invalidPage) :
    ¬Reachable s.pages T.2.page p ∧ ∀ q, Reachable s.pages T.2.page q → ¬LinkOf s.pages q p := by
  refine ⟨fun hr => hp (h.holds.reachable_iff.mp hr), fun q hq hl => ?_⟩
  rcases linked_mem h.valid.linked _ (h.holds.linkOf_mem (h.holds.reachable_iff.mp hq) hl) with he | hin
  · exact hid he
  · obtain ⟨l, hl', heq⟩ := List.mem_map.mp hin
    have heq : l.1 = p := heq
    exact hp (heq ▸ BTree.Tree.links_pages T.2 l hl')

end Whole

/-! One operation. -/

/-- What an operation may add to the entries. -/
def Op.adds : Op → LeafEntry → Prop
  | .insert key rid, e => e = ⟨key, rid⟩
  | _, _ => False

/-- What an operation did, whatever it answered: a tree again, on old pages of the tree and free ones,
nothing else changed, and if every `DeletePage` worked no other page left allocated. -/
structure Stepped (t : BPlusTree) (s s' : PageStore) (T T' : Σ n, KTree n) (op : Op) : Prop where
  tree : TreeAt t s'.pages T'
  apart : Apart t s' T'
  entries : ∀ e ∈ T'.2.toList, e ∈ T.2.toList ∨ op.adds e
  fresh : ∀ p ∈ T'.2.pages, p ∈ T.2.pages ∨ s.pages p = none
  other : ∀ p ∉ t.headerPageId :: T.2.pages, s.pages p ≠ none → s'.pages p = s.pages p
  exact_ : s'.leaks = s.leaks → ∀ p, s'.pages p ≠ none → p ∈ t.headerPageId :: T'.2.pages ∨
    (s.pages p ≠ none ∧ p ∉ T.2.pages)
  leaks : s.leaks ≤ s'.leaks

section Steps
variable {env : PoolEnv} {t : BPlusTree} {s s' : PageStore} {T T' : Σ n, KTree n} {op : Op}

/-- An operation that left the tree where it was. -/
theorem Stepped.same (h : TreeAt t s'.pages T) (hg : Apart t s' T) (hkept : ∀ p, s.pages p ≠ none → s'.pages p = s.pages p)
    (hclean : s'.leaks = s.leaks → s'.pages = s.pages) (hl : s.leaks ≤ s'.leaks) : Stepped t s s' T T op where
  tree := h
  apart := hg
  entries _ he := .inl he
  fresh _ hp := .inl hp
  other p _ := hkept p
  exact_ he p hp := by
    rw [hclean he] at hp
    by_cases hin : p ∈ T.2.pages
    · exact .inl (List.mem_cons_of_mem _ hin)
    · exact .inr ⟨hp, hin⟩
  leaks := hl

theorem Stepped.of_read (h : TreeAt t s.pages T) (hg : Apart t s T) (hr : ReadTo [] s s') : Stepped t s s' T T op :=
  .same (hr.pages ▸ h) (ReadTo.apart hg hr) (fun _ _ => by rw [hr.pages]) (fun _ => hr.pages)
    (le_of_eq hr.leaks.symm)

theorem Stepped.of_refused (h : TreeAt t s.pages T) (hg : Apart t s T) (hr : Refused s s')
    (hgs : s'.guards = s.guards) : Stepped t s s' T T op :=
  .same (hr.pages ▸ h) (Refused.apart hg hr hgs) (fun _ _ => by rw [hr.pages]) (fun _ => hr.pages)
    (le_of_eq hr.leaks.symm)

theorem Stepped.of_inserted {key : Key} {rid : RID} (hg : Apart t s T) (hi : Inserted t s s' T ⟨key, rid⟩ T') :
    Stepped t s s' T T' (.insert key rid) := by
  obtain ⟨ps, hperm, hfresh⟩ := hi.pages
  refine ⟨hi.tree, hi.apart hg, fun e he => ?_, fun p hp => ?_, fun p hp hpn => ?_, fun _ p hp => ?_,
    le_of_eq hi.leaks.symm⟩
  · exact (List.mem_cons.mp (hi.entries.subset he)).symm
  · exact (List.mem_append.mp (hperm.subset hp)).imp_right (hfresh p)
  · refine hi.other p fun hin => hp ?_
    rcases List.mem_cons.mp hin with rfl | hin
    · exact List.mem_cons_self
    · rcases List.mem_append.mp (hperm.subset hin) with hin | hin
      · exact List.mem_cons_of_mem _ hin
      · exact absurd (hfresh p hin) hpn
  · by_cases hin : p ∈ t.headerPageId :: T'.2.pages
    · exact .inl hin
    · rw [hi.other p hin] at hp
      exact .inr ⟨hp, fun hin' => hin (List.mem_cons_of_mem _ (hperm.symm.subset (List.mem_append_left _ hin')))⟩

theorem Stepped.of_deleted {e : LeafEntry} {freed : List PageId} (hg : Apart t s T)
    (hd : Deleted t s s' T e T' freed) : Stepped t s s' T T' op := by
  refine ⟨hd.tree, hd.apart hg, fun e he => .inl (hd.entries.symm.subset (List.mem_cons_of_mem _ he)),
    fun p hp => .inl (hd.pages.symm.subset (List.mem_append_left _ hp)), fun p hp _ => hd.other p hp,
    fun hl p hp => ?_, hd.leaks⟩
  by_cases hin : p ∈ t.headerPageId :: T.2.pages
  · rcases List.mem_cons.mp hin with rfl | hin
    · exact .inl List.mem_cons_self
    · rcases List.mem_append.mp (hd.pages.subset hin) with hin | hin
      · exact .inl (List.mem_cons_of_mem _ hin)
      · exact absurd (hd.clean hl p hin) hp
  · rw [hd.other p hin] at hp
    exact .inr ⟨hp, fun hin' => hin (List.mem_cons_of_mem _ hin')⟩

/-- Every operation, whatever the pool does. -/
theorem wp_perform_stepped (hlaw : env.Lawful) (h : TreeAt t s.pages T) (hg : Apart t s T) (op : Op) :
    wp (attempt (perform env t op)) (fun _ s' => ∃ T', Stepped t s s' T T' op) (fun _ _ => False) s := by
  rw [wp_attempt]
  cases op with
  | insert key rid =>
    refine wp_call (wp_insert hlaw h hg) (fun _ s' hi => ?_) fun e s' he => ?_
    · obtain ⟨-, T', hi⟩ := hi
      exact ⟨T', .of_inserted hg hi⟩
    · rcases he with ⟨-, -, hr⟩ | ⟨hr, hgs, -⟩
      · exact ⟨T, .of_read h hg hr⟩
      · exact ⟨T, .same (hr.tree h) (hr.apart hg hgs) hr.kept hr.clean hr.leaks⟩
  | delete key =>
    refine wp_call (wp_delete h hg) (fun _ s' hd => ?_) fun e s' he => ?_
    · obtain ⟨e, -, -, T', freed, hd⟩ := hd
      exact ⟨T', .of_deleted hg hd⟩
    · rcases he with ⟨-, -, hr⟩ | ⟨hr, hgs⟩
      · exact ⟨T, .of_read h hg hr⟩
      · exact ⟨T, .of_refused h hg hr.toRefused hgs⟩
  | get key =>
    refine wp_call (wp_get h.readable hg.unlatched) (fun _ s' hget => ⟨T, .of_read h hg hget.2⟩) fun e s' he => ?_
    rcases he with ⟨-, -, hr⟩ | ⟨hr, hgs⟩
    · exact ⟨T, .of_read h hg hr⟩
    · exact ⟨T, .of_refused h hg hr.toRefused hgs⟩

end Steps

/-! Runs from `Create`. -/

/-- Where a run that started from `s₀` may be: at a tree whose record ids satisfy `ok`, with the pages of
`s₀` as they were and, while no `DeletePage` has failed, only the tree's pages allocated besides. -/
structure Reached (t : BPlusTree) (ok : RID → Prop) (s₀ s : PageStore) (T : Σ n, KTree n) : Prop where
  tree : TreeAt t s.pages T
  apart : Apart t s T
  rids : ∀ e ∈ T.2.toList, ok e.rid
  kept : ∀ p, s₀.pages p ≠ none → s.pages p = s₀.pages p ∧ p ∉ t.headerPageId :: T.2.pages
  exact_ : s.leaks = s₀.leaks → ∀ p, s.pages p ≠ none → s₀.pages p ≠ none ∨ p ∈ t.headerPageId :: T.2.pages
  leaks : s₀.leaks ≤ s.leaks

/-- Inserts bind only record ids that satisfy `ok`. -/
def Op.binds (ok : RID → Prop) : Op → Prop
  | .insert _ rid => ok rid
  | _ => True

section Runs
variable {env : PoolEnv} {t : BPlusTree} {ok : RID → Prop} {s₀ s s' : PageStore} {T T' : Σ n, KTree n}

theorem Created.reached {leafMax internalMax : Nat} {root : PageId}
    (hlive : ∀ g ∈ s.guards, s.pages g.page ≠ none) (h : Created t s s' leafMax internalMax root) :
    Reached t ok s s' ⟨0, .leaf root invalidPage []⟩ where
  tree := h.tree
  apart := h.apart hlive
  rids _ he := by cases he
  kept p hp := by
    have h1 : p ≠ t.headerPageId := fun he => hp (he ▸ h.fresh.1)
    have h2 : p ≠ root := fun he => hp (he ▸ h.fresh.2)
    exact ⟨h.other p h1 h2, by simp [h1, h2]⟩
  exact_ _ p hp := by
    by_cases h1 : p = t.headerPageId
    · exact .inr (by simp [h1])
    by_cases h2 : p = root
    · exact .inr (by simp [h2])
    · exact .inl (by rwa [h.other p h1 h2] at hp)
  leaks := le_of_eq h.leaks.symm

theorem Reached.step {op : Op} (h : Reached t ok s₀ s T) (hop : op.binds ok) (hs : Stepped t s s' T T' op) :
    Reached t ok s₀ s' T' where
  tree := hs.tree
  apart := hs.apart
  rids e he := by
    rcases hs.entries e he with he | he
    · exact h.rids e he
    · cases op with
      | insert key rid => rw [show e = ⟨key, rid⟩ from he]; exact hop
      | delete key => exact he.elim
      | get key => exact he.elim
  kept p hp := by
    obtain ⟨hkept, hnot⟩ := h.kept p hp
    refine ⟨(hs.other p hnot (hkept ▸ hp)).trans hkept, fun hin => hnot ?_⟩
    rcases List.mem_cons.mp hin with rfl | hin
    · exact List.mem_cons_self
    · exact List.mem_cons_of_mem _ ((hs.fresh p hin).resolve_right (hkept ▸ hp))
  exact_ hl p hp := by
    have h1 := h.leaks
    have h2 := hs.leaks
    rcases hs.exact_ (by omega) p hp with hin | ⟨hp', hnot⟩
    · exact .inr hin
    · refine (h.exact_ (by omega) p hp').imp_right fun hin => ?_
      rcases List.mem_cons.mp hin with rfl | hin
      · exact List.mem_cons_self
      · exact absurd hin hnot
  leaks := le_trans h.leaks hs.leaks

/-- Every run from `Create` keeps the tree, whatever the pool does. -/
theorem Reached.run (hlaw : env.Lawful) (h : Reached t ok s₀ s T) {ops : List Op} (hops : ∀ op ∈ ops, op.binds ok) :
    ∃ as s' T', Refine.run (perform env t) ops s = some (.ok as, s') ∧ Reached t ok s₀ s' T' := by
  have hsim : Refine.Simulation (perform env t) (fun _ _ _ _ => True) (fun _ op => op.binds ok) (Reached t ok s₀) fun _ => 0 :=
    .of_wp fun {s T op} hop hR => wp_mono (wp_perform_stepped hlaw hR.tree hR.apart op)
      (fun _ s' ⟨T', hs⟩ => ⟨T', hR.step hop hs, le_refl _, fun _ => trivial⟩) fun _ _ he => he
  obtain ⟨as, s', T', hrun, hR, -⟩ := hsim.run (.of_forall fun op hop _ => hops op hop) h
  exact ⟨as, s', T', hrun, hR⟩

end Runs

/-! What is freed, and when. -/

/-- The pages a `Delete` of the key would free are different tree pages, and when the turn of one comes to be
given to `DeletePage` nothing in the tree leads to it and no guard is on it. -/
def FreesSafely (env : PoolEnv) (t : BPlusTree) (s : PageStore) (root : PageId) (key : Key) : Prop :=
  ∀ freed s₁, deleteGuarded env t key s = some (.ok freed, s₁) → freed.Nodup ∧
    ∃ hd, ∀ before p after, freed = before ++ p :: after → Reachable s.pages root p ∧
      ∃ s₂, deleteAll env before s₁ = some (.ok (), s₂) ∧ HeaderAt s₂.pages t.headerPageId hd ∧
        ¬Reachable s₂.pages hd.rootPageId p ∧
        (∀ q, Reachable s₂.pages hd.rootPageId q → ¬LinkOf s₂.pages q p) ∧ ∀ g ∈ s₂.guards, g.page ≠ p

section Frees
variable {env : PoolEnv} {t : BPlusTree} {s : PageStore} {T : Σ n, KTree n}

theorem ne_invalidPage {p : PageId} (h : catalogRootPageId < p) : p ≠ invalidPage := by
  rintro rfl
  exact absurd h (by decide)

theorem TreeAt.freesSafely (h : TreeAt t s.pages T) (hg : Apart t s T) (key : Key) :
    FreesSafely env t s T.2.page key := by
  intro freed s₁ hrun
  have hspec : wp (deleteGuarded env t key) _ _ s := wp_deleteGuarded h hg
  unfold wp at hspec
  rw [hrun] at hspec
  obtain ⟨e, -, -, T', hu⟩ := hspec
  obtain ⟨hnd, hfreed⟩ := hu.nodup h
  refine ⟨hnd, ⟨T'.2.page, T'.1 + 1, t.leafMax, t.internalMax, 0⟩, fun before p after hsplit => ?_⟩
  have hmem : ∀ q ∈ before, q ∈ freed := fun q hq => by simp [hsplit, hq]
  have hp := hfreed p (by simp [hsplit])
  have hfree : ∀ q ∈ freed, ∀ g ∈ s₁.guards, g.page ≠ q := fun q hq g hgs he => by
    rw [hu.guards] at hgs
    exact (hg g hgs).2.2 (he ▸ (hfreed q hq).1)
  have hid : ∀ q ∈ freed, catalogRootPageId < q := fun q hq => h.ids q (by simp [(hfreed q hq).1])
  have hdeletes : wp (deleteAll env before) _ _ s₁ :=
    wp_deleteAll fun q hq => ⟨hid q (hmem q hq), hfree q (hmem q hq)⟩
  obtain ⟨_, s₂, hdel, hpages, hgs, -⟩ | ⟨_, _, _, hf⟩ := wp_run hdeletes
  · have htree : TreeAt t s₂.pages T' := hu.tree.congr fun q hq => hpages q fun hin =>
      (hfreed q (hmem q hin)).2 hq
    have hnot : p ∉ T'.2.pages := fun hin => hp.2 (List.mem_cons_of_mem _ hin)
    obtain ⟨h1, h2⟩ := htree.unreachable hnot (ne_invalidPage (hid p (by simp [hsplit])))
    exact ⟨h.holds.reachable_iff.mpr hp.1, s₂, hdel, htree.header, h1, h2, fun g hg' =>
      hfree p (by simp [hsplit]) g (hgs ▸ hg')⟩
  · exact hf.elim

/-- After every operation of a run in which no pool call fails, the pages allocated since its start are the
header and the pages reached from the root, and the next `Delete` would free only pages nothing leads to. -/
theorem pages_in_use_are_reachable (hlaw : env.Lawful) (hlive : ∀ g ∈ s.guards, s.pages g.page ≠ none)
    {leafMax internalMax : Nat} (hleaf : minFanout ≤ leafMax ∧ leafMax ≤ nodeCapacity)
    (hinternal : minFanout ≤ internalMax ∧ internalMax ≤ nodeCapacity) (ops : List Op) :
    ∃ made s', (do
        let t ← create env leafMax internalMax
        let _ ← Refine.run (perform env t) ops
        pure t) s = some (made, s') ∧
      (s'.failures = s.failures → s'.leaks = s.leaks → ∃ t hd, made = .ok t ∧
        HeaderAt s'.pages t.headerPageId hd ∧
        (∀ p, s'.pages p ≠ none ∧ s.pages p = none ↔ p = t.headerPageId ∨ Reachable s'.pages hd.rootPageId p) ∧
        ∀ key, FreesSafely env t s' hd.rootPageId key) := by
  have hrun : wp (do
      let t ← create env leafMax internalMax
      let _ ← Refine.run (perform env t) ops
      pure t) (fun t s' => ∃ T, Reached t (fun _ => True) s s' T) (fun _ s' => s.failures < s'.failures) s := by
    refine wp_call (wp_create hlaw hlive) (fun t s₁ hc => ?_) fun _ s₁ he => ?_
    · obtain ⟨root, hc⟩ := hc
      have hR : Reached t (fun _ => True) s s₁ _ := hc.reached hlive
      obtain ⟨as, s₂, T, hops, hR⟩ := hR.run hlaw (fun op _ => by cases op <;> trivial : ∀ op ∈ ops, _)
      rw [wp_bind]
      exact wp_of_ok hops ⟨T, hR⟩
    · rcases he with ⟨-, -, hout⟩ | ⟨hr, -⟩
      · omega
      · exact hr.failures
  rcases wp_run hrun with ⟨t, s', hs', T, hR⟩ | ⟨e, s', hs', hlt⟩
  · refine ⟨_, s', hs', fun _ hl => ⟨t, _, rfl, hR.tree.header, fun p => ?_, hR.tree.freesSafely hR.apart⟩⟩
    rw [hR.tree.holds.reachable_iff, ← List.mem_cons]
    constructor
    · rintro ⟨hp, hn⟩
      exact (hR.exact_ hl p hp).resolve_left fun h => h hn
    · intro hin
      refine ⟨?_, by_contra fun hn => (hR.kept p hn).2 hin⟩
      rcases List.mem_cons.mp hin with rfl | hin
      · exact hR.tree.header.some
      · exact hR.tree.holds.allocated p hin
  · exact ⟨_, s', hs', fun hf => absurd hf (Nat.ne_of_gt hlt)⟩

theorem pages_in_use_are_reachable_demo : ∃ made s', (do
        let t ← create PoolEnv.countUp 3 4
        let _ ← Refine.run (perform PoolEnv.countUp t) [.insert 7 ⟨9, 1⟩, .insert 8 ⟨9, 2⟩, .delete 7]
        pure t) PageStore.empty = some (made, s') ∧
      (s'.failures = 0 → s'.leaks = 0 → ∃ t hd, made = .ok t ∧ HeaderAt s'.pages t.headerPageId hd ∧
        (∀ p, s'.pages p ≠ none ∧ (none : Option Page) = none ↔
          p = t.headerPageId ∨ Reachable s'.pages hd.rootPageId p) ∧
        ∀ key, FreesSafely PoolEnv.countUp t s' hd.rootPageId key) :=
  pages_in_use_are_reachable PoolEnv.countUp_lawful (by simp [PageStore.empty]) (by decide) (by decide) _

/-- A tree to start from. -/
theorem exists_created : ∃ t s root, Created t PageStore.empty s 3 4 root := by
  have hrun : ∃ t s, create PoolEnv.countUp 3 4 PageStore.empty = some (.ok t, s) := ⟨_, _, rfl⟩
  obtain ⟨t, s, hrun⟩ := hrun
  have hspec : wp (create PoolEnv.countUp 3 4) _ _ PageStore.empty :=
    wp_create PoolEnv.countUp_lawful (by simp [PageStore.empty])
  unfold wp at hspec
  rw [hrun] at hspec
  obtain ⟨root, hc⟩ := hspec
  exact ⟨t, s, root, hc⟩

/-- `Insert` and `Delete` that fail leave every page of the tree as it was, and every page allocated that was
if no roll-back failed; a `Delete` that returns OK has removed the key from a valid tree, whatever became of the
pages it gave back. -/
theorem writes_all_or_nothing (hlaw : env.Lawful) (h : TreeAt t s.pages T) (hg : Apart t s T) (key : Key)
    (rid : RID) :
    (∃ result s', insert env t key rid s = some (result, s') ∧ ∀ e, result = .error e →
      (∀ p ∈ t.headerPageId :: T.2.pages, s'.pages p = s.pages p) ∧
      (s'.leaks = s.leaks → ∀ p, s'.pages p = none ↔ s.pages p = none)) ∧
    ∃ result s', delete env t key s = some (result, s') ∧
      (∀ e, result = .error e → (∀ p ∈ t.headerPageId :: T.2.pages, s'.pages p = s.pages p) ∧
        ∀ p, s'.pages p = none ↔ s.pages p = none) ∧
      (result = .ok () → ∃ T', TreeAt t s'.pages T' ∧ ∀ e, e ∈ T'.2.toList ↔ e ∈ T.2.toList ∧ e.key ≠ key) := by
  have hallocated : ∀ p ∈ t.headerPageId :: T.2.pages, s.pages p ≠ none := fun p hp => by
    rcases List.mem_cons.mp hp with rfl | hp
    · exact h.header.some
    · exact h.holds.allocated p hp
  have hsame : ∀ {s' : PageStore}, s'.pages = s.pages → (∀ p ∈ t.headerPageId :: T.2.pages, s'.pages p = s.pages p) ∧
      ∀ p, s'.pages p = none ↔ s.pages p = none := fun he => ⟨fun _ _ => by rw [he], fun _ => by rw [he]⟩
  constructor
  · have hspec : wp (insert env t key rid) _ _ s := wp_insert hlaw h hg
    rcases wp_run hspec with ⟨_, s', hs', -⟩ | ⟨e, s', hs', he⟩
    · exact ⟨_, s', hs', fun e he => by cases he⟩
    · refine ⟨_, s', hs', fun _ _ => ?_⟩
      rcases he with ⟨-, -, hr⟩ | ⟨hr, -⟩
      · exact ⟨(hsame hr.pages).1, fun _ => (hsame hr.pages).2⟩
      · exact ⟨fun p hp => hr.kept p (hallocated p hp), fun hl => (hsame (hr.clean hl)).2⟩
  · have hspec : wp (delete env t key) _ _ s := wp_delete h hg
    rcases wp_run hspec with ⟨_, s', hs', hd⟩ | ⟨e, s', hs', he⟩
    · obtain ⟨e, hmem, rfl, T', freed, hd⟩ := hd
      refine ⟨_, s', hs', fun e he => by (cases he), fun _ => ⟨T', hd.tree, fun f => ?_⟩⟩
      have hnd := (hd.entries.map LeafEntry.key).nodup_iff.mp h.keys_nodup
      rw [List.map_cons, List.nodup_cons] at hnd
      constructor
      · intro hf
        exact ⟨hd.entries.symm.subset (List.mem_cons_of_mem _ hf), fun he => hnd.1 (he ▸ List.mem_map_of_mem hf)⟩
      · rintro ⟨hf, hne⟩
        rcases List.mem_cons.mp (hd.entries.subset hf) with rfl | hf
        · exact absurd rfl hne
        · exact hf
    · refine ⟨_, s', hs', fun _ _ => ?_, fun h => by cases h⟩
      rcases he with ⟨-, -, hr⟩ | ⟨hr, -⟩
      · exact hsame hr.pages
      · exact hsame hr.pages

theorem writes_all_or_nothing_demo : ∃ (t : BPlusTree) (s : PageStore) (T : Σ n, KTree n), TreeAt t s.pages T ∧
    ∃ result s', insert PoolEnv.unreadable t 7 ⟨9, 1⟩ s = some (result, s') ∧ ∀ e, result = .error e →
      (∀ p ∈ t.headerPageId :: T.2.pages, s'.pages p = s.pages p) ∧
      (s'.leaks = s.leaks → ∀ p, s'.pages p = none ↔ s.pages p = none) := by
  obtain ⟨t, s, root, hc⟩ := exists_created
  exact ⟨t, s, _, hc.tree, (writes_all_or_nothing PoolEnv.unreadable_lawful hc.tree
    (hc.apart (by simp [PageStore.empty])) 7 ⟨9, 1⟩).1⟩

end Frees
end BPlusTree
end KernSql

import KernSql.Lib.Refine
import KernSql.Index.Delete

/- The index as a finite map.

   A tree holds a map from keys to record ids (`contents`). Each operation of the
   tree answers as the map does and leaves the map's next state, as long as no pool
   call failed in it; one that met a failure leaves the tree that was there. Both
   follow from the operations' specifications, so a run of any length from
   `Create` is a run of the map. -/
namespace KernSql
open Exec BTree

namespace BPlusTree

/-! The map a tree holds. -/

/-- The record id bound to a key. -/
def contents (es : List LeafEntry) (key : Key) : Option RID := (es.find? fun e => e.key = key).map (·.rid)

section Contents
variable {es fs : List LeafEntry} {e : LeafEntry} {key : Key}

theorem contents_eq_none : contents es key = none ↔ ∀ e ∈ es, e.key ≠ key := by
  simp [contents]

theorem contents_of_mem (h : (es.map LeafEntry.key).Nodup) (he : e ∈ es) : contents es e.key = some e.rid := by
  induction es with
  | nil => cases he
  | cons f es ih =>
    rw [List.map_cons, List.nodup_cons] at h
    rcases List.mem_cons.mp he with rfl | he
    · simp [contents]
    · have hne : f.key ≠ e.key := fun heq => h.1 (heq ▸ List.mem_map_of_mem he)
      have := ih h.2 he
      simpa [contents, List.find?_cons, hne] using this

/-- The map does not depend on the order of the entries. -/
theorem contents_perm (h : (es.map LeafEntry.key).Nodup) (hp : es.Perm fs) : contents es = contents fs := by
  have h' : (fs.map LeafEntry.key).Nodup := (hp.map _).nodup_iff.mp h
  funext key
  by_cases hk : ∃ e ∈ es, e.key = key
  · obtain ⟨e, he, rfl⟩ := hk
    rw [contents_of_mem h he, contents_of_mem h' (hp.subset he)]
  · have hk' : ∀ e ∈ es, e.key ≠ key := fun e he heq => hk ⟨e, he, heq⟩
    rw [contents_eq_none.mpr hk', contents_eq_none.mpr fun e he => hk' e (hp.symm.subset he)]

theorem contents_cons (e : LeafEntry) (es : List LeafEntry) :
    contents (e :: es) = Function.update (contents es) e.key (some e.rid) := by
  funext key
  by_cases h : e.key = key
  · subst h; simp [contents]
  · rw [Function.update_of_ne (Ne.symm h)]
    simp [contents, h]

/-- Binding the key of an added entry. -/
theorem contents_add (h : (fs.map LeafEntry.key).Nodup) (hp : fs.Perm (e :: es)) :
    contents fs = Function.update (contents es) e.key (some e.rid) := by
  rw [contents_perm h hp, contents_cons]

/-- Unbinding the key of a removed entry. -/
theorem contents_remove (h : (es.map LeafEntry.key).Nodup) (hp : es.Perm (e :: fs)) :
    contents fs = Function.update (contents es) e.key none := by
  have hnd := (hp.map LeafEntry.key).nodup_iff.mp h
  rw [List.map_cons, List.nodup_cons] at hnd
  have hfree : contents fs e.key = none := contents_eq_none.mpr fun f hf heq =>
    hnd.1 (heq ▸ List.mem_map_of_mem hf)
  rw [contents_perm h hp, contents_cons, Function.update_idem, ← hfree, Function.update_eq_self]

end Contents

section Trees
variable {env : PoolEnv} {t : BPlusTree} {s s' : PageStore} {T T' : Σ n, KTree n} {key : Key} {rid : RID}

theorem TreeAt.keys_nodup (h : TreeAt t s.pages T) : (T.2.toList.map LeafEntry.key).Nodup := by
  have := (BTree.Tree.Ordered.entries h.valid.ordered).1
  exact (List.pairwise_map.mpr this).imp fun hlt => ne_of_lt hlt

/-! Guards of others stay out of the way. -/

theorem Apart.congr (hg : Apart t s T) (hgs : s'.guards = s.guards)
    (hp : ∀ p, s.pages p ≠ none → p ≠ t.headerPageId → p ∉ T.2.pages → s'.pages p = s.pages p ∧ p ∉ T'.2.pages) :
    Apart t s' T' := by
  intro g hgm
  rw [hgs] at hgm
  obtain ⟨h1, h2, h3⟩ := hg g hgm
  obtain ⟨h4, h5⟩ := hp g.page h1 h2 h3
  exact ⟨h4 ▸ h1, h2, h5⟩

theorem Inserted.apart {e : LeafEntry} (hg : Apart t s T) (hi : Inserted t s s' T e T') : Apart t s' T' := by
  obtain ⟨ps, hperm, hfresh⟩ := hi.pages
  refine hg.congr hi.guards fun p h1 h2 h3 => ?_
  have hnot : p ∉ T'.2.pages := fun hin => by
    rcases List.mem_append.mp (hperm.subset hin) with hin | hin
    · exact h3 hin
    · exact h1 (hfresh p hin)
  exact ⟨hi.other p (by simp [h2, hnot]), hnot⟩

theorem Deleted.apart {e : LeafEntry} {freed : List PageId} (hg : Apart t s T) (hd : Deleted t s s' T e T' freed) :
    Apart t s' T' :=
  hg.congr hd.guards fun p _ h2 h3 => ⟨hd.other p (by simp [h2, h3]),
    fun hin => h3 (hd.pages.symm.subset (List.mem_append_left _ hin))⟩

theorem ReadTo.apart (hg : Apart t s T) (hr : ReadTo [] s s') : Apart t s' T :=
  hg.congr hr.guards fun p _ _ h3 => ⟨by rw [hr.pages], h3⟩

theorem RolledBack.apart (hg : Apart t s T) (hr : RolledBack s s') (hgs : s'.guards = s.guards) : Apart t s' T :=
  hg.congr hgs fun p h1 _ h3 => ⟨hr.kept p h1, h3⟩

theorem Refused.apart (hg : Apart t s T) (hr : Refused s s') (hgs : s'.guards = s.guards) : Apart t s' T :=
  hg.congr hgs fun p _ _ h3 => ⟨by rw [hr.pages], h3⟩

theorem RolledBack.tree (h : TreeAt t s.pages T) (hr : RolledBack s s') : TreeAt t s'.pages T :=
  h.congr fun p hp => hr.kept p (by
    rcases List.mem_cons.mp hp with rfl | hp
    · exact h.header.some
    · exact h.holds.allocated p hp)

end Trees

/-! Create. -/

/-- A tree just made: an empty root leaf and a header, on pages that were free. -/
structure Created (t : BPlusTree) (s s' : PageStore) (leafMax internalMax : Nat) (root : PageId) : Prop where
  fanout : t.leafMax = leafMax ∧ t.internalMax = internalMax
  tree : TreeAt t s'.pages ⟨0, .leaf root invalidPage []⟩
  fresh : s.pages t.headerPageId = none ∧ s.pages root = none
  other : ∀ p, p ≠ t.headerPageId → p ≠ root → s'.pages p = s.pages p
  guards : s'.guards = s.guards
  failures : s'.failures = s.failures
  leaks : s'.leaks = s.leaks

section Create
variable {env : PoolEnv} {s : PageStore} {leafMax internalMax : Nat}

theorem Created.apart {t : BPlusTree} {s' : PageStore} {root : PageId}
    (hlive : ∀ g ∈ s.guards, s.pages g.page ≠ none) (h : Created t s s' leafMax internalMax root) :
    Apart t s' ⟨0, .leaf root invalidPage []⟩ := by
  intro g hg
  rw [h.guards] at hg
  have h1 : g.page ≠ t.headerPageId := fun he => hlive g hg (he ▸ h.fresh.1)
  have h2 : g.page ≠ root := fun he => hlive g hg (he ▸ h.fresh.2)
  exact ⟨by rw [h.other _ h1 h2]; exact hlive g hg, h1, by simpa using h2⟩

/-- An empty leaf is a valid tree of any fanout. -/
theorem valid_empty (sh : Shape) (root : PageId) :
    Valid sh leafKey int64Min invalidPage (⟨0, .leaf root invalidPage []⟩ : Σ n, KTree n) where
  ordered := BTree.Tree.ordered_leaf.mpr .nil
  packed := by simp
  linked := by simp [BTree.Linked, BTree.start]
  nodup := by simp

/-- `Create`: a fresh empty tree, or a fanout out of range, or a failed `NewPage` and no page kept. -/
theorem wp_create_under (hlaw : env.Lawful) (hlive : ∀ g ∈ s.guards, s.pages g.page ≠ none) :
    wp (create env leafMax internalMax)
      (fun t s' => ∃ root, Created t s s' leafMax internalMax root)
      (fun e s' => (e.code = .invalidArgument ∧ s' = s ∧
          (leafMax < minFanout ∨ nodeCapacity < leafMax ∨ internalMax < minFanout ∨ nodeCapacity < internalMax)) ∨
        (RolledBack s s' ∧ s'.guards = s.guards ∧ env.RefusesUnder (s.guards.length + 2) e)) s := by
  unfold create
  rw [wp_inScope]
  by_cases h1 : leafMax < minFanout ∨ nodeCapacity < leafMax
  · rw [if_pos h1, wp_fail]
    exact .inl ⟨rfl, rfl, by tauto⟩
  by_cases h2 : internalMax < minFanout ∨ nodeCapacity < internalMax
  · rw [if_neg h1, if_pos h2, wp_fail]
    exact .inl ⟨rfl, rfl, by tauto⟩
  rw [if_neg h1, if_neg h2]
  have hrange : ∀ p, (⟨p, leafMax, internalMax⟩ : BPlusTree).InRange := fun p => by
    simp only [not_or, Nat.not_lt] at h1 h2
    exact ⟨h1, h2⟩
  refine wp_call (wp_and (wp_newPage hlaw) wp_newPage_under) (fun p s₁ hp => ?_)
    fun _ s₁ hr => .inr ⟨rolledBack_of_refused hr.1.1 _, rfl, hr.2.mono (by omega)⟩
  obtain ⟨⟨hpn, hpid, hpages₁, hgs₁, hf₁, hl₁⟩, -⟩ := hp
  rw [wp_bind, wp_attempt]
  refine wp_mono (wp_and (wp_newPage hlaw) wp_newPage_under) (fun q s₂ hq => ?_) fun e s₂ hr => ?_
  · obtain ⟨⟨hqn, hqid, hpages₂, hgs₂, hf₂, hl₂⟩, -⟩ := hq
    have hqp : q ≠ p := by
      rintro rfl
      rw [hpages₁, Function.update_self] at hqn
      cases hqn
    have hqs : s.pages q = none := by rwa [hpages₁, Function.update_of_ne hqp] at hqn
    have hp₂ : s₂.pages p ≠ none := by
      rw [hpages₂, Function.update_of_ne hqp.symm, hpages₁, Function.update_self]; simp
    simp only
    rw [wp_bind]
    refine wp_stamp (by rw [hpages₂, Function.update_self]; simp) fun s₃ ht₃ hty => ?_
    obtain ⟨pg, hpg, hpt⟩ := hty
    unfold asLeaf
    rw [wp_bind, wp_bind, wp_guarded hpg, if_neg (by simp [hpt]), wp_pure, wp_bind, wp_setBody hpg]
    have ht₄ := Touches.setPage hpg { pg with body := LeafNode.init pg.body }
    have hleaf : LeafAt (s₃.setPage q (some { pg with body := LeafNode.init pg.body })).pages q invalidPage [] :=
      ⟨_, PageStore.setPage_same _ _ _, hpt, LeafNode.init_is _⟩
    generalize s₃.setPage q (some { pg with body := LeafNode.init pg.body }) = s₄ at ht₄ hleaf ⊢
    have ht : Touches {q} s₂ s₄ := ht₃.trans ht₄
    rw [wp_bind]
    refine wp_stamp (by rw [ht.pages p (by simpa using hqp.symm)]; exact hp₂) fun s₅ ht₅ hty₅ => ?_
    obtain ⟨pg₅, hpg₅, hpt₅⟩ := hty₅
    obtain ⟨⟨hr1, hr2⟩, hr3, hr4⟩ := hrange p
    simp only [nodeCapacity] at hr2 hr4
    rw [wp_bind]
    refine wp_writeIndexHeader ⟨pg₅, hpg₅, hpt₅, rfl⟩ (by simp) (by simp only; omega) (by simp only; omega) (by simp)
      fun s₆ ht₆ hhead => ?_
    rw [wp_pure]
    have hkeep : ∀ x, x ≠ p → x ≠ q → s₆.pages x = s.pages x := fun x hxp hxq => by
      rw [ht₆.pages x (by simpa using hxp), ht₅.pages x (by simpa using hxp), ht.pages x (by simpa using hxq),
        hpages₂, Function.update_of_ne hxq, hpages₁, Function.update_of_ne hxp]
    refine ⟨q, ⟨rfl, rfl⟩, ⟨hrange p, hhead, ?_, valid_empty _ q, by simpa using hqp.symm, ?_⟩, ⟨hpn, hqs⟩, hkeep, rfl,
      ?_, ?_⟩
    · refine holds_leaf.mpr (hleaf.congr ?_)
      rw [ht₆.pages q (by simpa using hqp), ht₅.pages q (by simpa using hqp)]
    · intro x hx
      simp only [BTree.Tree.pages_leaf, List.mem_cons, List.not_mem_nil, or_false] at hx
      rcases hx with rfl | rfl
      · exact hpid
      · exact hqid
    · exact ht₆.failures.trans (ht₅.failures.trans (ht.failures.trans (hf₂.trans hf₁)))
    · exact ht₆.leaks.trans (ht₅.leaks.trans (ht.leaks.trans (hl₂.trans hl₁)))
  · obtain ⟨⟨hr, hgs₂⟩, hwhy⟩ := hr
    rw [hgs₁] at hwhy
    simp only
    rw [wp_bind]
    unfold dropGuard
    rw [wp_modify, wp_bind, wp_attempt]
    have hgs : s₂.guards.erase ⟨p, .write⟩ = s.guards := by rw [hgs₂, hgs₁]; simp
    have hfree : ∀ g ∈ s₂.guards.erase ⟨p, .write⟩, g.page ≠ p := fun g hg he => by
      rw [hgs] at hg
      exact hlive g hg (he ▸ hpn)
    have hkept : ∀ x, x ≠ p → s₂.pages x = s.pages x := fun x hx => by
      rw [hr.pages, hpages₁, Function.update_of_ne hx]
    have hfail : s.failures < s₂.failures := by rw [← hf₁]; exact hr.failures
    refine wp_mono (wp_deletePage hpid hfree) (fun _ s₃ h₃ => ?_) fun _ s₃ h₃ => ?_
    · obtain ⟨hpages₃, -, hf₃, hl₃⟩ := h₃
      rw [wp_fail]
      have hall : s₃.pages = s.pages := funext fun x => by
        by_cases hx : x = p
        · rw [hpages₃, hx, Function.update_self, hpn]
        · rw [hpages₃, Function.update_of_ne hx]; exact hkept x hx
      exact .inr ⟨⟨fun x _ => by rw [← hall], fun _ => hall, by rw [← hf₃] at hfail; exact hfail,
        le_of_eq (hl₃.trans (hr.leaks.trans hl₁)).symm⟩, trivial, hwhy⟩
    · obtain ⟨hpages₃, -, hf₃, hl₃⟩ := h₃
      rw [wp_fail]
      have hle : s.leaks < s₃.leaks := by rw [← hl₁, ← hr.leaks]; exact hl₃
      refine .inr ⟨⟨fun x hx => ?_, fun he => absurd he (Nat.ne_of_gt hle), by rw [← hf₃] at hfail; exact hfail,
        le_of_lt hle⟩, trivial, hwhy⟩
      have hxp : x ≠ p := fun he => hx (he ▸ hpn)
      exact (hpages₃ x hxp).trans (hkept x hxp)

theorem wp_create (hlaw : env.Lawful) (hlive : ∀ g ∈ s.guards, s.pages g.page ≠ none) :
    wp (create env leafMax internalMax)
      (fun t s' => ∃ root, Created t s s' leafMax internalMax root)
      (fun e s' => (e.code = .invalidArgument ∧ s' = s ∧
          (leafMax < minFanout ∨ nodeCapacity < leafMax ∨ internalMax < minFanout ∨ nodeCapacity < internalMax)) ∨
        (RolledBack s s' ∧ s'.guards = s.guards)) s :=
  wp_mono (wp_create_under hlaw hlive) (fun _ _ h => h) fun _ _ he => he.imp_right fun h => ⟨h.1, h.2.1⟩

end Create

/-! Runs. -/

inductive Op where
  | insert (key : Key) (rid : RID)
  | delete (key : Key)
  | get (key : Key)
  deriving DecidableEq

/-- One operation; only `Get` has something to return. -/
def perform (env : PoolEnv) (t : BPlusTree) : Op → PoolM (Option RID)
  | .insert key rid => do
    insert env t key rid
    pure none
  | .delete key => do
    delete env t key
    pure none
  | .get key => do
    let rid ← get env t key
    pure (some rid)

/-- What a finite map answers, and the map it becomes. -/
def mapPerform (m : Key → Option RID) : Op → Except Status (Option RID) × (Key → Option RID)
  | .insert key rid => match m key with
    | none => (.ok none, Function.update m key (some rid))
    | some _ => (.error ⟨.duplicateKey, s!"key {key.toInt} already exists"⟩, m)
  | .delete key => match m key with
    | none => (.error ⟨.notFound, s!"key {key.toInt} not in index"⟩, m)
    | some _ => (.ok none, Function.update m key none)
  | .get key => match m key with
    | none => (.error ⟨.notFound, "key not in index"⟩, m)
    | some rid => (.ok (some rid), m)

/-- The pages hold a tree with these contents, and nobody else is on it. -/
def Maps (t : BPlusTree) (s : PageStore) (m : Key → Option RID) : Prop :=
  ∃ T, TreeAt t s.pages T ∧ Apart t s T ∧ contents T.2.toList = m

section Runs
variable {env : PoolEnv} {t : BPlusTree} {s : PageStore} {m : Key → Option RID}

theorem wp_perform_insert (hlaw : env.Lawful) (hm : Maps t s m) (key : Key) (rid : RID) :
    wp (attempt (perform env t (.insert key rid))) (fun a s' => ∃ m', Maps t s' m' ∧ s.failures ≤ s'.failures ∧
      (s'.failures = s.failures → (a, m') = mapPerform m (.insert key rid))) (fun _ _ => False) s := by
  obtain ⟨T, h, hg, rfl⟩ := hm
  rw [wp_attempt]
  refine wp_call (wp_insert hlaw h hg) (fun _ s' hi => ?_) fun e s' he => ?_
  · obtain ⟨habsent, T', hi⟩ := hi
    refine ⟨_, ⟨T', hi.tree, hi.apart hg, rfl⟩, le_of_eq hi.failures.symm, fun _ => ?_⟩
    rw [mapPerform, contents_eq_none.mpr habsent, contents_add hi.tree.keys_nodup hi.entries]
  · rcases he with ⟨rfl, ⟨e, hmem, rfl⟩, hr⟩ | ⟨hr, hgs, -⟩
    · refine ⟨_, ⟨T, hr.pages ▸ h, ReadTo.apart hg hr, rfl⟩, le_of_eq hr.failures.symm, fun _ => ?_⟩
      rw [mapPerform, contents_of_mem h.keys_nodup hmem]
    · exact ⟨_, ⟨T, hr.tree h, hr.apart hg hgs, rfl⟩, le_of_lt hr.failures, fun he =>
        absurd he (Nat.ne_of_gt hr.failures)⟩

theorem wp_perform_delete (hm : Maps t s m) (key : Key) :
    wp (attempt (perform env t (.delete key))) (fun a s' => ∃ m', Maps t s' m' ∧ s.failures ≤ s'.failures ∧
      (s'.failures = s.failures → (a, m') = mapPerform m (.delete key))) (fun _ _ => False) s := by
  obtain ⟨T, h, hg, rfl⟩ := hm
  rw [wp_attempt]
  refine wp_call (wp_delete h hg) (fun _ s' hd => ?_) fun e s' he => ?_
  · obtain ⟨e, hmem, rfl, T', freed, hd⟩ := hd
    refine ⟨_, ⟨T', hd.tree, hd.apart hg, rfl⟩, le_of_eq hd.failures.symm, fun _ => ?_⟩
    rw [mapPerform, contents_of_mem h.keys_nodup hmem, contents_remove h.keys_nodup hd.entries]
  · rcases he with ⟨rfl, habsent, hr⟩ | ⟨hr, hgs⟩
    · refine ⟨_, ⟨T, hr.pages ▸ h, ReadTo.apart hg hr, rfl⟩, le_of_eq hr.failures.symm, fun _ => ?_⟩
      rw [mapPerform, contents_eq_none.mpr habsent]
    · exact ⟨_, ⟨T, hr.pages ▸ h, Refused.apart hg hr.toRefused hgs, rfl⟩, le_of_lt hr.failures, fun he =>
        absurd he (Nat.ne_of_gt hr.failures)⟩

theorem wp_perform_get (hm : Maps t s m) (key : Key) :
    wp (attempt (perform env t (.get key))) (fun a s' => ∃ m', Maps t s' m' ∧ s.failures ≤ s'.failures ∧
      (s'.failures = s.failures → (a, m') = mapPerform m (.get key))) (fun _ _ => False) s := by
  obtain ⟨T, h, hg, rfl⟩ := hm
  rw [wp_attempt]
  refine wp_call (wp_get h.readable hg.unlatched) (fun rid s' hget => ?_) fun e s' he => ?_
  · obtain ⟨hmem, hr⟩ := hget
    refine ⟨_, ⟨T, hr.pages ▸ h, ReadTo.apart hg hr, rfl⟩, le_of_eq hr.failures.symm, fun _ => ?_⟩
    rw [mapPerform, contents_of_mem h.keys_nodup hmem]
  · rcases he with ⟨rfl, habsent, hr⟩ | ⟨hr, hgs⟩
    · refine ⟨_, ⟨T, hr.pages ▸ h, ReadTo.apart hg hr, rfl⟩, le_of_eq hr.failures.symm, fun _ => ?_⟩
      rw [mapPerform, contents_eq_none.mpr habsent]
    · exact ⟨_, ⟨T, hr.pages ▸ h, Refused.apart hg hr.toRefused hgs, rfl⟩, le_of_lt hr.failures, fun he =>
        absurd he (Nat.ne_of_gt hr.failures)⟩

/-- The tree simulates the map, as long as no fetch and no `NewPage` fails. -/
theorem simulates_map (hlaw : env.Lawful) :
    Refine.Simulation (perform env t) (fun m op a m' => (a, m') = mapPerform m op) (fun _ _ => True) (Maps t)
      PageStore.failures :=
  .of_wp fun {_ _ op} _ hm => match op with
    | .insert key rid => wp_perform_insert hlaw hm key rid
    | .delete key => wp_perform_delete hm key
    | .get key => wp_perform_get hm key

theorem Created.maps {s' : PageStore} {leafMax internalMax : Nat} {root : PageId}
    (hlive : ∀ g ∈ s.guards, s.pages g.page ≠ none) (h : Created t s s' leafMax internalMax root) :
    Maps t s' fun _ => none :=
  ⟨_, h.tree, h.apart hlive, by funext key; rfl⟩

/-- Every run from `Create` ends, and with a pool that does not fail its results are those of a finite map
that starts empty. -/
theorem run_from_create_is_map (hlaw : env.Lawful) (hlive : ∀ g ∈ s.guards, s.pages g.page ≠ none)
    {leafMax internalMax : Nat} (hleaf : minFanout ≤ leafMax ∧ leafMax ≤ nodeCapacity)
    (hinternal : minFanout ≤ internalMax ∧ internalMax ≤ nodeCapacity) (ops : List Op) :
    ∃ results s', (do
        let t ← create env leafMax internalMax
        Refine.run (perform env t) ops) s = some (results, s') ∧
      (s'.failures = s.failures → results = .ok (Refine.compute mapPerform (fun _ => none) ops).1) := by
  have hrun : wp (do
      let t ← create env leafMax internalMax
      Refine.run (perform env t) ops)
      (fun as s' => s'.failures = s.failures → as = (Refine.compute mapPerform (fun _ => none) ops).1)
      (fun _ s' => s.failures < s'.failures) s := by
    refine wp_call (wp_create hlaw hlive) (fun t s₁ hc => ?_) fun _ s₁ he => ?_
    · obtain ⟨root, hc⟩ := hc
      obtain ⟨as, s₂, m', hops, -, -, hallowed⟩ :=
        (simulates_map hlaw).run (.of_forall fun _ _ _ => trivial) (hc.maps hlive)
      refine wp_of_ok hops fun hf => ?_
      exact congrArg Prod.fst (hallowed (hf.trans hc.failures.symm)).compute_eq
    · rcases he with ⟨-, -, hout⟩ | ⟨hr, -⟩
      · omega
      · exact hr.failures
  rcases wp_run hrun with ⟨as, s', hs', has⟩ | ⟨e, s', hs', hlt⟩
  · exact ⟨_, s', hs', fun hf => by rw [has hf]⟩
  · exact ⟨_, s', hs', fun hf => absurd hf (Nat.ne_of_gt hlt)⟩

theorem run_from_create_is_map_demo : ∃ results s', (do
        let t ← create PoolEnv.countUp 3 4
        Refine.run (perform PoolEnv.countUp t)
          [.insert 7 ⟨9, 1⟩, .insert 7 ⟨9, 2⟩, .get 7, .delete 7, .get 7]) PageStore.empty = some (results, s') ∧
      (s'.failures = 0 → results = .ok [.ok none, .error ⟨.duplicateKey, "key 7 already exists"⟩,
        .ok (some ⟨9, 1⟩), .ok none, .error ⟨.notFound, "key not in index"⟩]) :=
  run_from_create_is_map PoolEnv.countUp_lawful (by simp [PageStore.empty]) (by decide) (by decide) _

end Runs
end BPlusTree
end KernSql

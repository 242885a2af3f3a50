import KernSql.Index.Descend

/- Insert, against the abstract tree.

   The code splits bottom-up along the path it recorded; the abstract insert is a
   recursion from the root. The two meet at every subtree: running the climb over
   the part of the path inside a subtree leaves on the pages exactly what
   `insertRec` puts in the subtree's place (`wp_splitPath`), by induction on its
   height. The climb over a longer path is the climb over its lower part followed
   by the rest (`wp_splitUp_append`).

   The pages for the splits are allocated before anything is written, and as many
   as there will be splits (`wp_countSplits`), so the writes cannot fail. -/
namespace KernSql
open Exec BTree

namespace BPlusTree

/-! Planning: how many nodes will split. -/

section Count
variable {t : BPlusTree} {s : PageStore}

theorem isInternalFull_eq {b : Body} {level : Nat} {next : PageId} {es : List InternalEntry}
    (h : NodeIs b level next es) : t.isInternalFull b = decide (t.internalMax ≤ es.length) := by
  rw [isInternalFull, show InternalNode.count b = es.length from h.count_eq]

theorem isLeafFull_eq {b : Body} {level : Nat} {next : PageId} {es : List LeafEntry}
    (h : NodeIs b level next es) : t.isLeafFull b = decide (t.leafMax ≤ es.length) := by
  rw [isLeafFull, show LeafNode.count b = es.length from h.count_eq]

theorem wp_countFull_append {ys : List PageId} {E : Status → PageStore → Prop} :
    ∀ {xs : List PageId} {Q : Nat → PageStore → Prop} {s : PageStore},
    wp (countFull t xs) (fun m s' => (m = xs.length → wp (countFull t ys) (fun m' => Q (m + m')) E s') ∧
      (m ≠ xs.length → Q m s')) E s → wp (countFull t (xs ++ ys)) Q E s
  | [], Q, s, h => by
    have := h.1 rfl
    simpa using this
  | p :: xs, Q, s, h => by
    rw [List.cons_append, countFull] at *
    rw [wp_bind] at h ⊢
    refine wp_mono h (fun b s' hb => ?_) fun _ _ he => he
    by_cases hfull : t.isInternalFull b = true
    · rw [if_pos hfull] at hb ⊢
      rw [wp_bind] at hb ⊢
      refine wp_countFull_append (wp_mono hb (fun m s'' hm => ?_) fun _ _ he => he)
      simp only [wp_pure, List.length_cons, Nat.add_right_cancel_iff] at hm ⊢
      refine ⟨fun he => wp_mono (hm.1 he) (fun m' s3 hq => ?_) fun _ _ he => he,
        fun hne => hm.2 (by omega)⟩
      rwa [Nat.add_right_comm] at hq
    · rw [if_neg hfull] at hb ⊢
      exact hb.2 (by simp)

variable {key lo : Key} {hi : WithTop Key} {n : Nat} {T : KTree n}

theorem length_upPath (ht : T.Ordered leafKey lo hi) (hlo : lo ≤ key) (hhi : (key : WithTop Key) < hi) :
    (upPath key T).length = n := by
  obtain ⟨h1, h2, -, h4⟩ := path_shape ht hlo hhi
  rw [← h4]
  simp [h1, h2]

/-- The run of full nodes above a full leaf, counted on the pages and on the tree. -/
theorem wp_countFull (hr : t.InRange) (hh : Holds s.pages T) (ht : T.Ordered leafKey lo hi) (hlo : lo ≤ key)
    (hhi : (key : WithTop Key) < hi) (hfull : t.leafMax ≤ (pathLeaf key T).entries.length) :
    wp (countFull t ((upPath key T).map Prod.fst))
      (fun m s' => s' = s ∧ m + 1 = splits (t.shape hr) key T) (fun _ _ => False) s := by
  induction T using BTree.Tree.ind generalizing lo hi with
  | leaf p next es =>
    have : splits (t.shape hr) key (.leaf p next es : KTree 0) = if t.leafMax ≤ es.length then 1 else 0 := rfl
    change t.leafMax ≤ es.length at hfull
    rw [this, if_pos hfull]
    exact ⟨rfl, rfl⟩
  | @branch n p kids ih =>
    obtain ⟨before, k, c, after, a, b, r⟩ := BTree.Tree.Ordered.routed ht hlo hhi
    rw [holds_branch] at hh
    rw [pathLeaf_branch r.split r.index] at hfull
    rw [upPath_branch r.split r.index, splits_branch _ p r.split r.index, List.map_append]
    refine wp_countFull_append (wp_mono (ih _ r.mem (hh.2 _ r.mem) r.child r.low r.high hfull)
      (fun m s' hm => ?_) fun _ _ he => he)
    obtain ⟨rfl, hm⟩ := hm
    have hlen : (upPath key c).length = n := length_upPath r.child r.low r.high
    rw [List.length_map, hlen]
    change m + 1 = splits _ key c at hm
    refine ⟨fun hmn => ?_, fun hmn => ⟨rfl, by rw [if_neg (by omega)]; exact hm⟩⟩
    simp only [List.map_cons, List.map_nil, countFull]
    rw [wp_bind, wp_orFault]
    refine wp_asInternal hh.1 fun body hbody => ?_
    rw [isInternalFull_eq hbody, length_kidEntries, length_kidPages]
    by_cases hk : t.internalMax ≤ kids.length
    · rw [if_pos (by simpa using hk), if_pos ⟨by omega, hk⟩, wp_bind, wp_pure, wp_pure]
      exact ⟨rfl, by omega⟩
    · rw [if_neg (by simpa using hk), if_neg (by simp [shape, hk]), wp_pure]
      exact ⟨rfl, hm⟩

end Count

/-! Allocation. -/

section Allocate
variable {env : PoolEnv} {s₀ s : PageStore}

/-- `ps` were allocated since `s₀`, and nothing else happened. -/
structure Allocated (s₀ s : PageStore) (ps : List PageId) : Prop where
  nodup : ps.Nodup
  fresh : ∀ p ∈ ps, s₀.pages p = none ∧ catalogRootPageId < p
  blank : ∀ p ∈ ps, s.pages p = some (blankPage p)
  other : ∀ p ∉ ps, s.pages p = s₀.pages p
  guards : s.guards = writeGuards ps ++ s₀.guards
  failures : s.failures = s₀.failures
  leaks : s.leaks = s₀.leaks

theorem Allocated.nil (s : PageStore) : Allocated s s [] :=
  ⟨.nil, by simp, by simp, fun _ _ => rfl, rfl, rfl, rfl⟩

/-- An allocation that failed and was rolled back. -/
structure RolledBack (s₀ s : PageStore) : Prop where
  kept : ∀ p, s₀.pages p ≠ none → s.pages p = s₀.pages p
  clean : s.leaks = s₀.leaks → s.pages = s₀.pages
  failures : s₀.failures < s.failures
  leaks : s₀.leaks ≤ s.leaks

theorem wp_dropGuards {gs : List Guard} {Q : Unit → PageStore → Prop} {E : Status → PageStore → Prop} :
    ∀ {ps : List PageId} {s : PageStore}, ps.Nodup → s.guards = writeGuards ps ++ gs →
      Q () { s with guards := gs } → wp (dropGuards ps) Q E s
  | [], s, _, hg, hQ => by
    change Q () s
    have : s = { s with guards := gs } := by rw [← show s.guards = gs from hg]
    rw [this]; exact hQ
  | p :: ps, s, hnd, hg, hQ => by
    rw [List.nodup_cons] at hnd
    rw [dropGuards, wp_bind]
    unfold dropGuard
    rw [wp_modify]
    refine wp_dropGuards hnd.2 ?_ hQ
    have hnot : (⟨p, .write⟩ : Guard) ∉ writeGuards ps := fun h => hnd.1 (mem_writeGuards h)
    have hcons : writeGuards (p :: ps) = writeGuards ps ++ [⟨p, .write⟩] := by simp [writeGuards]
    show s.guards.erase ⟨p, .write⟩ = _
    rw [hg, hcons, List.append_assoc, List.erase_append_right _ hnot]
    simp

/-- Best-effort deletes touch only their pages, and free them all if none fails. -/
theorem wp_deleteAll : ∀ {ps : List PageId} {s : PageStore},
    (∀ p ∈ ps, catalogRootPageId < p ∧ ∀ g ∈ s.guards, g.page ≠ p) →
    wp (deleteAll env ps) (fun _ s' => (∀ q ∉ ps, s'.pages q = s.pages q) ∧ s'.guards = s.guards ∧
      s'.failures = s.failures ∧ s.leaks ≤ s'.leaks ∧
      (s'.leaks = s.leaks → ∀ p ∈ ps, s'.pages p = none)) (fun _ _ => False) s
  | [], s, _ => ⟨fun _ _ => rfl, rfl, rfl, le_refl _, by simp⟩
  | p :: ps, s, h => by
    obtain ⟨hp, hg⟩ := h p (by simp)
    rw [deleteAll, wp_bind, wp_attempt]
    have hrest : ∀ s₁ : PageStore, s₁.guards = s.guards →
        ∀ q ∈ ps, catalogRootPageId < q ∧ ∀ g ∈ s₁.guards, g.page ≠ q := fun s₁ he q hq => by
      rw [he]; exact h q (by simp [hq])
    refine wp_mono (wp_deletePage hp hg) (fun _ s₁ h₁ => ?_) fun _ s₁ h₁ => ?_
    · obtain ⟨hpages, hgs, hf, hl⟩ := h₁
      refine wp_mono (wp_deleteAll (hrest s₁ hgs)) (fun _ s₂ h₂ => ?_) fun _ _ he => he
      obtain ⟨h2p, h2g, h2f, h2l, h2c⟩ := h₂
      refine ⟨fun q hq => ?_, h2g.trans hgs, h2f.trans hf, hl ▸ h2l, fun he q hq => ?_⟩
      · simp only [List.mem_cons, not_or] at hq
        rw [h2p q hq.2, hpages, Function.update_of_ne hq.1]
      · have hall := h2c (by omega)
        by_cases hqs : q ∈ ps
        · exact hall q hqs
        · rcases List.mem_cons.mp hq with rfl | hq
          · rw [h2p q hqs, hpages, Function.update_self]
          · exact absurd hq hqs
    · obtain ⟨hpages, hgs, hf, hl⟩ := h₁
      refine wp_mono (wp_deleteAll (hrest s₁ hgs)) (fun _ s₂ h₂ => ?_) fun _ _ he => he
      obtain ⟨h2p, h2g, h2f, h2l, h2c⟩ := h₂
      refine ⟨fun q hq => ?_, h2g.trans hgs, h2f.trans hf, by omega, fun he => by omega⟩
      simp only [List.mem_cons, not_or] at hq
      rw [h2p q hq.2, hpages q hq.1]

/-- All the pages, or none. -/
theorem wp_allocatePages (hlaw : env.Lawful) (hlive : ∀ g ∈ s₀.guards, s₀.pages g.page ≠ none) :
    ∀ {n : Nat} {ps : List PageId} {s : PageStore}, Allocated s₀ s ps →
    wp (allocatePages env n ps) (fun qs s' => Allocated s₀ s' qs ∧ qs.length = ps.length + n)
      (fun e s' => RolledBack s₀ s' ∧ env.RefusesUnder (s₀.guards.length + (ps.length + n)) e) s
  | 0, ps, s, h => ⟨h, rfl⟩
  | n + 1, ps, s, h => by
    rw [allocatePages, wp_bind, wp_attempt]
    refine wp_mono (wp_and (wp_newPage hlaw) wp_newPage_under) (fun p s₁ h₁ => ?_) fun e s₁ h₁ => ?_
    · obtain ⟨⟨hnone, hp, hpages, hgs, hf, hl⟩, -⟩ := h₁
      have hnot : p ∉ ps := fun hin => by rw [h.blank p hin] at hnone; cases hnone
      have halloc : Allocated s₀ s₁ (ps ++ [p]) := by
        refine ⟨?_, ?_, ?_, ?_, ?_, hf.trans h.failures, hl.trans h.leaks⟩
        · rw [List.nodup_append]
          exact ⟨h.nodup, List.nodup_singleton p, fun a ha b hb => by
            rw [List.mem_singleton.mp hb]; rintro rfl; exact hnot ha⟩
        · intro q hq
          rcases List.mem_append.mp hq with hq | hq
          · exact h.fresh q hq
          · rw [List.mem_singleton.mp hq]
            exact ⟨by rw [← h.other p hnot]; exact hnone, hp⟩
        · intro q hq
          rw [hpages]
          by_cases hqp : q = p
          · rw [hqp, Function.update_self]
          · rw [Function.update_of_ne hqp]
            exact h.blank q ((List.mem_append.mp hq).resolve_right (by simpa using hqp))
        · intro q hq
          simp only [List.mem_append, List.mem_singleton, not_or] at hq
          rw [hpages, Function.update_of_ne hq.2, h.other q hq.1]
        · rw [hgs, h.guards]; simp [writeGuards]
      have hlen : (ps ++ [p]).length = ps.length + 1 := by simp
      refine wp_mono (wp_allocatePages hlaw hlive halloc) (fun qs s₂ h₂ => ?_) fun _ _ he => ?_
      · exact ⟨h₂.1, by rw [h₂.2, hlen]; omega⟩
      · exact ⟨he.1, he.2.mono (by rw [hlen]; omega)⟩
    · obtain ⟨⟨href, hgs⟩, hcause⟩ := h₁
      have hunder : env.RefusesUnder (s₀.guards.length + (ps.length + (n + 1))) e := by
        refine hcause.mono ?_
        rw [h.guards, writeGuards]
        simp only [List.length_append, List.length_reverse, List.length_map]
        omega
      rw [wp_bind]
      refine wp_dropGuards h.nodup (hgs.trans h.guards) ?_
      refine wp_call (wp_deleteAll ?_) (fun _ s₂ h₂ => ?_) fun _ _ he => he.elim
      · intro p hp
        refine ⟨(h.fresh p hp).2, fun g hg he => hlive g hg ?_⟩
        rw [he]; exact (h.fresh p hp).1
      · obtain ⟨h2p, -, h2f, h2l, h2c⟩ := h₂
        simp only at h2p h2f h2l h2c
        have hleaks : s₁.leaks = s₀.leaks := href.leaks.trans h.leaks
        refine ⟨⟨fun p hp => ?_, fun he => funext fun p => ?_, ?_, by omega⟩, hunder⟩
        · have hnot : p ∉ ps := fun hin => hp (h.fresh p hin).1
          rw [h2p p hnot, href.pages, h.other p hnot]
        · by_cases hin : p ∈ ps
          · rw [h2c (by omega) p hin, (h.fresh p hin).1]
          · rw [h2p p hin, href.pages, h.other p hin]
        · have := href.failures
          rw [h.failures] at this
          omega

end Allocate

/-! The writes. -/

section Split
variable {t : BPlusTree} {s : PageStore} {ps : List PageId}

theorem wp_splitUp_append {ys : List (PageId × Nat)} {E : Status → PageStore → Prop}
    {Q : Option (Nat × Key × PageId) → PageStore → Prop} :
    ∀ {xs : List (PageId × Nat)} {np : Nat} {sep : Key} {right : PageId} {s : PageStore},
    wp (splitUp t ps xs np sep right) (fun res s' => match res with
      | none => Q none s'
      | some (np', sep', right') => wp (splitUp t ps ys np' sep' right') Q E s') E s →
    wp (splitUp t ps (xs ++ ys) np sep right) Q E s
  | [], np, sep, right, s, h => h
  | (p, i) :: xs, np, sep, right, s, h => by
    rw [List.cons_append, splitUp] at *
    rw [wp_bind] at h ⊢
    refine wp_mono h (fun b s' hb => ?_) fun _ _ he => he
    by_cases hfull : (!t.isInternalFull b) = true
    · rw [if_pos hfull] at hb ⊢
      rw [wp_bind] at hb ⊢
      exact wp_mono hb (fun _ _ h => h) fun _ _ he => he
    · rw [if_neg hfull] at hb ⊢
      simp only [wp_bind] at hb ⊢
      refine wp_mono hb (fun r s₁ h₁ => ?_) fun _ _ he => he
      refine wp_mono h₁ (fun _ s₂ h₂ => ?_) fun _ _ he => he
      refine wp_mono h₂ (fun _ s₃ h₃ => ?_) fun _ _ he => he
      refine wp_mono h₃ (fun r' s₄ h₄ => ?_) fun _ _ he => he
      refine wp_mono h₄ (fun sp s₅ h₅ => ?_) fun _ _ he => he
      refine wp_mono h₅ (fun _ s₆ h₆ => ?_) fun _ _ he => he
      refine wp_mono h₆ (fun _ s₇ h₇ => ?_) fun _ _ he => he
      exact wp_splitUp_append h₇

/-- The climb at a node with room: the new child goes right after the one that split. -/
theorem wp_splitUp_room {p right : PageId} {level i np : Nat} {sep : Key} {kids : List (Key × PageId)}
    {Q : Option (Nat × Key × PageId) → PageStore → Prop} {E : Status → PageStore → Prop}
    (h : BranchAt s.pages p level kids) (hi : i < kids.length) (hroom : kids.length < t.internalMax)
    (hmax : t.internalMax ≤ nodeCapacity)
    (hQ : ∀ s', Touches {p} s s' →
      BranchAt s'.pages p level (kids.take (i + 1) ++ (sep, right) :: kids.drop (i + 1)) → Q none s') :
    wp (splitUp t ps [(p, i)] np sep right) Q E s := by
  rw [splitUp, wp_bind, wp_orFault]
  refine wp_asInternal h fun b hb => ?_
  have hu : u16 (i + 1) = i + 1 := u16_of_lt (by simp only [nodeCapacity] at hmax; omega)
  rw [isInternalFull_eq hb, length_kidEntries, if_pos (by simpa using hroom), wp_bind]
  refine wp_editInternal h (fun b hb => ?_) fun s' hs'
    (hb' : BranchAt s'.pages p level (kids.take (i + 1) ++ (sep, right) :: kids.drop (i + 1))) => hQ s' hs' hb'
  rw [hu, ← kidEntries_insert _ (by omega) (by omega)]
  exact hb.insertAt _ (by simp; omega) (by omega) (by simp; omega)

/-- The climb at a full node: it is cut in the middle, and the key at the cut goes up. -/
theorem wp_splitUp_full {p right q : PageId} {level i np : Nat} {sep : Key} {kids kids' : List (Key × PageId)}
    {Q : Option (Nat × Key × PageId) → PageStore → Prop} {E : Status → PageStore → Prop}
    (h : BranchAt s.pages p level kids) (hi : i < kids.length) (hfull : t.internalMax ≤ kids.length)
    (h2 : 2 ≤ kids.length) (hlevel : 1 ≤ level) (hq : ps[np]? = some q) (hqp : q ≠ p)
    (hqs : s.pages q ≠ none) (hk : kids' = kids.take (i + 1) ++ (sep, right) :: kids.drop (i + 1))
    {m : Nat} (hm : m = (kids'.length + 1) / 2)
    (hQ : ∀ s' up, Touches {p, q} s s' → (kids'[m]?).map Prod.fst = some up →
      BranchAt s'.pages p level (kids'.take m) → BranchAt s'.pages q level (kids'.drop m) →
      Q (some (np + 1, up, q)) s') :
    wp (splitUp t ps [(p, i)] np sep right) Q E s := by
  have hcap : kids.length ≤ nodeCapacity := by
    obtain ⟨pg, -, -, hn⟩ := h
    simpa using hn.cap
  have hlt : level < 65536 := by
    obtain ⟨pg, -, -, hn⟩ := h
    exact hn.level_lt
  have hlen : kids'.length = kids.length + 1 := by rw [hk]; simp; omega
  have hu : u16 (i + 1) = i + 1 := u16_of_lt (by simp only [nodeCapacity] at hcap; omega)
  rw [splitUp, wp_bind, wp_orFault]
  refine wp_asInternal h fun b hb => ?_
  rw [isInternalFull_eq hb, length_kidEntries, if_neg (by simpa using hfull), wp_bind, wp_lift]
  refine ⟨q, hq, ?_⟩
  rw [wp_bind]
  refine wp_stamp hqs fun s₁ ht₁ hty => ?_
  have hl : InternalNode.level b = level := by
    rw [InternalNode.level, show InternalNode.header b = _ from hb.header_eq]
  rw [wp_bind, hl]
  refine wp_initInternal hty hlevel hlt fun s₂ ht₂ hq₂ => ?_
  rw [wp_bind, wp_orFault]
  refine wp_asInternal hq₂ fun b' hb' => ?_
  have htemp : kidEntries kids' = (kidEntries kids).take (i + 1) ++ ⟨sep, right, 0⟩ ::
      (kidEntries kids).drop (i + 1) := by
    rw [hk, kidEntries_insert _ (by omega) (by omega)]
  obtain ⟨l', r', e, hsp, he, hln, hrn⟩ := splitInternal_eq hb hb' ⟨sep, right, 0⟩ (by simpa using h2)
    (by omega) (by simp; omega) htemp (m := m) (by simp; omega)
  rw [wp_bind, wp_lift, hu]
  refine ⟨_, hsp, ?_⟩
  have hp₂ : BranchAt s₂.pages p level kids :=
    (h.congr (ht₁.pages p (by simpa using hqp.symm))).congr (ht₂.pages p (by simpa using hqp.symm))
  rw [wp_bind]
  rw [canonical_take_kidEntries] at hln
  rw [canonical_drop_kidEntries] at hrn
  refine wp_setBranch hp₂ hln fun s₃ ht₃ hp₃ => ?_
  rw [wp_bind]
  refine wp_setBranch (hq₂.congr (ht₃.pages q (by simpa using hqp))) hrn fun s₄ ht₄ hq₄ => ?_
  rw [splitUp, wp_pure]
  have hall : Touches {p, q} s s₄ :=
    (((ht₁.mono (by simp)).trans (ht₂.mono (by simp))).trans (ht₃.mono (by simp))).trans (ht₄.mono (by simp))
  refine hQ s₄ e.key hall ?_ (hp₃.congr (ht₄.pages p (by simpa using hqp.symm))) hq₄
  have hmlt : m < kids'.length := by omega
  obtain ⟨k'', hk'', hkey⟩ := kidEntries_getElem? (List.getElem?_eq_getElem hmlt)
  rw [hk''] at he
  have hup : e.key = kids'[m].1 := by rw [← Option.some.inj he]; exact hkey (by omega)
  rw [List.getElem?_eq_getElem hmlt, Option.map_some, hup]

/-- The leaf split: the entries with the new one, cut in the middle, the right half on `q`. -/
theorem wp_splitLeafInto {p q next : PageId} {es es' : List LeafEntry} {index : Nat} {e : LeafEntry}
    {Q : Key × PageId → PageStore → Prop} {E : Status → PageStore → Prop}
    (h : LeafAt s.pages p next es) (h1 : 1 ≤ es.length) (hi : index ≤ es.length) (hq : ps[0]? = some q)
    (hqp : q ≠ p) (hqs : s.pages q ≠ none) (hes : es' = es.take index ++ e :: es.drop index)
    {m : Nat} (hm : m = (es'.length + 1) / 2)
    (hQ : ∀ s' sep, Touches {p, q} s s' → es'[m]? = some sep → LeafAt s'.pages p q (es'.take m) →
      LeafAt s'.pages q next (es'.drop m) → Q (sep.key, q) s') :
    wp (splitLeafInto ps p index e) Q E s := by
  have hlen : es'.length = es.length + 1 := by rw [hes]; simp; omega
  unfold splitLeafInto
  rw [wp_bind, wp_lift]
  refine ⟨q, hq, ?_⟩
  rw [wp_bind]
  refine wp_stamp hqs fun s₁ ht₁ hty => ?_
  rw [wp_bind]
  refine wp_initLeaf hty fun s₂ ht₂ hq₂ => ?_
  have hp₂ : LeafAt s₂.pages p next es :=
    (h.congr (ht₁.pages p (by simpa using hqp.symm))).congr (ht₂.pages p (by simpa using hqp.symm))
  rw [wp_bind, wp_orFault]
  refine wp_asLeaf hp₂ fun b hb => ?_
  rw [wp_bind, wp_orFault]
  refine wp_asLeaf hq₂ fun b' hb' => ?_
  obtain ⟨l', r', sep, hsp, he, hln, hrn⟩ := splitLeaf_eq hb hb' q e h1 hi hes (m := m) (by omega)
  rw [wp_bind, wp_lift]
  refine ⟨_, hsp, ?_⟩
  rw [wp_bind]
  refine wp_setLeaf hp₂ hln fun s₃ ht₃ hp₃ => ?_
  rw [wp_bind]
  refine wp_setLeaf (hq₂.congr (ht₃.pages q (by simpa using hqp))) hrn fun s₄ ht₄ hq₄ => ?_
  have hall : Touches {p, q} s s₄ :=
    (((ht₁.mono (by simp)).trans (ht₂.mono (by simp))).trans (ht₃.mono (by simp))).trans (ht₄.mono (by simp))
  exact hQ s₄ sep hall he (hp₃.congr (ht₄.pages p (by simpa using hqp.symm))) hq₄

/-- What the climb over a subtree returned and left on the pages, for what takes the subtree's place. -/
def GrownAt (pages : PageId → Option Page) (res : Option (Nat × Key × PageId)) :
    {n : Nat} → Grown PageId Key LeafEntry n → Prop
  | _, (t', none) => res = none ∧ Holds pages t'
  | n, (l, some (sep, r)) => res = some (n + 1, sep, r.page) ∧ Holds pages l ∧ Holds pages r

/-- The pages of the other children are apart from one child's. -/
theorem apart_of_nodup {n : Nat} {p : PageId} {before after : List (Key × KTree n)} {k : Key} {c : KTree n}
    (h : (BTree.Tree.branch p (before ++ (k, c) :: after) : KTree (n + 1)).pages.Nodup) :
    p ∉ c.pages ∧ c.pages.Nodup ∧ ∀ kc, kc ∈ before ∨ kc ∈ after → p ∉ kc.2.pages ∧
      ∀ q ∈ kc.2.pages, q ∉ c.pages := by
  simp only [BTree.Tree.pages_branch, List.flatMap_append, List.flatMap_cons, List.nodup_cons,
    List.mem_append, not_or, List.nodup_append] at h
  obtain ⟨⟨hp1, hp2, hp3⟩, hb, ⟨hc, ha, hca⟩, hbc⟩ := h
  refine ⟨hp2, hc, fun kc hkc => ?_⟩
  rcases hkc with hkc | hkc
  · exact ⟨fun hp => hp1 (List.mem_flatMap.mpr ⟨kc, hkc, hp⟩), fun q hq hqc =>
      hbc q (List.mem_flatMap.mpr ⟨kc, hkc, hq⟩) q (.inl hqc) rfl⟩
  · exact ⟨fun hp => hp3 (List.mem_flatMap.mpr ⟨kc, hkc, hp⟩), fun q hq hqc =>
      hca q hqc q (List.mem_flatMap.mpr ⟨kc, hkc, hq⟩) rfl⟩

/-- The child list of a node whose child split, on the page. -/
theorem kidPages_grown {n : Nat} {kids before after : List (Key × KTree n)} {k : Key} {c l : KTree n}
    (sep : Key) (r : KTree n) (h : kids = before ++ (k, c) :: after) (hl : l.page = c.page) :
    kidPages (before ++ Grown.kids k (l, some (sep, r)) ++ after) =
      (kidPages kids).take (before.length + 1) ++ (sep, r.page) :: (kidPages kids).drop (before.length + 1) := by
  rw [h]
  simp [kidPages, Grown.kids_two, List.take_append, List.drop_append, hl, List.take_of_length_le]

theorem kidPages_one {n : Nat} {kids before after : List (Key × KTree n)} {k : Key} {c t' : KTree n}
    (h : kids = before ++ (k, c) :: after) (hl : t'.page = c.page) :
    kidPages (before ++ Grown.kids k (t', none) ++ after) = kidPages kids := by
  rw [h]
  simp [kidPages, Grown.kids_one, hl]

variable {key lo : Key} {hi : WithTop Key} {n : Nat} {T : KTree n} {e : LeafEntry}

theorem wp_splitPath (hr : t.InRange) (hh : Holds s.pages T) (ht : T.Ordered leafKey lo hi)
    (hkey : leafKey e = key) (hlo : lo ≤ key) (hhi : (key : WithTop Key) < hi) (hnodup : T.pages.Nodup)
    (hbelow : T.PackedBelow (t.shape hr)) (hsize : T.size ≤ (t.shape hr).max n)
    (hfull : t.leafMax ≤ (pathLeaf key T).entries.length) (hlen : splits (t.shape hr) key T ≤ ps.length)
    (hpsnd : ps.Nodup) (hps : ∀ p ∈ ps, s.pages p ≠ none ∧ p ∉ T.pages) :
    wp (splitPath t ps (pathLeaf key T).page (upPath key T) (below (pathLeaf key T).entries key) e)
      (fun res s' => Touches {q | q ∈ T.pages ∨ q ∈ ps} s s' ∧
        GrownAt s'.pages res (insertRec (t.shape hr) leafKey (fun i => ps.getD i invalidPage) e T))
      (fun _ _ => False) s := by
  induction T using BTree.Tree.ind generalizing lo hi with
  | leaf p next es =>
    change t.leafMax ≤ es.length at hfull
    rw [holds_leaf] at hh
    have hs : splits (t.shape hr) key (.leaf p next es : KTree 0) = if t.leafMax ≤ es.length then 1 else 0 := rfl
    rw [hs, if_pos hfull] at hlen
    have hmax := hr.1.1
    simp only [minFanout] at hmax
    obtain ⟨q, rest, rfl⟩ := List.exists_cons_of_length_pos hlen
    obtain ⟨hqs, hqp⟩ := hps q (by simp)
    have hqp' : q ≠ p := by simpa using hqp
    unfold splitPath
    rw [wp_bind]
    change wp (splitLeafInto (q :: rest) p (below es key) e) _ _ _
    refine wp_splitLeafInto hh (by omega) List.countP_le_length rfl hqp' hqs rfl rfl
      fun s' sep htouch hsep hl hr' => ?_
    change Touches _ s s' ∧ _
    refine ⟨htouch.mono ?_, ?_⟩
    · intro x hx
      rcases hx with rfl | hx
      · exact .inl (by simp)
      · rw [Set.mem_singleton_iff.mp hx]; exact .inr (by simp)
    · rw [insertRec_leaf]
      change GrownAt s'.pages _ (cutLeaf (t.shape hr) leafKey q p next
        (es.take (below es (leafKey e)) ++ e :: es.drop (below es (leafKey e))))
      rw [hkey]
      have hlen' : (es.take (below es key) ++ e :: es.drop (below es key)).length = es.length + 1 := by
        simp; omega
      rcases cutLeaf_cases (t.shape hr) leafKey q p next (es.take (below es key) ++ e :: es.drop (below es key))
        with ⟨hle, -⟩ | ⟨-, xs, e₀, ys, heq, hxl, hcut⟩
      · rw [hlen'] at hle
        simp only [shape] at hle
        omega
      · rw [hcut]
        rw [← hxl, heq] at hsep hl hr'
        simp only [List.take_left', List.drop_left', List.getElem?_append_right (le_refl _), Nat.sub_self,
          List.getElem?_cons_zero, Option.some.injEq] at hsep hl hr'
        subst hsep
        exact ⟨rfl, hl, hr'⟩
  | @branch n p kids ih =>
    obtain ⟨before, k, c, after, a, b, r⟩ := BTree.Tree.Ordered.routed ht hlo hhi
    rw [holds_branch] at hh
    rw [pathLeaf_branch r.split r.index] at hfull ⊢
    rw [upPath_branch r.split r.index]
    have hsplits := splits_branch (t.shape hr) p r.split r.index
    have hkids : kids.length = before.length + (after.length + 1) := by rw [r.split]; simp
    rw [BTree.Tree.size_branch, Shape.max] at hsize
    have hcp := BTree.Tree.packed_iff.mp (hbelow _ r.mem)
    simp only at hcp
    have hcs : splits (t.shape hr) key c ≤ splits (t.shape hr) key (.branch p kids : KTree (n + 1)) := by
      have := splits_le (t.shape hr) key c
      rw [hsplits]; split <;> omega
    rw [r.split] at hnodup
    obtain ⟨hpc, hcnd, hsib⟩ := apart_of_nodup hnodup
    have hcsub : ∀ q ∈ c.pages, q ∈ (BTree.Tree.branch p kids : KTree (n + 1)).pages := fun q hq =>
      List.mem_cons_of_mem _ (List.mem_flatMap.mpr ⟨_, r.mem, hq⟩)
    have hpps : p ∉ ps := fun hin => (hps p hin).2 (by simp)
    have ih' := ih _ r.mem (hh.2 _ r.mem) r.child r.low r.high hcnd hcp.2.2 hcp.2.1 hfull
      (le_trans hcs hlen) fun q hq => ⟨(hps q hq).1, fun hqc => (hps q hq).2 (hcsub q hqc)⟩
    unfold splitPath at ih' ⊢
    rw [wp_bind] at ih' ⊢
    refine wp_mono ih' (fun right s₀ h₀ => ?_) fun _ _ he => he
    refine wp_splitUp_append (wp_mono h₀ (fun res s₁ h₁ => ?_) fun _ _ he => he)
    obtain ⟨htouch, hgrown⟩ := h₁
    simp only at htouch hgrown
    have hpage : (insertRec (t.shape hr) leafKey (fun i => ps.getD i invalidPage) e c).1.page = c.page :=
      page_insertRec c
    have hout : Outcome (t.shape hr) (leafKey e) c
        (insertRec (t.shape hr) leafKey (fun i => ps.getD i invalidPage) e c) :=
      outcome_insertRec _ _ r.child (hkey ▸ r.low) (hkey ▸ r.high) hcp.2.2 hcp.2.1
    have hpages := pages_insertRec (t.shape hr) (fun i => ps.getD i invalidPage) (e := e) k r.child
      (hkey ▸ r.low) (hkey ▸ r.high) hcp.2.2 hcp.2.1
    rw [hkey] at hpages hout
    rw [insertRec_branch p r.split (by rw [hkey]; exact r.index)]
    generalize insertRec (t.shape hr) leafKey (fun i => ps.getD i invalidPage) e c = g at hgrown hpage hout hpages
    have hp₁ : BranchAt s₁.pages p (n + 1) (kidPages kids) :=
      hh.1.congr (htouch.pages p (by simp [hpc, hpps]))
    have hold : ∀ kc, kc ∈ before ∨ kc ∈ after → kc ∈ kids := fun kc hkc => by
      rw [r.split]; rcases hkc with h | h <;> simp [h]
    have hsibsub : ∀ kc, kc ∈ before ∨ kc ∈ after → ∀ q ∈ kc.2.pages,
        q ∈ (BTree.Tree.branch p kids : KTree (n + 1)).pages := fun kc hkc q hq =>
      List.mem_cons_of_mem _ (List.mem_flatMap.mpr ⟨kc, hold kc hkc, hq⟩)
    have hsib₁ : ∀ kc, kc ∈ before ∨ kc ∈ after → Holds s₁.pages kc.2 := fun kc hkc =>
      (hh.2 kc (hold kc hkc)).congr fun q hq => htouch.pages q
        (not_or.mpr ⟨(hsib kc hkc).2 q hq, fun hqps => (hps q hqps).2 (hsibsub kc hkc q hq)⟩)
    have hnew : ∀ kc ∈ g.kids k, ∀ q ∈ kc.2.pages, q ∈ c.pages ∨
        ∃ i < splits (t.shape hr) key c, ps[i]? = some q := fun kc hkc q hq => by
      have := hpages.subset (List.mem_flatMap.mpr ⟨kc, hkc, hq⟩)
      rcases List.mem_append.mp this with hq | hq
      · exact .inl hq
      · obtain ⟨i, hi', rfl⟩ := List.mem_map.mp hq
        rw [List.mem_range] at hi'
        have hlt : i < ps.length := by omega
        exact .inr ⟨i, hi', by simp [List.getD_eq_getElem?_getD, hlt]⟩
    have htouch' : Touches {q | q ∈ (BTree.Tree.branch p kids : KTree (n + 1)).pages ∨ q ∈ ps} s s₁ :=
      htouch.mono fun q hq => hq.imp_left (hcsub q)
    cases hout with
    | @one t' hs =>
      obtain ⟨rfl, ht'⟩ := hgrown
      refine ⟨htouch', ?_⟩
      have hlen' : (before ++ Grown.kids k (t', none) ++ after).length = kids.length := by simp; omega
      rcases cutBranch_cases (t.shape hr) (ps.getD (n + 1) invalidPage) p
        (before ++ Grown.kids k (t', none) ++ after) with ⟨-, hcut⟩ | ⟨hlt, -⟩
      · rw [hcut]
        refine ⟨rfl, holds_branch.mpr ⟨by rwa [kidPages_one r.split hpage], fun kc hkc => ?_⟩⟩
        simp only [Grown.kids_one, List.mem_append, List.mem_singleton] at hkc
        rcases hkc with (hkc | rfl) | hkc
        · exact hsib₁ kc (.inl hkc)
        · exact ht'
        · exact hsib₁ kc (.inr hkc)
      · rw [hlen'] at hlt; omega
    | @two l r' sep hs =>
      obtain ⟨rfl, hl, hr'⟩ := hgrown
      simp only
      have hlen' : (before ++ Grown.kids k (l, some (sep, r')) ++ after).length = kids.length + 1 := by
        simp; omega
      have hkp := kidPages_grown sep r' r.split hpage
      have hmax := hr.2
      simp only [minFanout] at hmax
      have hheld : ∀ kc ∈ before ++ Grown.kids k (l, some (sep, r')) ++ after, Holds s₁.pages kc.2 := by
        intro kc hkc
        simp only [Grown.kids_two, List.mem_append, List.mem_cons, List.not_mem_nil, or_false] at hkc
        rcases hkc with (hkc | rfl | rfl) | hkc
        · exact hsib₁ kc (.inl hkc)
        · exact hl
        · exact hr'
        · exact hsib₁ kc (.inr hkc)
      have hpnew : ∀ kc ∈ Grown.kids k (l, some (sep, r')), p ∉ kc.2.pages := fun kc hkc hq => by
        rcases hnew kc hkc p hq with h | ⟨i, -, h⟩
        · exact hpc h
        · exact hpps (List.mem_of_getElem? h)
      have hpall : ∀ kc ∈ before ++ Grown.kids k (l, some (sep, r')) ++ after, p ∉ kc.2.pages := by
        intro kc hkc
        simp only [List.mem_append] at hkc
        rcases hkc with (hkc | hkc) | hkc
        · exact (hsib kc (.inl hkc)).1
        · exact hpnew kc hkc
        · exact (hsib kc (.inr hkc)).1
      by_cases hk : t.internalMax ≤ kids.length
      · -- the parent is full too
        have hs' : splits (t.shape hr) key (.branch p kids : KTree (n + 1)) = n + 2 := by
          rw [hsplits, if_pos ⟨hs, hk⟩]
        rw [hs'] at hlen
        have hlt : n + 1 < ps.length := by omega
        have hq : ps[n + 1]? = some ps[n + 1] := List.getElem?_eq_getElem hlt
        have hqmem : ps[n + 1] ∈ ps := List.getElem_mem hlt
        obtain ⟨hqs, hqT⟩ := hps _ hqmem
        have hqp : ps[n + 1] ≠ p := fun he => hpps (he ▸ hqmem)
        have hqnew : ∀ kc ∈ Grown.kids k (l, some (sep, r')), ps[n + 1] ∉ kc.2.pages := fun kc hkc hin => by
          rcases hnew kc hkc _ hin with h | ⟨i, hi', h⟩
          · exact hqT (hcsub _ h)
          · obtain ⟨hlt', he⟩ := List.getElem?_eq_some_iff.mp h
            have := (List.Nodup.getElem_inj_iff hpsnd).mp he
            omega
        have hq₁ : s₁.pages ps[n + 1] ≠ none := fun he => hqs ((htouch.allocated _).mp he)
        refine wp_splitUp_full hp₁ (by simp; omega) (by simpa using hk) (by simp; omega) (by omega) hq hqp hq₁
          hkp rfl fun s₂ up ht₂ hup hp₂ hq₂ => ?_
        refine ⟨htouch'.trans (ht₂.mono ?_), ?_⟩
        · rintro x (rfl | hx)
          · exact .inl (by simp)
          · rw [Set.mem_singleton_iff.mp hx]; exact .inr hqmem
        rw [length_kidPages] at hp₂ hq₂ hup
        have hfresh : ps.getD (n + 1) invalidPage = ps[n + 1] := by simp [List.getD_eq_getElem?_getD, hlt]
        have hall : ∀ kc ∈ before ++ Grown.kids k (l, some (sep, r')) ++ after, Holds s₂.pages kc.2 := by
          intro kc hkc
          refine (hheld kc hkc).congr fun x hx => ht₂.pages x ?_
          rintro (rfl | hxq)
          · exact hpall kc hkc hx
          · rw [Set.mem_singleton_iff.mp hxq] at hx
            simp only [List.mem_append] at hkc
            rcases hkc with (hkc | hkc) | hkc
            · exact hqT (hsibsub kc (.inl hkc) _ hx)
            · exact hqnew kc hkc hx
            · exact hqT (hsibsub kc (.inr hkc) _ hx)
        rw [hfresh]
        rcases cutBranch_cases (t.shape hr) ps[n + 1] p (before ++ Grown.kids k (l, some (sep, r')) ++ after)
          with ⟨hle, -⟩ | ⟨-, xs, k', c', ys, heq, hxl, hcut⟩
        · rw [hlen'] at hle
          simp only [shape] at hle
          omega
        · rw [hcut]
          rw [← hxl, heq] at hp₂ hq₂ hup
          rw [heq] at hall
          have h1 : (kidPages (xs ++ (k', c') :: ys)).take xs.length = kidPages xs := by simp [kidPages]
          have h2 : (kidPages (xs ++ (k', c') :: ys)).drop xs.length = kidPages ((k', c') :: ys) := by
            simp [kidPages]
          have h3 : ((kidPages (xs ++ (k', c') :: ys))[xs.length]?).map Prod.fst = some k' := by simp [kidPages]
          rw [h1] at hp₂
          rw [h2] at hq₂
          rw [h3] at hup
          rw [← Option.some.inj hup]
          exact ⟨rfl, holds_branch.mpr ⟨hp₂, fun kc hkc => hall kc (List.mem_append_left _ hkc)⟩,
            holds_branch.mpr ⟨hq₂, fun kc hkc => hall kc (List.mem_append_right _ hkc)⟩⟩
      · refine wp_splitUp_room hp₁ (by simp; omega) (by simp; omega) hmax.2 fun s₂ ht₂ hp₂ => ?_
        rw [← hkp] at hp₂
        refine ⟨htouch'.trans (ht₂.mono (by simp)), ?_⟩
        have hall : ∀ kc ∈ before ++ Grown.kids k (l, some (sep, r')) ++ after, Holds s₂.pages kc.2 :=
          fun kc hkc => (hheld kc hkc).congr fun x hx => ht₂.pages x fun hxp =>
            hpall kc hkc (Set.mem_singleton_iff.mp hxp ▸ hx)
        rcases cutBranch_cases (t.shape hr) (ps.getD (n + 1) invalidPage) p
          (before ++ Grown.kids k (l, some (sep, r')) ++ after) with ⟨-, hcut⟩ | ⟨hlt, -⟩
        · rw [hcut]
          exact ⟨rfl, holds_branch.mpr ⟨hp₂, hall⟩⟩
        · rw [hlen'] at hlt
          simp only [shape] at hlt
          omega

/-- A leaf with room takes the entry, and nothing above it changes. -/
theorem insertRec_room (hr : t.InRange) {s' : PageStore} (hh : Holds s.pages T) (ht : T.Ordered leafKey lo hi)
    (hkey : leafKey e = key) (hlo : lo ≤ key) (hhi : (key : WithTop Key) < hi) (hnodup : T.pages.Nodup)
    (hbelow : T.PackedBelow (t.shape hr)) (hsize : T.size ≤ (t.shape hr).max n) (fresh : Nat → PageId)
    (hroom : (pathLeaf key T).entries.length < t.leafMax)
    (htouch : Touches {(pathLeaf key T).page} s s')
    (hleaf : LeafAt s'.pages (pathLeaf key T).page (pathLeaf key T).next
      ((pathLeaf key T).entries.take (below (pathLeaf key T).entries key) ++ e ::
        (pathLeaf key T).entries.drop (below (pathLeaf key T).entries key))) :
    splits (t.shape hr) key T = 0 ∧
      ∃ t', insertRec (t.shape hr) leafKey fresh e T = (t', none) ∧ Holds s'.pages t' := by
  induction T using BTree.Tree.ind generalizing lo hi with
  | leaf p next es =>
    change es.length < t.leafMax at hroom
    change LeafAt s'.pages p next (es.take (below es key) ++ e :: es.drop (below es key)) at hleaf
    have hs : splits (t.shape hr) key (.leaf p next es : KTree 0) = if t.leafMax ≤ es.length then 1 else 0 := rfl
    refine ⟨by rw [hs, if_neg (by omega)], .leaf p next (es.take (below es key) ++ e :: es.drop (below es key)), ?_,
      hleaf⟩
    rw [insertRec_leaf, hkey]
    change cutLeaf (t.shape hr) leafKey (fresh 0) p next (es.take (below es key) ++ e :: es.drop (below es key)) = _
    rcases cutLeaf_cases (t.shape hr) leafKey (fresh 0) p next
      (es.take (below es key) ++ e :: es.drop (below es key)) with ⟨-, h⟩ | ⟨hlt, -⟩
    · exact h
    · simp only [shape, List.length_append, List.length_take, List.length_cons, List.length_drop] at hlt
      omega
  | @branch n p kids ih =>
    obtain ⟨before, k, c, after, a, b, r⟩ := BTree.Tree.Ordered.routed ht hlo hhi
    rw [holds_branch] at hh
    rw [pathLeaf_branch r.split r.index] at hroom htouch hleaf
    rw [BTree.Tree.size_branch, Shape.max] at hsize
    have hcp := BTree.Tree.packed_iff.mp (hbelow _ r.mem)
    rw [r.split] at hnodup
    obtain ⟨hpc, hcnd, hsib⟩ := apart_of_nodup hnodup
    obtain ⟨hs, t', hrec, hheld⟩ := ih _ r.mem (hh.2 _ r.mem) r.child r.low r.high hcnd hcp.2.2 hcp.2.1 hroom
      htouch hleaf
    change insertRec _ leafKey fresh e c = _ at hrec
    change splits _ key c = 0 at hs
    have hin : (pathLeaf key c).page ∈ c.pages := (pathLeaf_spec (hh.2 _ r.mem).reads r.child r.low r.high).2.2.2.2
    have hpage : t'.page = c.page := by
      have : (insertRec (t.shape hr) leafKey fresh e c).1.page = c.page := page_insertRec c
      rwa [hrec] at this
    refine ⟨by rw [splits_branch _ p r.split r.index, if_neg (by omega)]; exact hs,
      .branch p (before ++ Grown.kids k (t', none) ++ after), ?_, ?_⟩
    · rw [insertRec_branch p r.split (by rw [hkey]; exact r.index), hrec]
      rcases cutBranch_cases (t.shape hr) (fresh (n + 1)) p (before ++ Grown.kids k (t', none) ++ after)
        with ⟨-, h⟩ | ⟨hlt, -⟩
      · exact h
      · have hlen : kids.length = before.length + (after.length + 1) := by rw [r.split]; simp
        simp only [Grown.kids_one, List.length_append, List.length_singleton] at hlt
        omega
    · refine holds_branch.mpr ⟨?_, fun kc hkc => ?_⟩
      · rw [kidPages_one r.split hpage]
        exact hh.1.congr (htouch.pages p fun hp => hpc (Set.mem_singleton_iff.mp hp ▸ hin))
      · have hkeep : ∀ kc, kc ∈ before ∨ kc ∈ after → Holds s'.pages kc.2 := fun kc hkc =>
          (hh.2 kc (by rw [r.split]; rcases hkc with h | h <;> simp [h])).congr fun q hq =>
            htouch.pages q fun hqp => (hsib kc hkc).2 q hq (Set.mem_singleton_iff.mp hqp ▸ hin)
        simp only [Grown.kids_one, List.mem_append, List.mem_singleton] at hkc
        rcases hkc with (hkc | rfl) | hkc
        · exact hkeep kc (.inl hkc)
        · exact hheld
        · exact hkeep kc (.inr hkc)

end Split

/-! The whole operation. -/

section Whole
variable {env : PoolEnv} {t : BPlusTree} {s : PageStore} {T : Σ n, KTree n} {key : Key} {rid : RID}

/-- What an `Insert` that returned OK did: the pages hold the tree with the entry, on the old pages and
on pages that were free before. -/
structure Inserted (t : BPlusTree) (s s' : PageStore) (T : Σ n, KTree n) (e : LeafEntry)
    (T' : Σ n, KTree n) : Prop where
  tree : TreeAt t s'.pages T'
  entries : T'.2.toList.Perm (e :: T.2.toList)
  pages : ∃ ps, T'.2.pages.Perm (T.2.pages ++ ps) ∧ ∀ p ∈ ps, s.pages p = none
  other : ∀ p ∉ t.headerPageId :: T'.2.pages, s'.pages p = s.pages p
  guards : s'.guards = s.guards
  failures : s'.failures = s.failures
  leaks : s'.leaks = s.leaks

theorem wp_countSplits (h : TreeAt t s.pages T)
    (hfull : t.leafMax ≤ (pathLeaf key T.2).entries.length) :
    wp (countSplits t (pathNodes key T.2).reverse)
      (fun m s' => s' = s ∧ m = splits (t.shape h.range) key T.2) (fun _ _ => False) s := by
  obtain ⟨hleaf, -, -⟩ := h.readable.search key
  rw [reverse_pathNodes h.valid.ordered (int64Min_le key) (key_lt_top key), countSplits, wp_bind, wp_orFault]
  refine wp_asLeaf hleaf fun b hb => ?_
  rw [isLeafFull_eq hb, if_pos (by simpa using hfull)]
  refine wp_call (wp_countFull h.range h.holds h.valid.ordered (int64Min_le key) (key_lt_top key) hfull)
    (fun m s' hm => ?_) fun _ _ he => he
  obtain ⟨rfl, hm⟩ := hm
  rw [wp_pure, hm]
  have h1 := splits_le (t.shape h.range) key T.2
  have h2 := h.height_le
  exact ⟨rfl, u16_of_lt (by omega)⟩

theorem map_getD_range {α : Type} (xs : List α) (d : α) :
    (List.range xs.length).map (fun i => xs.getD i d) = xs := by
  apply List.ext_getElem
  · simp
  · intro i h1 h2
    simp [List.getD_eq_getElem?_getD, h2]

/-- The fresh pages of an insert, by level. -/
def pageAt (ps : List PageId) (i : Nat) : PageId := ps.getD i invalidPage

/-- The pages of the tree with the entry are the old ones and the fresh ones, all different. -/
theorem TreeAt.insert_pages (h : TreeAt t s.pages T) {e : LeafEntry} {ps : List PageId}
    (hlen : ps.length = newPages (t.shape h.range) (leafKey e) T) (hnd : ps.Nodup)
    (hps : ∀ p ∈ ps, s.pages p = none ∧ catalogRootPageId < p) :
    (BTree.insert (t.shape h.range) leafKey int64Min (pageAt ps) e T).2.pages.Perm (T.2.pages ++ ps) ∧
      (T.2.pages ++ ps).Nodup := by
  have hperm := pages_insert (t.shape h.range) (pageAt ps) h.valid (int64Min_le (leafKey e))
  rw [← hlen, show (List.range ps.length).map (pageAt ps) = ps from map_getD_range ps invalidPage] at hperm
  refine ⟨hperm, List.nodup_append.mpr ⟨h.valid.nodup, hnd, fun a ha b hb hab => ?_⟩⟩
  exact h.holds.allocated a ha (hps a (hab ▸ hb)).1

/-- The invariant of the tree with the entry, once its nodes and header are on the pages. -/
theorem TreeAt.insert (h : TreeAt t s.pages T) {e : LeafEntry} (hnew : ∀ e' ∈ T.2.toList, leafKey e' ≠ leafKey e)
    {ps : List PageId} (hlen : ps.length = newPages (t.shape h.range) (leafKey e) T) (hnd : ps.Nodup)
    (hps : ∀ p ∈ ps, s.pages p = none ∧ catalogRootPageId < p) {pages' : PageId → Option Page}
    {T' : Σ n, KTree n} (hT' : T' = BTree.insert (t.shape h.range) leafKey int64Min (pageAt ps) e T)
    (hhold : Holds pages' T'.2)
    (hhead : HeaderAt pages' t.headerPageId ⟨T'.2.page, T'.1 + 1, t.leafMax, t.internalMax, 0⟩) :
    TreeAt t pages' T' := by
  obtain ⟨hperm, hfresh⟩ := h.insert_pages hlen hnd hps
  rw [← hT'] at hperm
  refine ⟨h.range, hhead, hhold, ?_, ?_, ?_⟩
  · rw [hT']
    refine valid_insert _ _ h.valid (int64Min_le _) hnew ?_
    rwa [← hlen, show (List.range ps.length).map (pageAt ps) = ps from map_getD_range ps invalidPage]
  · intro hin
    rcases List.mem_append.mp (hperm.subset hin) with hin | hin
    · exact h.apart hin
    · exact h.header.some (hps _ hin).1
  · intro p hp
    rcases List.mem_cons.mp hp with rfl | hp
    · exact h.ids _ (by simp)
    · rcases List.mem_append.mp (hperm.subset hp) with hin | hin
      · exact h.ids p (by simp [hin])
      · exact (hps p hin).2

/-- The new root: stamped, initialised one level up, with the old root and its right half as children. -/
theorem wp_growRoot {q root right : PageId} {sep : Key} {level : Nat} {Q : Unit → PageStore → Prop}
    {E : Status → PageStore → Prop} (hq : s.pages q ≠ none) (h1 : 1 ≤ level) (h2 : level < 65536)
    (rest : PoolM Unit)
    (hQ : ∀ s', Touches {q} s s' → BranchAt s'.pages q level [(int64Min, root), (sep, right)] →
      wp rest Q E s') :
    wp (do
      setPageType q .indexInternal
      editInternal q fun b => InternalNode.init b level
      editInternal q fun b => InternalNode.assign b [⟨int64Min, root, 0⟩, ⟨sep, right, 0⟩]
      rest) Q E s := by
  rw [wp_bind]
  refine wp_stamp hq fun s₁ ht₁ hty => ?_
  rw [wp_bind]
  refine wp_initInternal hty h1 h2 fun s₂ ht₂ hq₂ => ?_
  rw [wp_bind]
  refine wp_editInternal hq₂ (fun b hb => InternalNode.assign_eq hb _ (by simp) (by simp [nodeCapacity]))
    fun s₃ ht₃ (hq₃ : BranchAt s₃.pages q level [(int64Min, root), (sep, right)]) => ?_
  exact hQ s₃ ((ht₁.trans ht₂).trans ht₃) hq₃

/-- Everything after the allocation: it cannot fail, and leaves the tree with the entry. -/
theorem wp_splitAll (h : TreeAt t s.pages T) {s₁ : PageStore} {ps : List PageId} (ha : Allocated s s₁ ps)
    {e : LeafEntry} (hkey : leafKey e = key) (hnew : ∀ e' ∈ T.2.toList, leafKey e' ≠ leafKey e)
    (hlen : ps.length = newPages (t.shape h.range) key T)
    (hfull : t.leafMax ≤ (pathLeaf key T.2).entries.length) :
    wp (splitAll t ⟨⟨T.2.page, T.1 + 1, t.leafMax, t.internalMax, 0⟩, pathNodes key T.2, pathIndexes key T.2⟩
        ps (splits (t.shape h.range) key T.2) (pathLeaf key T.2).page (upPath key T.2)
        (below (pathLeaf key T.2).entries key) e)
      (fun _ s' => TreeAt t s'.pages (BTree.insert (t.shape h.range) leafKey int64Min (pageAt ps) e T) ∧
        (BTree.insert (t.shape h.range) leafKey int64Min (pageAt ps) e T).2.pages.Perm (T.2.pages ++ ps) ∧
        Touches {q | q = t.headerPageId ∨ q ∈ T.2.pages ∨ q ∈ ps} s₁ s') (fun _ _ => False) s₁ := by
  have hps : ∀ p ∈ ps, p ∉ T.2.pages := fun p hp hin => h.holds.allocated p hin (ha.fresh p hp).1
  have hhead : t.headerPageId ∉ ps := fun hin => h.header.some (ha.fresh _ hin).1
  have hold : ∀ p ∈ T.2.pages, s₁.pages p = s.pages p := fun p hp => ha.other p fun hin => hps p hin hp
  have hspl : splits (t.shape h.range) key T.2 ≤ ps.length := by rw [hlen, newPages]; omega
  have hfinal : ∀ {s₂ : PageStore} {T' : Σ n, KTree n},
      T' = BTree.insert (t.shape h.range) leafKey int64Min (pageAt ps) e T → Holds s₂.pages T'.2 →
      HeaderAt s₂.pages t.headerPageId ⟨T'.2.page, T'.1 + 1, t.leafMax, t.internalMax, 0⟩ →
      TreeAt t s₂.pages T' := fun hT' h1 h2 =>
    h.insert hnew (by rw [hkey]; exact hlen) ha.nodup ha.fresh hT' h1 h2
  obtain ⟨hperm, hfresh⟩ := h.insert_pages (by rw [hkey]; exact hlen) ha.nodup ha.fresh (e := e)
  unfold splitAll
  refine wp_call (wp_splitPath h.range (h.holds.congr hold) h.valid.ordered hkey (int64Min_le key) (key_lt_top key)
    h.valid.nodup h.valid.packed.below.1 h.valid.packed.below.2 hfull hspl ha.nodup
    fun p hp => ⟨by rw [ha.blank p hp]; simp, hps p hp⟩) (fun res s₂ h₂ => ?_) fun _ _ he => he
  obtain ⟨htouch, hgrown⟩ := h₂
  have hhead₂ : HeaderAt s₂.pages t.headerPageId ⟨T.2.page, T.1 + 1, t.leafMax, t.internalMax, 0⟩ :=
    h.header.congr (by rw [htouch.pages _ (not_or.mpr ⟨h.apart, hhead⟩), ha.other _ hhead])
  have hpage : (insertRec (t.shape h.range) leafKey (pageAt ps) e T.2).1.page = T.2.page := page_insertRec T.2
  change GrownAt s₂.pages res (insertRec (t.shape h.range) leafKey (pageAt ps) e T.2) at hgrown
  rcases insert_cases (t.shape h.range) (pageAt ps) h.valid (int64Min_le (leafKey e)) with
    ⟨t', hrec, hins, -⟩ | ⟨l, sep, r, hrec, hins, hs, -⟩
  · rw [hrec] at hgrown hpage
    obtain ⟨rfl, hheld⟩ := hgrown
    rw [hins] at hperm ⊢
    exact ⟨hfinal hins.symm hheld (by rw [show t'.page = _ from hpage]; exact hhead₂), hperm,
      htouch.mono fun q hq => .inr hq⟩
  · rw [hrec] at hgrown hpage
    obtain ⟨rfl, hl, hr⟩ := hgrown
    rw [hkey] at hs
    have hnodes := (path_shape h.valid.ordered (int64Min_le key) (key_lt_top key)).1
    have hheight := h.height_le
    have hlen' : ps.length = T.1 + 2 := by rw [hlen, newPages, if_pos hs, hs]
    simp only
    rw [wp_bind, wp_check, hs]
    refine ⟨⟨hnodes.symm, rfl⟩, ?_⟩
    have hlt : T.1 + 1 < ps.length := by omega
    have hat : pageAt ps (T.1 + 1) = ps[T.1 + 1] := by simp [pageAt, List.getD_eq_getElem?_getD, hlt]
    rw [hins, hat] at hperm ⊢
    rw [hat] at hins
    have hq : s₂.pages ps[T.1 + 1] ≠ none := fun he => by
      have := (htouch.allocated _).mp he
      rw [ha.blank _ (List.getElem_mem hlt)] at this
      cases this
    have hqh : ps[T.1 + 1] ≠ t.headerPageId := fun he => hhead (he ▸ List.getElem_mem hlt)
    -- the root's page is on neither half, by counting the pages of the whole
    have hnd := hperm.nodup_iff.mpr hfresh
    simp only [BTree.Tree.pages_branch, List.flatMap_cons, List.flatMap_nil, List.append_nil, List.nodup_cons,
      List.mem_append, not_or] at hnd
    have hhalf : ∀ x, x ∈ l.pages ∨ x ∈ r.pages → x ≠ t.headerPageId := by
      rintro x hx rfl
      have hin : t.headerPageId ∈ T.2.pages ++ ps := hperm.subset (by
        simp only [BTree.Tree.pages_branch, List.flatMap_cons, List.flatMap_nil, List.append_nil, List.mem_cons,
          List.mem_append]
        exact .inr hx)
      rcases List.mem_append.mp hin with hin | hin
      · exact h.apart hin
      · exact hhead hin
    rw [wp_bind, wp_lift]
    refine ⟨ps[T.1 + 1], List.getElem?_eq_getElem hlt, ?_⟩
    refine wp_growRoot hq (by omega) (by omega) _ fun s₃ ht₃ hroot => ?_
    rw [wp_orFault]
    have hu : u16 (T.1 + 1 + 1) = T.1 + 1 + 1 := u16_of_lt (by omega)
    have hcap := h.range
    simp only [InRange, nodeCapacity] at hcap
    refine wp_writeIndexHeader (hhead₂.congr (ht₃.pages _ (by simpa using hqh.symm))) ?_ ?_ ?_ ?_
      fun s₄ ht₄ hhead₄ => ?_
    · simp only [hu]; omega
    · simp only; omega
    · simp only; omega
    · simp
    · have hkeep : ∀ x, x ≠ ps[T.1 + 1] → x ≠ t.headerPageId → s₄.pages x = s₂.pages x := fun x h1 h2 => by
        rw [ht₄.pages x (by simpa using h2), ht₃.pages x (by simpa using h1)]
      refine ⟨hfinal hins.symm (holds_branch.mpr ⟨?_, ?_⟩) ?_, hperm, ?_⟩
      · refine BranchAt.congr ?_ (ht₄.pages _ (by simpa using hqh))
        have hk : kidPages [(int64Min, l), (sep, r)] = [(int64Min, T.2.page), (sep, r.page)] := by
          simp only [kidPages, List.map_cons, List.map_nil]
          rw [show l.page = _ from hpage]
        rw [hk]; exact hroot
      · simp only [List.mem_cons, List.not_mem_nil, or_false, forall_eq_or_imp, forall_eq]
        exact ⟨hl.congr fun x hx => hkeep x (fun he => hnd.1.1 (he ▸ hx)) (hhalf x (.inl hx)),
          hr.congr fun x hx => hkeep x (fun he => hnd.1.2 (he ▸ hx)) (hhalf x (.inr hx))⟩
      · rw [hu] at hhead₄; exact hhead₄
      · refine ((htouch.mono fun q hq => .inr hq).trans (ht₃.mono ?_)).trans (ht₄.mono ?_)
        · intro x hx
          rw [Set.mem_singleton_iff.mp hx]
          exact .inr (.inr (List.getElem_mem hlt))
        · intro x hx
          exact .inl (Set.mem_singleton_iff.mp hx)

theorem leaf_keyAt {b : Body} {level : Nat} {next : PageId} {es : List LeafEntry} (h : NodeIs b level next es)
    {i : Nat} (hi : i < es.length) : LeafNode.keyAt b i = some es[i].key := by
  rw [LeafNode.keyAt, LeafNode.entryAt, h.entryAt hi]
  rfl

/-- The guards of a write path are on allocated pages, as the others are. -/
theorem live_guards (h : TreeAt t s.pages T) (hg : Apart t s T) {s' : PageStore}
    (hr : ReadTo (writeGuards (pathNodes key T.2) ++ [⟨t.headerPageId, .write⟩]) s s') :
    ∀ g ∈ s'.guards, s'.pages g.page ≠ none := by
  intro g hgs
  rw [hr.guards] at hgs
  rw [hr.pages]
  simp only [List.mem_append, List.mem_singleton] at hgs
  rcases hgs with (hgs | rfl) | hgs
  · exact h.holds.allocated _ (pathNodes_subset key T.2 _ (mem_writeGuards hgs))
  · exact h.header.some
  · exact (hg g hgs).1

theorem rolledBack_of_refused {s' : PageStore} (h : Refused s s') (gs : List Guard) :
    RolledBack s { s' with guards := gs } :=
  ⟨fun p _ => by rw [h.pages], fun _ => h.pages, h.failures, le_of_eq h.leaks.symm⟩

theorem TreeAt.congr {pages' : PageId → Option Page} (h : TreeAt t s.pages T)
    (he : ∀ p ∈ t.headerPageId :: T.2.pages, pages' p = s.pages p) : TreeAt t pages' T :=
  ⟨h.range, h.header.congr (he _ (by simp)), h.holds.congr fun p hp => he p (by simp [hp]), h.valid, h.apart, h.ids⟩

/-- `Insert`: the tree with the entry, or a duplicate key and nothing changed, or a failed pool call and
everything rolled back. -/
theorem wp_insert (hlaw : env.Lawful) (h : TreeAt t s.pages T) (hg : Apart t s T) :
    wp (insert env t key rid)
      (fun _ s' => (∀ e ∈ T.2.toList, e.key ≠ key) ∧ ∃ T', Inserted t s s' T ⟨key, rid⟩ T')
      (fun e s' => (e = ⟨.duplicateKey, s!"key {key.toInt} already exists"⟩ ∧
          (∃ e ∈ T.2.toList, e.key = key) ∧ ReadTo [] s s') ∨
        (RolledBack s s' ∧ s'.guards = s.guards ∧ env.RefusesUnder (s.guards.length + (2 * (T.1 + 1) + 2)) e)) s := by
  unfold insert
  rw [wp_inScope]
  refine wp_call (wp_findLeafWrite h hg) (fun path s₁ hr => ?_)
    fun _ s₁ hr => .inr ⟨rolledBack_of_refused hr.toRefused _, rfl, hr.cause.mono (by omega)⟩
  obtain ⟨rfl, hr⟩ := hr
  have h₁ : TreeAt t s₁.pages T := hr.pages ▸ h
  have hlive := live_guards h hg hr
  obtain ⟨hleaf, hinc, hfound⟩ := h₁.readable.search key
  obtain ⟨-, -, hlast, hup⟩ := path_shape h₁.valid.ordered (int64Min_le key) (key_lt_top key)
  rw [wp_bind, wp_lift]
  refine ⟨_, hlast, ?_⟩
  rw [wp_bind, wp_orFault]
  refine wp_asLeaf hleaf fun b hb => ?_
  rw [wp_bind, wp_lift]
  refine ⟨_, LeafNode.lowerBound_eq hb hinc key, ?_⟩
  have hcount : LeafNode.count b = (pathLeaf key T.2).entries.length := hb.count_eq
  rw [wp_bind, hcount, wp_lift]
  rcases hfound with ⟨e, hget, rfl, hmem⟩ | ⟨hnot, habsent⟩
  · obtain ⟨hlt, he⟩ := List.getElem?_eq_some_iff.mp hget
    refine ⟨true, by rw [if_pos hlt, leaf_keyAt hb hlt, he]; simp, ?_⟩
    rw [if_pos rfl, wp_fail]
    exact .inl ⟨rfl, ⟨e, hmem, rfl⟩, hr.pages, rfl, hr.failures, hr.leaks⟩
  · refine ⟨false, ?_, ?_⟩
    · by_cases hlt : below (pathLeaf key T.2).entries key < (pathLeaf key T.2).entries.length
      · rw [if_pos hlt, leaf_keyAt hb hlt]
        simpa using hnot _ (List.getElem?_eq_getElem hlt)
      · rw [if_neg hlt]
    rw [if_neg (by simp), isLeafFull_eq hb]
    have hnew : ∀ e' ∈ T.2.toList, leafKey e' ≠ leafKey ⟨key, rid⟩ := habsent
    by_cases hroom : (pathLeaf key T.2).entries.length < t.leafMax
    · rw [if_pos (by simpa using hroom)]
      have hmax := h.range.1.2
      refine wp_editLeaf hleaf (fun b hb => hb.insertAt _ (by omega) (Nat.zero_le _) List.countP_le_length)
        fun s₂ ht₂ hleaf₂ => ⟨habsent, ?_⟩
      obtain ⟨hs, t', hrec, hheld⟩ := insertRec_room (e := ⟨key, rid⟩) h.range h₁.holds h₁.valid.ordered rfl (int64Min_le key)
        (key_lt_top key) h₁.valid.nodup h₁.valid.packed.below.1 h₁.valid.packed.below.2 (pageAt []) hroom ht₂ hleaf₂
      have hpage : (insertRec (t.shape h.range) leafKey (pageAt []) ⟨key, rid⟩ T.2).1.page = T.2.page :=
        page_insertRec T.2
      have hlf : (pathLeaf key T.2).page ∈ T.2.pages :=
        (pathLeaf_spec h₁.holds.reads h₁.valid.ordered (int64Min_le key) (key_lt_top key)).2.2.2.2
      have hins : (⟨T.1, t'⟩ : Σ n, KTree n)
          = BTree.insert (t.shape h₁.range) leafKey int64Min (pageAt []) ⟨key, rid⟩ T := by
        unfold BTree.insert; rw [hrec]
      rw [hrec] at hpage
      have hlen : ([] : List PageId).length = newPages (t.shape h₁.range) (leafKey ⟨key, rid⟩) T := by
        rw [newPages, show splits (t.shape h₁.range) (leafKey ⟨key, rid⟩) T.2 = 0 from hs]; simp
      have hperm := (h₁.insert_pages hlen .nil (by simp)).1
      rw [← hins, List.append_nil] at hperm
      have hentries := toList_insert (t.shape h₁.range) (pageAt []) h₁.valid
        (int64Min_le (leafKey ⟨key, rid⟩))
      rw [← hins] at hentries
      refine ⟨⟨T.1, t'⟩, h₁.insert hnew hlen .nil (by simp) hins hheld ?_, hentries, ⟨[], by simpa using hperm, by simp⟩,
        fun p hp => ?_, rfl, ht₂.failures.trans hr.failures, ht₂.leaks.trans hr.leaks⟩
      · rw [show t'.page = _ from hpage]
        exact h₁.header.congr (ht₂.pages _ fun he => h.apart (Set.mem_singleton_iff.mp he ▸ hlf))
      · simp only [List.mem_cons, not_or] at hp
        show s₂.pages p = s.pages p
        rw [ht₂.pages p fun he => hp.2 (hperm.symm.subset (Set.mem_singleton_iff.mp he ▸ hlf)), hr.pages]
    · have hfull : t.leafMax ≤ (pathLeaf key T.2).entries.length := Nat.le_of_not_lt hroom
      rw [if_neg (by simpa using hroom)]
      refine wp_call (wp_countSplits h₁ hfull) (fun m s₂ hm => ?_) fun _ _ he => he.elim
      obtain ⟨rfl, rfl⟩ := hm
      have hnodes := (path_shape h₁.valid.ordered (int64Min_le key) (key_lt_top key)).1
      have hle := splits_le (t.shape h₁.range) key T.2
      have hheight := h₁.height_le
      have hn : u16 (splits (t.shape h₁.range) key T.2 +
          if splits (t.shape h₁.range) key T.2 = (pathNodes key T.2).length then 1 else 0)
          = newPages (t.shape h₁.range) key T := by
        rw [hnodes, newPages, u16_of_lt (by split <;> omega)]
      simp only [hn]
      refine wp_call (wp_allocatePages hlaw hlive (Allocated.nil s₂)) (fun ps s₃ h₃ => ?_)
        fun _ s₃ hfail => .inr ⟨⟨fun p hp => ?_, fun he => ?_, ?_, ?_⟩, trivial, hfail.2.mono ?_⟩
      · obtain ⟨ha, hlen⟩ := h₃
        rw [List.length_nil, Nat.zero_add] at hlen
        rw [WritePath.up, hup]
        refine wp_mono (wp_splitAll h₁ ha rfl hnew hlen hfull) (fun _ s₄ h₄ => ⟨habsent, ?_⟩) fun _ _ he => he.elim
        obtain ⟨hT', hperm, htouch⟩ := h₄
        refine ⟨_, hT', toList_insert _ _ h₁.valid (int64Min_le _), ⟨ps, hperm, fun p hp => ?_⟩, fun p hp => ?_, rfl,
          ?_, ?_⟩
        · rw [← hr.pages]; exact (ha.fresh p hp).1
        · simp only [List.mem_cons, not_or] at hp
          have hin : p ∉ T.2.pages ++ ps := fun hin => hp.2 (hperm.symm.subset hin)
          rw [List.mem_append, not_or] at hin
          show s₄.pages p = s.pages p
          rw [htouch.pages p (not_or.mpr ⟨hp.1, not_or.mpr hin⟩), ha.other p hin.2, hr.pages]
        · exact htouch.failures.trans (ha.failures.trans hr.failures)
        · exact htouch.leaks.trans (ha.leaks.trans hr.leaks)
      · rw [← hr.pages] at hp ⊢
        exact hfail.1.kept p hp
      · rw [← hr.pages]; exact hfail.1.clean (he.trans hr.leaks.symm)
      · rw [← hr.failures]; exact hfail.1.failures
      · rw [← hr.leaks]; exact hfail.1.leaks
      · have hpages : newPages (t.shape h₁.range) key T ≤ T.1 + 2 := by
          rw [newPages]
          split <;> omega
        rw [hr.guards, writeGuards]
        simp only [List.length_append, List.length_reverse, List.length_map, hnodes, List.length_singleton,
          List.length_nil]
        omega

end Whole
end BPlusTree
end KernSql

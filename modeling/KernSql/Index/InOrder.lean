import KernSql.Index.Represent

/- The in-order sequence under splits, rotations and merges.

   Two neighbouring nodes and the separator between them stand for one list of
   entries: the left node's, then the right node's, where in an internal right
   node the separator stands in the unread key of the first entry. A split or a
   rotation cuts this list at another place and returns the key at the cut, a merge
   leaves it whole. The key of an internal node's first entry is `INT64_MIN`
   whatever it was before, so for internal nodes the list is kept up to that key,
   and exactly where the left node already had it. -/
namespace KernSql

def flatLeaf (left : List LeafEntry) (_separator : Key) (right : List LeafEntry) : List LeafEntry := left ++ right

def flatInternal (left : List InternalEntry) (separator : Key) (right : List InternalEntry) : List InternalEntry :=
  left ++ withHeadKey separator right

@[simp] theorem length_flatLeaf (left right : List LeafEntry) (separator : Key) :
    (flatLeaf left separator right).length = left.length + right.length := List.length_append

@[simp] theorem length_flatInternal (left right : List InternalEntry) (separator : Key) :
    (flatInternal left separator right).length = left.length + right.length := by
  simp [flatInternal]

/-- The first entry's key is the canonical one. -/
def HeadUnread (es : List InternalEntry) : Prop := es.head?.map (·.key) = some int64Min

/-- `all` cut into two leaves of `a` and `b` entries, with `sep` the key to go up. -/
structure LeafCut (all : List LeafEntry) (a b : Nat) (left right : List LeafEntry) (sep : Key) : Prop where
  flat : flatLeaf left sep right = all
  left_length : left.length = a
  right_length : right.length = b
  copied : right.head?.map (·.key) = some sep
  above : KeysIncrease all → ∀ e ∈ left, e.key < sep

/-- `all`, which starts with `old`, cut into two internal nodes of `a` and `b` children, with `sep` the key that
went up. -/
structure InternalCut (old all : List InternalEntry) (a b : Nat) (left right : List InternalEntry) (sep : Key) :
    Prop where
  flat : flatInternal left sep right = InternalNode.canonical all
  exact : HeadUnread old → flatInternal left sep right = all
  left_length : left.length = a
  right_length : right.length = b
  left_head : HeadUnread left
  right_head : HeadUnread right
  above : ((InternalNode.canonical all).Pairwise fun x y => x.key < y.key) → ∀ e ∈ left, e.key < sep
  moved : ((InternalNode.canonical all).Pairwise fun x y => x.key < y.key) → ∀ e ∈ left ++ right, e.key ≠ sep

theorem headUnread_canonical {es : List InternalEntry} (h : es ≠ []) : HeadUnread (InternalNode.canonical es) := by
  cases es with
  | nil => exact absurd rfl h
  | cons e es => rfl

theorem HeadUnread.canonical {es : List InternalEntry} (h : HeadUnread es) : InternalNode.canonical es = es := by
  cases es with
  | nil => rfl
  | cons e es =>
    have hkey : e.key = int64Min := Option.some.inj h
    rw [InternalNode.canonical, ← hkey]

/-- The first entry stays the first. -/
theorem HeadUnread.append {es fs : List InternalEntry} (h : HeadUnread es) : HeadUnread (es ++ fs) := by
  cases es with
  | nil => cases h
  | cons e es => exact h

theorem HeadUnread.take {es : List InternalEntry} (h : HeadUnread es) {i : Nat} (hi : 1 ≤ i) :
    HeadUnread (es.take i) := by
  cases es with
  | nil => cases h
  | cons e es =>
    cases i with
    | zero => omega
    | succ i => exact h

theorem leafCut {all : List LeafEntry} {a b : Nat} {sep : LeafEntry} (h : all[a]? = some sep)
    (hb : all.length = a + b) : LeafCut all a b (all.take a) (all.drop a) sep.key := by
  have hcons : all.drop a = sep :: all.drop (a + 1) := by
    obtain ⟨ha, rfl⟩ := List.getElem?_eq_some_iff.mp h
    exact List.drop_eq_getElem_cons ha
  constructor
  · exact List.take_append_drop a all
  · rw [List.length_take, hb]
    omega
  · rw [List.length_drop, hb]
    omega
  · rw [hcons]
    rfl
  · intro hs e he
    have happ : KeysIncrease (all.take a ++ all.drop a) := by rwa [List.take_append_drop]
    exact (List.pairwise_append.mp happ).2.2 e he sep (by simp [hcons])

theorem internalCut {old all : List InternalEntry} {a b : Nat} {sep : InternalEntry} (h1 : 1 ≤ a)
    (h : all[a]? = some sep) (hb : all.length = a + b) (hold : HeadUnread old → HeadUnread all) :
    InternalCut old all a b (InternalNode.canonical (all.take a)) (InternalNode.canonical (all.drop a)) sep.key := by
  have ha : a < all.length := (List.getElem?_eq_some_iff.mp h).1
  have hcons : all.drop a = sep :: all.drop (a + 1) := by
    obtain ⟨ha, rfl⟩ := List.getElem?_eq_some_iff.mp h
    exact List.drop_eq_getElem_cons ha
  have hleft : all.take a ≠ [] := by
    apply List.ne_nil_of_length_pos
    rw [List.length_take]
    omega
  have hhead := headUnread_canonical hleft
  have happ : InternalNode.canonical all = InternalNode.canonical (all.take a) ++ all.drop a := by
    rw [← canonical_append _ _ hleft, List.take_append_drop]
  have hflat : flatInternal (InternalNode.canonical (all.take a)) sep.key (InternalNode.canonical (all.drop a)) =
      InternalNode.canonical all := by
    rw [flatInternal, withHeadKey_canonical, hcons, withHeadKey, ← hcons, happ]
  have habove : ((InternalNode.canonical all).Pairwise fun x y => x.key < y.key) →
      ∀ e ∈ InternalNode.canonical (all.take a), e.key < sep.key := by
    intro hs e he
    rw [happ] at hs
    exact (List.pairwise_append.mp hs).2.2 e he sep (by simp [hcons])
  constructor
  · exact hflat
  · intro hu
    rw [hflat, (hold hu).canonical]
  · rw [length_canonical, List.length_take, hb]
    omega
  · rw [length_canonical, List.length_drop, hb]
    omega
  · exact hhead
  · rw [hcons]
    exact headUnread_canonical (by simp)
  · exact habove
  · intro hs e he
    rcases List.mem_append.mp he with he | he
    · exact (habove hs e he).ne
    · rw [hcons, InternalNode.canonical, List.mem_cons] at he
      rcases he with rfl | he
      · -- The unread key is the left node's first key too, and that is below the separator.
        obtain ⟨first, hmem, hkey⟩ : ∃ first ∈ InternalNode.canonical (all.take a), first.key = int64Min := by
          obtain ⟨first, hf, hkey⟩ := Option.map_eq_some_iff.mp hhead
          exact ⟨first, List.mem_of_mem_head? hf, hkey⟩
        have := habove hs first hmem
        rw [hkey] at this
        exact this.ne
      · rw [happ, hcons] at hs
        exact ((List.pairwise_cons.mp (List.pairwise_append.mp hs).2.1).1 e he).ne'

/-- The eight operations on two nodes keep the sequence the nodes stand for. -/
theorem node_operations_keep_sequence {left right : Body} {level : Nat} {next next' : PageId} :
    (∀ (es : List LeafEntry) (rightPageId : PageId) (index : Nat) (entry : LeafEntry), NodeIs left 0 next es →
      NodeIs right 0 next' ([] : List LeafEntry) → 1 ≤ es.length → index ≤ es.length →
      ∃ left' right' sep ls rs, splitLeaf left right rightPageId index entry = some (left', right', sep) ∧
        NodeIs left' 0 rightPageId ls ∧ NodeIs right' 0 next rs ∧
        LeafCut (es.take index ++ entry :: es.drop index) ((es.length + 2) / 2) ((es.length + 1) / 2) ls rs sep) ∧
    (∀ (es : List InternalEntry) (index : Nat) (entry : InternalEntry), NodeIs left level next es →
      NodeIs right level next' ([] : List InternalEntry) → 2 ≤ es.length → 1 ≤ index → index ≤ es.length →
      ∃ left' right' sep ls rs, splitInternal left right index entry = some (left', right', sep) ∧
        NodeIs left' level next ls ∧ NodeIs right' level next' rs ∧
        InternalCut es (es.take index ++ entry :: es.drop index) ((es.length + 2) / 2) ((es.length + 1) / 2)
          ls rs sep) ∧
    (∀ (les res : List LeafEntry) (separator : Key), NodeIs left 0 next les → NodeIs right 0 next' res →
      2 ≤ les.length → res.length < nodeCapacity →
      ∃ left' right' sep ls rs, rotateLeafRight left right = some (left', right', sep) ∧
        NodeIs left' 0 next ls ∧ NodeIs right' 0 next' rs ∧
        LeafCut (flatLeaf les separator res) (les.length - 1) (res.length + 1) ls rs sep) ∧
    (∀ (les res : List LeafEntry) (separator : Key), NodeIs left 0 next les → NodeIs right 0 next' res →
      2 ≤ res.length → les.length < nodeCapacity →
      ∃ left' right' sep ls rs, rotateLeafLeft left right = some (left', right', sep) ∧
        NodeIs left' 0 next ls ∧ NodeIs right' 0 next' rs ∧
        LeafCut (flatLeaf les separator res) (les.length + 1) (res.length - 1) ls rs sep) ∧
    (∀ (les res : List InternalEntry) (separator : Key), NodeIs left level next les → NodeIs right level next' res →
      2 ≤ les.length → 1 ≤ res.length → res.length < nodeCapacity →
      ∃ left' right' up ls rs, rotateInternalRight left right separator = some (left', right', up) ∧
        NodeIs left' level next ls ∧ NodeIs right' level next' rs ∧
        InternalCut les (flatInternal les separator res) (les.length - 1) (res.length + 1) ls rs up) ∧
    (∀ (les res : List InternalEntry) (separator : Key), NodeIs left level next les → NodeIs right level next' res →
      2 ≤ res.length → 1 ≤ les.length → les.length < nodeCapacity →
      ∃ left' right' up ls rs, rotateInternalLeft left right separator = some (left', right', up) ∧
        NodeIs left' level next ls ∧ NodeIs right' level next' rs ∧
        InternalCut les (flatInternal les separator res) (les.length + 1) (res.length - 1) ls rs up) ∧
    (∀ (les res : List LeafEntry) (separator : Key), NodeIs left 0 next les → NodeIs right 0 next' res →
      les.length + res.length ≤ nodeCapacity →
      ∃ left', mergeLeaf left right = some left' ∧ NodeIs left' 0 next' (flatLeaf les separator res)) ∧
    (∀ (les res : List InternalEntry) (separator : Key), NodeIs left level next les → NodeIs right level next' res →
      1 ≤ les.length → 1 ≤ res.length → les.length + res.length ≤ nodeCapacity →
      ∃ left' es, mergeInternal left right separator = some left' ∧ NodeIs left' level next es ∧ HeadUnread es ∧
        es = InternalNode.canonical (flatInternal les separator res) ∧
        (HeadUnread les → es = flatInternal les separator res)) := by
  refine ⟨?_, ?_, ?_, ?_, ?_, ?_, ?_, ?_⟩
  · intro es rightPageId index entry hl hr h1 hi
    obtain ⟨left', right', sep, hrun, hsep, hl', hr'⟩ := splitLeaf_eq hl hr rightPageId entry h1 hi rfl rfl
    refine ⟨left', right', _, _, _, hrun, hl', hr', leafCut hsep ?_⟩
    simp
    omega
  · intro es index entry hl hr h2 h1 hi
    obtain ⟨left', right', sep, hrun, hsep, hl', hr'⟩ := splitInternal_eq hl hr entry h2 h1 hi rfl rfl
    refine ⟨left', right', _, _, _, hrun, hl', hr', internalCut (by omega) hsep ?_ fun hu => (hu.take h1).append⟩
    simp
    omega
  · intro les res separator hl hr h2 hcap
    obtain ⟨left', right', sep, hrun, hsep, hl', hr'⟩ := rotateLeafRight_eq hl hr h2 hcap
    refine ⟨left', right', _, _, _, hrun, hl', hr', leafCut hsep ?_⟩
    simp
    omega
  · intro les res separator hl hr h2 hcap
    obtain ⟨left', right', sep, hrun, hsep, hl', hr'⟩ := rotateLeafLeft_eq hl hr h2 hcap
    refine ⟨left', right', _, _, _, hrun, hl', hr', leafCut hsep ?_⟩
    simp
    omega
  · intro les res separator hl hr h2 h1 hcap
    obtain ⟨left', right', up, hrun, hup, hl', hr'⟩ := rotateInternalRight_eq hl hr separator h2 h1 hcap rfl
    refine ⟨left', right', _, _, _, hrun, hl', hr', internalCut (by omega) hup ?_ HeadUnread.append⟩
    simp
    omega
  · intro les res separator hl hr h2 h1 hcap
    obtain ⟨left', right', up, hrun, hup, hl', hr'⟩ := rotateInternalLeft_eq hl hr separator h2 h1 hcap rfl
    refine ⟨left', right', _, _, _, hrun, hl', hr', internalCut (by omega) hup ?_ HeadUnread.append⟩
    simp
    omega
  · intro les res separator hl hr hcap
    exact mergeLeaf_eq hl hr hcap
  · intro les res separator hl hr h1 h2 hcap
    obtain ⟨left', hrun, hl'⟩ := mergeInternal_eq hl hr separator h1 h2 hcap
    have hne : flatInternal les separator res ≠ [] := by
      apply List.ne_nil_of_length_pos
      simp
      omega
    exact ⟨left', _, hrun, hl', headUnread_canonical hne, rfl, fun hu => (HeadUnread.append hu).canonical⟩

/-- A full leaf of three split in the middle: two entries stay, two go. -/
theorem node_operations_keep_sequence_split :
    ∃ left right left' right' : Body, splitLeaf left right 9 1 ⟨4, 2, 3⟩ = some (left', right', 5) ∧
      NodeIs left' 0 9 [⟨3, 2, 0⟩, (⟨4, 2, 3⟩ : LeafEntry)] ∧
      NodeIs right' 0 invalidPage [⟨5, 2, 1⟩, (⟨7, 2, 2⟩ : LeafEntry)] := by
  let es : List LeafEntry := [⟨3, 2, 0⟩, ⟨5, 2, 1⟩, ⟨7, 2, 2⟩]
  have hinit := LeafNode.init_is (fun _ => 0)
  obtain ⟨left, -, hleft⟩ := LeafNode.assign_eq hinit es (by decide)
  obtain ⟨left', right', sep, ls, rs, hrun, hl', hr', hcut⟩ :=
    (@node_operations_keep_sequence left _ 0 _ _).1 es 9 1 ⟨4, 2, 3⟩ hleft hinit (by decide) (by decide)
  have hlen : ls.length = 2 := hcut.left_length.trans (by simp [es])
  have hls : ls = [⟨3, 2, 0⟩, ⟨4, 2, 3⟩] := by
    have := congrArg (List.take 2) hcut.flat
    rwa [flatLeaf, List.take_left' hlen] at this
  have hrs : rs = [⟨5, 2, 1⟩, ⟨7, 2, 2⟩] := by
    have := congrArg (List.drop 2) hcut.flat
    rwa [flatLeaf, List.drop_left' hlen] at this
  subst hls hrs
  have hsep : sep = 5 := (Option.some.inj hcut.copied).symm
  subst hsep
  exact ⟨left, _, left', right', hrun, hl', hr'⟩

end KernSql

import KernSql.Index.NodeSpec

/- Splits, rotations and merges (the free functions of b_plus_tree_page.cpp) and
   what they do to the contents of the two nodes they work on.

   Each builds the entries of both nodes in one list and cuts it again. The
   specifications say which list and where the cut is: a split cuts the `n + 1`
   entries after `⌈(n + 1) / 2⌉`, a rotation moves the cut between two siblings
   by one, a merge leaves everything on the left. For internal nodes the list is
   joined with the parent's separator in front of the right node's first child
   (`withHeadKey`), and the key at the new cut goes up. -/
namespace KernSql
open Bytes

/-! Splits. -/

def splitLeaf (left right : Body) (rightPageId : PageId) (index : Nat) (entry : LeafEntry) :
    Option (Body × Body × Key) := do
  let n := LeafNode.count left
  require (1 ≤ n ∧ n ≤ nodeCapacity)
  require (index ≤ n)
  require (LeafNode.count right = 0)
  let before ← Node.entriesFrom LeafEntry left 0 index
  let after ← Node.entriesFrom LeafEntry left index (n - index)
  let temp := before ++ entry :: after
  let total := n + 1
  let m := (total + 1) / 2
  -- right takes left's old link before left is pointed at right
  let right := LeafNode.setNextLeaf right (LeafNode.nextLeaf left)
  let left := LeafNode.setNextLeaf left rightPageId
  let left ← LeafNode.assign left (temp.take m)
  let right ← LeafNode.assign right ((temp.drop m).take (total - m))
  let sep ← temp[m]?
  pure (left, right, sep.key)

def splitInternal (left right : Body) (index : Nat) (entry : InternalEntry) :
    Option (Body × Body × Key) := do
  let n := InternalNode.count left
  require (2 ≤ n ∧ n ≤ nodeCapacity)
  require (1 ≤ index ∧ index ≤ n)
  require (InternalNode.count right = 0)
  require (InternalNode.level right = InternalNode.level left)
  let before ← Node.entriesFrom InternalEntry left 0 index
  let after ← Node.entriesFrom InternalEntry left index (n - index)
  let temp := before ++ entry :: after
  let total := n + 1
  let m := (total + 1) / 2
  -- move up: the key of temp[m] stays in neither half
  let sep ← temp[m]?
  let left ← InternalNode.assign left (temp.take m)
  let right ← InternalNode.assign right ((temp.drop m).take (total - m))
  pure (left, right, sep.key)

/-! Rotations. -/

/-- Join two leaves, cut again at `cut`, and read the right leaf's first key. -/
def recutLeaf (left right : Body) (cut : Nat) : Option (Body × Body × Key) := do
  let n := LeafNode.count left
  let m := LeafNode.count right
  let les ← Node.entriesFrom LeafEntry left 0 n
  let res ← Node.entriesFrom LeafEntry right 0 m
  let temp := les ++ res
  let left ← LeafNode.assign left (temp.take cut)
  let right ← LeafNode.assign right ((temp.drop cut).take (n + m - cut))
  let sep ← LeafNode.entryAt right 0
  pure (left, right, sep.key)

def rotateLeafRight (left right : Body) : Option (Body × Body × Key) := do
  let n := LeafNode.count left
  let m := LeafNode.count right
  require (2 ≤ n ∧ m < nodeCapacity)
  recutLeaf left right (n - 1)

def rotateLeafLeft (left right : Body) : Option (Body × Body × Key) := do
  let n := LeafNode.count left
  let m := LeafNode.count right
  require (2 ≤ m ∧ n < nodeCapacity)
  recutLeaf left right (n + 1)

/-- The separator comes down into the unread slot of the right node's first entry. -/
def withHeadKey (separator : Key) : List InternalEntry → List InternalEntry
  | [] => []
  | first :: rest => { first with key := separator } :: rest

/-- Join two internal nodes with the separator between them and cut again at
`cut`; the key found there goes up. -/
def recutInternal (left right : Body) (separator : Key) (cut : Nat) : Option (Body × Body × Key) := do
  let n := InternalNode.count left
  let m := InternalNode.count right
  require (InternalNode.level left = InternalNode.level right)
  let les ← Node.entriesFrom InternalEntry left 0 n
  let res ← Node.entriesFrom InternalEntry right 0 m
  let temp := les ++ withHeadKey separator res
  let up ← temp[cut]?
  let left ← InternalNode.assign left (temp.take cut)
  let right ← InternalNode.assign right ((temp.drop cut).take (n + m - cut))
  pure (left, right, up.key)

def rotateInternalRight (left right : Body) (separator : Key) : Option (Body × Body × Key) := do
  let n := InternalNode.count left
  let m := InternalNode.count right
  require (2 ≤ n ∧ 1 ≤ m ∧ m < nodeCapacity)
  recutInternal left right separator (n - 1)

def rotateInternalLeft (left right : Body) (separator : Key) : Option (Body × Body × Key) := do
  let n := InternalNode.count left
  let m := InternalNode.count right
  require (2 ≤ m ∧ 1 ≤ n ∧ n < nodeCapacity)
  recutInternal left right separator (n + 1)

/-! Merges; the right node is not modified. -/

def mergeLeaf (left right : Body) : Option Body := do
  let n := LeafNode.count left
  let m := LeafNode.count right
  require (n + m ≤ nodeCapacity)
  let les ← Node.entriesFrom LeafEntry left 0 n
  let res ← Node.entriesFrom LeafEntry right 0 m
  let left ← LeafNode.assign left (les ++ res)
  pure (LeafNode.setNextLeaf left (LeafNode.nextLeaf right))

def mergeInternal (left right : Body) (separator : Key) : Option Body := do
  let n := InternalNode.count left
  let m := InternalNode.count right
  require (1 ≤ n ∧ 1 ≤ m ∧ n + m ≤ nodeCapacity)
  require (InternalNode.level left = InternalNode.level right)
  let les ← Node.entriesFrom InternalEntry left 0 n
  let res ← Node.entriesFrom InternalEntry right 0 m
  InternalNode.assign left (les ++ withHeadKey separator res)

/-! Specifications. -/

section Spec
variable {left right b : Body} {level : Nat} {next next' : PageId}

@[simp] theorem length_withHeadKey (s : Key) (es : List InternalEntry) :
    (withHeadKey s es).length = es.length := by
  cases es <;> rfl

@[simp] theorem length_canonical (es : List InternalEntry) :
    (InternalNode.canonical es).length = es.length := by
  cases es <;> rfl

theorem NodeIs.all {E : Type} [NodeEntry E] {es : List E} (h : NodeIs b level next es) :
    Node.entriesFrom E b 0 es.length = some es := by
  rw [h.entriesFrom _ _ (by omega)]
  simp

theorem LeafNode.setNextLeaf_is {es : List LeafEntry} (h : NodeIs b level next es) (p : PageId) :
    NodeIs (LeafNode.setNextLeaf b p) level p es := by
  have he : LeafNode.header b = ⟨level, es.length, next⟩ := h.header_eq
  rw [LeafNode.setNextLeaf, he]
  exact h.withHeader h.level_lt

theorem LeafNode.assign_eq {es : List LeafEntry} (h : NodeIs b level next es) (es' : List LeafEntry)
    (hcap : es'.length ≤ nodeCapacity) : ∃ b', LeafNode.assign b es' = some b' ∧ NodeIs b' level next es' := by
  obtain ⟨b', hb', hn⟩ := Node.assignEntries_eq b es' hcap
  rw [h.header_eq] at hn
  exact ⟨b', by simp [LeafNode.assign, hcap, hb'], hn⟩

theorem InternalNode.assign_eq {es : List InternalEntry} (h : NodeIs b level next es)
    (es' : List InternalEntry) (h1 : 1 ≤ es'.length) (hcap : es'.length ≤ nodeCapacity) :
    ∃ b', InternalNode.assign b es' = some b' ∧ NodeIs b' level next (canonical es') := by
  obtain ⟨b', hb', hn⟩ := Node.assignEntries_eq b (canonical es') (by simpa using hcap)
  rw [h.header_eq] at hn
  exact ⟨b', by simp [InternalNode.assign, h1, hcap, hb'], hn⟩

theorem splitLeaf_eq {es : List LeafEntry} (hl : NodeIs left 0 next es)
    (hr : NodeIs right 0 next' ([] : List LeafEntry)) (rightPageId : PageId) {index : Nat}
    (entry : LeafEntry) (h1 : 1 ≤ es.length) (hi : index ≤ es.length) {temp : List LeafEntry}
    (ht : temp = es.take index ++ entry :: es.drop index) {m : Nat} (hm : m = (es.length + 2) / 2) :
    ∃ left' right' sep, splitLeaf left right rightPageId index entry = some (left', right', sep.key) ∧
      temp[m]? = some sep ∧
      NodeIs left' 0 rightPageId (temp.take m) ∧ NodeIs right' 0 next (temp.drop m) := by
  have hcap := hl.cap
  have hcount : LeafNode.count left = es.length := hl.count_eq
  have hcount' : LeafNode.count right = 0 := hr.count_eq
  have hnext : LeafNode.nextLeaf left = next := by
    rw [LeafNode.nextLeaf, show LeafNode.header left = _ from hl.header_eq]
  have hlen : temp.length = es.length + 1 := by subst ht; simp; omega
  have hbefore := hl.entriesFrom index 0 (by omega)
  have hafter := hl.entriesFrom (es.length - index) index (by omega)
  rw [List.drop_zero] at hbefore
  rw [List.take_of_length_le (by simp)] at hafter
  obtain ⟨l', hl', hln⟩ := LeafNode.assign_eq (LeafNode.setNextLeaf_is hl rightPageId)
    (temp.take m) (by simp; omega)
  obtain ⟨r', hr', hrn⟩ := LeafNode.assign_eq (LeafNode.setNextLeaf_is hr next)
    (temp.drop m) (by simp; omega)
  have hsep : temp[m]? = some temp[m] := List.getElem?_eq_getElem (by omega)
  have hdrop : (temp.drop m).take (es.length + 1 - m) = temp.drop m :=
    List.take_of_length_le (by simp; omega)
  refine ⟨l', r', temp[m], ?_, hsep, hln, hrn⟩
  unfold splitLeaf
  simp only [hcount, hcount', hnext]
  simp only [require_pos (And.intro h1 hcap), require_pos hi, require_pos, hbefore, hafter, ← ht,
    show (es.length + 1 + 1) / 2 = m by omega, hl', hdrop, hr', hsep, Option.bind_eq_bind,
    Option.bind_some, Option.pure_def]

theorem splitInternal_eq {es : List InternalEntry} (hl : NodeIs left level next es)
    (hr : NodeIs right level next' ([] : List InternalEntry)) {index : Nat}
    (entry : InternalEntry) (h2 : 2 ≤ es.length) (h1 : 1 ≤ index) (hi : index ≤ es.length)
    {temp : List InternalEntry} (ht : temp = es.take index ++ entry :: es.drop index)
    {m : Nat} (hm : m = (es.length + 2) / 2) :
    ∃ left' right' sep, splitInternal left right index entry = some (left', right', sep.key) ∧
      temp[m]? = some sep ∧ NodeIs left' level next (InternalNode.canonical (temp.take m)) ∧
      NodeIs right' level next' (InternalNode.canonical (temp.drop m)) := by
  have hcap := hl.cap
  have hcount : InternalNode.count left = es.length := hl.count_eq
  have hcount' : InternalNode.count right = 0 := hr.count_eq
  have hlevel : InternalNode.level right = InternalNode.level left := by
    rw [InternalNode.level, InternalNode.level, show InternalNode.header right = _ from hr.header_eq,
      show InternalNode.header left = _ from hl.header_eq]
  have hlen : temp.length = es.length + 1 := by subst ht; simp; omega
  have hbefore := hl.entriesFrom index 0 (by omega)
  have hafter := hl.entriesFrom (es.length - index) index (by omega)
  rw [List.drop_zero] at hbefore
  rw [List.take_of_length_le (by simp)] at hafter
  obtain ⟨l', hl', hln⟩ := InternalNode.assign_eq hl (temp.take m) (by simp; omega)
    (by simp; omega)
  obtain ⟨r', hr', hrn⟩ := InternalNode.assign_eq hr (temp.drop m) (by simp; omega)
    (by simp; omega)
  have hsep : temp[m]? = some temp[m] := List.getElem?_eq_getElem (by omega)
  have hdrop : (temp.drop m).take (es.length + 1 - m) = temp.drop m :=
    List.take_of_length_le (by simp; omega)
  refine ⟨l', r', temp[m], ?_, hsep, hln, hrn⟩
  unfold splitInternal
  simp only [hcount, hcount']
  simp only [require_pos (And.intro h2 hcap), require_pos (And.intro h1 hi), require_pos hlevel,
    require_pos, hbefore, hafter, ← ht, show (es.length + 1 + 1) / 2 = m by omega, hl', hdrop, hr',
    hsep, Option.bind_eq_bind, Option.bind_some, Option.pure_def]

theorem recutLeaf_eq {les res : List LeafEntry} (hl : NodeIs left 0 next les)
    (hr : NodeIs right 0 next' res) (cut : Nat) (hcut : cut ≤ nodeCapacity)
    (hlt : cut < les.length + res.length) (hcap : les.length + res.length - cut ≤ nodeCapacity) :
    ∃ left' right' sep, recutLeaf left right cut = some (left', right', sep.key) ∧
      (les ++ res)[cut]? = some sep ∧ NodeIs left' 0 next ((les ++ res).take cut) ∧
      NodeIs right' 0 next' ((les ++ res).drop cut) := by
  have hcount : LeafNode.count left = les.length := hl.count_eq
  have hcount' : LeafNode.count right = res.length := hr.count_eq
  obtain ⟨l', hl', hln⟩ := LeafNode.assign_eq hl ((les ++ res).take cut) (by simp; omega)
  obtain ⟨r', hr', hrn⟩ := LeafNode.assign_eq hr ((les ++ res).drop cut) (by simp; omega)
  have hlen : cut < (les ++ res).length := by simpa using hlt
  have hdrop : ((les ++ res).drop cut).take (les.length + res.length - cut) = (les ++ res).drop cut :=
    List.take_of_length_le (by simp)
  have hfirst : LeafNode.entryAt r' 0 = some (les ++ res)[cut] := by
    rw [LeafNode.entryAt, hrn.entryAt (by simp; omega), List.getElem_drop]
    simp
  refine ⟨l', r', (les ++ res)[cut], ?_, List.getElem?_eq_getElem hlen, hln, hrn⟩
  unfold recutLeaf
  simp [hcount, hcount', hl.all, hr.all, hl', hdrop, hr', hfirst]

theorem rotateLeafRight_eq {les res : List LeafEntry} (hl : NodeIs left 0 next les)
    (hr : NodeIs right 0 next' res) (h2 : 2 ≤ les.length) (hcap : res.length < nodeCapacity) :
    ∃ left' right' sep, rotateLeafRight left right = some (left', right', sep.key) ∧
      (les ++ res)[les.length - 1]? = some sep ∧
      NodeIs left' 0 next ((les ++ res).take (les.length - 1)) ∧
      NodeIs right' 0 next' ((les ++ res).drop (les.length - 1)) := by
  have hcount : LeafNode.count left = les.length := hl.count_eq
  have hcount' : LeafNode.count right = res.length := hr.count_eq
  have hlcap := hl.cap
  have := recutLeaf_eq hl hr (les.length - 1) (by omega) (by omega) (by omega)
  simpa [rotateLeafRight, hcount, hcount', h2, hcap] using this

theorem rotateLeafLeft_eq {les res : List LeafEntry} (hl : NodeIs left 0 next les)
    (hr : NodeIs right 0 next' res) (h2 : 2 ≤ res.length) (hcap : les.length < nodeCapacity) :
    ∃ left' right' sep, rotateLeafLeft left right = some (left', right', sep.key) ∧
      (les ++ res)[les.length + 1]? = some sep ∧
      NodeIs left' 0 next ((les ++ res).take (les.length + 1)) ∧
      NodeIs right' 0 next' ((les ++ res).drop (les.length + 1)) := by
  have hcount : LeafNode.count left = les.length := hl.count_eq
  have hcount' : LeafNode.count right = res.length := hr.count_eq
  have hrcap := hr.cap
  have := recutLeaf_eq hl hr (les.length + 1) (by omega) (by omega) (by omega)
  simpa [rotateLeafLeft, hcount, hcount', h2, hcap] using this

theorem recutInternal_eq {les res : List InternalEntry} (hl : NodeIs left level next les)
    (hr : NodeIs right level next' res) (separator : Key) (cut : Nat) (h1 : 1 ≤ cut)
    (hcut : cut ≤ nodeCapacity) (hlt : cut < les.length + res.length)
    (hcap : les.length + res.length - cut ≤ nodeCapacity) {temp : List InternalEntry}
    (ht : temp = les ++ withHeadKey separator res) :
    ∃ left' right' up, recutInternal left right separator cut = some (left', right', up.key) ∧
      temp[cut]? = some up ∧ NodeIs left' level next (InternalNode.canonical (temp.take cut)) ∧
      NodeIs right' level next' (InternalNode.canonical (temp.drop cut)) := by
  have hcount : InternalNode.count left = les.length := hl.count_eq
  have hcount' : InternalNode.count right = res.length := hr.count_eq
  have hlevel : InternalNode.level left = InternalNode.level right := by
    rw [InternalNode.level, InternalNode.level, show InternalNode.header right = _ from hr.header_eq,
      show InternalNode.header left = _ from hl.header_eq]
  have hlen : temp.length = les.length + res.length := by subst ht; simp
  obtain ⟨l', hl', hln⟩ := InternalNode.assign_eq hl (temp.take cut) (by simp; omega)
    (by simp; omega)
  obtain ⟨r', hr', hrn⟩ := InternalNode.assign_eq hr (temp.drop cut) (by simp; omega)
    (by simp; omega)
  have hdrop : (temp.drop cut).take (les.length + res.length - cut) = temp.drop cut :=
    List.take_of_length_le (by simp; omega)
  have hup : temp[cut]? = some temp[cut] := List.getElem?_eq_getElem (by omega)
  refine ⟨l', r', temp[cut], ?_, hup, hln, hrn⟩
  unfold recutInternal
  subst ht
  simp [hcount, hcount', hlevel, hl.all, hr.all, hl', hdrop, hr', hup]

theorem rotateInternalRight_eq {les res : List InternalEntry} (hl : NodeIs left level next les)
    (hr : NodeIs right level next' res) (separator : Key) (h2 : 2 ≤ les.length) (h1 : 1 ≤ res.length)
    (hcap : res.length < nodeCapacity) {temp : List InternalEntry}
    (ht : temp = les ++ withHeadKey separator res) :
    ∃ left' right' up, rotateInternalRight left right separator = some (left', right', up.key) ∧
      temp[les.length - 1]? = some up ∧
      NodeIs left' level next (InternalNode.canonical (temp.take (les.length - 1))) ∧
      NodeIs right' level next' (InternalNode.canonical (temp.drop (les.length - 1))) := by
  have hcount : InternalNode.count left = les.length := hl.count_eq
  have hcount' : InternalNode.count right = res.length := hr.count_eq
  have hlcap := hl.cap
  have := recutInternal_eq hl hr separator (les.length - 1) (by omega) (by omega) (by omega)
    (by omega) ht
  simpa [rotateInternalRight, hcount, hcount', h2, h1, hcap] using this

theorem rotateInternalLeft_eq {les res : List InternalEntry} (hl : NodeIs left level next les)
    (hr : NodeIs right level next' res) (separator : Key) (h2 : 2 ≤ res.length) (h1 : 1 ≤ les.length)
    (hcap : les.length < nodeCapacity) {temp : List InternalEntry}
    (ht : temp = les ++ withHeadKey separator res) :
    ∃ left' right' up, rotateInternalLeft left right separator = some (left', right', up.key) ∧
      temp[les.length + 1]? = some up ∧
      NodeIs left' level next (InternalNode.canonical (temp.take (les.length + 1))) ∧
      NodeIs right' level next' (InternalNode.canonical (temp.drop (les.length + 1))) := by
  have hcount : InternalNode.count left = les.length := hl.count_eq
  have hcount' : InternalNode.count right = res.length := hr.count_eq
  have hrcap := hr.cap
  have := recutInternal_eq hl hr separator (les.length + 1) (by omega) (by omega) (by omega)
    (by omega) ht
  simpa [rotateInternalLeft, hcount, hcount', h2, h1, hcap] using this

theorem mergeLeaf_eq {les res : List LeafEntry} (hl : NodeIs left 0 next les)
    (hr : NodeIs right 0 next' res) (hcap : les.length + res.length ≤ nodeCapacity) :
    ∃ left', mergeLeaf left right = some left' ∧ NodeIs left' 0 next' (les ++ res) := by
  have hcount : LeafNode.count left = les.length := hl.count_eq
  have hcount' : LeafNode.count right = res.length := hr.count_eq
  have hnext : LeafNode.nextLeaf right = next' := by
    rw [LeafNode.nextLeaf, show LeafNode.header right = _ from hr.header_eq]
  obtain ⟨l', hl', hln⟩ := LeafNode.assign_eq hl (les ++ res) (by simpa using hcap)
  refine ⟨LeafNode.setNextLeaf l' next', ?_, LeafNode.setNextLeaf_is hln next'⟩
  simp [mergeLeaf, hcount, hcount', hcap, hl.all, hr.all, hl', hnext]

theorem mergeInternal_eq {les res : List InternalEntry} (hl : NodeIs left level next les)
    (hr : NodeIs right level next' res) (separator : Key) (h1 : 1 ≤ les.length) (h2 : 1 ≤ res.length)
    (hcap : les.length + res.length ≤ nodeCapacity) :
    ∃ left', mergeInternal left right separator = some left' ∧
      NodeIs left' level next (InternalNode.canonical (les ++ withHeadKey separator res)) := by
  have hcount : InternalNode.count left = les.length := hl.count_eq
  have hcount' : InternalNode.count right = res.length := hr.count_eq
  have hlevel : InternalNode.level left = InternalNode.level right := by
    rw [InternalNode.level, InternalNode.level, show InternalNode.header right = _ from hr.header_eq,
      show InternalNode.header left = _ from hl.header_eq]
  obtain ⟨l', hl', hln⟩ := InternalNode.assign_eq hl (les ++ withHeadKey separator res)
    (by simp; omega) (by simpa using hcap)
  refine ⟨l', ?_, hln⟩
  simp [mergeInternal, hcount, hcount', h1, h2, hcap, hlevel, hl.all, hr.all, hl']

end Spec
end KernSql

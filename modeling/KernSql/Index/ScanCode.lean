import KernSql.Index.IndexGuards
import KernSql.Index.Scan

/- The code of range scans as programs over the calls of the pool.

   `Scan` gives its guard back before it returns; the iterator takes one again when
   it arrives at a leaf, and holds it until the leaf is used up, the interval ends, an
   error comes or the iterator is destroyed. -/
namespace KernSql
open Prog
open Pool (KeepsGuards)

namespace IndexIterator.Code

def release : ObjectProg IndexIterator Unit := do
  let it ← Pool.self
  if it.held then do
    Pool.onPool (Pool.dropGuard it.pageId .read)
    Pool.setSelf { it with held := false }
  else pure ()

def arrive : ObjectProg IndexIterator Unit := do
  let it ← Pool.self
  if it.held then pure ()
  else match ← attempt (Pool.onPool (Pool.fetchPageRead it.pageId)) with
    | .error e => do
      Pool.setSelf { it with pageId := invalidPage }
      fail e
    | .ok _ => Pool.setSelf { it with held := true }

def next : Nat → ObjectProg IndexIterator Bool
  | 0 => lift none
  | fuel + 1 => do
    let it ← Pool.self
    if it.pageId = invalidPage then pure false
    else do
      arrive
      match ← attempt (Pool.onPool (BPlusTree.Code.asLeaf it.pageId)) with
      | .error e => do
        release
        let it' ← Pool.self
        Pool.setSelf { it' with pageId := invalidPage }
        fail e
      | .ok b =>
        if LeafNode.count b ≤ it.index then do
          release
          let it' ← Pool.self
          Pool.setSelf { it' with pageId := LeafNode.nextLeaf b, index := 0 }
          next fuel
        else do
          let entry ← lift (LeafNode.entryAt b it.index)
          if it.hi < entry.key then do
            release
            let it' ← Pool.self
            Pool.setSelf { it' with pageId := invalidPage }
            pure false
          else do
            let it' ← Pool.self
            Pool.setSelf { it' with current := entry, index := u16 (it.index + 1) }
            pure true

def nextEntry (fuel : Nat) : ObjectProg IndexIterator (Option LeafEntry) := do
  let more ← next fuel
  let it ← Pool.self
  pure (if more then some it.current else none)

/-- `Next` until it answers false. -/
def collect (fuel : Nat) : Nat → ObjectProg IndexIterator (List LeafEntry)
  | 0 => lift none
  | n + 1 => do
    match ← nextEntry fuel with
    | none => pure []
    | some e => do
      let rest ← collect fuel n
      pure (e :: rest)

/-- The iterator's destructor. -/
def destroy (it : IndexIterator) : PoolProg Unit := if it.held then Pool.dropGuard it.pageId .read else pure ()

end IndexIterator.Code

namespace BPlusTree.Code

def scan (t : BPlusTree) (lo hi : Key) : PoolProg IndexIterator := Pool.inScope do
  let p ← findLeafRead t lo
  let b ← asLeaf p
  let i ← lift (LeafNode.lowerBound b lo)
  pure { held := false, pageId := p, index := i, hi := hi }

/-- `Scan` and its use to the end. -/
def scanAll (fuel n : Nat) (t : BPlusTree) (lo hi : Key) : PoolProg (List LeafEntry) := do
  let it ← scan t lo hi
  Pool.owning it (IndexIterator.Code.collect fuel n) IndexIterator.Code.destroy

end BPlusTree.Code

namespace IndexIterator.Code

section Store
variable (env : PoolEnv)

@[simp] theorem run_release : release.run (Pool.objectAnswer IndexIterator env) = IndexIterator.release := by
  simp [release, IndexIterator.release]

@[simp] theorem run_arrive : arrive.run (Pool.objectAnswer IndexIterator env) = IndexIterator.arrive env := by
  simp only [arrive, IndexIterator.arrive, run_bind, run_ite, run_pure, Pool.run_self, run_attempt, Pool.run_onPool,
    Pool.run_fetchPageRead]
  congr 1
  funext it
  congr 2
  funext r
  cases r <;> simp

@[simp] theorem run_next : ∀ fuel : Nat,
    (next fuel).run (Pool.objectAnswer IndexIterator env) = IndexIterator.next env fuel
  | 0 => by simp [next, IndexIterator.next]
  | fuel + 1 => by
    simp only [next, IndexIterator.next, run_bind, run_ite, run_pure, Pool.run_self, run_attempt, Pool.run_onPool,
      run_arrive, BPlusTree.Code.run_asLeaf]
    congr 1
    funext it
    congr 2
    funext _
    congr 1
    funext r
    cases r with
    | error e => simp
    | ok b => simp [run_next fuel]

@[simp] theorem run_nextEntry (fuel : Nat) :
    (nextEntry fuel).run (Pool.objectAnswer IndexIterator env) = IndexIterator.nextEntry env fuel () := by
  simp [nextEntry, IndexIterator.nextEntry]

end Store

section Discipline
variable {limit : Option Nat} {gs : List Guard} {fuel : Nat} {g : List Guard × IndexIterator}

/-- The iterator holds its guard, or none, besides those of others. -/
def Holds (gs : List Guard) (g : List Guard × IndexIterator) : Prop :=
  g.1 = if g.2.held then ⟨g.2.pageId, .read⟩ :: gs else gs

/-- A call on an iterator. -/
def Keeps {α : Type} (limit : Option Nat) (gs : List Guard) (m : ObjectProg IndexIterator α)
    (g : List Guard × IndexIterator) : Prop :=
  m.Follows (Pool.objectProtocol IndexIterator limit) (fun _ => Holds gs) (fun _ => Holds gs) g

/-- After `guard_.reset()` nothing is held. -/
theorem follows_release (hg : Holds gs g) {Q : Unit → List Guard × IndexIterator → Prop}
    {E : Status → List Guard × IndexIterator → Prop} (hQ : Q () (gs, { g.2 with held := false })) :
    release.Follows (Pool.objectProtocol IndexIterator limit) Q E g := by
  unfold Holds at hg
  unfold release
  rw [follows_bind]
  refine Pool.follows_self ?_
  rw [follows_ite]
  refine ⟨fun hh => ?_, fun hh => ?_⟩
  · rw [if_pos hh] at hg
    rw [follows_bind]
    refine Pool.follows_onPool (Pool.follows_dropGuard (by rw [hg]; exact List.mem_cons_self) ?_)
    refine Pool.follows_setSelf ?_
    rw [hg, List.erase_cons_head]
    exact hQ
  · rw [if_neg hh] at hg
    have hit : { g.2 with held := false } = g.2 := by
      rw [← Bool.eq_false_iff.mpr hh]
    rw [hit, ← hg] at hQ
    exact hQ

theorem follows_arrive (hk : ∀ k ∈ limit, gs.length < k) (hg : Holds gs g) :
    arrive.Follows (Pool.objectProtocol IndexIterator limit)
      (fun _ g' => g'.2 = { g.2 with held := true } ∧ Holds gs g') (fun _ => Holds gs) g := by
  unfold arrive
  rw [follows_bind]
  refine Pool.follows_self ?_
  rw [follows_ite]
  refine ⟨fun hh => ⟨by rw [← hh], hg⟩, fun hh => ?_⟩
  unfold Holds at hg
  rw [if_neg hh] at hg
  rw [follows_bind, follows_attempt]
  refine Pool.follows_onPool (Pool.follows_fetchPage (by rw [hg]; exact hk) ?_ fun e => ?_)
  · refine Pool.follows_setSelf ⟨rfl, ?_⟩
    rw [hg]
    rfl
  · dsimp only
    rw [follows_bind]
    refine Pool.follows_setSelf ?_
    show g.1 = if g.2.held = true then _ else _
    rw [if_neg hh, hg]

/-- The iterator lets go of its leaf and is set down elsewhere. -/
theorem follows_leave {α : Type} (hg : Holds gs g) {f : IndexIterator → IndexIterator}
    (hf : ∀ it, (f it).held = it.held) {m : ObjectProg IndexIterator α}
    (hm : ∀ it, Holds gs (gs, it) → Keeps limit gs m (gs, it)) :
    Keeps limit gs (do release; let it' ← Pool.self; Pool.setSelf (f it'); m) g := by
  unfold Keeps
  rw [follows_bind]
  refine follows_release hg ?_
  rw [follows_bind]
  refine Pool.follows_self ?_
  rw [follows_bind]
  refine Pool.follows_setSelf (hm _ ?_)
  show gs = if (f { g.2 with held := false }).held = true then _ else gs
  rw [hf]
  rfl

theorem follows_next (hk : ∀ k ∈ limit, gs.length < k) : ∀ (fuel : Nat) {g : List Guard × IndexIterator}, Holds gs g →
    Keeps limit gs (next fuel) g
  | 0, _, _ => trivial
  | fuel + 1, g, hg => by
    unfold Keeps next
    rw [follows_bind]
    refine Pool.follows_self ?_
    rw [follows_ite]
    refine ⟨fun _ => hg, fun _ => ?_⟩
    refine (follows_arrive hk hg).bind (fun _ g₁ h₁ => ?_) fun _ _ he => he
    obtain ⟨hit, hg₁⟩ := h₁
    have hown : ⟨g.2.pageId, .read⟩ ∈ g₁.1 := by
      unfold Holds at hg₁
      rw [hg₁, hit]
      exact List.mem_cons_self
    rw [follows_bind, follows_attempt]
    refine Pool.follows_onPool (BPlusTree.Code.follows_asLeaf hown (fun b => ?_) fun e => ?_)
    · dsimp only
      rw [follows_ite]
      refine ⟨fun _ => ?_, fun _ => ?_⟩
      · exact follows_leave (f := fun it => { it with pageId := LeafNode.nextLeaf b, index := 0 }) hg₁ (fun _ => rfl)
          fun it h => follows_next hk fuel h
      · rw [follows_bind, follows_lift]
        intro entry _
        rw [follows_ite]
        refine ⟨fun _ => ?_, fun _ => ?_⟩
        · exact follows_leave (f := fun it => { it with pageId := invalidPage }) (m := pure false) hg₁ (fun _ => rfl)
            fun it h => h
        · rw [follows_bind]
          refine Pool.follows_self ?_
          rw [follows_bind]
          exact Pool.follows_setSelf hg₁
    · exact follows_leave (f := fun it => { it with pageId := invalidPage }) (m := fail e) hg₁ (fun _ => rfl)
        fun it h => h

theorem follows_collect (hk : ∀ k ∈ limit, gs.length < k) : ∀ (n : Nat) {g : List Guard × IndexIterator}, Holds gs g →
    Keeps limit gs (collect fuel n) g
  | 0, _, _ => trivial
  | n + 1, g, hg => by
    unfold Keeps collect nextEntry
    rw [follows_bind, follows_bind]
    refine (follows_next hk fuel hg).mono (fun more g₁ hg₁ => ?_) fun _ _ he => he
    rw [follows_bind]
    refine Pool.follows_self ?_
    rw [follows_pure]
    cases more with
    | false => exact hg₁
    | true => exact (follows_collect hk n hg₁).bind (fun _ _ h => h) fun _ _ he => he

theorem follows_owning_collect (hk : ∀ k ∈ limit, gs.length < k) (n : Nat) {it : IndexIterator}
    (hit : it.held = false) : KeepsGuards limit (Pool.owning it (collect fuel n) destroy) gs := by
  refine Pool.follows_owning (I := Holds gs) (follows_collect hk n ?_) fun g' it' hI => ?_
  · unfold Holds
    rw [hit]
    rfl
  · unfold Holds at hI
    unfold destroy
    rw [follows_ite]
    refine ⟨fun hh => ?_, fun hh => ?_⟩
    · rw [if_pos hh] at hI
      dsimp only at hI
      rw [hI]
      refine Pool.follows_dropGuard List.mem_cons_self ?_
      rw [List.erase_cons_head]
    · rw [if_neg hh] at hI
      exact hI

end Discipline
end IndexIterator.Code

namespace BPlusTree.Code
variable {limit : Option Nat} {gs : List Guard} {t : BPlusTree} {lo hi : Key}

@[simp] theorem run_scan (env : PoolEnv) (t : BPlusTree) (lo hi : Key) :
    (scan t lo hi).run (PageStore.answer env) = BPlusTree.scan env t lo hi := by
  simp [scan, BPlusTree.scan]

theorem follows_scan (hk : ∀ k ∈ limit, gs.length < k) :
    (scan t lo hi).Follows (guardProtocol limit) (fun it g' => g' = gs ∧ it.held = false) (fun _ g' => g' = gs) gs := by
  refine Pool.follows_inScope ((follows_findLeafRead hk).bind (fun leaf g' hg' => ?_)
    fun _ _ he => ⟨he ▸ List.suffix_rfl, rfl⟩)
  subst hg'
  rw [follows_bind]
  refine follows_asLeaf List.mem_cons_self (fun b => ?_) fun _ => ⟨List.suffix_cons _ _, rfl⟩
  rw [follows_bind, follows_lift]
  exact fun i _ => ⟨List.suffix_cons _ _, rfl, rfl⟩

/-- A range scan takes one guard at a time and leaves none. -/
theorem follows_scanAll (hk : ∀ k ∈ limit, gs.length < k) (fuel n : Nat) :
    KeepsGuards limit (scanAll fuel n t lo hi) gs := by
  refine (follows_scan hk).bind (fun it g' h => ?_) fun _ _ he => he
  obtain ⟨rfl, hit⟩ := h
  exact IndexIterator.Code.follows_owning_collect hk n hit

end BPlusTree.Code
end KernSql

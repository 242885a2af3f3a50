import KernSql.Engine.Restart

/- Frame budgets.

   How many frames an operation needs is what its code pins at once, not what the
   tree or the table holds: with that many, an idle pool on a disk that does not
   fail refuses it nothing. An insertion may pin the header and the path, a new page
   for each level, and a new root; a deletion the path and a sibling for each level;
   a reader one page at a time. -/
namespace KernSql
open Exec BufferPool

namespace BPlusTree
open Prog
variable {cfg : PoolConfig} {b : BufferPool} {t : BPlusTree} {T : Σ n, KTree n}

/-- Of a tree of height `h`, `2h + 2` frames for an insertion, `2h` for a deletion and one for a reader are enough:
the pool never says that it is full, and every frame is unpinned again. -/
theorem frame_budget_suffices (herr : ∀ i, cfg.ioError i = none) (hinv : b.Inv keepsTypes []) (hrest : b.AtRest)
    (hT : TreeAt t b.view T) :
    (∀ op : Op, op.frames T.1 ≤ b.capacity → (Code.perform t op).Avoids (answer cfg) (Outside cfg) b →
      ∃ a b' T', (Code.perform t op).run (answer cfg) b = some (a, b') ∧ b'.AtRest ∧ TreeAt t b'.view T' ∧
        (a, contents T'.2.toList) = mapPerform (contents T.2.toList) op) ∧
    ∀ fuel lo hi, 2 ^ 64 < fuel → 1 ≤ b.capacity → (Code.scanAll fuel fuel t lo hi).Avoids (answer cfg) (Outside cfg) b →
      ∃ es b', (Code.scanAll fuel fuel t lo hi).run (answer cfg) b = some (.ok es, b') ∧ b'.AtRest ∧ b'.view = b.view ∧
        Interval (contents T.2.toList) lo hi es := by
  have hrel := reliable_of_no_error herr
  have hm := Engine.mirrors_seen hinv hrest.1
  constructor
  · intro op hroom hav
    have hspec := hm.wp_reliable hrel (Code.follows_perform t op) hav
      (A := fun a s' => ∃ T', TreeAt t s'.pages T' ∧ (.ok a, contents T'.2.toList) = mapPerform (contents T.2.toList) op)
      (B := fun e s' => ∃ T', TreeAt t s'.pages T' ∧ (.error e, contents T'.2.toList) = mapPerform (contents T.2.toList) op)
      fun env hlaw => by
        have hperform := wp_perform_moves (s := Engine.seen b) hlaw rfl hT op
        rw [wp_attempt] at hperform
        rw [Code.run_perform]
        refine wp_mono hperform (fun a s' h => ?_) fun e s' h => ?_
        · obtain ⟨T', hT', -, hmap | ⟨-, e, he, -⟩⟩ := h
          · exact ⟨T', hT', hmap⟩
          · cases he
        · obtain ⟨T', hT', -, hmap | ⟨-, e', he, hcause⟩⟩ := h
          · exact .inl ⟨T', hT', hmap⟩
          · cases he
            exact .inr (hcause.mono hroom)
    rcases wp_run hspec with ⟨a, b', hrun, s', hm', ⟨T', hT', hmap⟩, hg⟩ | ⟨e, b', hrun, s', hm', ⟨T', hT', hmap⟩, hg⟩
    · exact ⟨.ok a, b', T', hrun, hm'.atRest hg, hm'.pages ▸ hT', hmap⟩
    · exact ⟨.error e, b', T', hrun, hm'.atRest hg, hm'.pages ▸ hT', hmap⟩
  · intro fuel lo hi hfuel hroom hav
    have hspec := hm.wp_reliable hrel (Code.follows_scanAll (by simp) fuel fuel) hav
      (A := fun es s' => Interval (contents T.2.toList) lo hi es ∧ s'.pages = b.view) (B := fun _ _ => False)
      fun env _ => wp_mono (wp_scanAll (s := Engine.seen b) (Nat.lt_trans (by decide) hfuel) hfuel rfl hT) (fun _ _ h => h)
        fun _ _ h => .inr (h.2.mono hroom)
    rcases wp_run hspec with ⟨es, b', hrun, s', hm', ⟨hint, hpages⟩, hg⟩ | ⟨_, _, _, _, _, hf, _⟩
    · exact ⟨es, b', hrun, hm'.atRest hg, hm'.pages.trans hpages, hint⟩
    · exact hf.elim

end BPlusTree

namespace Engine
open Prog

/-- An index of fanout three, filled until its only leaf is full. -/
def fullLeaf : List Action :=
  [.request (.createIndex 3 3), .request (.index 0 (.insert 1 ⟨7, 1⟩)), .request (.index 0 (.insert 2 ⟨7, 2⟩)),
    .request (.index 0 (.insert 3 ⟨7, 3⟩))]

/-- One index of one level, on which the pool's contract covers the operation. -/
def covers (cfg : PoolConfig) (op : BPlusTree.Op) (st : State) : Bool :=
  match st.2 with
  | [.index t] => (BPlusTree.Code.perform t op).avoids (answer cfg) (Outside cfg) st.1 &&
      (st.1.view t.headerPageId).any fun pg => (IndexHeader.readFrom pg.body).height = 1
  | _ => false

theorem of_covers {cfg : PoolConfig} {op : BPlusTree.Op} {n : Nat} {st : State} {vs : List Value} (h : Holds n st vs)
    (hc : covers cfg op st = true) : ∃ t T, BPlusTree.TreeAt t st.1.view T ∧ T.1 = 0 ∧
      (BPlusTree.Code.perform t op).Avoids (answer cfg) (Outside cfg) st.1 := by
  unfold covers at hc
  split at hc
  · next t ht =>
    rw [Bool.and_eq_true, Option.any_eq_true] at hc
    obtain ⟨hav, pg, hpg, hheight⟩ := hc
    obtain ⟨T, hT⟩ := h.trees t (ht ▸ List.mem_cons_self)
    obtain ⟨pg', hpg', -, hheader⟩ := hT.header
    cases hpg.symm.trans hpg'
    have := of_decide_eq_true hheight
    rw [hheader] at this
    exact ⟨t, T, hT, Nat.succ.inj this, .of_avoids hav⟩
  · cases hc

/-- A split of the root in a pool of four frames. -/
theorem frame_budget_suffices_demo : ∃ d as st t T a b' T',
    DiskManager.open_ tinyPool.disk DiskManager.missing = some (.ok (), d) ∧
    Refine.run (act tinyPool ⟨true, Bytes.Region.zero⟩ (2 ^ 64 + 1)) fullLeaf (new d 4, []) = some (.ok as, st) ∧
    BPlusTree.TreeAt t st.1.view T ∧
    (BPlusTree.Code.perform t (.insert 4 ⟨7, 4⟩)).run (answer tinyPool) st.1 = some (a, b') ∧ b'.AtRest ∧
    BPlusTree.TreeAt t b'.view T' ∧
    (a, BPlusTree.contents T'.2.toList) = BPlusTree.mapPerform (BPlusTree.contents T.2.toList) (.insert 4 ⟨7, 4⟩) := by
  have hlegal : endsFromNew tinyPool (act tinyPool ⟨true, Bytes.Region.zero⟩ (2 ^ 64 + 1))
      (actionFirst tinyPool ⟨true, Bytes.Region.zero⟩ (2 ^ 64 + 1)) 4 [] fullLeaf
      (fun st => covers tinyPool (.insert 4 ⟨7, 4⟩) st && st.1.capacity == 4) = true := by decide +kernel
  obtain ⟨d, r, st, hopen, hkept, hrun, hgood⟩ := of_endsFromNew hlegal
  have hno : ∀ i, tinyPool.ioError i = none := fun _ => rfl
  obtain ⟨as, st', m, hrun', hup, -⟩ := (simulates_actions (Nat.lt_succ_self _) (reliable_of_no_error hno)).run
    (hkept.imp fun _ _ => actionLegal_of_first) (up_new (opened_new hopen) (by decide))
  cases hrun.symm.trans hrun'
  obtain ⟨hcovers, hcap⟩ := Bool.and_eq_true_iff.mp hgood
  obtain ⟨t, T, hT, hheight, hav⟩ := of_covers hup.holds hcovers
  have hroom : (BPlusTree.Op.insert 4 ⟨7, 4⟩).frames T.1 ≤ st.1.capacity := by
    rw [hheight, eq_of_beq hcap]
    decide
  obtain ⟨a, b', T', h⟩ := (BPlusTree.frame_budget_suffices hno hup.holds.inv
    (hup.holds.inv.atRest hup.holds.idle) hT).1 _ hroom hav
  exact ⟨d, as, st, t, T, a, b', T', hopen, hrun, hT, h⟩

end Engine
end KernSql

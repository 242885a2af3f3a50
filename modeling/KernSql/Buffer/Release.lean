import KernSql.Buffer.BadFetch

/- Debug and release builds of the pool.

   A release build differs from a debug build in its assertions only, so where the
   debug build comes to an end the release build ends the same way. -/
namespace KernSql
open Exec

/-- The same pool with the assertions compiled out. -/
def PoolConfig.release (cfg : PoolConfig) : PoolConfig := { cfg with debug := false }

namespace BufferPool
variable {cfg : PoolConfig} {b b' : BufferPool} {f : Nat} {p : PageId} {latch : Latch}

theorem asserts_release {c : Prop} [Decidable c] : Extends (asserts cfg c) (asserts cfg.release c) :=
  .check fun _ hf => by cases hf

theorem frameAt_release : Extends (frameAt cfg f) (frameAt cfg.release f) :=
  .bind (.refl _) fun _ => .bind asserts_release fun _ => .refl _

theorem unpinPage_release : Extends (unpinPage cfg f) (unpinPage cfg.release f) :=
  .bind frameAt_release fun _ => .bind asserts_release fun _ => .refl _

theorem flushFrame_release : Extends (flushFrame cfg f p) (flushFrame cfg.release f p) :=
  .bind frameAt_release fun _ => .ite (.refl _) (.refl _)

theorem reclaimDirty_release : Extends (reclaimDirty cfg f p) (reclaimDirty cfg.release f p) := by
  refine .bind flushFrame_release.attempt fun st => ?_
  cases st with
  | error e => exact .bind unpinPage_release fun _ => .refl _
  | ok _ =>
    refine .bind frameAt_release fun _ => .ite ?_ (.bind unpinPage_release fun _ => .refl _)
    exact .bind (.refl _) fun _ => .bind asserts_release fun _ => .refl _

theorem reclaimVictim_release : Extends (reclaimVictim cfg f) (reclaimVictim cfg.release f) := by
  refine .bind frameAt_release fun _ => .ite (.refl _) (.bind frameAt_release fun _ => .ite (.refl _) ?_)
  refine .bind (.refl _) fun _ => .bind asserts_release fun _ => .ite (.refl _) ?_
  exact .bind (.refl _) fun _ => reclaimDirty_release

theorem reclaimFrame_release : ∀ n, Extends (reclaimFrame cfg n) (reclaimFrame cfg.release n)
  | 0 => .refl _
  | n + 1 => by
    refine .bind (.refl _) fun victim => ?_
    cases victim with
    | none => exact .refl _
    | some v => exact .bind reclaimVictim_release fun _ => .ite (.refl _) (reclaimFrame_release n)

theorem acquireFrame_release : Extends (acquireFrame cfg) (acquireFrame cfg.release) := by
  refine .bind (.refl _) fun popped => ?_
  cases popped with
  | none => exact reclaimFrame_release _
  | some f => exact .refl _

theorem abandonLoad_release : Extends (abandonLoad cfg f p) (abandonLoad cfg.release f p) :=
  .bind (.refl _) fun _ => .bind (.refl _) fun _ => .bind frameAt_release fun _ => .bind asserts_release fun _ => .refl _

theorem load_release : Extends (load cfg f p) (load cfg.release f p) := by
  refine .bind (.refl _) fun _ => .bind (.refl _) fun _ => .bind (.refl _) fun r => ?_
  cases r with
  | error e => exact .bind abandonLoad_release fun _ => .refl _
  | ok pg => exact .bind (.refl _) fun _ => .ite (.bind abandonLoad_release fun _ => .refl _) (.refl _)

theorem hit_release : Extends (hit cfg f) (hit cfg.release f) := by
  refine .bind frameAt_release fun _ => .bind (.refl _) fun _ => .bind (.refl _) fun _ => .bind asserts_release fun _ => ?_
  exact .ite (.bind unpinPage_release fun _ => .refl _) (.refl _)

theorem fetchLoop_release : ∀ n, Extends (fetchLoop cfg p n) (fetchLoop cfg.release p n)
  | 0 => .refl _
  | n + 1 => by
    refine .bind (.refl _) fun b => ?_
    cases b.table p with
    | some f => exact hit_release
    | none =>
      refine .bind acquireFrame_release fun f => .bind (.refl _) fun b => ?_
      cases b.table p with
      | some _ => exact .bind (.refl _) fun _ => fetchLoop_release n
      | none => exact load_release

/-- A fetch the debug build comes back from ends the same way in the release build. -/
theorem fetchPage_release : Extends (fetchPage cfg latch p) (fetchPage cfg.release latch p) :=
  .bind (.ite (.refl _) (fetchLoop_release _)) fun _ => .refl _

theorem drop_release {g : Held} : Extends (drop cfg g) (drop cfg.release g) := by
  have hrest : ∀ u : Unit, Extends
      (do modify fun b => { b with held := b.held.erase g }; unpinPage cfg g.frame)
      (do modify fun b => { b with held := b.held.erase g }; unpinPage cfg.release g.frame) :=
    fun _ => .bind (.refl _) fun _ => unpinPage_release
  unfold drop
  exact .ite (.bind (.refl _) hrest) (hrest ())

end BufferPool
end KernSql

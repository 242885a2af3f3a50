import KernSql.Lib.Fixes
import KernSql.Buffer.PoolCalls

/- Only `Shutdown` shuts a pool down.

   Every other call leaves the flag as it is, whatever the state it is made in and
   however it ends. -/
namespace KernSql.BufferPool
open Exec

abbrev FixesFlag {α : Type} (m : BufferM α) : Prop := Fixes isShutdown m

section Parts
variable (cfg : PoolConfig) {α : Type}

theorem flag_asserts (c : Prop) [Decidable c] : FixesFlag (asserts cfg c) := fixes_check _

theorem flag_onDisk (m : DiskM α) : FixesFlag (onDisk m) := by
  intro b r b' h
  unfold onDisk at h
  split at h <;> cases h <;> rfl

theorem flag_handOn (r : Except Status α) : FixesFlag (handOn r) := by
  cases r with
  | ok a => exact fixes_pure a
  | error e => exact fixes_fail e

theorem flag_frameAt (f : Nat) : FixesFlag (frameAt cfg f) :=
  fixes_get.bind fun _ => (flag_asserts cfg _).bind fun _ => fixes_pure _

theorem flag_updateFrame (f : Nat) (change : Frame → Frame) : FixesFlag (updateFrame f change) :=
  fixes_modify fun _ => rfl

theorem flag_acquireLatch (latch : Latch) (f : Nat) : FixesFlag (acquireLatch latch f) :=
  fixes_get.bind fun _ => fixes_check _

theorem flag_recordAccess (f : Nat) : FixesFlag (recordAccess f) := fixes_modify fun _ => rfl

theorem flag_setEvictable (f : Nat) (evictable : Bool) : FixesFlag (setEvictable f evictable) :=
  fixes_modify fun _ => rfl

theorem flag_push (f : Nat) : FixesFlag (push f) := fixes_modify fun _ => rfl

theorem flag_tryPop : FixesFlag tryPop := by
  intro b r b' h
  unfold tryPop at h
  split at h <;> cases h <;> rfl

theorem flag_evict : FixesFlag evict := by
  intro b r b' h
  obtain ⟨x, -, he⟩ := Option.map_eq_some_iff.mp h
  cases he
  rfl

theorem flag_vacate (f : Nat) (p : PageId) : FixesFlag (vacate f p) :=
  .bind (fixes_modify fun _ => rfl) fun _ => flag_updateFrame f _

theorem flag_unpinPage (f : Nat) : FixesFlag (unpinPage cfg f) := by
  refine (flag_frameAt cfg f).bind fun fr => (flag_asserts cfg _).bind fun _ => (flag_updateFrame f _).bind fun _ => ?_
  exact (flag_setEvictable f true).ite (fixes_pure ())

theorem flag_flushFrame (f : Nat) (p : PageId) : FixesFlag (flushFrame cfg f p) := by
  refine (flag_frameAt cfg f).bind fun fr => (fixes_pure ()).ite ?_
  exact (flag_acquireLatch .read f).bind fun _ => (flag_onDisk _).bind fun _ => flag_updateFrame f _

end Parts

section Frames
variable (cfg : PoolConfig)

theorem flag_reclaimDirty (v : Nat) (peeked : PageId) : FixesFlag (reclaimDirty cfg v peeked) := by
  refine (flag_flushFrame cfg v peeked).attempt.bind fun st => ?_
  cases st with
  | error e => exact (flag_unpinPage cfg v).bind fun _ => fixes_fail e
  | ok u =>
    refine (flag_frameAt cfg v).bind fun fr => .ite ?_ ((flag_unpinPage cfg v).bind fun _ => fixes_pure _)
    refine fixes_get.bind fun b => (flag_asserts cfg _).bind fun _ => (flag_vacate v peeked).bind fun _ => ?_
    exact (flag_updateFrame v _).bind fun _ => fixes_pure true

theorem flag_reclaimVictim (v : Nat) : FixesFlag (reclaimVictim cfg v) := by
  refine (flag_frameAt cfg v).bind fun fr => (fixes_pure false).ite ?_
  refine (flag_frameAt cfg v).bind fun fr' => (fixes_pure false).ite ?_
  refine fixes_get.bind fun b => (flag_asserts cfg _).bind fun _ => .ite ?_ ?_
  · exact (flag_vacate v _).bind fun _ => fixes_pure true
  · exact (flag_updateFrame v _).bind fun _ => flag_reclaimDirty cfg v _

theorem flag_reclaimFrame (n : Nat) : FixesFlag (reclaimFrame cfg n) := by
  induction n with
  | zero => exact fixes_lift none
  | succ n ih =>
    refine flag_evict.bind fun victim => ?_
    cases victim with
    | none => exact fixes_fail _
    | some v => exact (flag_reclaimVictim cfg v).bind fun done => (fixes_pure v).ite ih

theorem flag_acquireFrame : FixesFlag (acquireFrame cfg) := by
  refine flag_tryPop.bind fun popped => ?_
  cases popped with
  | none => exact flag_reclaimFrame cfg _
  | some f => exact fixes_pure f

theorem flag_abandonLoad (f : Nat) (p : PageId) : FixesFlag (abandonLoad cfg f p) := by
  refine .bind (fixes_modify fun _ => rfl) fun _ => (flag_updateFrame f _).bind fun _ => ?_
  refine (flag_frameAt cfg f).bind fun fr => (flag_asserts cfg _).bind fun _ => (fixes_check _).bind fun _ => ?_
  exact (flag_updateFrame f _).bind fun _ => flag_push f

theorem flag_load (f : Nat) (p : PageId) : FixesFlag (load cfg f p) := by
  refine .bind (fixes_modify fun _ => rfl) fun _ => (flag_updateFrame f _).bind fun _ => ?_
  refine (flag_onDisk _).attempt.bind fun r => ?_
  cases r with
  | error e => exact (flag_abandonLoad cfg f p).bind fun _ => fixes_fail e
  | ok pg =>
    refine (flag_updateFrame f _).bind fun _ => .ite ?_ ?_
    · exact (flag_abandonLoad cfg f p).bind fun _ => fixes_fail _
    · exact (flag_updateFrame f _).bind fun _ => (flag_recordAccess f).bind fun _ => fixes_pure f

theorem flag_hit (f : Nat) : FixesFlag (hit cfg f) := by
  refine (flag_frameAt cfg f).bind fun fr => (flag_updateFrame f _).bind fun _ => (fixes_check _).bind fun _ => ?_
  refine (flag_asserts cfg _).bind fun _ => .ite ((flag_unpinPage cfg f).bind fun _ => fixes_fail _) ?_
  refine (flag_recordAccess f).bind fun _ => ?_
  exact .ite ((flag_setEvictable f false).bind fun _ => fixes_pure f) (fixes_pure f)

theorem flag_fetchLoop (p : PageId) (n : Nat) : FixesFlag (fetchLoop cfg p n) := by
  induction n with
  | zero => exact fixes_lift none
  | succ n ih =>
    refine fixes_get.bind fun b => ?_
    cases b.table p with
    | some f => exact flag_hit cfg f
    | none =>
      refine (flag_acquireFrame cfg).bind fun f => fixes_get.bind fun b' => ?_
      cases b'.table p with
      | some _ => exact (flag_push f).bind fun _ => ih
      | none => exact flag_load cfg f p

end Frames

section Calls
variable (cfg : PoolConfig)

theorem flag_fetchPage (latch : Latch) (p : PageId) : FixesFlag (fetchPage cfg latch p) := by
  refine Fixes.bind (.ite (fixes_fail _) (flag_fetchLoop cfg p _)) fun f => ?_
  exact (flag_acquireLatch latch f).bind fun _ => .bind (fixes_modify fun _ => rfl) fun _ => fixes_pure _

theorem flag_newPage : FixesFlag (newPage cfg) := by
  refine (flag_acquireFrame cfg).bind fun f => (flag_onDisk _).attempt.bind fun r => ?_
  cases r with
  | error e => exact (flag_push f).bind fun _ => fixes_fail e
  | ok p =>
    refine (flag_updateFrame f _).bind fun _ => (flag_updateFrame f _).bind fun _ => fixes_get.bind fun b => ?_
    refine (fixes_check _).bind fun _ => .bind (fixes_modify fun _ => rfl) fun _ => (flag_recordAccess f).bind fun _ => ?_
    exact (flag_acquireLatch .write f).bind fun _ => .bind (fixes_modify fun _ => rfl) fun _ => fixes_pure _

theorem flag_deletePage (p : PageId) : FixesFlag (deletePage cfg p) := by
  refine .ite (fixes_fail _) (fixes_get.bind fun b => ?_)
  cases b.table p with
  | none => exact flag_onDisk _
  | some f =>
    refine (flag_frameAt cfg f).bind fun fr => .ite (fixes_fail _) ?_
    refine (flag_asserts cfg _).bind fun _ => (flag_vacate f p).bind fun _ => (flag_setEvictable f false).bind fun _ => ?_
    exact (flag_onDisk _).attempt.bind fun st => (flag_push f).bind fun _ => flag_handOn st

theorem flag_drop (g : Held) : FixesFlag (drop cfg g) := by
  have hrest (_ : Unit) : FixesFlag (do
      modify fun b : BufferPool => { b with held := b.held.erase g }
      unpinPage cfg g.frame) := .bind (fixes_modify fun _ => rfl) fun _ => flag_unpinPage cfg g.frame
  exact .ite ((flag_updateFrame g.frame _).bind hrest) (hrest ())

theorem settle_flag {α : Type} {m : BufferM α} (hm : FixesFlag m) {b b' : BufferPool} {a : α}
    (h : settle (m b) = some (a, b')) : b'.isShutdown = b.isShutdown := by
  rcases hrun : m b with _ | ⟨_ | a₁, b₁⟩ <;> rw [hrun] at h <;> cases h
  exact hm b _ b' hrun

theorem dropNewest_flag (n : Nat) {b b' : BufferPool} (h : dropNewest cfg n b = some b') :
    b'.isShutdown = b.isShutdown := by
  induction n generalizing b with
  | zero =>
    cases h
    rfl
  | succ n ih =>
    unfold dropNewest at h
    cases hheld : b.held with
    | nil =>
      rw [hheld] at h
      cases h
      rfl
    | cons g gs =>
      rw [hheld] at h
      obtain ⟨x, hdrop, hrest⟩ := Option.bind_eq_some_iff.mp h
      exact (ih hrest).trans (settle_flag (flag_drop cfg g) hdrop)

theorem answer_flag (c : PoolCall) (b : BufferPool) (r : c.Reply) (b' : BufferPool) (h : answer cfg c b = some (r, b')) :
    b'.isShutdown = b.isShutdown := by
  cases c with
  | fetch latch p =>
    obtain ⟨x, hrun, he⟩ := Option.map_eq_some_iff.mp h
    cases he
    exact flag_fetchPage cfg latch p b _ _ hrun
  | new =>
    obtain ⟨x, hrun, he⟩ := Option.map_eq_some_iff.mp h
    cases he
    exact flag_newPage cfg b _ _ hrun
  | delete p => exact flag_deletePage cfg p b _ _ h
  | look p =>
    obtain ⟨g, -, hrun⟩ := Option.bind_eq_some_iff.mp h
    exact settle_flag (fixes_get.bind fun _ => fixes_pure _) hrun
  | edit p e =>
    obtain ⟨g, -, hrun⟩ := Option.bind_eq_some_iff.mp h
    exact settle_flag (flag_updateFrame _ _) hrun
  | drop p latch =>
    obtain ⟨g, -, hrun⟩ := Option.bind_eq_some_iff.mp h
    exact settle_flag (flag_drop cfg g) hrun
  | enter =>
    cases h
    rfl
  | leave saved =>
    obtain ⟨b₁, hrun, he⟩ := Option.map_eq_some_iff.mp h
    cases he
    exact dropNewest_flag cfg _ hrun

/-- A client of the pool cannot shut it down. -/
theorem fixesFlag_run {α : Type} (m : PoolProg α) : FixesFlag (m.run (answer cfg)) :=
  Prog.fixes_run (answer_flag cfg) m

end Calls
end KernSql.BufferPool

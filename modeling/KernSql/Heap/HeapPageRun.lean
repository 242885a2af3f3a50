import KernSql.Heap.HeapPageSpec
import KernSql.Lib.Refine

/- Every history of a heap page.

   `record` is what one operation and its answer say about the map from slots to
   bytes, and replaying a history from the empty map gives the map the page must
   show: the bytes last stored under a slot and not deleted since. A page after
   `Init` and any operations shows exactly that map, and its body is in order
   (`Sound`): the invariant carried along the run is that it stores a directory. -/
namespace KernSql
namespace HeapPage
open Bytes Directory Exec ConstHeapPage

inductive Op where
  | insert (tuple : List UInt8)
  | delete (slot : SlotId)
  | update (slot : SlotId) (tuple : List UInt8)
  | compact

inductive Answer where
  | slot (k : SlotId)
  | done
  | outcome (o : UpdateOutcome)
  deriving DecidableEq

def perform (build : Build) : Op → PageM Answer
  | .insert tuple => do let k ← insert build tuple; pure (.slot k)
  | .delete k => do delete build k; pure .done
  | .update k tuple => do let o ← update build k tuple; pure (.outcome o)
  | .compact => do compact build; pure .done

abbrev SlotMap := SlotId → Option (List UInt8)

/-- The map after an operation that gave this answer. -/
def record (m : SlotMap) : Op → Except Status Answer → SlotMap
  | .insert tuple, .ok (.slot k) => Function.update m k (some tuple)
  | .delete k, .ok _ => Function.update m k none
  | .update k tuple, .ok (.outcome .samePage) => Function.update m k (some tuple)
  | _, _ => m

/-- The slot an operation that gave this answer is about. -/
def Op.slot? : Op → Except Status Answer → Option SlotId
  | .insert _, .ok (.slot k) => some k
  | .delete k, _ => some k
  | .update k _, _ => some k
  | _, _ => none

/-- The call changed nothing: it failed, or the tuple does not fit. -/
def Unsuccessful : Except Status Answer → Prop
  | .error _ => True
  | .ok a => a = .outcome .doesNotFit

/-- What a body in order looks like, in the fields of its header and its slots. -/
structure Sound (b : Body) : Prop where
  /-- The slot array ends below the tuples. -/
  room : slotArrayEnd (header b).slotCount ≤ (header b).tupleDataStart
  disjoint : (slots b).Pairwise fun s t => s.isDead ∨ t.isDead ∨
    s.offset + s.length ≤ t.offset ∨ t.offset + t.length ≤ s.offset
  inside : ∀ s ∈ slots b, ¬s.isDead → (header b).tupleDataStart ≤ s.offset ∧ s.offset + s.length ≤ pageBodySize
  dead : ∀ s ∈ slots b, s.isDead → s = ⟨0, 0⟩
  liveCount : (header b).liveCount = (slots b).countP fun s => ¬s.isDead
  /-- Over the integers: no field has wrapped. -/
  accounting : (header b).tupleDataStart + (((slots b).filter fun s => ¬s.isDead).map (·.length)).sum +
    (header b).deadBytes = pageBodySize

/-- `Get` answers from the map `m`. -/
def Shows (build : Build) (b : Body) (m : SlotMap) : Prop := ∀ k, match m k with
  | some bytes => get build b k = some (.ok bytes)
  | none => ∃ e, get build b k = some (.error e) ∧ e.code = .notFound

variable {build : Build} {b : Body} {es : List Slot} {lo dead : Nat}

/-- Dead slots have no bytes, so the live lengths sum to the total. -/
theorem sum_live : ∀ (es : List Slot), (∀ e ∈ es, e.Within lo pageBodySize) →
    ((es.filter fun s => ¬s.isDead).map (·.length)).sum = total es
  | [], _ => rfl
  | e :: es, hw => by
    have ih := sum_live es fun x hx => hw x (List.mem_cons_of_mem _ hx)
    by_cases hn : e.IsNull
    · have hz : e.length = 0 := by rw [(hw e List.mem_cons_self).null hn]
      rw [List.filter_cons_of_neg (by simpa using (isDead_iff e).mpr hn), ih, total, hz, Nat.zero_add]
    · have hd : ¬Slot.isDead e = true := fun hd => hn ((isDead_iff e).mp hd)
      rw [List.filter_cons_of_pos (by simpa using hd), List.map_cons, List.sum_cons, ih, total]

theorem sound_of_stores (h : Stores b es lo dead) : Sound b := by
  have hslots := h.slots_eq
  have hheader := h.header
  refine ⟨?_, ?_, ?_, ?_, ?_, ?_⟩
  · rw [hheader]; exact h.room
  · rw [hslots]
    apply h.fills.apart.imp
    intro s t hst
    simpa only [isDead_iff, Extent.Apart, Extent.stop] using hst
  · rw [hslots, hheader]
    intro s hs hd
    exact ((h.fills.within s hs).live fun hn => hd ((isDead_iff s).mpr hn)).2
  · rw [hslots]
    intro s hs hd
    exact (h.fills.within s hs).null ((isDead_iff s).mp hd)
  · rw [hslots, hheader]
    simp only [live, ← isDead_iff]
  · rw [hslots, hheader, sum_live es h.fills.within]
    exact h.fills.sum

theorem shows_contents (h : Stores b es lo dead) : Shows build b (contents b) := by
  intro k
  have hget := h.get_eq build k
  rw [h.contents_eq k]
  cases hf : find b es k.toNat with
  | none => rw [hf] at hget; exact ⟨_, hget, rfl⟩
  | some bytes => rw [hf] at hget; exact hget

/-- One operation, whatever it answers. -/
theorem wp_perform (h : Stores b es lo dead) (op : Op) : wp (attempt (perform build op))
    (fun a b' => Valid b' ∧ contents b' = record (contents b) op a ∧
      (∀ t k, op = .insert t → a = .ok (.slot k) → contents b k = none) ∧ (Unsuccessful a → b' = b))
    (fun _ _ => False) b := by
  rw [wp_attempt]
  cases op with
  | insert t =>
    apply wp_call (wp_insert h t)
    · intro k b' hk
      obtain ⟨hv, hfree, hcont, -⟩ := hk
      refine ⟨hv, hcont, fun t' k' _ ha => ?_, fun hu => ?_⟩
      · cases ha; exact hfree
      · cases hu
    · intro e b' he
      obtain ⟨rfl, -⟩ := he
      exact ⟨⟨_, _, _, h⟩, rfl, fun _ _ _ ha => (by cases ha), fun _ => rfl⟩
  | delete k =>
    apply wp_call (wp_delete h k)
    · intro _ b' hk
      obtain ⟨hv, -, hcont⟩ := hk
      exact ⟨hv, hcont, fun _ _ hop => (by cases hop), fun hu => (by cases hu)⟩
    · intro e b' he
      obtain ⟨rfl, -⟩ := he
      exact ⟨⟨_, _, _, h⟩, rfl, fun _ _ hop => (by cases hop), fun _ => rfl⟩
  | update k t =>
    apply wp_call (wp_update h k t)
    · intro o b' hk
      obtain ⟨hv, -, -, -, hcase⟩ := hk
      cases hcase with
      | inl hsame =>
        obtain ⟨rfl, hcont⟩ := hsame
        exact ⟨hv, hcont, fun _ _ hop => (by cases hop), fun hu => (by cases hu)⟩
      | inr hnot =>
        obtain ⟨rfl, rfl⟩ := hnot
        exact ⟨hv, rfl, fun _ _ hop => (by cases hop), fun _ => rfl⟩
    · intro e b' he
      obtain ⟨rfl, -⟩ := he
      exact ⟨⟨_, _, _, h⟩, rfl, fun _ _ hop => (by cases hop), fun _ => rfl⟩
  | compact =>
    apply wp_call (wp_compact h)
    · intro _ b' hc
      obtain ⟨es', hst, -, hsame⟩ := hc
      refine ⟨⟨_, _, _, hst⟩, ?_, fun _ _ hop => (by cases hop), fun hu => (by cases hu)⟩
      funext k
      show contents b' k = contents b k
      rw [hst.contents_eq, h.contents_eq, hsame]
    · intro _ _ hf
      exact hf.elim

/-- A run from a page that stores a directory. -/
theorem simulates : Refine.Simulation (perform build) (fun m op a m' => m' = record m op a) (fun _ _ => True)
    (fun b m => Valid b ∧ contents b = m) (fun _ => 0) := by
  apply Refine.Simulation.of_wp
  intro b m op _ hR
  obtain ⟨⟨es, lo, dead, h⟩, rfl⟩ := hR
  apply wp_mono (wp_perform h op)
  · intro a b' hb'
    exact ⟨_, ⟨hb'.1, rfl⟩, Nat.le_refl _, fun _ => hb'.2.1⟩
  · intro _ _ hf
    exact hf

/-- What `Get` shows for a slot the operation is not about. -/
theorem record_other {m : SlotMap} {op : Op} {a : Except Status Answer} {k : SlotId} (h : op.slot? a ≠ some k) :
    record m op a k = m k := by
  unfold record
  split
  · exact Function.update_of_ne (fun he => h (by rw [he]; rfl)) _ _
  · exact Function.update_of_ne (fun he => h (by rw [he]; rfl)) _ _
  · exact Function.update_of_ne (fun he => h (by rw [he]; rfl)) _ _
  · rfl

theorem get_ok_iff (h : Stores b es lo dead) {k : SlotId} {bytes : List UInt8} :
    get build b k = some (.ok bytes) ↔ contents b k = some bytes := by
  rw [h.get_eq build k, h.contents_eq]
  cases find b es k.toNat with
  | none => simp
  | some bytes' => simp

/-- A slotted page is a partial map from slots to bytes. -/
theorem slotted_page_is_slot_map (build : Build) (b₀ : Body) (ops : List Op) :
    ∃ as b, (do init; Refine.run (perform build) ops : PageM _) b₀ = some (.ok as, b) ∧
      let m := Refine.replay record (fun _ => none) ops as
      Sound b ∧ Shows build b m ∧
      ∀ op, ∃ a b', perform build op b = some (a, b') ∧ Sound b' ∧ Shows build b' (record m op a) ∧
        (∀ t k, op = .insert t → a = .ok (.slot k) → m k = none) ∧
        (∀ k bytes, op.slot? a ≠ some k → (get build b' k = some (.ok bytes) ↔ get build b k = some (.ok bytes))) ∧
        (Unsuccessful a → b' = b) := by
  have hinit := stores_init b₀
  obtain ⟨as, b, m, hrun, ⟨⟨es, lo, dead, h⟩, hm⟩, -, hall⟩ :=
    simulates.run (.of_forall (fun _ _ _ => trivial : ∀ op ∈ ops, ∀ _, True)) ⟨⟨_, _, _, hinit⟩, contents_init b₀⟩
  have hreplay : m = Refine.replay record (fun _ => none) ops as := (hall rfl).replay_eq id
  refine ⟨as, b, hrun, ?_⟩
  intro m'
  have hm' : contents b = m' := hm.trans hreplay
  refine ⟨sound_of_stores h, hm' ▸ shows_contents h, fun op => ?_⟩
  have hperform : wp (attempt (perform build op)) _ _ b := wp_perform h op
  rcases wp_run hperform with ⟨a, b', hstep, hres⟩ | ⟨_, _, _, hf⟩
  · obtain ⟨⟨es', lo', dead', h'⟩, hcont, hfree, hsame⟩ := hres
    refine ⟨a, b', ?_, sound_of_stores h', ?_, ?_, ?_, hsame⟩
    · unfold attempt at hstep
      cases hp : perform build op b with
      | none => rw [hp] at hstep; cases hstep
      | some r => rw [hp] at hstep; cases hstep; rfl
    · rw [← hm', ← hcont]; exact shows_contents h'
    · rw [← hm']; exact hfree
    · intro k bytes hk
      rw [get_ok_iff h', get_ok_iff h, hcont, record_other hk]
  · exact hf.elim

end HeapPage
end KernSql

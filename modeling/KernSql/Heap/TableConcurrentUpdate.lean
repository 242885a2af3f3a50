import KernSql.Heap.TableConcurrentRun

/- Concurrent updates.

   `Update` of a row that has outgrown its page looks at the row, inserts the new
   copy and deletes the old one, and holds no guard in between. What it deletes is
   whatever has the old id by then. If nobody else deletes or updates a row that a
   relocation is at work on, that is the version it looked at, and then nothing is
   lost or doubled (`updates_lose_and_duplicate_nothing`). Without that, an
   acknowledged row can go with it, and two relocations of one row can both
   return OK and leave two rows (`updates_lose_and_duplicate`). -/
namespace KernSql.TableHeap.Concurrent

/-- What a caller has been promised: acknowledged versions that no later call has been made about. -/
def Event.promise : Event → RidMap → RidMap
  | .inserted r t, m => Function.update m r (some t)
  | .deleted r, m => Function.update m r none
  | .updated r t, m => Function.update m r (some t)
  | .examined r, m => Function.update m r none
  | .copied _ _ _ _, m => m
  | .relocated _ new t _ _, m => Function.update m new (some t)
  | .stranded _ _ _, m => m

def promised (start : RidMap) (history : List Event) : RidMap := history.foldr Event.promise start

/-- The row a relocation has looked at. -/
def Purpose.worksOn : Purpose → List RID
  | .insert => []
  | .relocate old _ => [old]

/-- The record ids a relocation is at work on: the row it has looked at, and the copy it has put in. -/
def Activity.worksOn : Activity → List RID
  | .loadHint why _ | .probe why _ _ _ _ | .loadLast why _ | .append why _ _ => why.worksOn
  | .remove old new _ _ => [old, new]
  | .returned _ => []

/-- Nobody deletes or updates a row that a relocation is at work on. -/
def Undisturbed (s : System) : Choice → Prop
  | .call (.insert _) => True
  | .call (.delete rid) | .call (.update rid _) => Addresses s.shared rid ∧ ∀ a ∈ s.acts, rid ∉ a.worksOn
  | .run _ => True

theorem Undisturbed.legal {s : System} {ch : Choice} (h : Undisturbed s ch) : Legal s ch := by
  cases ch with
  | run i => trivial
  | call c =>
    cases c with
    | insert t => trivial
    | delete rid => exact h.1
    | update rid t => exact h.1

/-- The row a record id holds after a history. -/
def row (start : RidMap) (history : List Event) (r : RID) : Option Origin := (tags start history r).map Tag.row

/-- An update of the row is not through yet, or came back with an error. -/
def Unsettled (acts : List Activity) (history : List Event) (row : Origin) : Prop :=
  (∃ old new t found, .remove old new t found ∈ acts ∧ found.map Tag.row = some row) ∨
    ∃ old new found, .stranded old new found ∈ history ∧ found.map Tag.row = some row

/-! What the history says of every record id. -/

/-- The rows, their tags, and what has been promised of them. -/
structure View where
  rows : RidMap
  tags : RID → Option Tag
  promised : RidMap

def view (start : RidMap) (h : List Event) : View := ⟨written start h, tags start h, promised start h⟩

namespace View

/-- The two views are the same at `r`. -/
structure Same (v v' : View) (r : RID) : Prop where
  rows : v'.rows r = v.rows r
  tags : v'.tags r = v.tags r
  promised : v'.promised r = v.promised r

theorem Same.refl (v : View) (r : RID) : Same v v r := ⟨rfl, rfl, rfl⟩

/-- The row a relocation has looked at is still the version it found. -/
structure Holds (v : View) (old : RID) (found : Option Tag) : Prop where
  tags : v.tags old = found
  some : found ≠ none
  promised : v.promised old = none

/-- The copy a relocation has put in is there, a version of the row it found. -/
structure Copied (v : View) (new : RID) (t : List UInt8) (found : Option Tag) : Prop where
  rows : v.rows new = some t
  row : (v.tags new).map Tag.row = found.map Tag.row

theorem Holds.same {v v' : View} {old : RID} {found : Option Tag} (h : Holds v old found) (hs : Same v v' old) :
    Holds v' old found := ⟨hs.tags.trans h.tags, h.some, hs.promised.trans h.promised⟩

theorem Copied.same {v v' : View} {new : RID} {t : List UInt8} {found : Option Tag} (h : Copied v new t found)
    (hs : Same v v' new) : Copied v' new t found := ⟨hs.rows.trans h.rows, by rw [hs.tags]; exact h.row⟩

end View

/-- The event changes nothing at `r`. -/
def Event.Spares (r : RID) : Event → Prop
  | .inserted q _ | .deleted q | .updated q _ | .examined q => r ≠ q
  | .copied _ new _ _ => r ≠ new
  | .relocated old new _ _ _ => r ≠ old ∧ r ≠ new
  | .stranded _ _ _ => True

theorem view_spares {start : RidMap} {h : List Event} {e : Event} {r : RID} (he : e.Spares r) :
    View.Same (view start h) (view start (e :: h)) r := by
  cases e with
  | inserted q t =>
    exact ⟨Function.update_of_ne he _ _, Function.update_of_ne he _ _, Function.update_of_ne he _ _⟩
  | deleted q => exact ⟨Function.update_of_ne he _ _, Function.update_of_ne he _ _, Function.update_of_ne he _ _⟩
  | updated q t =>
    exact ⟨Function.update_of_ne he _ _, Function.update_of_ne he _ _, Function.update_of_ne he _ _⟩
  | examined q => exact ⟨rfl, rfl, Function.update_of_ne he _ _⟩
  | copied old new t found => exact ⟨Function.update_of_ne he _ _, Function.update_of_ne he _ _, rfl⟩
  | relocated old new t found removed =>
    cases removed with
    | true => exact ⟨Function.update_of_ne he.1 _ _, Function.update_of_ne he.1 _ _, Function.update_of_ne he.2 _ _⟩
    | false => exact ⟨rfl, rfl, Function.update_of_ne he.2 _ _⟩
  | stranded old new found => exact ⟨rfl, rfl, rfl⟩

/-- What a call in the middle of a relocation can rely on. -/
def Activity.Found (v : View) (a : Activity) : Prop :=
  (∀ old found t, a.inserting = some (.relocate old found, t) → v.Holds old found) ∧
    ∀ old new t found, a = .remove old new t found → v.Holds old found ∧ v.Copied new t found

theorem worksOn_inserting {a : Activity} {why : Purpose} {t : List UInt8} (h : a.inserting = some (why, t)) :
    a.worksOn = why.worksOn := by
  cases a with
  | remove old new t found => cases h
  | returned r => cases h
  | _ =>
    cases h
    rfl

theorem Activity.Found.same {v v' : View} {a : Activity} (h : a.Found v) (hs : ∀ r ∈ a.worksOn, View.Same v v' r) :
    a.Found v' := by
  refine ⟨fun old found t ha => (h.1 old found t ha).same (hs old ?_), fun old new t found ha => ?_⟩
  · rw [worksOn_inserting ha]
    exact .head _
  · subst ha
    obtain ⟨hold, hnew⟩ := h.2 old new t found rfl
    exact ⟨hold.same (hs old (.head _)), hnew.same (hs new (.tail _ (.head _)))⟩

/-! What each event does to the rows. -/

section Rows
variable {start : RidMap} {h : List Event}

theorem row_inserted (r : RID) (t : List UInt8) :
    row start (.inserted r t :: h) = Function.update (row start h) r (some (.event h.length)) :=
  Function.comp_update (Option.map Tag.row) (tags start h) r _

theorem row_deleted (r : RID) : row start (.deleted r :: h) = Function.update (row start h) r none :=
  Function.comp_update (Option.map Tag.row) (tags start h) r _

theorem row_updated (r : RID) (t : List UInt8) : row start (.updated r t :: h) = row start h := by
  funext q
  show (Function.update (tags start h) r _ q).map Tag.row = _
  by_cases hq : q = r
  · rw [hq, Function.update_self, Option.map_map]
    rfl
  · rw [Function.update_of_ne hq]
    rfl

theorem row_copied (old new : RID) (t : List UInt8) (tag : Tag) :
    row start (.copied old new t (some tag) :: h) = Function.update (row start h) new (some tag.row) :=
  Function.comp_update (Option.map Tag.row) (tags start h) new _

theorem row_removed (old new : RID) (t : List UInt8) (found : Option Tag) :
    row start (.relocated old new t found true :: h) = Function.update (row start h) old none :=
  Function.comp_update (Option.map Tag.row) (tags start h) old _

end Rows

/-- What holds of a history in which relocations were not disturbed. -/
structure Kept (start : RidMap) (h : List Event) : Prop where
  /-- Every row has a tag, and nothing else has. -/
  bound : ∀ r, row start h r = none ↔ written start h r = none
  /-- The rows of the history are older than its end. -/
  older : ∀ r n, row start h r = some (.event n) → n < h.length
  promises : ∀ r t, promised start h r = some t → written start h r = some t
  exact : ∀ later old new t found earlier, h = later ++ .relocated old new t found true :: earlier →
    tags start earlier old = found

namespace Kept
variable {start : RidMap} {h : List Event}

/-- A history one event longer: nothing was removed by it, or what was found was. -/
theorem exact_cons {e : Event} (hk : Kept start h)
    (he : ∀ old new t found, e = .relocated old new t found true → tags start h old = found) :
    ∀ later old new t found earlier, e :: h = later ++ .relocated old new t found true :: earlier →
      tags start earlier old = found := by
  intro later old new t found earlier hsplit
  cases later with
  | nil =>
    obtain ⟨rfl, rfl⟩ := List.cons.inj hsplit
    exact he old new t found rfl
  | cons e' later => exact hk.exact later old new t found earlier (List.cons.inj hsplit).2

/-- One id bound or freed. -/
theorem bound_update {r : RID} {w : Option Origin} {x : Option (List UInt8)} (hk : Kept start h)
    (hw : w = none ↔ x = none) (q : RID) :
    Function.update (row start h) r w q = none ↔ Function.update (written start h) r x q = none := by
  by_cases hq : q = r
  · rw [hq, Function.update_self, Function.update_self]
    exact hw
  · rw [Function.update_of_ne hq, Function.update_of_ne hq]
    exact hk.bound q

theorem older_update {r : RID} {w : Option Origin} (hk : Kept start h) (hw : ∀ n, w = some (.event n) → n ≤ h.length)
    (q : RID) (n : Nat) (hq : Function.update (row start h) r w q = some (.event n)) : n < h.length + 1 := by
  by_cases hqr : q = r
  · rw [hqr, Function.update_self] at hq
    exact Nat.lt_succ_of_le (hw n hq)
  · rw [Function.update_of_ne hqr] at hq
    exact Nat.lt_succ_of_lt (hk.older q n hq)

/-- The promise at one id changed along with its row. -/
theorem promises_update {r : RID} {x : Option (List UInt8)} (hk : Kept start h) (q : RID) (t : List UInt8)
    (hq : Function.update (promised start h) r x q = some t) : Function.update (written start h) r x q = some t := by
  by_cases hqr : q = r
  · rw [hqr, Function.update_self] at hq ⊢
    exact hq
  · rw [Function.update_of_ne hqr] at hq ⊢
    exact hk.promises q t hq

theorem promised_none {r : RID} (hk : Kept start h) (hr : written start h r = none) : promised start h r = none := by
  cases hp : promised start h r with
  | none => rfl
  | some t =>
    rw [hk.promises r t hp] at hr
    cases hr

theorem inserted {r : RID} {t : List UInt8} (hk : Kept start h) : Kept start (.inserted r t :: h) where
  bound := by
    rw [row_inserted]
    exact hk.bound_update (by simp)
  older := by
    rw [row_inserted]
    exact hk.older_update fun n hn => by cases hn; exact le_rfl
  promises := hk.promises_update
  exact := hk.exact_cons nofun

theorem deleted {r : RID} (hk : Kept start h) : Kept start (.deleted r :: h) where
  bound := by
    rw [row_deleted]
    exact hk.bound_update (by simp)
  older := by
    rw [row_deleted]
    exact hk.older_update nofun
  promises := hk.promises_update
  exact := hk.exact_cons nofun

theorem updated {r : RID} {t : List UInt8} (hk : Kept start h) (hr : written start h r ≠ none) :
    Kept start (.updated r t :: h) where
  bound q := by
    rw [row_updated]
    show row start h q = none ↔ Function.update (written start h) r (some t) q = none
    by_cases hq : q = r
    · rw [hq, Function.update_self]
      exact iff_of_false (mt (hk.bound r).mp hr) (by simp)
    · rw [Function.update_of_ne hq]
      exact hk.bound q
  older q n hq := by
    rw [row_updated] at hq
    exact Nat.lt_succ_of_lt (hk.older q n hq)
  promises := hk.promises_update
  exact := hk.exact_cons nofun

theorem examined {r : RID} (hk : Kept start h) : Kept start (.examined r :: h) where
  bound := hk.bound
  older q n hq := Nat.lt_succ_of_lt (hk.older q n hq)
  promises q t hq := by
    by_cases hqr : q = r
    · have hnone : promised start (.examined r :: h) q = none := by
        rw [hqr]
        exact Function.update_self _ _ _
      rw [hnone] at hq
      cases hq
    · exact hk.promises q t ((Function.update_of_ne hqr _ _).symm.trans hq)
  exact := hk.exact_cons nofun

theorem copied {old new : RID} {t : List UInt8} {tag : Tag} (hk : Kept start h) (hnew : written start h new = none)
    (hold : tags start h old = some tag) : Kept start (.copied old new t (some tag) :: h) where
  bound := by
    rw [row_copied]
    exact hk.bound_update (by simp)
  older := by
    rw [row_copied]
    refine hk.older_update fun n hn => Nat.le_of_lt (hk.older old n ?_)
    rw [row, hold]
    exact hn
  promises q x hq := by
    have hne : q ≠ new := by
      intro he
      have := hk.promises q x hq
      rw [he, hnew] at this
      cases this
    exact (Function.update_of_ne hne _ _).trans (hk.promises q x hq)
  exact := hk.exact_cons nofun

theorem removed {old new : RID} {t : List UInt8} {found : Option Tag} (hk : Kept start h)
    (hold : (view start h).Holds old found) (hnew : written start h new = some t) (hne : old ≠ new) :
    Kept start (.relocated old new t found true :: h) where
  bound := by
    rw [row_removed]
    exact hk.bound_update (by simp)
  older := by
    rw [row_removed]
    exact hk.older_update nofun
  promises q x hq := by
    by_cases hqn : q = new
    · subst hqn
      have hself : promised start (.relocated old q t found true :: h) q = some t := by
        show Function.update (promised start h) q (some t) q = some t
        rw [Function.update_self]
      exact (Function.update_of_ne hne.symm _ _).trans (hnew.trans (hself.symm.trans hq))
    · have hq' : promised start h q = some x := (Function.update_of_ne hqn _ _).symm.trans hq
      have hqo : q ≠ old := by
        intro he
        rw [he, show promised start h old = none from hold.promised] at hq'
        cases hq'
      exact (Function.update_of_ne hqo _ _).trans (hk.promises q x hq')
  exact := hk.exact_cons fun _ _ _ _ he => by cases he; exact hold.tags

theorem stranded {old new : RID} {found : Option Tag} (hk : Kept start h) : Kept start (.stranded old new found :: h) where
  bound := hk.bound
  older q n hq := Nat.lt_succ_of_lt (hk.older q n hq)
  promises := hk.promises
  exact := hk.exact_cons nofun

end Kept

/-- Both ids hold row `w`: a relocation is between its copy and its delete, or one has failed there. -/
def Doubled (acts : List Activity) (h : List Event) (w : Origin) (r₁ r₂ : RID) : Prop :=
  (∃ old new t found, .remove old new t found ∈ acts ∧ (r₁ = old ∧ r₂ = new ∨ r₁ = new ∧ r₂ = old)) ∨
    ∃ old new found, .stranded old new found ∈ h ∧ found.map Tag.row = some w

/-- The invariant of runs in which relocations are not disturbed. -/
structure Serial (start : RidMap) (acts : List Activity) (h : List Event) : Prop where
  kept : Kept start h
  /-- No two relocations are at work on one id. -/
  apart : (acts.flatMap Activity.worksOn).Nodup
  found : ∀ a ∈ acts, a.Found (view start h)
  single : ∀ r₁ r₂ w, row start h r₁ = some w → row start h r₂ = some w → r₁ ≠ r₂ → Doubled acts h w r₁ r₂

section Serial
variable {start : RidMap} {acts acts' rest : List Activity} {h : List Event} {a a' : Activity} {e : Event}

theorem Doubled.perm {w : Origin} {r₁ r₂ : RID} (hd : Doubled acts h w r₁ r₂) (hp : acts.Perm acts') :
    Doubled acts' h w r₁ r₂ := by
  cases hd with
  | inl hr =>
    obtain ⟨old, new, t, found, hmem, hw⟩ := hr
    exact .inl ⟨old, new, t, found, hp.mem_iff.mp hmem, hw⟩
  | inr hs => exact .inr hs

theorem Serial.perm (hs : Serial start acts h) (hp : acts.Perm acts') : Serial start acts' h where
  kept := hs.kept
  apart := (hp.flatMap_right _).nodup_iff.mp hs.apart
  found a ha := hs.found a (hp.mem_iff.mpr ha)
  single r₁ r₂ w h₁ h₂ hne := (hs.single r₁ r₂ w h₁ h₂ hne).perm hp

/-- More calls, and more events. -/
theorem Doubled.mono {h' : List Event} {w : Origin} {r₁ r₂ : RID} (hd : Doubled acts h w r₁ r₂)
    (hacts : ∀ old new t found, .remove old new t found ∈ acts → .remove old new t found ∈ acts') (hsub : h ⊆ h') :
    Doubled acts' h' w r₁ r₂ := by
  cases hd with
  | inl hr =>
    obtain ⟨old, new, t, found, hmem, hw⟩ := hr
    exact .inl ⟨old, new, t, found, hacts old new t found hmem, hw⟩
  | inr hs =>
    obtain ⟨old, new, found, hmem, hw⟩ := hs
    exact .inr ⟨old, new, found, hsub hmem, hw⟩

/-- What a relocation works on is a row. -/
theorem Activity.Found.tagged (hf : a.Found (view start h)) {r : RID} (hr : r ∈ a.worksOn) : tags start h r ≠ none := by
  have hins : ∀ {why t}, a.inserting = some (why, t) → tags start h r ≠ none := by
    intro why t ha
    rw [worksOn_inserting ha] at hr
    cases why with
    | insert => cases hr
    | relocate old found =>
      have hold := hf.1 old found t ha
      rw [List.mem_singleton.mp hr, show tags start h old = found from hold.tags]
      exact hold.some
  cases a with
  | loadHint why t => exact hins rfl
  | probe why t left p fromHint => exact hins rfl
  | loadLast why t => exact hins rfl
  | append why t p => exact hins rfl
  | remove old new t found =>
    obtain ⟨hold, hnew⟩ := hf.2 old new t found rfl
    have hrow : found.map Tag.row ≠ none := by simpa using hold.some
    rcases List.mem_cons.mp hr with rfl | hr
    · rw [show tags start h r = found from hold.tags]
      exact hold.some
    · rw [List.mem_singleton.mp hr]
      intro hnone
      rw [← hnew.row, show (view start h).tags new = none from hnone] at hrow
      exact hrow rfl
  | returned r => cases hr

/-- A free id is not one that a relocation works on. -/
theorem Serial.not_worked (hs : Serial start acts h) {r : RID} (hr : written start h r = none) :
    ∀ a ∈ acts, r ∉ a.worksOn := by
  intro a ha hmem
  have hrow := (hs.kept.bound r).mpr hr
  exact (hs.found a ha).tagged hmem (Option.map_eq_none_iff.mp hrow)

/-- The other calls keep what they rely on when the event is not about their ids. -/
theorem found_spared (hf : ∀ b ∈ rest, b.Found (view start h)) (he : ∀ b ∈ rest, ∀ r ∈ b.worksOn, e.Spares r) :
    ∀ b ∈ rest, b.Found (view start (e :: h)) :=
  fun b hb => (hf b hb).same fun r hr => view_spares (he b hb r hr)

/-- A call that is no relocation, or none any more. -/
theorem found_idle {v : View} (ha : a.worksOn = []) : a.Found v := by
  refine ⟨fun old found t hins => ?_, fun old new t found hrem => ?_⟩
  · rw [worksOn_inserting hins] at ha
    cases ha
  · rw [hrem] at ha
    cases ha

/-- A call that works on nothing comes in, in the place of one that is no `Delete` of a relocation. -/
theorem Serial.idle (hs : Serial start (a :: rest) h) (ha' : a'.worksOn = [])
    (hno : ∀ old new t found, a ≠ .remove old new t found) : Serial start (a' :: rest) h where
  kept := hs.kept
  apart := by
    have := hs.apart
    rw [List.flatMap_cons] at this ⊢
    rw [ha']
    exact this.of_append_right
  found b hb := by
    cases hb with
    | head => exact found_idle ha'
    | tail _ hb => exact hs.found b (.tail _ hb)
  single r₁ r₂ w h₁ h₂ hne := by
    refine (hs.single r₁ r₂ w h₁ h₂ hne).mono (fun old new t found hmem => ?_) (List.Subset.refl h)
    cases hmem with
    | head => exact absurd rfl (hno old new t found)
    | tail _ hmem => exact .tail _ hmem

/-- A call joins that works on nothing. -/
theorem Serial.join (hs : Serial start acts h) (ha : a.worksOn = []) : Serial start (a :: acts) h where
  kept := hs.kept
  apart := by
    rw [List.flatMap_cons, ha]
    exact hs.apart
  found b hb := by
    cases hb with
    | head => exact found_idle ha
    | tail _ hb => exact hs.found b hb
  single r₁ r₂ w h₁ h₂ hne :=
    (hs.single r₁ r₂ w h₁ h₂ hne).mono (fun _ _ _ _ hmem => .tail _ hmem) (List.Subset.refl h)

/-- A step of a relocation's `Insert` that finds no room yet. -/
theorem Serial.search {why : Purpose} {t : List UInt8} (hs : Serial start (a :: rest) h)
    (ha : a.inserting = some (why, t)) (ha' : a'.inserting = some (why, t)) : Serial start (a' :: rest) h where
  kept := hs.kept
  apart := by
    have := hs.apart
    rw [List.flatMap_cons, worksOn_inserting ha] at this
    rw [List.flatMap_cons, worksOn_inserting ha']
    exact this
  found b hb := by
    cases hb with
    | head =>
      refine ⟨fun old found t' hins => (hs.found a (.head _)).1 old found t' (ha.trans (ha'.symm.trans hins)), ?_⟩
      intro old new t' found hrem
      rw [hrem] at ha'
      cases ha'
    | tail _ hb => exact hs.found b (.tail _ hb)
  single r₁ r₂ w h₁ h₂ hne := by
    refine (hs.single r₁ r₂ w h₁ h₂ hne).mono (fun old new t' found hmem => ?_) (List.Subset.refl h)
    cases hmem with
    | head => cases ha
    | tail _ hmem => exact .tail _ hmem

/-- An event that leaves every row where it is, or takes one away. -/
theorem Serial.event (hs : Serial start acts h) (hk : Kept start (e :: h))
    (he : ∀ a ∈ acts, ∀ r ∈ a.worksOn, e.Spares r)
    (hrow : ∀ r w, row start (e :: h) r = some w → row start h r = some w) : Serial start acts (e :: h) where
  kept := hk
  apart := hs.apart
  found := found_spared hs.found he
  single r₁ r₂ w h₁ h₂ hne :=
    (hs.single r₁ r₂ w (hrow r₁ w h₁) (hrow r₂ w h₂) hne).mono (fun _ _ _ _ hmem => hmem) (List.subset_cons_self e h)

theorem row_of_update_none {r : RID} (q : RID) (w : Origin)
    (hq : Function.update (row start h) r none q = some w) : row start h q = some w := by
  by_cases hqr : q = r
  · rw [hqr, Function.update_self] at hq
    cases hq
  · rwa [Function.update_of_ne hqr] at hq

theorem Serial.deleted {r : RID} (hs : Serial start acts h) (hr : ∀ a ∈ acts, r ∉ a.worksOn) :
    Serial start acts (.deleted r :: h) := by
  refine hs.event hs.kept.deleted (fun a ha q hq he => hr a ha (he ▸ hq)) fun q w hq => ?_
  rw [row_deleted] at hq
  exact row_of_update_none q w hq

theorem Serial.updated {r : RID} {t : List UInt8} (hs : Serial start acts h) (hr : ∀ a ∈ acts, r ∉ a.worksOn)
    (hM : written start h r ≠ none) : Serial start acts (.updated r t :: h) := by
  refine hs.event (hs.kept.updated hM) (fun a ha q hq he => hr a ha (he ▸ hq)) fun q w hq => ?_
  rwa [row_updated] at hq

/-- `Update` has looked at a row nobody else is at work on, and goes on to relocate it. -/
theorem Serial.examined {r : RID} {t : List UInt8} (hs : Serial start acts h) (hr : ∀ a ∈ acts, r ∉ a.worksOn)
    (hM : written start h r ≠ none) :
    Serial start (.loadHint (.relocate r (tags start h r)) t :: acts) (.examined r :: h) := by
  have hev : Serial start acts (.examined r :: h) :=
    hs.event hs.kept.examined (fun a ha q hq he => hr a ha (he ▸ hq)) fun _ _ hq => hq
  have htag : tags start h r ≠ none := fun hnone => hM ((hs.kept.bound r).mp (by rw [row, hnone]; rfl))
  refine ⟨hev.kept, ?_, fun b hb => ?_, fun r₁ r₂ w h₁ h₂ hne => ?_⟩
  · rw [List.flatMap_cons]
    refine List.nodup_cons.mpr ⟨fun hmem => ?_, hev.apart⟩
    obtain ⟨a, ha, hra⟩ := List.mem_flatMap.mp hmem
    exact hr a ha hra
  · cases hb with
    | head =>
      refine ⟨fun old found t' hins => ?_, nofun⟩
      cases hins
      refine ⟨rfl, htag, ?_⟩
      show Function.update (promised start h) r none r = none
      rw [Function.update_self]
    | tail _ hb => exact hev.found b hb
  · exact (hev.single r₁ r₂ w h₁ h₂ hne).mono (fun _ _ _ _ hmem => .tail _ hmem) (List.Subset.refl _)

/-- A new row at a free id. -/
theorem Serial.inserted {r : RID} {t : List UInt8} (hs : Serial start acts h) (hM : written start h r = none) :
    Serial start acts (.inserted r t :: h) := by
  have hfree := hs.not_worked hM
  have hold : ∀ q w, row start (.inserted r t :: h) q = some w → q ≠ r → row start h q = some w := by
    intro q w hq hqr
    rw [row_inserted, Function.update_of_ne hqr] at hq
    exact hq
  have hnew : ∀ w, row start (.inserted r t :: h) r = some w → w = .event h.length := by
    intro w hw
    rw [row_inserted, Function.update_self] at hw
    exact (Option.some.inj hw).symm
  -- The row is younger than every other.
  have hyoung : ∀ q, q ≠ r → row start (.inserted r t :: h) q ≠ some (.event h.length) :=
    fun q hqr hq => absurd (hs.kept.older q _ (hold q _ hq hqr)) (Nat.lt_irrefl _)
  refine ⟨hs.kept.inserted, hs.apart, found_spared hs.found fun a ha q hq he => hfree a ha (he ▸ hq), ?_⟩
  intro r₁ r₂ w h₁ h₂ hne
  by_cases hr₁ : r₁ = r
  · subst hr₁
    exact absurd (hnew w h₁ ▸ h₂) (hyoung r₂ hne.symm)
  · by_cases hr₂ : r₂ = r
    · subst hr₂
      exact absurd (hnew w h₂ ▸ h₁) (hyoung r₁ hne)
    · exact (hs.single r₁ r₂ w (hold r₁ w h₁ hr₁) (hold r₂ w h₂ hr₂) hne).mono (fun _ _ _ _ hmem => hmem)
        (List.subset_cons_self _ h)

/-- The copy of a relocation lands at a free id. -/
theorem Serial.copied {old new : RID} {t : List UInt8} {found : Option Tag} (hs : Serial start (a :: rest) h)
    (ha : a.inserting = some (.relocate old found, t)) (hM : written start h new = none) :
    Serial start (.remove old new t found :: rest) (.copied old new t found :: h) := by
  have hhold := (hs.found a (.head _)).1 old found t ha
  have hwork : a.worksOn = [old] := worksOn_inserting ha
  have hfree := hs.not_worked hM
  have hne : old ≠ new := by
    intro he
    exact hfree a (.head _) (by rw [hwork, he]; exact .head _)
  obtain ⟨tag, rfl⟩ := Option.ne_none_iff_exists'.mp hhold.some
  have htag : tags start h old = some tag := hhold.tags
  have hrow : row start (.copied old new t (some tag) :: h) = Function.update (row start h) new (some tag.row) :=
    row_copied old new t tag
  have hoff : ∀ q, q ≠ new → View.Same (view start h) (view start (.copied old new t (some tag) :: h)) q :=
    fun q hq => view_spares hq
  have hapart := hs.apart
  rw [List.flatMap_cons, hwork, List.singleton_append, List.nodup_cons] at hapart
  -- Nobody else is at work on the old row, so a third id holding it is one that a failed update left.
  have hthird : ∀ q, q ≠ old → row start h q = some tag.row →
      ∃ o n f, Event.stranded o n f ∈ h ∧ f.map Tag.row = some tag.row := by
    intro q hq hqrow
    have hold : row start h old = some tag.row := by rw [row, htag]; rfl
    cases hs.single old q tag.row hold hqrow hq.symm with
    | inr hst => exact hst
    | inl hrem =>
      obtain ⟨o, n, x, f, hmem, hpair⟩ := hrem
      have hin : old ∈ Activity.worksOn (.remove o n x f) := by
        rcases hpair with ⟨rfl, -⟩ | ⟨rfl, -⟩
        · exact .head _
        · exact .tail _ (.head _)
      cases hmem with
      | head => cases ha
      | tail _ hmem => exact absurd (List.mem_flatMap.mpr ⟨_, hmem, hin⟩) hapart.1
  have hsub : h ⊆ .copied old new t (some tag) :: h := List.subset_cons_self _ h
  refine ⟨hs.kept.copied hM htag, ?_, fun b hb => ?_, fun r₁ r₂ w h₁ h₂ hne' => ?_⟩
  · rw [List.flatMap_cons]
    refine List.nodup_cons.mpr ⟨fun hmem => ?_, List.nodup_cons.mpr ⟨fun hmem => ?_, hapart.2⟩⟩
    · cases hmem with
      | head => exact hne rfl
      | tail _ hmem => exact hapart.1 hmem
    · obtain ⟨b, hb, hin⟩ := List.mem_flatMap.mp hmem
      exact hfree b (.tail _ hb) hin
  · cases hb with
    | head =>
      refine ⟨nofun, fun o n x f he => ?_⟩
      cases he
      refine ⟨hhold.same (hoff old hne), ?_, ?_⟩
      · show Function.update (written start h) new (some t) new = some t
        rw [Function.update_self]
      · show row start (.copied old new t (some tag) :: h) new = some tag.row
        rw [hrow, Function.update_self]
    | tail _ hb =>
      exact (hs.found b (.tail _ hb)).same fun q hq => hoff q fun he => hfree b (.tail _ hb) (he ▸ hq)
  · rw [hrow] at h₁ h₂
    by_cases hr₁ : r₁ = new
    · subst hr₁
      rw [Function.update_self] at h₁
      rw [Function.update_of_ne hne'.symm] at h₂
      cases h₁
      by_cases hr₂ : r₂ = old
      · exact .inl ⟨old, r₁, t, some tag, .head _, .inr ⟨rfl, hr₂⟩⟩
      · obtain ⟨o, n, f, hmem, hf⟩ := hthird r₂ hr₂ h₂
        exact .inr ⟨o, n, f, hsub hmem, hf⟩
    · rw [Function.update_of_ne hr₁] at h₁
      by_cases hr₂ : r₂ = new
      · subst hr₂
        rw [Function.update_self] at h₂
        cases h₂
        by_cases hr₁' : r₁ = old
        · exact .inl ⟨old, r₂, t, some tag, .head _, .inl ⟨hr₁', rfl⟩⟩
        · obtain ⟨o, n, f, hmem, hf⟩ := hthird r₁ hr₁' h₁
          exact .inr ⟨o, n, f, hsub hmem, hf⟩
      · rw [Function.update_of_ne hr₂] at h₂
        refine (hs.single r₁ r₂ w h₁ h₂ hne').mono (fun o n x f hmem => ?_) hsub
        cases hmem with
        | head => cases ha
        | tail _ hmem => exact .tail _ hmem

/-- The `Delete` of a relocation removes what it had found. -/
theorem Serial.removed {old new : RID} {t : List UInt8} {found : Option Tag} {res : Except Status Answer}
    (hs : Serial start (.remove old new t found :: rest) h) :
    Serial start (.returned res :: rest) (.relocated old new t found true :: h) := by
  obtain ⟨hhold, hcopy⟩ := (hs.found _ (.head _)).2 old new t found rfl
  have hapart := hs.apart
  rw [List.flatMap_cons] at hapart
  obtain ⟨hold, hnew⟩ := List.nodup_cons.mp hapart
  obtain ⟨hnew, hrest⟩ := List.nodup_cons.mp hnew
  have hne : old ≠ new := fun he => hold (he ▸ .head _)
  have hspare : ∀ b ∈ rest, ∀ q ∈ b.worksOn, (Event.relocated old new t found true).Spares q := by
    intro b hb q hq
    have hmem : q ∈ rest.flatMap Activity.worksOn := List.mem_flatMap.mpr ⟨b, hb, hq⟩
    exact ⟨fun he => hold (.tail _ (he ▸ hmem)), fun he => hnew (he ▸ hmem)⟩
  refine ⟨hs.kept.removed hhold hcopy.rows hne, hrest, fun b hb => ?_, fun r₁ r₂ w h₁ h₂ hne' => ?_⟩
  · cases hb with
    | head => exact found_idle rfl
    | tail _ hb => exact found_spared (fun b hb => hs.found b (.tail _ hb)) hspare b hb
  · rw [row_removed] at h₁ h₂
    have hold₁ : r₁ ≠ old := by
      intro he
      rw [he, Function.update_self] at h₁
      cases h₁
    have hold₂ : r₂ ≠ old := by
      intro he
      rw [he, Function.update_self] at h₂
      cases h₂
    have hd := hs.single r₁ r₂ w (row_of_update_none r₁ w h₁) (row_of_update_none r₂ w h₂) hne'
    cases hd with
    | inr hst =>
      obtain ⟨o, n, f, hmem, hf⟩ := hst
      exact .inr ⟨o, n, f, .tail _ hmem, hf⟩
    | inl hrem =>
      obtain ⟨o, n, x, f, hmem, hpair⟩ := hrem
      cases hmem with
      | head =>
        rcases hpair with ⟨he, -⟩ | ⟨-, he⟩
        · exact absurd he hold₁
        · exact absurd he hold₂
      | tail _ hmem => exact .inl ⟨o, n, x, f, .tail _ hmem, hpair⟩

/-- The `Delete` of a relocation fails, and its `Update` with it. -/
theorem Serial.stranded {old new : RID} {t : List UInt8} {found : Option Tag} {res : Except Status Answer}
    (hs : Serial start (.remove old new t found :: rest) h) :
    Serial start (.returned res :: rest) (.stranded old new found :: h) := by
  obtain ⟨hhold, hcopy⟩ := (hs.found _ (.head _)).2 old new t found rfl
  have hapart := hs.apart
  rw [List.flatMap_cons] at hapart
  refine ⟨hs.kept.stranded, hapart.of_append_right, fun b hb => ?_, fun r₁ r₂ w h₁ h₂ hne => ?_⟩
  · cases hb with
    | head => exact found_idle rfl
    | tail _ hb => exact hs.found b (.tail _ hb)
  · cases hs.single r₁ r₂ w h₁ h₂ hne with
    | inr hst =>
      obtain ⟨o, n, f, hmem, hf⟩ := hst
      exact .inr ⟨o, n, f, .tail _ hmem, hf⟩
    | inl hrem =>
      obtain ⟨o, n, x, f, hmem, hpair⟩ := hrem
      cases hmem with
      | tail _ hmem => exact .inl ⟨o, n, x, f, .tail _ hmem, hpair⟩
      | head =>
        -- The row that is there twice is the one this update was about.
        have hrow : found.map Tag.row = some w := by
          rcases hpair with ⟨rfl, -⟩ | ⟨-, rfl⟩
          · rw [← show tags start h r₁ = found from hhold.tags]
            exact h₁
          · rw [← show tags start h r₂ = found from hhold.tags]
            exact h₂
        exact .inr ⟨old, new, found, .head _, hrow⟩

end Serial

/-! Whole runs. -/

section Runs
variable {env : PoolEnv} {build : Build} {st : PageStore × TableHeap} {ps : List PageId} {M : RidMap}
  {s s' : System} {ch : Choice}

theorem Serial.new (start : RidMap) : Serial start [] [] := by
  have hrow : ∀ r, row start [] r = (start r).map fun _ => .start r := by
    intro r
    simp [row, tags, Function.comp_def]
  refine ⟨⟨fun r => ?_, fun r n hr => ?_, fun _ _ hp => hp, ?_⟩, .nil, nofun, fun r₁ r₂ w h₁ h₂ hne => ?_⟩
  · rw [hrow, Option.map_eq_none_iff]
    rfl
  · rw [hrow] at hr
    obtain ⟨_, -, he⟩ := Option.map_eq_some_iff.mp hr
    cases he
  · intro later _ _ _ _ _ hsplit
    cases later <;> cases hsplit
  · rw [hrow] at h₁ h₂
    obtain ⟨_, -, rfl⟩ := Option.map_eq_some_iff.mp h₁
    obtain ⟨_, -, he⟩ := Option.map_eq_some_iff.mp h₂
    cases he
    exact absurd rfl hne

theorem Serial.taken (hcodes : ∀ e, env.Refuses e → e.code ≠ .notFound) (hs : Serial s.start s.acts s.history)
    (ht : Taken env s s' ch) (hch : Undisturbed s ch) : Serial s'.start s'.acts s'.history := by
  cases ht with
  | call henter hacts hhistory hstart =>
    rw [hhistory, hstart]
    refine Serial.perm ?_ hacts.symm
    cases henter with
    | insert ha => exact hs.join (worksOn_inserting ha)
    | refused c e => exact hs.join rfl
    | deleted hM => exact (hs.deleted hch.2).join rfl
    | updated hM => exact (hs.updated hch.2 hM).join rfl
    | examined hM => exact hs.examined hch.2 hM
  | run hm hacts hacts' hhistory hstart =>
    rw [hhistory, hstart]
    have hs := hs.perm hacts
    refine Serial.perm ?_ hacts'.symm
    cases hm with
    | search ha ha' => exact hs.search ha ha'
    | inserted ha hM => exact (hs.inserted hM).idle rfl fun _ _ _ _ he => by rw [he] at ha; cases ha
    | copied ha hM => exact hs.copied ha hM
    | failed ha e => exact hs.idle rfl fun _ _ _ _ he => by rw [he] at ha; cases ha
    | removed hM => exact hs.removed
    | missing hM =>
      -- The row is still there, and the pool does not answer `kNotFound`.
      obtain ⟨hhold, -⟩ := (hs.found _ (.head _)).2 _ _ _ _ rfl
      rcases hM with hM | ⟨e, he, hcode⟩
      · have hrow := (hs.kept.bound _).mpr hM
        exact absurd (hhold.tags.symm.trans (Option.map_eq_none_iff.mp hrow)) hhold.some
      · exact absurd hcode (hcodes e he)
    | stranded e => exact hs.stranded

/-- **Undisturbed updates lose and duplicate nothing.** In every interleaving in which nobody deletes or updates a row
    that a relocation is at work on: what a relocation deletes is the version it had looked at; a version acknowledged
    by `Insert` or `Update` is readable under its id until a `Delete` or `Update` of that id; and a row is at two ids
    only while an update of it is under way, or after one has returned an error. -/
theorem updates_lose_and_duplicate_nothing (hlaw : env.Lawful) (hcodes : ∀ e, env.Refuses e → e.code ≠ .notFound)
    (h₀ : Table st.1.pages st ps M)
    (h : Machine.Reaches (step env build) Undisturbed (System.new st M) s) :
    (∀ later old new t found earlier, s.history = later ++ .relocated old new t found true :: earlier →
        tags M earlier old = found) ∧
      (∃ ps', ChainOf s.shared.1.pages st.2.firstPageId ps' ∧
        ∀ r t, promised M s.history r = some t → liveRows s.shared.1.pages ps' r = some t) ∧
      ∀ r₁ r₂ w, row M s.history r₁ = some w → row M s.history r₂ = some w → r₁ ≠ r₂ →
        Unsettled s.acts s.history w := by
  obtain ⟨⟨ps', hsub, hsound⟩, hstart, hserial⟩ :=
    h₀.reaches hlaw Undisturbed.legal h (I := fun s => Serial s.start s.acts s.history) (Serial.new M)
      fun hs hallowed htaken => hs.taken hcodes htaken hallowed
  rw [hstart] at hserial
  refine ⟨hserial.kept.exact, ⟨ps', hsound.table.chainOf h₀ hsub, fun r t hr => ?_⟩, fun r₁ r₂ w h₁ h₂ hne => ?_⟩
  · rw [liveRows_eq hsound.table.rep.table, hstart]
    exact hserial.kept.promises r t hr
  · cases hserial.single r₁ r₂ w h₁ h₂ hne with
    | inr hst => exact .inr hst
    | inl hrem =>
      obtain ⟨old, new, t, found, hmem, hpair⟩ := hrem
      have hhold := ((hserial.found _ hmem).2 old new t found rfl).1
      refine .inl ⟨old, new, t, found, hmem, ?_⟩
      rcases hpair with ⟨rfl, -⟩ | ⟨-, rfl⟩
      · rw [← show tags M s.history r₁ = found from hhold.tags]
        exact h₁
      · rw [← show tags M s.history r₂ = found from hhold.tags]
        exact h₂

/-! Schedules. -/

/-- Deletes and updates on the first page only. -/
def FrontCalls (s : System) : Choice → Prop
  | .call (.insert _) => True
  | .call (.delete rid) | .call (.update rid _) => rid.pageId = s.shared.2.firstPageId
  | .run _ => True

instance (s : System) : (ch : Choice) → Decidable (FrontCalls s ch)
  | .call (.insert _) => isTrue trivial
  | .call (.delete rid) | .call (.update rid _) => inferInstanceAs (Decidable (rid.pageId = s.shared.2.firstPageId))
  | .run _ => isTrue trivial

theorem FrontCalls.legal (h : FrontCalls s ch) : Legal s ch := by
  cases ch with
  | run i => trivial
  | call c =>
    cases c with
    | insert t => trivial
    | delete rid => exact .inl (show OnChain _ _ rid.pageId from h ▸ .first)
    | update rid t => exact .inl (show OnChain _ _ rid.pageId from h ▸ .first)

/-- The same, with no call about a row that a relocation is at work on. -/
def FrontUndisturbed (s : System) : Choice → Prop
  | .call (.insert _) => True
  | .call (.delete rid) | .call (.update rid _) =>
    rid.pageId = s.shared.2.firstPageId ∧ ∀ a ∈ s.acts, rid ∉ a.worksOn
  | .run _ => True

instance (s : System) : (ch : Choice) → Decidable (FrontUndisturbed s ch)
  | .call (.insert _) => isTrue trivial
  | .call (.delete rid) | .call (.update rid _) =>
    inferInstanceAs (Decidable (rid.pageId = s.shared.2.firstPageId ∧ ∀ a ∈ s.acts, rid ∉ a.worksOn))
  | .run _ => isTrue trivial

theorem FrontUndisturbed.undisturbed (h : FrontUndisturbed s ch) : Undisturbed s ch := by
  cases ch with
  | run i => trivial
  | call c =>
    cases c with
    | insert t => trivial
    | delete rid => exact ⟨.inl (show OnChain _ _ rid.pageId from h.1 ▸ .first), h.2⟩
    | update rid t => exact ⟨.inl (show OnChain _ _ rid.pageId from h.1 ▸ .first), h.2⟩

/-- A page with a short row and no room for it to grow. -/
def fullPage : List Choice :=
  let big := List.replicate 2000 (0 : UInt8)
  [.call (.insert [1]), .run 0, .call (.insert big), .run 1, .call (.insert big), .run 2]

/-- An update that needs more room than the page has. -/
def growRow (b : UInt8) : Choice := .call (.update ⟨2, 0⟩ (List.replicate 100 b))

def turns (n i : Nat) : List Choice := List.replicate n (.run i)

/-- One relocation, and an insert of another row in the middle of it. -/
def calmUpdate : List Choice := [fullPage, [growRow 7], turns 4 3, [.call (.insert [9]), .run 4], turns 4 3].flatten

theorem updates_lose_and_duplicate_nothing_calm : ∃ st s, Table st.1.pages st [2] (fun _ => none) ∧
    Machine.Reaches (step PoolEnv.countUp ⟨false, Bytes.Region.zero⟩) Undisturbed (System.new st fun _ => none) s ∧
    s.acts.length = 5 ∧ promised (fun _ => none) s.history ⟨2, 3⟩ = some [9] ∧
    ∃ ps, liveRows s.shared.1.pages ps ⟨2, 3⟩ = some [9] := by
  have hrun : endsIn FrontUndisturbed calmUpdate
      (fun s => s.acts.length = 5 ∧ promised (fun _ => none) s.history ⟨2, 3⟩ = some [9]) = true := by decide +kernel
  obtain ⟨st, s, htable, hreach, hgood⟩ := of_endsIn hrun
  obtain ⟨hacts, hprom⟩ := of_decide_eq_true hgood
  have hreach' := hreach.mono fun _ _ h => h.undisturbed
  have hcodes : ∀ e, PoolEnv.countUp.Refuses e → e.code ≠ .notFound := by
    intro e he
    rcases he with ⟨s, p, he⟩ | ⟨s, he⟩
    · cases he
    · simp only [PoolEnv.countUp] at he
      split at he
      · cases he
      · cases he
        decide
  obtain ⟨-, ⟨ps', -, hread⟩, -⟩ :=
    updates_lose_and_duplicate_nothing PoolEnv.countUp_lawful hcodes htable hreach'
  exact ⟨st, s, htable, hreach', hacts, hprom, ps', hread _ _ hprom⟩

/-- While an update of row ⟨2, 0⟩ is under way the row is deleted and its id given to another row. -/
def slotReused : List Choice :=
  [fullPage, [growRow 7, .call (.delete ⟨2, 0⟩), .call (.insert [9]), .run 5], turns 8 3].flatten

/-- Two updates of row ⟨2, 0⟩, each under way when the other begins. -/
def twoUpdates : List Choice := [fullPage, [growRow 7, growRow 8], turns 7 3, turns 2 4, [.run 3, .run 4]].flatten

def Activity.returnedOk : Activity → Bool
  | .returned (.ok _) => true
  | _ => false

/-- Disturbed, an update loses a row and doubles another: `Insert` has acknowledged `[9]` at ⟨2, 0⟩, nobody has been
    called about that id since, and it is gone; and with every call returned OK one row is live at two ids. -/
theorem updates_lose_and_duplicate :
    (∃ st s, Table st.1.pages st [2] (fun _ => none) ∧
      Machine.Reaches (step PoolEnv.countUp ⟨false, Bytes.Region.zero⟩) Legal (System.new st fun _ => none) s ∧
      promised (fun _ => none) s.history ⟨2, 0⟩ = some [9] ∧ ∀ ps, liveRows s.shared.1.pages ps ⟨2, 0⟩ = none) ∧
    ∃ st s, Table st.1.pages st [2] (fun _ => none) ∧
      Machine.Reaches (step PoolEnv.countUp ⟨false, Bytes.Region.zero⟩) Legal (System.new st fun _ => none) s ∧
      (∀ a ∈ s.acts, a.returnedOk = true) ∧
      ∃ r₁ r₂ w, r₁ ≠ r₂ ∧ row (fun _ => none) s.history r₁ = some w ∧ row (fun _ => none) s.history r₂ = some w := by
  constructor
  · have hrun : endsIn FrontCalls slotReused (fun s => promised (fun _ => none) s.history ⟨2, 0⟩ = some [9] ∧
        liveRows s.shared.1.pages [2] ⟨2, 0⟩ = none) = true := by decide +kernel
    obtain ⟨st, s, htable, hreach, hgood⟩ := of_endsIn hrun
    obtain ⟨hprom, hgone⟩ := of_decide_eq_true hgood
    refine ⟨st, s, htable, hreach.mono fun _ _ h => h.legal, hprom, fun ps => ?_⟩
    unfold liveRows at hgone ⊢
    split
    · simpa using hgone
    · rfl
  · have hrun : endsIn FrontCalls twoUpdates (fun s => (∀ a ∈ s.acts, a.returnedOk = true) ∧
        row (fun _ => none) s.history ⟨13, 0⟩ = some (.event 0) ∧
        row (fun _ => none) s.history ⟨13, 1⟩ = some (.event 0)) = true := by decide +kernel
    obtain ⟨st, s, htable, hreach, hgood⟩ := of_endsIn hrun
    obtain ⟨hok, h₁, h₂⟩ := of_decide_eq_true hgood
    exact ⟨st, s, htable, hreach.mono fun _ _ h => h.legal, hok, ⟨13, 0⟩, ⟨13, 1⟩, .event 0, by decide, h₁, h₂⟩

end Runs
end KernSql.TableHeap.Concurrent

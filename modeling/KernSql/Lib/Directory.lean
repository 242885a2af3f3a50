import KernSql.Lib.Bytes

/- Directories of extents.

   A directory is a list of extents of one region; its indices are the names
   under which the bytes are found, so an entry is never removed. An entry with
   offset 0 names nothing. `Fills es lo hi dead` says that the extents lie in
   `[lo, hi)`, share no byte, and leave exactly `dead` bytes of it to nobody.
   The rules say how each change of one entry, and packing every extent against
   the end, keeps this; `find` is the partial map from indices to bytes that a
   directory and its region stand for. -/
namespace Directory
open Bytes

structure Extent where
  offset : Nat := 0
  length : Nat := 0
  deriving DecidableEq, Repr

namespace Extent

/-- The extent names nothing. -/
def IsNull (e : Extent) : Prop := e.offset = 0

instance : DecidablePred IsNull := fun e => inferInstanceAs (Decidable (e.offset = 0))

def stop (e : Extent) : Nat := e.offset + e.length

/-- No byte belongs to both. -/
def Apart (e f : Extent) : Prop := e.IsNull ∨ f.IsNull ∨ e.stop ≤ f.offset ∨ f.stop ≤ e.offset

/-- The empty null extent, or a non-empty one inside `[lo, hi)`. -/
def Within (lo hi : Nat) (e : Extent) : Prop :=
  e = {} ∨ (¬e.IsNull ∧ 0 < e.length ∧ lo ≤ e.offset ∧ e.stop ≤ hi)

theorem Apart.symm {e f : Extent} (h : Apart e f) : Apart f e := by
  unfold Apart at h ⊢; tauto

theorem isNull_empty : IsNull {} := rfl

theorem Within.mono {lo lo' hi : Nat} {e : Extent} (h : e.Within lo hi) (hle : lo' ≤ lo) : e.Within lo' hi := by
  cases h with
  | inl h => exact .inl h
  | inr h => exact .inr ⟨h.1, h.2.1, hle.trans h.2.2.1, h.2.2.2⟩

theorem Within.live {lo hi : Nat} {e : Extent} (h : e.Within lo hi) (hn : ¬e.IsNull) :
    0 < e.length ∧ lo ≤ e.offset ∧ e.stop ≤ hi := by
  cases h with
  | inl h => exact absurd (h ▸ isNull_empty) hn
  | inr h => exact h.2

theorem Within.null {lo hi : Nat} {e : Extent} (h : e.Within lo hi) (hn : e.IsNull) : e = {} := by
  cases h with
  | inl h => exact h
  | inr h => exact absurd hn h.1

end Extent

open Extent

/-- Bytes named by the entries. -/
def total : List Extent → Nat
  | [] => 0
  | e :: es => e.length + total es

/-- Entries that name something. -/
def live (es : List Extent) : Nat := es.countP fun e => ¬e.IsNull

structure Fills (es : List Extent) (lo hi dead : Nat) : Prop where
  within : ∀ e ∈ es, e.Within lo hi
  apart : es.Pairwise Apart
  sum : lo + total es + dead = hi

/-! Replacing one entry. -/

theorem total_set (x : Extent) : ∀ (es : List Extent) (i : Nat) (h : i < es.length),
    total (es.set i x) + es[i].length = total es + x.length
  | e :: es, 0, _ => by simp only [List.set_cons_zero, total, List.getElem_cons_zero]; omega
  | e :: es, i + 1, h => by
    have ih := total_set x es i (by simpa using h)
    simp only [List.set_cons_succ, total, List.getElem_cons_succ]
    omega

theorem total_append (es fs : List Extent) : total (es ++ fs) = total es + total fs := by
  induction es with
  | nil => simp [total]
  | cons e es ih => simp only [List.cons_append, total, ih]; omega

theorem live_cons (e : Extent) (es : List Extent) : live (e :: es) = live es + if e.IsNull then 0 else 1 := by
  by_cases h : e.IsNull <;> simp [live, h]

theorem live_set (es : List Extent) (i : Nat) (h : i < es.length) (x : Extent) :
    live (es.set i x) + (if es[i].IsNull then 0 else 1) = live es + if x.IsNull then 0 else 1 := by
  induction es generalizing i with
  | nil => exact absurd h (Nat.not_lt_zero _)
  | cons e es ih =>
    cases i with
    | zero =>
      simp only [List.set_cons_zero, live_cons, List.getElem_cons_zero]
      omega
    | succ i =>
      have := ih i (by simpa using h)
      simp only [List.set_cons_succ, live_cons, List.getElem_cons_succ]
      omega

theorem live_append (es fs : List Extent) : live (es ++ fs) = live es + live fs := List.countP_append

theorem mem_set_cases {es : List Extent} {i : Nat} {x e : Extent} (h : e ∈ es.set i x) : e = x ∨ e ∈ es :=
  (List.mem_or_eq_of_mem_set h).symm

/-- A relation that holds between the new entry and every other one holds throughout. -/
theorem pairwise_set {R : Extent → Extent → Prop} (hR : ∀ {e f}, R e f → R f e) {es : List Extent}
    (h : es.Pairwise R) {i : Nat} {x : Extent}
    (hx : ∀ j (hj : j < es.length), j ≠ i → R x es[j]) : (es.set i x).Pairwise R := by
  rw [List.pairwise_iff_getElem] at h ⊢
  intro a b ha hb hab
  simp only [List.length_set] at ha hb
  rw [List.getElem_set, List.getElem_set]
  split_ifs with h1 h2 h2
  · omega
  · exact hx b hb (by omega)
  · exact hR (hx a ha (by omega))
  · exact h a b ha hb hab

namespace Fills
variable {es : List Extent} {lo hi dead : Nat}

theorem get_within (h : Fills es lo hi dead) {i : Nat} (hi' : i < es.length) :
    es[i].Within lo hi := h.within _ (List.getElem_mem hi')

/-- Two entries with different indices are apart. -/
theorem get_apart (h : Fills es lo hi dead) {i j : Nat} (hi' : i < es.length) (hj : j < es.length)
    (hij : i ≠ j) : Apart es[i] es[j] := by
  have hp := List.pairwise_iff_getElem.mp h.apart
  cases Nat.lt_or_gt_of_ne hij with
  | inl hlt => exact hp i j hi' hj hlt
  | inr hgt => exact (hp j i hj hi' hgt).symm

theorem empty (hi : Nat) : Fills [] hi hi 0 := ⟨by simp, .nil, rfl⟩

/-- An entry given up leaves its bytes to nobody. -/
theorem kill (h : Fills es lo hi dead) {i : Nat} (hi' : i < es.length) :
    Fills (es.set i {}) lo hi (dead + es[i].length) where
  within e he := by
    cases mem_set_cases he with
    | inl hx => exact .inl hx
    | inr hm => exact h.within e hm
  apart := pairwise_set Apart.symm h.apart fun _ _ _ => .inl isNull_empty
  sum := by
    have ht := total_set {} es i hi'
    have := h.sum
    dsimp only at ht
    omega

/-- An extent cut short keeps its offset. -/
theorem shrink (h : Fills es lo hi dead) {i : Nat} (hi' : i < es.length) (hlive : ¬es[i].IsNull)
    {n : Nat} (hn : 0 < n) (hle : n ≤ es[i].length) :
    Fills (es.set i ⟨es[i].offset, n⟩) lo hi (dead + (es[i].length - n)) where
  within e he := by
    obtain ⟨_, hlo, hstop⟩ := (h.get_within hi').live hlive
    cases mem_set_cases he with
    | inl hx => exact .inr (hx ▸ ⟨hlive, hn, hlo, by unfold stop at hstop ⊢; simp only; omega⟩)
    | inr hm => exact h.within e hm
  apart := by
    apply pairwise_set Apart.symm h.apart
    intro j hj hij
    have := h.get_apart hi' hj (Ne.symm hij)
    unfold Apart stop IsNull at *
    simp only
    omega
  sum := by
    have ht := total_set ⟨es[i].offset, n⟩ es i hi'
    have := h.sum
    dsimp only at ht
    omega

/-- What lies just below `lo` is apart from everything in the directory. -/
theorem apart_below (h : Fills es lo hi dead) {n : Nat} (hn : n ≤ lo) {e : Extent} (he : e ∈ es) :
    Apart ⟨lo - n, n⟩ e := by
  cases h.within e he with
  | inl hx => exact .inr (.inl (hx ▸ isNull_empty))
  | inr hx =>
    refine .inr (.inr (.inl ?_))
    have := hx.2.2.1
    unfold stop
    simp only
    omega

/-- The extent of the `n` bytes just below `lo`. -/
theorem within_below (h : Fills es lo hi dead) {n : Nat} (hn : 0 < n) (hlt : n < lo) :
    Within (lo - n) hi ⟨lo - n, n⟩ := by
  refine .inr ⟨?_, hn, Nat.le_refl _, ?_⟩
  · unfold IsNull; simp only; omega
  · have := h.sum
    unfold stop; simp only; omega

/-- A null entry takes the bytes below `lo`. -/
theorem place (h : Fills es lo hi dead) {i : Nat} (hi' : i < es.length) (hnull : es[i].IsNull)
    {n : Nat} (hn : 0 < n) (hlt : n < lo) : Fills (es.set i ⟨lo - n, n⟩) (lo - n) hi dead where
  within e he := by
    cases mem_set_cases he with
    | inl hx => exact hx ▸ h.within_below hn hlt
    | inr hm => exact (h.within e hm).mono (Nat.sub_le _ _)
  apart := pairwise_set Apart.symm h.apart fun j hj _ => h.apart_below (Nat.le_of_lt hlt) (List.getElem_mem hj)
  sum := by
    have hz : es[i].length = 0 := by rw [(h.get_within hi').null hnull]
    have ht := total_set ⟨lo - n, n⟩ es i hi'
    have := h.sum
    dsimp only at ht
    omega

/-- A new entry takes the bytes below `lo`. -/
theorem append (h : Fills es lo hi dead) {n : Nat} (hn : 0 < n) (hlt : n < lo) :
    Fills (es ++ [⟨lo - n, n⟩]) (lo - n) hi dead where
  within e he := by
    cases List.mem_append.mp he with
    | inl hm => exact (h.within e hm).mono (Nat.sub_le _ _)
    | inr hx => exact List.mem_singleton.mp hx ▸ h.within_below hn hlt
  apart := by
    apply List.pairwise_append.mpr
    refine ⟨h.apart, List.pairwise_singleton _ _, fun e he f hf => ?_⟩
    rw [List.mem_singleton.mp hf]
    exact (h.apart_below (Nat.le_of_lt hlt) he).symm
  sum := by
    have := h.sum
    simp only [total_append, total] at *
    omega

end Fills

/-! Packing: every extent in turn, directly below the one before. -/

def pack : Nat → List Extent → List Extent
  | _, [] => []
  | cursor, e :: es =>
    if e.IsNull then e :: pack cursor es else ⟨cursor - e.length, e.length⟩ :: pack (cursor - e.length) es

@[simp] theorem pack_length (cursor : Nat) (es : List Extent) : (pack cursor es).length = es.length := by
  induction es generalizing cursor with
  | nil => rfl
  | cons e es ih => unfold pack; split <;> simp [ih]

/-- Entries keep their length, and stay null or live, when the total is below the cursor. -/
theorem pack_get (es : List Extent) : ∀ (cursor i : Nat) (h : i < es.length) (h' : i < (pack cursor es).length),
    total es < cursor → (pack cursor es)[i].length = es[i].length ∧
    ((pack cursor es)[i].IsNull ↔ es[i].IsNull) := by
  induction es with
  | nil => intro cursor i h; exact absurd h (Nat.not_lt_zero _)
  | cons e es ih =>
    intro cursor i h h' hlt
    simp only [total] at hlt
    by_cases hn : e.IsNull
    · simp only [pack, if_pos hn]
      cases i with
      | zero => exact ⟨rfl, Iff.rfl⟩
      | succ i => exact ih cursor i (by simpa using h) (by simpa using h) (by omega)
    · simp only [pack, if_neg hn]
      cases i with
      | zero =>
        refine ⟨rfl, iff_of_false ?_ hn⟩
        simp only [List.getElem_cons_zero, IsNull]
        omega
      | succ i => exact ih (cursor - e.length) i (by simpa using h) (by simpa using h) (by omega)

theorem total_pack (cursor : Nat) (es : List Extent) : total (pack cursor es) = total es := by
  induction es generalizing cursor with
  | nil => rfl
  | cons e es ih => unfold pack; split <;> simp [total, ih]

theorem live_pack (es : List Extent) : ∀ cursor, total es < cursor → live (pack cursor es) = live es := by
  induction es with
  | nil => intro cursor _; rfl
  | cons e es ih =>
    intro cursor hlt
    simp only [total] at hlt
    by_cases hn : e.IsNull
    · rw [pack, if_pos hn, live_cons, live_cons, ih cursor (by omega)]
    · have hc : ¬IsNull ⟨cursor - e.length, e.length⟩ := by unfold IsNull; simp only; omega
      rw [pack, if_neg hn, live_cons, live_cons, ih (cursor - e.length) (by omega), if_neg hc, if_neg hn]

/-- Packed extents lie between the cursor the packing ends at and the one it starts from. -/
theorem pack_within {lo hi : Nat} (es : List Extent) : ∀ cursor, total es < cursor →
    (∀ e ∈ es, e.Within lo hi) → ∀ e ∈ pack cursor es, e.Within (cursor - total es) cursor := by
  induction es with
  | nil => intro cursor _ _ e he; cases he
  | cons e es ih =>
    intro cursor hlt hw f hf
    simp only [total] at hlt ⊢
    have hw' : ∀ e ∈ es, e.Within lo hi := fun e he => hw e (List.mem_cons_of_mem _ he)
    by_cases hn : e.IsNull
    · have he : e = {} := (hw e List.mem_cons_self).null hn
      subst he
      simp only [pack, if_pos hn, List.mem_cons] at hf
      cases hf with
      | inl hf => exact .inl hf
      | inr hf => simpa using ih cursor (by simpa using hlt) hw' f hf
    · obtain ⟨hpos, _, _⟩ := (hw e List.mem_cons_self).live hn
      simp only [pack, if_neg hn, List.mem_cons] at hf
      cases hf with
      | inl hf =>
        subst hf
        refine .inr ⟨?_, hpos, ?_, ?_⟩
        · unfold IsNull; simp only; omega
        · simp only; omega
        · unfold stop; simp only; omega
      | inr hf =>
        have := ih (cursor - e.length) (by omega) hw' f hf
        cases this with
        | inl h => exact .inl h
        | inr h => exact .inr ⟨h.1, h.2.1, by have := h.2.2.1; omega, by have := h.2.2.2; omega⟩

theorem pack_apart {lo hi : Nat} (es : List Extent) : ∀ cursor, total es < cursor →
    (∀ e ∈ es, e.Within lo hi) → (pack cursor es).Pairwise Apart := by
  induction es with
  | nil => intro cursor _ _; exact .nil
  | cons e es ih =>
    intro cursor hlt hw
    simp only [total] at hlt
    have hw' : ∀ e ∈ es, e.Within lo hi := fun e he => hw e (List.mem_cons_of_mem _ he)
    by_cases hn : e.IsNull
    · simp only [pack, if_pos hn]
      exact .cons (fun f _ => .inl hn) (ih cursor (by omega) hw')
    · simp only [pack, if_neg hn]
      refine .cons (fun f hf => ?_) (ih _ (by omega) hw')
      cases pack_within es (cursor - e.length) (by omega) hw' f hf with
      | inl h => exact .inr (.inl (h ▸ isNull_empty))
      | inr h => exact .inr (.inr (.inr h.2.2.2))

/-- After packing nothing in the used part is left to nobody. -/
theorem Fills.pack {es : List Extent} {lo hi dead : Nat} (h : Fills es lo hi dead) (hlo : 0 < lo) :
    Fills (pack hi es) (hi - total es) hi 0 where
  within := pack_within es hi (by have := h.sum; omega) h.within
  apart := pack_apart es hi (by have := h.sum; omega) h.within
  sum := by
    have := h.sum
    rw [total_pack]
    omega

/-! Directories of which only the sum is known: extents may be empty and may share bytes. -/

/-- The empty null extent, or any one inside `[lo, hi)`. -/
def Extent.Inside (lo hi : Nat) (e : Extent) : Prop := e = {} ∨ (¬e.IsNull ∧ lo ≤ e.offset ∧ e.stop ≤ hi)

instance (lo hi : Nat) (e : Extent) : Decidable (e.Inside lo hi) := inferInstanceAs (Decidable (_ ∨ _))

structure Accounts (es : List Extent) (lo hi dead : Nat) : Prop where
  inside : ∀ e ∈ es, e.Inside lo hi
  sum : lo + total es + dead = hi

namespace Extent.Inside
variable {lo lo' hi : Nat} {e : Extent}

theorem mono (h : e.Inside lo hi) (hle : lo' ≤ lo) : e.Inside lo' hi := by
  cases h with
  | inl h => exact .inl h
  | inr h => exact .inr ⟨h.1, hle.trans h.2.1, h.2.2⟩

theorem live (h : e.Inside lo hi) (hn : ¬e.IsNull) : lo ≤ e.offset ∧ e.stop ≤ hi := by
  cases h with
  | inl h => exact absurd (h ▸ isNull_empty) hn
  | inr h => exact h.2

theorem null (h : e.Inside lo hi) (hn : e.IsNull) : e = {} := by
  cases h with
  | inl h => exact h
  | inr h => exact absurd hn h.1

end Extent.Inside

theorem Extent.Within.inside {lo hi : Nat} {e : Extent} (h : e.Within lo hi) : e.Inside lo hi := by
  cases h with
  | inl h => exact .inl h
  | inr h => exact .inr ⟨h.1, h.2.2⟩

theorem Fills.accounts {es : List Extent} {lo hi dead : Nat} (h : Fills es lo hi dead) : Accounts es lo hi dead :=
  ⟨fun e he => (h.within e he).inside, h.sum⟩

theorem pack_inside {lo hi : Nat} (es : List Extent) : ∀ cursor, total es < cursor →
    (∀ e ∈ es, e.Inside lo hi) → ∀ e ∈ pack cursor es, e.Inside (cursor - total es) cursor := by
  induction es with
  | nil => intro cursor _ _ e he; cases he
  | cons e es ih =>
    intro cursor hlt hin f hf
    simp only [total] at hlt ⊢
    have hin' : ∀ e ∈ es, e.Inside lo hi := fun e he => hin e (List.mem_cons_of_mem _ he)
    by_cases hn : e.IsNull
    · have he : e = {} := (hin e List.mem_cons_self).null hn
      subst he
      simp only [pack, if_pos hn, List.mem_cons] at hf
      cases hf with
      | inl hf => exact .inl hf
      | inr hf => simpa using ih cursor (by simpa using hlt) hin' f hf
    · simp only [pack, if_neg hn, List.mem_cons] at hf
      cases hf with
      | inl hf =>
        subst hf
        refine .inr ⟨?_, ?_, ?_⟩
        · unfold IsNull; simp only; omega
        · simp only; omega
        · unfold stop; simp only; omega
      | inr hf =>
        cases ih (cursor - e.length) (by omega) hin' f hf with
        | inl h => exact .inl h
        | inr h => exact .inr ⟨h.1, by have := h.2.1; omega, by have := h.2.2; omega⟩

namespace Accounts
variable {es : List Extent} {lo hi dead : Nat}

theorem get_inside (h : Accounts es lo hi dead) {i : Nat} (hi' : i < es.length) : es[i].Inside lo hi :=
  h.inside _ (List.getElem_mem hi')

/-- One entry replaced, with the sum kept. -/
theorem set (h : Accounts es lo hi dead) {i lo' dead' : Nat} {x : Extent} (hi' : i < es.length) (hle : lo' ≤ lo)
    (hx : x.Inside lo' hi) (hsum : lo' + x.length + dead' = lo + es[i].length + dead) :
    Accounts (es.set i x) lo' hi dead' where
  inside e he := by
    cases mem_set_cases he with
    | inl h => exact h ▸ hx
    | inr h' => exact (h.inside e h').mono hle
  sum := by
    have := h.sum
    have := total_set x es i hi'
    omega

theorem kill (h : Accounts es lo hi dead) {i : Nat} (hi' : i < es.length) :
    Accounts (es.set i {}) lo hi (dead + es[i].length) :=
  h.set hi' le_rfl (.inl rfl) (by simp only; omega)

/-- A new entry at the end, below the others. -/
theorem append (h : Accounts es lo hi dead) {lo' : Nat} {x : Extent} (hle : lo' ≤ lo) (hx : x.Inside lo' hi)
    (hsum : lo' + x.length = lo) : Accounts (es ++ [x]) lo' hi dead where
  inside e he := by
    rcases List.mem_append.mp he with he | he
    · exact (h.inside e he).mono hle
    · exact List.mem_singleton.mp he ▸ hx
  sum := by
    have := h.sum
    simp only [total_append, total]
    omega

/-- The extent of `n` bytes just below `lo`. -/
theorem inside_below (h : Accounts es lo hi dead) {n : Nat} (hlt : n < lo) :
    Extent.Inside (lo - n) hi ⟨lo - n, n⟩ := by
  have := h.sum
  refine .inr ⟨?_, le_rfl, ?_⟩
  · unfold IsNull; simp only; omega
  · unfold stop; simp only; omega

theorem pack (h : Accounts es lo hi dead) (hlo : 0 < lo) : Accounts (pack hi es) (hi - total es) hi 0 where
  inside := pack_inside es hi (by have := h.sum; omega) h.inside
  sum := by
    have := h.sum
    rw [total_pack]
    omega

end Accounts

/-! The map a directory stands for. -/

section Find
variable {n : Nat}

/-- The bytes found under an index. -/
def find (r : Region n) (es : List Extent) (i : Nat) : Option (List UInt8) :=
  match es[i]? with
  | none => none
  | some e => if e.IsNull then none else some (r.slice e.offset e.length)

theorem find_none {r : Region n} {es : List Extent} {i : Nat} (h : es.length ≤ i) : find r es i = none := by
  unfold find; rw [List.getElem?_eq_none h]

theorem find_get {r : Region n} {es : List Extent} {i : Nat} (h : i < es.length) :
    find r es i = if es[i].IsNull then none
      else some (r.slice es[i].offset es[i].length) := by
  unfold find; rw [List.getElem?_eq_getElem h]

/-- The same entries over regions that agree on the live ones. -/
theorem find_congr {r r' : Region n} {es : List Extent} {i : Nat}
    (h : ∀ hi : i < es.length, ¬es[i].IsNull → r'.slice es[i].offset es[i].length =
      r.slice es[i].offset es[i].length) : find r' es i = find r es i := by
  by_cases hi : i < es.length
  · rw [find_get hi, find_get hi]
    by_cases hn : es[i].IsNull
    · rw [if_pos hn, if_pos hn]
    · rw [if_neg hn, if_neg hn, h hi hn]
  · rw [find_none (by omega), find_none (by omega)]

theorem find_cons_zero {r : Region n} {e : Extent} {es : List Extent} :
    find r (e :: es) 0 = if e.IsNull then none else some (r.slice e.offset e.length) := rfl

theorem find_cons_succ {r : Region n} {e : Extent} {es : List Extent} {i : Nat} :
    find r (e :: es) (i + 1) = find r es i := by
  unfold find; rw [List.getElem?_cons_succ]

theorem find_set_other {r : Region n} {es : List Extent} {i j : Nat} {x : Extent} (h : j ≠ i) :
    find r (es.set i x) j = find r es j := by
  unfold find; rw [List.getElem?_set_ne (Ne.symm h)]

theorem find_set_null {r : Region n} {es : List Extent} {i : Nat} : find r (es.set i {}) i = none := by
  by_cases hi : i < es.length
  · rw [find_get (by simpa using hi)]
    simp [isNull_empty]
  · exact find_none (by simpa using hi)

theorem find_set_same {r : Region n} {es : List Extent} {i : Nat} {x : Extent} (hi : i < es.length)
    (hx : ¬x.IsNull) : find r (es.set i x) i = some (r.slice x.offset x.length) := by
  rw [find_get (by simpa using hi)]
  simp [hx]

theorem find_append_other {r : Region n} {es : List Extent} {j : Nat} {x : Extent} (h : j ≠ es.length) :
    find r (es ++ [x]) j = find r es j := by
  unfold find
  by_cases hj : j < es.length
  · rw [List.getElem?_append_left hj]
  · rw [List.getElem?_eq_none (by simp; omega), List.getElem?_eq_none (by omega)]

theorem find_append_same {r : Region n} {es : List Extent} {x : Extent} (hx : ¬x.IsNull) :
    find r (es ++ [x]) es.length = some (r.slice x.offset x.length) := by
  unfold find; simp [hx]

/-- A directory that fills the end of its region is untouched by a write below it. -/
theorem Fills.find_write_below {r : Region n} {es : List Extent} {lo dead : Nat} (h : Fills es lo n dead)
    {off : Nat} {bs : List UInt8} (hbs : off + bs.length ≤ lo) (i : Nat) :
    find (r.write off bs) es i = find r es i := by
  apply find_congr
  intro hi hn
  obtain ⟨_, hlo, hstop⟩ := (h.get_within hi).live hn
  exact Region.slice_write_off hstop (.inr (by omega))

/-- A write inside one extent changes no other. -/
theorem Fills.find_write_inside {r : Region n} {es : List Extent} {lo dead : Nat} (h : Fills es lo n dead)
    {i : Nat} (hi : i < es.length) (hlive : ¬es[i].IsNull) {bs : List UInt8}
    (hbs : bs.length ≤ es[i].length) {j : Nat} (hj : j ≠ i) :
    find (r.write es[i].offset bs) es j = find r es j := by
  apply find_congr
  intro hj' hn
  obtain ⟨_, _, hstop⟩ := (h.get_within hj').live hn
  apply Region.slice_write_off hstop
  cases h.get_apart hj' hi hj with
  | inl hnull => exact absurd hnull hn
  | inr hrest =>
    unfold stop at hrest hstop
    cases hrest with
    | inl hnull => exact absurd hnull hlive
    | inr hrest =>
      cases hrest with
      | inl hle => exact .inl hle
      | inr hle => exact .inr (by omega)

end Find

/-! Who owns a byte: extents that may overlap, counted byte by byte. -/

/-- The byte belongs to the extent. -/
def Extent.Covers (e : Extent) (x : Nat) : Prop := e.offset ≤ x ∧ x < e.stop

instance (e : Extent) (x : Nat) : Decidable (e.Covers x) := inferInstanceAs (Decidable (_ ∧ _))

/-- How many of the extents the byte belongs to. -/
def owners (es : List Extent) (x : Nat) : Nat := es.countP fun e => e.Covers x

/-- The bytes of `[lo, hi)` in none of the extents. -/
def unowned (es : List Extent) (lo hi : Nat) : Nat := ((Finset.Ico lo hi).filter fun x => owners es x = 0).card

theorem owners_cons (e : Extent) (es : List Extent) (x : Nat) :
    owners (e :: es) x = owners es x + if e.Covers x then 1 else 0 := by
  unfold owners
  rw [List.countP_cons]
  simp

/-- An extent inside an interval covers as many of its bytes as it is long. -/
theorem sum_covers {e : Extent} {lo hi : Nat} (hlo : lo ≤ e.offset) (hhi : e.stop ≤ hi) :
    ∑ x ∈ Finset.Ico lo hi, (if e.Covers x then 1 else 0) = e.length := by
  have hcovered : (Finset.Ico lo hi).filter e.Covers = Finset.Ico e.offset e.stop := by
    ext x
    simp only [Finset.mem_filter, Finset.mem_Ico, Covers]
    omega
  rw [← Finset.card_filter, hcovered, Nat.card_Ico]
  unfold stop
  omega

/-- Each byte counted once for every extent it belongs to. -/
theorem sum_owners {lo hi : Nat} : ∀ (es : List Extent), (∀ e ∈ es, lo ≤ e.offset ∧ e.stop ≤ hi) →
    ∑ x ∈ Finset.Ico lo hi, owners es x = total es
  | [], _ => by simp [owners, total]
  | e :: es, h => by
    obtain ⟨hlo, hhi⟩ := h e List.mem_cons_self
    have ih := sum_owners es fun f hf => h f (List.mem_cons_of_mem _ hf)
    simp only [owners_cons]
    rw [Finset.sum_add_distrib, ih, sum_covers hlo hhi, total, Nat.add_comm]

/-- What the lengths and the unowned bytes count too much is what is counted more than once. -/
theorem total_add_unowned {lo hi : Nat} {es : List Extent} (h : ∀ e ∈ es, lo ≤ e.offset ∧ e.stop ≤ hi) :
    total es + unowned es lo hi = (hi - lo) + ∑ x ∈ Finset.Ico lo hi, (owners es x - 1) := by
  have hbyte : ∀ x, owners es x + (if owners es x = 0 then 1 else 0) = 1 + (owners es x - 1) := by
    intro x
    split <;> omega
  calc total es + unowned es lo hi
      = ∑ x ∈ Finset.Ico lo hi, (owners es x + if owners es x = 0 then 1 else 0) := by
        rw [Finset.sum_add_distrib, sum_owners es h, ← Finset.card_filter, unowned]
    _ = ∑ x ∈ Finset.Ico lo hi, (1 + (owners es x - 1)) := Finset.sum_congr rfl fun x _ => hbyte x
    _ = _ := by rw [Finset.sum_add_distrib, Finset.sum_const, Nat.card_Ico, smul_eq_mul, Nat.mul_one]

/-- No byte has two owners exactly when the lengths leave room for the unowned bytes. -/
theorem owners_le_one_iff {lo hi : Nat} {es : List Extent} (h : ∀ e ∈ es, lo ≤ e.offset ∧ e.stop ≤ hi) :
    (∀ x ∈ Finset.Ico lo hi, owners es x ≤ 1) ↔ total es + unowned es lo hi ≤ hi - lo := by
  have hcount := total_add_unowned h
  constructor
  · intro hone
    have hzero : ∑ x ∈ Finset.Ico lo hi, (owners es x - 1) = 0 :=
      Finset.sum_eq_zero fun x hx => Nat.sub_eq_zero_of_le (hone x hx)
    omega
  · intro hle x hx
    have hzero : ∑ x ∈ Finset.Ico lo hi, (owners es x - 1) = 0 := by omega
    have := Finset.sum_eq_zero_iff.mp hzero x hx
    omega

/-- Extents that share a byte give it two owners. -/
theorem pairwise_of_owners : ∀ (es : List Extent), (∀ x, owners es x ≤ 1) →
    es.Pairwise fun e f => ∀ x, ¬(e.Covers x ∧ f.Covers x)
  | [], _ => .nil
  | e :: es, h => by
    simp only [owners_cons] at h
    refine .cons ?_ (pairwise_of_owners es fun x => Nat.le_of_add_right_le (h x))
    intro f hf x hx
    have hpos : 0 < owners es x := List.countP_pos_iff.mpr ⟨f, hf, by simpa using hx.2⟩
    have hone := h x
    rw [if_pos hx.1] at hone
    omega

end Directory

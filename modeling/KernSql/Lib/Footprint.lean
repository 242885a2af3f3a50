import Mathlib.Data.Set.Lattice
import Mathlib.Data.List.Forall2
import Mathlib.Order.CompletePartialOrder

/- Objects side by side in one store.

   A store is a partial map from addresses to cells. An object is represented on a
   set of cells, its footprint, and by nothing else (`Layout.congr`). A step of one
   object may change its own cells and take cells nobody has (`Moves`); it may let
   cells go, and leave behind cells that belong to nobody. Then the others, on
   footprints of their own, do not notice (`Beside.step`). -/
namespace Footprint
variable {A V O M : Type}

/-- How objects of type `O` with values in `M` lie in a store. -/
structure Layout (A V O M : Type) where
  holds : O → M → Set A → (A → Option V) → Prop
  congr : ∀ {o m foot s s'}, holds o m foot s → (∀ a ∈ foot, s' a = s a) → holds o m foot s'
  allocated : ∀ {o m foot s}, holds o m foot s → ∀ a ∈ foot, s a ≠ none

/-- What a step of the object on `foot` does to the store, when it ends on `foot'`. -/
structure Moves (foot foot' : Set A) (s s' : A → Option V) : Prop where
  kept : ∀ a, a ∉ foot → s a ≠ none → s' a = s a
  fresh : ∀ a, a ∈ foot' → a ∉ foot → s a = none

namespace Moves
variable {foot foot' : Set A} {s s' : A → Option V}

theorem refl (foot : Set A) (s : A → Option V) : Moves foot foot s s :=
  ⟨fun _ _ _ => rfl, fun _ ha hoff => absurd ha hoff⟩

/-- Nothing that was allocated changed. -/
theorem of_kept (foot : Set A) (h : ∀ a, s a ≠ none → s' a = s a) : Moves foot foot s s' :=
  ⟨fun a _ ha => h a ha, fun _ ha hoff => absurd ha hoff⟩

/-- A footprint of others is as it was and still apart. -/
theorem apart {other : Set A} (h : Moves foot foot' s s') (hd : Disjoint other foot)
    (hal : ∀ a ∈ other, s a ≠ none) : (∀ a ∈ other, s' a = s a) ∧ Disjoint other foot' := by
  have hoff : ∀ a ∈ other, a ∉ foot := fun a ha hin => Set.disjoint_left.mp hd ha hin
  refine ⟨fun a ha => h.kept a (hoff a ha) (hal a ha), Set.disjoint_left.mpr fun a ha hin => ?_⟩
  exact hal a ha (h.fresh a hin (hoff a ha))

end Moves

/-- The objects `os` with the values `ms`, each on cells of its own. -/
structure Beside (L : Layout A V O M) (os : List O) (ms : List M) (feet : Nat → Set A) (s : A → Option V) : Prop where
  length : os.length = ms.length
  holds : ∀ {i o m}, os[i]? = some o → ms[i]? = some m → L.holds o m (feet i) s
  disjoint : ∀ {i j}, i < os.length → j < os.length → i ≠ j → Disjoint (feet i) (feet j)

namespace Beside
variable {L : Layout A V O M} {os : List O} {ms : List M} {feet : Nat → Set A} {s s' : A → Option V}

theorem nil (L : Layout A V O M) (feet : Nat → Set A) (s : A → Option V) : Beside L [] [] feet s :=
  ⟨rfl, fun h => by simp at h, fun h => by simp at h⟩

/-- Every object has a value. -/
theorem value (h : Beside L os ms feet s) {i : Nat} {o : O} (ho : os[i]? = some o) :
    ∃ m, ms[i]? = some m ∧ L.holds o m (feet i) s := by
  obtain ⟨hi, -⟩ := List.getElem?_eq_some_iff.mp ho
  have hi' : i < ms.length := h.length ▸ hi
  have hm : ms[i]? = some ms[i] := List.getElem?_eq_getElem hi'
  exact ⟨_, hm, h.holds ho hm⟩

theorem allocated (h : Beside L os ms feet s) {i : Nat} (hi : i < os.length) : ∀ a ∈ feet i, s a ≠ none := by
  obtain ⟨m, -, hm⟩ := h.value (List.getElem?_eq_getElem hi)
  exact L.allocated hm

/-- A step of one object. -/
theorem step (h : Beside L os ms feet s) {i : Nat} {o' : O} {m' : M} {foot' : Set A} (hi : i < os.length)
    (hmoves : Moves (feet i) foot' s s') (hholds : L.holds o' m' foot' s') :
    Beside L (os.set i o') (ms.set i m') (Function.update feet i foot') s' where
  length := by rw [List.length_set, List.length_set, h.length]
  holds {j o m} ho hm := by
    by_cases hj : j = i
    · subst hj
      rw [List.getElem?_set_self hi] at ho
      rw [List.getElem?_set_self (h.length ▸ hi)] at hm
      cases ho
      cases hm
      rw [Function.update_self]
      exact hholds
    · rw [List.getElem?_set_ne (Ne.symm hj)] at ho hm
      rw [Function.update_of_ne hj]
      obtain ⟨hj', -⟩ := List.getElem?_eq_some_iff.mp ho
      exact L.congr (h.holds ho hm) (hmoves.apart (h.disjoint hj' hi hj) (h.allocated hj')).1
  disjoint {j k} hj hk hne := by
    rw [List.length_set] at hj hk
    by_cases hji : j = i
    · have hki : k ≠ i := fun he => hne (hji.trans he.symm)
      rw [hji, Function.update_self, Function.update_of_ne hki]
      exact (hmoves.apart (h.disjoint hk hi hki) (h.allocated hk)).2.symm
    · rw [Function.update_of_ne hji]
      by_cases hki : k = i
      · rw [hki, Function.update_self]
        exact (hmoves.apart (h.disjoint hj hi hji) (h.allocated hj)).2
      · rw [Function.update_of_ne hki]
        exact h.disjoint hj hk hne

/-- One object more, on cells that were free. -/
theorem push (h : Beside L os ms feet s) {o' : O} {m' : M} {foot' : Set A} (hmoves : Moves ∅ foot' s s')
    (hholds : L.holds o' m' foot' s') :
    Beside L (os ++ [o']) (ms ++ [m']) (Function.update feet os.length foot') s' where
  length := by rw [List.length_append, List.length_append, h.length]; rfl
  holds {j o m} ho hm := by
    by_cases hj : j < os.length
    · rw [List.getElem?_append_left hj] at ho
      rw [List.getElem?_append_left (h.length ▸ hj)] at hm
      rw [Function.update_of_ne (Nat.ne_of_lt hj)]
      exact L.congr (h.holds ho hm) (hmoves.apart (Set.disjoint_empty _) (h.allocated hj)).1
    · obtain ⟨hlt, -⟩ := List.getElem?_eq_some_iff.mp ho
      rw [List.length_append, List.length_singleton] at hlt
      obtain rfl : j = os.length := by omega
      rw [List.getElem?_concat_length] at ho
      rw [h.length, List.getElem?_concat_length] at hm
      cases ho
      cases hm
      rw [Function.update_self]
      exact hholds
  disjoint {j k} hj hk hne := by
    rw [List.length_append, List.length_singleton] at hj hk
    have hnew : ∀ i, i < os.length → Disjoint (feet i) foot' := fun i hi =>
      (hmoves.apart (Set.disjoint_empty _) (h.allocated hi)).2
    by_cases hjl : j = os.length
    · have hkl : k < os.length := by omega
      rw [hjl, Function.update_self, Function.update_of_ne (Nat.ne_of_lt hkl)]
      exact (hnew k hkl).symm
    · have hjl' : j < os.length := by omega
      rw [Function.update_of_ne hjl]
      by_cases hkl : k = os.length
      · rw [hkl, Function.update_self]
        exact hnew j hjl'
      · rw [Function.update_of_ne hkl]
        exact h.disjoint hjl' (by omega) hne

/-- A step that belongs to nobody. -/
theorem keep (h : Beside L os ms feet s) (hkept : ∀ a, s a ≠ none → s' a = s a) : Beside L os ms feet s' where
  length := h.length
  holds {i o m} ho hm := by
    obtain ⟨hi, -⟩ := List.getElem?_eq_some_iff.mp ho
    exact L.congr (h.holds ho hm) fun a ha => hkept a (h.allocated hi a ha)
  disjoint := h.disjoint

/-- Other names for the same objects. -/
theorem rename {os' : List O} (h : Beside L os ms feet s)
    (hsame : List.Forall₂ (fun o o' => ∀ m foot, L.holds o m foot s → L.holds o' m foot s) os os') :
    Beside L os' ms feet s where
  length := hsame.length_eq ▸ h.length
  holds {i o' m} ho' hm := by
    obtain ⟨hi', rfl⟩ := List.getElem?_eq_some_iff.mp ho'
    have hi : i < os.length := hsame.length_eq ▸ hi'
    exact hsame.get hi hi' m _ (h.holds (List.getElem?_eq_getElem hi) hm)
  disjoint := hsame.length_eq ▸ h.disjoint

end Beside
end Footprint

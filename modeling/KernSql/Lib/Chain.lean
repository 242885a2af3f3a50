import Mathlib

/- Singly linked chains.

   `next` gives the successor of a cell and `nil` ends a chain. `Linked next nil
   head cells` says that walking from `head` visits exactly `cells` and then
   stops. A walk is determined by its head, so the cells are; and since it stops
   it visits no cell twice. What a chain is like after its cells or its links
   change is said by three rules: a change elsewhere keeps it (`Linked.congr`), a
   new cell in front extends it (`Linked.push`), and without its first cell it is
   the chain of the successor (`Linked.pop`). -/

/-- Walking from the head visits `cells` and stops at `nil`. -/
def Linked {α : Type} (next : α → α) (nil : α) : α → List α → Prop
  | head, [] => head = nil
  | head, c :: cs => head = c ∧ c ≠ nil ∧ Linked next nil (next c) cs

namespace Linked
variable {α : Type} {next next' : α → α} {nil head : α}

theorem pop {cs : List α} {c : α} (h : Linked next nil head (c :: cs)) : Linked next nil (next c) cs := h.2.2

theorem push {cs : List α} {c : α} (h : Linked next nil head cs) (hc : c ≠ nil) (hnext : next c = head) :
    Linked next nil c (c :: cs) := ⟨rfl, hc, hnext.symm ▸ h⟩

/-- A chain only depends on the links of its own cells. -/
theorem congr : ∀ {cs : List α} {head : α}, Linked next nil head cs → (∀ c ∈ cs, next' c = next c) →
    Linked next' nil head cs
  | [], _, h, _ => h
  | c :: _, _, h, hc => ⟨h.1, h.2.1, by
      rw [hc c (by simp)]
      exact congr h.2.2 fun d hd => hc d (by simp [hd])⟩

/-- The head of a chain that is not empty is its first cell. -/
theorem cons_of_ne {cs : List α} (h : Linked next nil head cs) (hne : head ≠ nil) :
    ∃ rest, cs = head :: rest ∧ Linked next nil (next head) rest := by
  cases cs with
  | nil => exact absurd h hne
  | cons c rest =>
    obtain ⟨rfl, _, hrest⟩ := h
    exact ⟨rest, rfl, hrest⟩

theorem eq_nil {cs : List α} (h : Linked next nil nil cs) : cs = [] := by
  cases cs with
  | nil => rfl
  | cons c rest => exact absurd h.1.symm h.2.1

/-- The cells decide the head. -/
theorem head_eq {cs : List α} {head' : α} (h : Linked next nil head cs) (h' : Linked next' nil head' cs) :
    head = head' := by
  cases cs with
  | nil => exact h.trans (Eq.symm h')
  | cons c rest => exact h.1.trans h'.1.symm

/-- The walk decides the cells. -/
theorem unique : ∀ {cs ds : List α} {head : α}, Linked next nil head cs → Linked next nil head ds → cs = ds
  | [], _, _, h, h' => by
    cases h
    exact h'.eq_nil.symm
  | c :: cs, ds, _, h, h' => by
    obtain ⟨rfl, hc, hrest⟩ := h
    obtain ⟨rest, rfl, hrest'⟩ := h'.cons_of_ne hc
    rw [unique hrest hrest']

/-- The rest of a walk that passes a cell is the walk from that cell. -/
theorem drop : ∀ {cs ds : List α} {head c : α}, Linked next nil head (cs ++ c :: ds) → Linked next nil c (c :: ds)
  | [], _, _, _, h => by
    obtain ⟨rfl, h⟩ := h
    exact ⟨rfl, h⟩
  | _ :: _, _, _, _, h => drop h.2.2

/-- A walk that stops visits no cell twice. -/
theorem nodup : ∀ {cs : List α} {head : α}, Linked next nil head cs → cs.Nodup
  | [], _, _ => List.nodup_nil
  | c :: cs, _, h => by
    refine List.nodup_cons.mpr ⟨fun hmem => ?_, nodup h.2.2⟩
    -- A second visit to c would start the same walk again, inside itself.
    obtain ⟨front, back, hsplit⟩ := List.append_of_mem hmem
    have hagain : Linked next nil c (c :: back) := drop (hsplit ▸ h.2.2)
    have hself : Linked next nil c (c :: cs) := ⟨rfl, h.2.1, h.2.2⟩
    have hlen := congrArg List.length (unique hself hagain)
    rw [hsplit] at hlen
    simp at hlen
    omega

end Linked

import Mathlib

/- Files of bytes under positioned reads and writes.

   A file is a size and a byte at every position below it; past the end every
   position counts as zero, which is what a write beyond the end leaves in
   between. Two writes one after the other are one write of the two parts
   (`write_append`), and that is all a transfer in pieces needs. -/

structure ByteFile where
  bytes : Nat → UInt8
  size : Nat
  past_end : ∀ i, size ≤ i → bytes i = 0

namespace ByteFile
variable {f g : ByteFile} {off off' len : Nat} {bs bs' : List UInt8}

@[ext] theorem ext (hb : ∀ i, f.bytes i = g.bytes i) (hs : f.size = g.size) : f = g := by
  cases f
  cases g
  cases hs
  cases funext hb
  rfl

def empty : ByteFile := ⟨fun _ => 0, 0, fun _ _ => rfl⟩

/-- The bytes `bs` at `off`, the file grown to hold them. -/
def write (f : ByteFile) (off : Nat) (bs : List UInt8) : ByteFile where
  bytes i := if off ≤ i ∧ i < off + bs.length then bs.getD (i - off) 0 else f.bytes i
  size := if bs = [] then f.size else max f.size (off + bs.length)
  past_end i hi := by
    by_cases hnil : bs = []
    · rw [if_pos hnil] at hi
      rw [if_neg (by simp [hnil]), f.past_end i hi]
    · rw [if_neg hnil] at hi
      rw [if_neg (by omega), f.past_end i (by omega)]

/-- The `len` bytes from `off` on. -/
def slice (f : ByteFile) (off len : Nat) : List UInt8 := (List.range len).map fun k => f.bytes (off + k)

@[simp] theorem length_slice : (f.slice off len).length = len := by simp [slice]

@[simp] theorem slice_zero : f.slice off 0 = [] := rfl

theorem slice_append (a b : Nat) : f.slice off (a + b) = f.slice off a ++ f.slice (off + a) b := by
  simp only [slice, List.range_add, List.map_append, List.map_map]
  congr 2
  funext k
  simp [Nat.add_assoc]

theorem slice_congr (h : ∀ i, off ≤ i → i < off + len → f.bytes i = g.bytes i) : f.slice off len = g.slice off len := by
  apply List.map_congr_left
  intro k hk
  have := List.mem_range.mp hk
  exact h _ (by omega) (by omega)

theorem size_write_of_ne (h : bs ≠ []) : (f.write off bs).size = max f.size (off + bs.length) := if_neg h

theorem size_le_write : f.size ≤ (f.write off bs).size := by
  by_cases h : bs = []
  · exact Nat.le_of_eq (if_pos h).symm
  · rw [size_write_of_ne h]
    exact le_max_left _ _

theorem bytes_write_off {i : Nat} (h : i < off ∨ off + bs.length ≤ i) : (f.write off bs).bytes i = f.bytes i :=
  if_neg (by omega)

theorem bytes_write_at {k : Nat} (h : k < bs.length) : (f.write off bs).bytes (off + k) = bs[k] := by
  have hpos : (f.write off bs).bytes (off + k) = bs.getD (off + k - off) 0 := if_pos (by omega)
  rw [hpos, Nat.add_sub_cancel_left]
  exact List.getD_eq_getElem _ _ h

@[simp] theorem write_nil : f.write off [] = f := by
  apply ext
  · intro i
    exact bytes_write_off (by simp; omega)
  · simp [write]

theorem slice_write_same : (f.write off bs).slice off bs.length = bs := by
  apply List.ext_getElem
  · simp
  · intro k _ hk
    simp only [slice, List.getElem_map, List.getElem_range]
    exact bytes_write_at hk

theorem slice_write_off (h : off' + len ≤ off ∨ off + bs.length ≤ off') :
    (f.write off bs).slice off' len = f.slice off' len := by
  apply slice_congr
  intro i _ _
  exact bytes_write_off (by omega)

/-- A write in two pieces. -/
theorem write_append : (f.write off bs).write (off + bs.length) bs' = f.write off (bs ++ bs') := by
  apply ext
  · intro i
    simp only [write, List.length_append]
    by_cases hfirst : off ≤ i ∧ i < off + bs.length
    · rw [if_neg (by omega), if_pos hfirst, if_pos (by omega), List.getD_append _ _ _ _ (by omega)]
    · by_cases hsecond : off + bs.length ≤ i ∧ i < off + bs.length + bs'.length
      · rw [if_pos hsecond, if_pos (by omega), List.getD_append_right _ _ _ _ (by omega), Nat.sub_sub]
      · rw [if_neg hsecond, if_neg hfirst, if_neg (by omega)]
  · by_cases h : bs = []
    · subst h
      simp [write]
    · by_cases h' : bs' = []
      · subst h'
        simp [write]
      · rw [size_write_of_ne h', size_write_of_ne h, size_write_of_ne (by simp [h]), List.length_append]
        omega

end ByteFile

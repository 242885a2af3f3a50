import Mathlib

/- Fixed-size byte regions and little-endian numbers.

   A `Region n` is `n` bytes. Code reaches it through a bounds-checked read
   (`read?`) and a bounds-checked write (`write?`), both in `Option`: `none` is
   an access outside the region, so a proof that a computation is `some` is a
   proof that it never leaves its bytes. The lemmas are stated about the
   unchecked `slice` and `write`, which the checked forms reduce to once the
   bound is known, and say what a slice reads after a write: the written bytes
   (`slice_write_same`, `slice_write_inside`) or what it read before
   (`slice_write_off`).

   `leBytes w n` are the `w` low bytes of `n`, least significant first, and
   `leNat` reads them back modulo `256 ^ w`. -/
namespace Bytes

/-! Little-endian numbers. -/

/-- The `w` low bytes of `n`, least significant first. -/
def leBytes : Nat → Nat → List UInt8
  | 0, _ => []
  | w + 1, n => UInt8.ofNat n :: leBytes w (n / 256)

def leNat : List UInt8 → Nat
  | [] => 0
  | b :: bs => b.toNat + 256 * leNat bs

@[simp] theorem leBytes_length (w n : Nat) : (leBytes w n).length = w := by
  induction w generalizing n with
  | zero => rfl
  | succ w ih => simp [leBytes, ih]

theorem leNat_leBytes (w n : Nat) : leNat (leBytes w n) = n % 256 ^ w := by
  induction w generalizing n with
  | zero => simp [leBytes, leNat, Nat.mod_one]
  | succ w ih =>
    have hb : (UInt8.ofNat n).toNat = n % 256 := by simp
    simp only [leBytes, leNat, ih, hb]
    rw [Nat.pow_succ, Nat.mul_comm (256 ^ w) 256, Nat.mod_mul]

theorem leNat_leBytes_of_lt {w n : Nat} (h : n < 256 ^ w) : leNat (leBytes w n) = n := by
  rw [leNat_leBytes, Nat.mod_eq_of_lt h]

theorem leNat_lt (bs : List UInt8) : leNat bs < 256 ^ bs.length := by
  induction bs with
  | nil => simp [leNat]
  | cons b bs ih =>
    have hb := b.toNat_lt
    simp only [leNat, List.length_cons, Nat.pow_succ]
    omega

/-- Bytes are the bytes of the number they spell. -/
theorem leBytes_leNat (bs : List UInt8) : leBytes bs.length (leNat bs) = bs := by
  induction bs with
  | nil => rfl
  | cons b bs ih =>
    have hlt := b.toNat_lt
    have hlow : UInt8.ofNat (b.toNat + 256 * leNat bs) = b := by
      apply UInt8.toNat_inj.mp
      rw [UInt8.toNat_ofNat']
      omega
    have hhigh : (b.toNat + 256 * leNat bs) / 256 = leNat bs := by omega
    rw [List.length_cons, leBytes, leNat, hlow, hhigh, ih]

/-- Records of one width, one after another: byte `k` of record `i`, and zero past the last. -/
theorem getD_flatMap {α : Type} {f : α → List UInt8} {w : Nat} (hw : ∀ a, (f a).length = w) (l : List α) (i k : Nat)
    (hk : k < w) : (l.flatMap f).getD (i * w + k) 0 = (l[i]?.map fun a => (f a).getD k 0).getD 0 := by
  induction l generalizing i with
  | nil => simp
  | cons a l ih =>
    rw [List.flatMap_cons]
    cases i with
    | zero =>
      rw [Nat.zero_mul, Nat.zero_add, List.getD_append _ _ _ _ (by rw [hw]; exact hk)]
      rfl
    | succ i =>
      rw [List.getD_append_right _ _ _ _ (by rw [hw, Nat.succ_mul]; omega), hw,
        show (i + 1) * w + k - w = i * w + k by rw [Nat.succ_mul]; omega, ih]
      rfl

/-- A field of a record laid out as a concatenation. -/
theorem field_eq {a b c : List UInt8} {i w : Nat} (ha : a.length = i) (hb : b.length = w) :
    ((a ++ b ++ c).drop i).take w = b := by
  subst ha hb; simp

/-! Regions. -/

/-- `n` bytes. -/
abbrev Region (n : Nat) := Fin n → UInt8

namespace Region
variable {n : Nat}

def zero : Region n := fun _ => 0

/-- The byte at an offset, `0` outside the region. -/
def byte (r : Region n) (i : Nat) : UInt8 := if h : i < n then r ⟨i, h⟩ else 0

/-- `len` bytes from `off`. -/
def slice (r : Region n) (off len : Nat) : List UInt8 :=
  (List.range len).map fun k => r.byte (off + k)

/-- The region with `bs` at `off`. -/
def write (r : Region n) (off : Nat) (bs : List UInt8) : Region n :=
  fun i => if off ≤ i.val ∧ i.val < off + bs.length then bs.getD (i.val - off) 0 else r i

/-- A read of `[off, off + len)`; `none` when it leaves the region. -/
def read? (r : Region n) (off len : Nat) : Option (List UInt8) :=
  if off + len ≤ n then some (r.slice off len) else none

/-- A write of `bs` at `off`; `none` when it leaves the region. -/
def write? (r : Region n) (off : Nat) (bs : List UInt8) : Option (Region n) :=
  if off + bs.length ≤ n then some (r.write off bs) else none

theorem read?_eq {r : Region n} {off len : Nat} (h : off + len ≤ n) :
    r.read? off len = some (r.slice off len) := if_pos h

theorem write?_eq {r : Region n} {off : Nat} {bs : List UInt8} (h : off + bs.length ≤ n) :
    r.write? off bs = some (r.write off bs) := if_pos h

@[simp] theorem slice_length (r : Region n) (off len : Nat) : (r.slice off len).length = len := by
  simp [slice]

@[simp] theorem slice_zero_len (r : Region n) (off : Nat) : r.slice off 0 = [] := rfl

@[simp] theorem byte_zero (i : Nat) : (zero : Region n).byte i = 0 := by
  unfold byte zero; split <;> rfl

theorem byte_write (r : Region n) (off : Nat) (bs : List UInt8) (i : Nat) (h : i < n) :
    (r.write off bs).byte i =
      if off ≤ i ∧ i < off + bs.length then bs.getD (i - off) 0 else r.byte i := by
  simp only [byte, h, dif_pos, write]

/-- A byte outside a write is what it was. -/
theorem byte_write_off {r : Region n} {off i : Nat} {bs : List UInt8} (h : i < off ∨ off + bs.length ≤ i) :
    (r.write off bs).byte i = r.byte i := by
  by_cases hi : i < n
  · rw [byte_write _ _ _ _ hi, if_neg (by omega)]
  · simp only [byte, dif_neg hi]

theorem read?_some {r : Region n} {off len : Nat} {bs : List UInt8} (h : r.read? off len = some bs) :
    off + len ≤ n ∧ bs = r.slice off len := by
  unfold read? at h
  split at h
  · next hle => exact ⟨hle, (Option.some.inj h).symm⟩
  · cases h

theorem write?_some {r r' : Region n} {off : Nat} {bs : List UInt8} (h : r.write? off bs = some r') :
    off + bs.length ≤ n ∧ r' = r.write off bs := by
  unfold write? at h
  split at h
  · next hle => exact ⟨hle, (Option.some.inj h).symm⟩
  · cases h

/-- Two regions with the same bytes are the same region. -/
theorem ext_byte {r r' : Region n} (h : ∀ i, i < n → r.byte i = r'.byte i) : r = r' := by
  funext i
  have := h i.val i.isLt
  simpa [byte] using this

@[simp] theorem write_nil (r : Region n) (off : Nat) : r.write off [] = r := by
  funext i
  simp only [write, List.length_nil, Nat.add_zero]
  rw [if_neg (by omega)]

theorem slice_getD (r : Region n) (off len k : Nat) (h : k < len) :
    (r.slice off len).getD k 0 = r.byte (off + k) := by
  simp [slice, List.getD, h]

theorem slice_congr {r r' : Region n} {off len : Nat}
    (h : ∀ k, k < len → r.byte (off + k) = r'.byte (off + k)) : r.slice off len = r'.slice off len := by
  unfold slice
  apply List.map_congr_left
  intro k hk
  exact h k (List.mem_range.mp hk)

theorem slice_append (r : Region n) (off a b : Nat) :
    r.slice off (a + b) = r.slice off a ++ r.slice (off + a) b := by
  simp [slice, List.range_add, Nat.add_assoc]

/-- A part of a slice is a slice. -/
theorem slice_drop_take (r : Region n) (off len a b : Nat) (h : a + b ≤ len) :
    ((r.slice off len).drop a).take b = r.slice (off + a) b := by
  obtain ⟨c, rfl⟩ : ∃ c, len = a + (b + c) := ⟨len - a - b, by omega⟩
  rw [slice_append, slice_append]
  simp

/-- A slice disjoint from a write reads what it read before. -/
theorem slice_write_off {r : Region n} {off : Nat} {bs : List UInt8} {o len : Nat}
    (hn : o + len ≤ n) (h : o + len ≤ off ∨ off + bs.length ≤ o) :
    (r.write off bs).slice o len = r.slice o len := by
  apply slice_congr
  intro k hk
  rw [byte_write _ _ _ _ (by omega), if_neg (by omega)]

/-- A slice inside a write reads the written bytes. -/
theorem slice_write_inside {r : Region n} {off : Nat} {bs : List UInt8} {o len : Nat}
    (hn : off + bs.length ≤ n) (h1 : off ≤ o) (h2 : o + len ≤ off + bs.length) :
    (r.write off bs).slice o len = (bs.drop (o - off)).take len := by
  apply List.ext_getElem
  · simp; omega
  · intro k hk hk'
    simp only [slice_length] at hk
    simp only [slice, List.getElem_map, List.getElem_range, List.getElem_take, List.getElem_drop]
    rw [byte_write _ _ _ _ (by omega), if_pos (by omega), List.getD_eq_getElem _ _ (by omega)]
    congr 1
    omega

theorem slice_write_same {r : Region n} {off : Nat} {bs : List UInt8} (hn : off + bs.length ≤ n) :
    (r.write off bs).slice off bs.length = bs := by
  rw [slice_write_inside hn (Nat.le_refl _) (Nat.le_refl _)]
  simp

/-- Writes to disjoint places commute. -/
theorem write_comm {r : Region n} {o o' : Nat} {bs bs' : List UInt8}
    (h : o + bs.length ≤ o' ∨ o' + bs'.length ≤ o) :
    (r.write o bs).write o' bs' = (r.write o' bs').write o bs := by
  funext i
  simp only [write]
  split_ifs
  · omega
  · rfl
  · rfl
  · rfl

end Region
end Bytes

import Subspace.U256

namespace Subspace

/-! ### `bidirectional_distance`

The distance of `lib.rs` is generic over `T: WrappingSub + Ord`; it is used on `U256` and on the
`u64` solution range. What it is for: the length of the shorter arc between two points of the
ring of `n`-bit words, `BitVec n`. -/

/-- `num_traits::WrappingSub` -/
class WrappingSub (α : Type) where
  wrappingSub : α → α → α

/-- `num_traits::WrappingAdd` -/
class WrappingAdd (α : Type) where
  wrappingAdd : α → α → α

/-- `Ord::min`: the first argument unless it compares greater than the second. -/
def ordMin {α : Type} [Ord α] (v1 v2 : α) : α :=
  match compare v1 v2 with
  | .gt => v2
  | _ => v1

/-- `bidirectional_distance` -/
def bidirectionalDistance {α : Type} [WrappingSub α] [Ord α] (a b : α) : α :=
  let diff := WrappingSub.wrappingSub a b
  let diff2 := WrappingSub.wrappingSub b a
  ordMin diff diff2

instance : WrappingSub U256 := ⟨U256.wrappingSub⟩

instance : WrappingAdd U256 := ⟨U256.wrappingAdd⟩

/-- `u64` implements the two traits by `u64::wrapping_sub` and `u64::wrapping_add`. -/
instance : WrappingSub UInt64 := ⟨fun a b => a - b⟩

instance : WrappingAdd UInt64 := ⟨fun a b => a + b⟩

theorem ordMin_measure {α : Type} [Ord α] (measure : α → Nat)
    (hcompare : ∀ x y : α, compare x y = compare (measure x) (measure y)) (v1 v2 : α) :
    measure (ordMin v1 v2) = min (measure v1) (measure v2) := by
  unfold ordMin
  rw [hcompare]
  split
  · rename_i hgt
    rw [Nat.compare_eq_gt] at hgt
    omega
  · rename_i hngt
    have hle : measure v1 ≤ measure v2 := by
      by_contra hlt
      exact hngt (Nat.compare_eq_gt.mpr (by omega))
    omega

theorem map_bidirectionalDistance {α β : Type} [WrappingSub α] [Ord α] [WrappingSub β] [Ord β]
    (f : α → β) (hsub : ∀ x y, f (WrappingSub.wrappingSub x y) = WrappingSub.wrappingSub (f x) (f y))
    (hcompare : ∀ x y, compare x y = compare (f x) (f y)) (a b : α) :
    f (bidirectionalDistance a b) = bidirectionalDistance (f a) (f b) := by
  simp only [bidirectionalDistance, ordMin, ← hsub, ← hcompare]
  split <;> rfl

section Words

variable {n : Nat}

instance : WrappingSub (BitVec n) := ⟨fun a b => a - b⟩

instance : WrappingAdd (BitVec n) := ⟨fun a b => a + b⟩

instance bitVecOrd : Ord (BitVec n) := ⟨fun a b => compare a.toNat b.toNat⟩

/-- The distance is the shorter of the two arcs from `b` to `a`. -/
theorem toNat_bidirectionalDistance (a b : BitVec n) :
    (bidirectionalDistance a b).toNat = min (a - b).toNat (2 ^ n - (a - b).toNat) := by
  have hback : (b - a).toNat = (2 ^ n - (a - b).toNat) % 2 ^ n := by
    rw [← neg_sub, BitVec.toNat_neg]
  have hlt := (a - b).isLt
  rw [bidirectionalDistance, ordMin_measure BitVec.toNat (fun _ _ => rfl)]
  show min (a - b).toNat (b - a).toNat = _
  rw [hback]
  rcases Nat.eq_zero_or_pos (a - b).toNat with hzero | hpos
  · simp [hzero]
  · rw [Nat.mod_eq_of_lt (by omega)]

theorem bidirectionalDistance_eq_zero_iff (a b : BitVec n) :
    bidirectionalDistance a b = 0 ↔ a = b := by
  have hlt := (a - b).isLt
  have hzero : ∀ x : BitVec n, x = 0 ↔ x.toNat = 0 := fun x => by rw [BitVec.toNat_eq]; simp
  rw [hzero, toNat_bidirectionalDistance, ← sub_eq_zero (a := a), hzero]
  omega

theorem bidirectionalDistance_comm (a b : BitVec n) :
    bidirectionalDistance a b = bidirectionalDistance b a := by
  apply BitVec.eq_of_toNat_eq
  simp only [bidirectionalDistance, ordMin_measure BitVec.toNat (fun _ _ => rfl)]
  exact min_comm _ _

theorem bidirectionalDistance_triangle (a b c : BitVec n) :
    (bidirectionalDistance a c).toNat ≤
      (bidirectionalDistance a b).toNat + (bidirectionalDistance b c).toNat := by
  have hsum : (a - c).toNat = ((a - b).toNat + (b - c).toNat) % 2 ^ n := by
    rw [← BitVec.toNat_add, sub_add_sub_cancel]
  have hab := (a - b).isLt
  have hbc := (b - c).isLt
  simp only [toNat_bidirectionalDistance, hsum]
  rcases Nat.lt_or_ge ((a - b).toNat + (b - c).toNat) (2 ^ n) with hlt | hge
  · rw [Nat.mod_eq_of_lt hlt]
    omega
  · rw [Nat.mod_eq_sub_mod hge, Nat.mod_eq_of_lt (by omega)]
    omega

theorem bidirectionalDistance_wrappingAdd (a b c : BitVec n) :
    bidirectionalDistance (WrappingAdd.wrappingAdd a c) (WrappingAdd.wrappingAdd b c) =
      bidirectionalDistance a b := by
  show ordMin (a + c - (b + c)) (b + c - (a + c)) = ordMin (a - b) (b - a)
  rw [add_sub_add_right_eq_sub, add_sub_add_right_eq_sub]

/-- On `n`-bit words `bidirectional_distance` is a translation-invariant metric. -/
theorem bidirectionalDistance_metric (a b c : BitVec n) :
    (bidirectionalDistance a b = 0 ↔ a = b) ∧
      bidirectionalDistance a b = bidirectionalDistance b a ∧
      (bidirectionalDistance a c).toNat ≤
        (bidirectionalDistance a b).toNat + (bidirectionalDistance b c).toNat ∧
      bidirectionalDistance (WrappingAdd.wrappingAdd a c) (WrappingAdd.wrappingAdd b c) =
        bidirectionalDistance a b :=
  ⟨bidirectionalDistance_eq_zero_iff a b, bidirectionalDistance_comm a b,
    bidirectionalDistance_triangle a b c, bidirectionalDistance_wrappingAdd a b c⟩

end Words

/-! `U256` and `u64` are the rings of 256-bit and of 64-bit words. -/

namespace U256

def toBitVec (x : U256) : BitVec 256 := BitVec.ofNat 256 x.toNat

theorem toNat_toBitVec (x : U256) : x.toBitVec.toNat = x.toNat := by
  rw [toBitVec, BitVec.toNat_ofNat, Nat.mod_eq_of_lt x.toNat_lt]

theorem toBitVec_injective : Function.Injective toBitVec := fun x y h =>
  ext_toNat (by rw [← toNat_toBitVec x, ← toNat_toBitVec y, h])

theorem toBitVec_wrappingSub (x y : U256) :
    (WrappingSub.wrappingSub x y).toBitVec = WrappingSub.wrappingSub x.toBitVec y.toBitVec := by
  apply BitVec.eq_of_toNat_eq
  show (x.overflowingSub y).1.toBitVec.toNat = (x.toBitVec - y.toBitVec).toNat
  rw [BitVec.toNat_sub, toNat_toBitVec, toNat_toBitVec, toNat_toBitVec, (overflowingSub_spec x y).1]

theorem toBitVec_wrappingAdd (x y : U256) :
    (WrappingAdd.wrappingAdd x y).toBitVec = WrappingAdd.wrappingAdd x.toBitVec y.toBitVec := by
  apply BitVec.eq_of_toNat_eq
  show (x.overflowingAdd y).1.toBitVec.toNat = (x.toBitVec + y.toBitVec).toNat
  rw [BitVec.toNat_add, toNat_toBitVec, toNat_toBitVec, toNat_toBitVec, (overflowingAdd_spec x y).1]

theorem compare_toBitVec (x y : U256) : compare x y = compare x.toBitVec y.toBitVec := by
  show compare x y = compare x.toBitVec.toNat y.toBitVec.toNat
  rw [toNat_toBitVec, toNat_toBitVec, compare_eq_compare_toNat]

theorem toBitVec_bidirectionalDistance (a b : U256) :
    (bidirectionalDistance a b).toBitVec = bidirectionalDistance a.toBitVec b.toBitVec :=
  map_bidirectionalDistance toBitVec toBitVec_wrappingSub compare_toBitVec a b

theorem toNat_bidirectionalDistance (a b : U256) :
    (bidirectionalDistance a b).toNat =
      min (a.wrappingSub b).toNat (2 ^ 256 - (a.wrappingSub b).toNat) := by
  rw [← toNat_toBitVec, toBitVec_bidirectionalDistance, Subspace.toNat_bidirectionalDistance]
  have hsub := toBitVec_wrappingSub a b
  change (a.wrappingSub b).toBitVec = a.toBitVec - b.toBitVec at hsub
  rw [← hsub, toNat_toBitVec]

/-- The distance never exceeds half the ring, `MIDDLE + 1`. -/
theorem toNat_bidirectionalDistance_le (a b : U256) :
    (bidirectionalDistance a b).toNat ≤ middle.toNat + 1 := by
  rw [toNat_bidirectionalDistance, toNat_middle]
  omega

/-- `MIDDLE` bounds the distance of two points exactly when they are not antipodal. -/
theorem bidirectionalDistance_le_middle_iff (a b : U256) :
    compare (bidirectionalDistance a b) middle ≠ .gt ↔ (a.wrappingSub b).toNat ≠ 2 ^ 255 := by
  have hlt := (a.wrappingSub b).toNat_lt
  rw [compare_eq_compare_toNat, Ne, Nat.compare_eq_gt, toNat_bidirectionalDistance, toNat_middle]
  omega

/-- The number `2 ^ 255`, the antipode of zero: the analogue of `0b1000_0000` for `u8`. -/
def antipode : U256 := ⟨[0, 0, 0, UInt64.ofNat (2 ^ 63)], rfl⟩

theorem toNat_antipode : antipode.toNat = 2 ^ 255 := rfl

/-- At `a = 2 ^ 255`, `b = 0` the distance is `2 ^ 255`, one above `MIDDLE = 2 ^ 255 - 1`. -/
theorem bidirectionalDistance_antipode_zero_gt_middle :
    compare (bidirectionalDistance antipode zero) middle = .gt := by
  have hsub : (antipode.wrappingSub zero).toNat = 2 ^ 255 := by
    rw [wrappingSub, (overflowingSub_spec antipode zero).1, toNat_antipode, toNat_zero]
    norm_num
  rw [compare_eq_compare_toNat, Nat.compare_eq_gt, toNat_bidirectionalDistance, hsub, toNat_middle]
  norm_num

end U256

namespace UInt64

theorem toBitVec_wrappingSub (x y : UInt64) :
    (WrappingSub.wrappingSub x y).toBitVec = WrappingSub.wrappingSub x.toBitVec y.toBitVec := rfl

theorem compare_toBitVec (x y : UInt64) : compare x y = compare x.toBitVec y.toBitVec :=
  Uint.compare_uint64 x y

theorem toBitVec_bidirectionalDistance (a b : UInt64) :
    (bidirectionalDistance a b).toBitVec = bidirectionalDistance a.toBitVec b.toBitVec :=
  map_bidirectionalDistance UInt64.toBitVec toBitVec_wrappingSub compare_toBitVec a b

/-- The distance of two solution ranges is at most `2 ^ 63`, half the ring, and reaches it exactly
when they are antipodal. -/
theorem bidirectionalDistance_le_half (a b : UInt64) :
    (bidirectionalDistance a b).toNat ≤ 2 ^ 63 ∧
      ((bidirectionalDistance a b).toNat = 2 ^ 63 ↔ (a - b).toNat = 2 ^ 63) := by
  have hdistance : (bidirectionalDistance a b).toNat =
      min (a - b).toNat (2 ^ 64 - (a - b).toNat) := by
    show (bidirectionalDistance a b).toBitVec.toNat = _
    rw [toBitVec_bidirectionalDistance, Subspace.toNat_bidirectionalDistance]
    rfl
  have hlt := (a - b).toNat_lt
  rw [hdistance]
  omega

end UInt64

/-! The metric on the types the code uses the distance on. -/

section Refinement

variable {α : Type} [WrappingSub α] [WrappingAdd α] [Ord α] {n : Nat} (f : α → BitVec n)
  (hinj : Function.Injective f)
  (hsub : ∀ x y, f (WrappingSub.wrappingSub x y) = WrappingSub.wrappingSub (f x) (f y))
  (hadd : ∀ x y, f (WrappingAdd.wrappingAdd x y) = WrappingAdd.wrappingAdd (f x) (f y))
  (hcompare : ∀ x y, compare x y = compare (f x) (f y))
include hinj hsub hadd hcompare

/-- A type that an injective map onto the words refines, keeping `wrapping_sub`, `wrapping_add`
and the order, has the words' metric. -/
theorem bidirectionalDistance_metric_of_refines (zero : α) (hzero : f zero = 0) (a b c : α) :
    (bidirectionalDistance a b = zero ↔ a = b) ∧
      bidirectionalDistance a b = bidirectionalDistance b a ∧
      (f (bidirectionalDistance a c)).toNat ≤
        (f (bidirectionalDistance a b)).toNat + (f (bidirectionalDistance b c)).toNat ∧
      bidirectionalDistance (WrappingAdd.wrappingAdd a c) (WrappingAdd.wrappingAdd b c) =
        bidirectionalDistance a b := by
  have hmap := map_bidirectionalDistance f hsub hcompare
  refine ⟨?_, hinj (by rw [hmap, hmap, bidirectionalDistance_comm]), ?_,
    hinj (by rw [hmap, hmap, hadd, hadd, bidirectionalDistance_wrappingAdd])⟩
  · rw [← hinj.eq_iff, hmap, hzero, bidirectionalDistance_eq_zero_iff, hinj.eq_iff]
  · simp only [hmap]
    exact bidirectionalDistance_triangle _ _ _

end Refinement

/-- On `U256` and on the `u64` solution range, the two types the code takes it on,
`bidirectional_distance` is a translation-invariant metric. -/
theorem bidirectionalDistance_metric_u256_u64 (a b c : U256) (x y z : UInt64) :
    ((bidirectionalDistance a b = U256.zero ↔ a = b) ∧
      bidirectionalDistance a b = bidirectionalDistance b a ∧
      (bidirectionalDistance a c).toNat ≤
        (bidirectionalDistance a b).toNat + (bidirectionalDistance b c).toNat ∧
      bidirectionalDistance (WrappingAdd.wrappingAdd a c) (WrappingAdd.wrappingAdd b c) =
        bidirectionalDistance a b) ∧
    ((bidirectionalDistance x y = 0 ↔ x = y) ∧
      bidirectionalDistance x y = bidirectionalDistance y x ∧
      (bidirectionalDistance x z).toNat ≤
        (bidirectionalDistance x y).toNat + (bidirectionalDistance y z).toNat ∧
      bidirectionalDistance (WrappingAdd.wrappingAdd x z) (WrappingAdd.wrappingAdd y z) =
        bidirectionalDistance x y) := by
  have hwide := bidirectionalDistance_metric_of_refines U256.toBitVec U256.toBitVec_injective
    U256.toBitVec_wrappingSub U256.toBitVec_wrappingAdd U256.compare_toBitVec U256.zero rfl a b c
  simp only [U256.toNat_toBitVec] at hwide
  exact ⟨hwide, bidirectionalDistance_metric_of_refines UInt64.toBitVec
    (fun _ _ => UInt64.eq_of_toBitVec_eq) UInt64.toBitVec_wrappingSub (fun _ _ => rfl)
    UInt64.compare_toBitVec 0 rfl x y z⟩

end Subspace

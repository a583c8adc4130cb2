import Subspace.Uint.DivMod
import Subspace.Uint.Endian

namespace Subspace

open Uint

/-- `U256`: the four little-endian words of `construct_uint! { pub struct U256(4); }`. The
newtype `U256` of `lib.rs` wraps it and forwards every operation used here, so the model keeps
one type for the two. -/
structure U256 where
  limbs : List UInt64
  length_limbs : limbs.length = 4
deriving DecidableEq

/-- Modelled from the spec: `PieceIndexHash` is declared in the `pieces` module, which is not part
of the sources. It is the 32-byte hash of a piece index: `AsRef<[u8]>` lends its bytes and
`From<[u8; 32]>` wraps them. -/
structure PieceIndexHash where
  hash : Mathlib.Vector UInt8 32
deriving DecidableEq

namespace U256

def toNat (x : U256) : Nat := value x.limbs

theorem toNat_lt (x : U256) : x.toNat < 2 ^ 256 := by
  simpa [x.length_limbs] using value_lt x.limbs

theorem ext_toNat {x y : U256} (h : x.toNat = y.toNat) : x = y := by
  obtain ⟨xs, hx⟩ := x
  obtain ⟨ys, hy⟩ := y
  simp only [mk.injEq]
  exact eq_of_value_eq (hx.trans hy.symm) h

/-- `u64::MAX` -/
def u64Max : UInt64 := UInt64.ofNat (2 ^ 64 - 1)

/-- `zero` -/
def zero : U256 := ⟨List.replicate 4 0, rfl⟩

/-- `From<u64>` -/
def fromU64 (number : UInt64) : U256 := ⟨Uint.fromU64 4 number, rfl⟩

/-- `From<u8>`: `construct_uint!` widens the number to `u64` and takes `From<u64>`; so do
`From<u16>` and `From<u32>`. -/
def fromU8 (number : UInt8) : U256 := fromU64 number.toUInt64

/-- `From<u16>` -/
def fromU16 (number : UInt16) : U256 := fromU64 number.toUInt64

/-- `From<u32>` -/
def fromU32 (number : UInt32) : U256 := fromU64 number.toUInt64

/-- Modelled from the spec: `From<u128>` of `construct_uint!` (the `uint` crate is not part of the
sources) puts the low 64 bits of the number in word 0 and the high 64 bits in word 1. -/
def fromU128 (number : Fin (2 ^ 128)) : U256 :=
  ⟨[UInt64.ofNat number.val, UInt64.ofNat (number.val / 2 ^ 64), 0, 0], rfl⟩

/-- `one`, built by `From<u64>`. -/
def one : U256 := fromU64 1

/-- `MAX`: every word `u64::MAX`. -/
def max : U256 := ⟨List.replicate 4 u64Max, rfl⟩

/-- `U256::MIDDLE` of `lib.rs`, written out as its words. -/
def middle : U256 := ⟨[u64Max, u64Max, u64Max, u64Max / 2], rfl⟩

@[simp] theorem toNat_zero : zero.toNat = 0 := rfl

@[simp] theorem toNat_fromU64 (number : UInt64) : (fromU64 number).toNat = number.toNat :=
  value_fromU64 4 number

@[simp] theorem toNat_max : max.toNat = 2 ^ 256 - 1 := rfl

@[simp] theorem toNat_middle : middle.toNat = 2 ^ 255 - 1 := rfl

/-! Arithmetic of `construct_uint!` on four words. -/

/-- `overflowing_add` -/
def overflowingAdd (x y : U256) : U256 × Bool :=
  (⟨(Uint.overflowingAdd x.limbs y.limbs).1,
      (overflowingAdd_spec (x.length_limbs.trans y.length_limbs.symm)).1.trans x.length_limbs⟩,
    (Uint.overflowingAdd x.limbs y.limbs).2)

/-- `overflowing_sub` -/
def overflowingSub (x y : U256) : U256 × Bool :=
  (⟨(Uint.overflowingSub x.limbs y.limbs).1,
      (overflowingSub_spec (x.length_limbs.trans y.length_limbs.symm)).1.trans x.length_limbs⟩,
    (Uint.overflowingSub x.limbs y.limbs).2)

/-- `overflowing_mul` -/
def overflowingMul (x y : U256) : U256 × Bool :=
  (⟨(Uint.overflowingMul 4 x.limbs y.limbs).1,
      (overflowingMul_spec x.length_limbs y.length_limbs).1⟩,
    (Uint.overflowingMul 4 x.limbs y.limbs).2)

/-- `WrappingAdd for U256`: the sum of `overflowing_add`. -/
def wrappingAdd (x y : U256) : U256 := (x.overflowingAdd y).1

/-- `WrappingSub for U256`: the difference of `overflowing_sub`. -/
def wrappingSub (x y : U256) : U256 := (x.overflowingSub y).1

/-- The body of `checked_add`, `checked_sub` and `checked_mul`: the result of the overflowing
operation unless its flag is raised. -/
def checkedOf (op : U256 × Bool) : Option U256 :=
  match op with
  | (_, true) => none
  | (val, _) => some val

/-- The body of `saturating_add`, `saturating_sub` and `saturating_mul`: `bound` when the flag
is raised. -/
def saturatingOf (bound : U256) (op : U256 × Bool) : U256 :=
  match op with
  | (_, true) => bound
  | (val, false) => val

/-- `checked_add` -/
def checkedAdd (x y : U256) : Option U256 := checkedOf (x.overflowingAdd y)

/-- `checked_sub` -/
def checkedSub (x y : U256) : Option U256 := checkedOf (x.overflowingSub y)

/-- `checked_mul` -/
def checkedMul (x y : U256) : Option U256 := checkedOf (x.overflowingMul y)

/-- `saturating_add` -/
def saturatingAdd (x y : U256) : U256 := saturatingOf max (x.overflowingAdd y)

/-- `saturating_sub`: a borrow saturates to zero. -/
def saturatingSub (x y : U256) : U256 := saturatingOf zero (x.overflowingSub y)

/-- `saturating_mul` -/
def saturatingMul (x y : U256) : U256 := saturatingOf max (x.overflowingMul y)

/-- The body of the `Add`, `Sub` and `Mul` operators of `construct_uint!`, which the derives of
`U256` forward to: the result, or the panic of `panic_on_overflow!` when the flag is raised. -/
def panickingOf (op : U256 × Bool) : Except String U256 :=
  match op with
  | (_, true) => .error "arithmetic operation overflow"
  | (val, false) => .ok val

/-- `Add` -/
def add (x y : U256) : Except String U256 := panickingOf (x.overflowingAdd y)

/-- `Sub` -/
def sub (x y : U256) : Except String U256 := panickingOf (x.overflowingSub y)

/-- `Mul` -/
def mul (x y : U256) : Except String U256 := panickingOf (x.overflowingMul y)

/-- `is_zero` -/
def isZero (x : U256) : Bool := x.limbs.all (· == 0)

/-- `div_mod`; the panic on a zero divisor is the error. -/
def divMod (x y : U256) : Except String (U256 × U256) :=
  match h : Uint.divMod x.limbs y.limbs with
  | .ok (q, r) =>
      .ok (⟨q, (length_divMod h).1.trans x.length_limbs⟩, ⟨r, (length_divMod h).2.trans x.length_limbs⟩)
  | .error e => .error e

/-- `Div`: the quotient of `div_mod`. -/
def div (x y : U256) : Except String U256 := (x.divMod y).map Prod.fst

/-- `Rem`: the remainder of `div_mod`. -/
def rem (x y : U256) : Except String U256 := (x.divMod y).map Prod.snd

/-- `checked_div`: `None` on a zero divisor, and else `Some(self / other)`, whose division would
panic on a zero divisor. -/
def checkedDiv (x y : U256) : Except String (Option U256) :=
  if y.isZero then .ok none else (x.div y).map some

/-- `Ord` of `construct_uint!`, derived by the newtype: the words compared from the most
significant one. -/
instance : Ord U256 := ⟨fun x y => cmpIter x.limbs.reverse y.limbs.reverse⟩

/-- `fits_word`: every word above the lowest is zero. -/
def fitsWord (x : U256) : Bool := (x.limbs.drop 1).all (· == 0)

/-- `TryFrom<U256> for u64` -/
def tryFrom (x : U256) : Except String UInt64 :=
  if !x.fitsWord || x.limbs.getD 0 0 > u64Max then .error "integer overflow when casting to u64"
  else .ok (x.limbs.getD 0 0)

/-! Byte order. -/

/-- `from_be_bytes` -/
def fromBeBytes (bytes : Mathlib.Vector UInt8 32) : U256 :=
  ⟨fromBigEndian 4 bytes.toList, length_fromBigEndian 4 _⟩

/-- `to_be_bytes`: `to_big_endian` writes all 32 bytes of the array. -/
def toBeBytes (x : U256) : Mathlib.Vector UInt8 32 :=
  ⟨toBigEndian x.limbs, by simp [x.length_limbs]⟩

/-- `from_le_bytes` -/
def fromLeBytes (bytes : Mathlib.Vector UInt8 32) : U256 :=
  ⟨fromLittleEndian 4 bytes.toList, length_fromLittleEndian 4 _⟩

/-- `to_le_bytes` -/
def toLeBytes (x : U256) : Mathlib.Vector UInt8 32 :=
  ⟨toLittleEndian x.limbs, by simp [x.length_limbs]⟩

/-- `From<PieceIndexHash> for U256`: the hash read big-endian. -/
def fromPieceIndexHash (hash : PieceIndexHash) : U256 :=
  ⟨fromBigEndian 4 hash.hash.toList, length_fromBigEndian 4 _⟩

end U256

/-- `From<U256> for PieceIndexHash`: the big-endian bytes. -/
def PieceIndexHash.fromU256 (number : U256) : PieceIndexHash :=
  ⟨number.toBeBytes⟩

namespace U256

/-! The byte conversions are inverse to each other. -/

theorem fromBeBytes_toBeBytes (x : U256) : fromBeBytes x.toBeBytes = x := by
  obtain ⟨limbs, hlimbs⟩ := x
  simpa [fromBeBytes, toBeBytes, hlimbs] using fromBigEndian_toBigEndian limbs

theorem toBeBytes_fromBeBytes (bytes : Mathlib.Vector UInt8 32) :
    (fromBeBytes bytes).toBeBytes = bytes :=
  Mathlib.Vector.toList_injective (toBigEndian_fromBigEndian (by simp))

theorem fromLeBytes_toLeBytes (x : U256) : fromLeBytes x.toLeBytes = x := by
  obtain ⟨limbs, hlimbs⟩ := x
  simpa [fromLeBytes, toLeBytes, hlimbs] using fromLittleEndian_toLittleEndian limbs

theorem toLeBytes_fromLeBytes (bytes : Mathlib.Vector UInt8 32) :
    (fromLeBytes bytes).toLeBytes = bytes :=
  Mathlib.Vector.toList_injective (toLittleEndian_fromLittleEndian (by simp))

theorem fromLeBytes_eq_fromBeBytes_reverse (bytes : Mathlib.Vector UInt8 32) :
    fromLeBytes bytes = fromBeBytes bytes.reverse := by
  simp only [fromLeBytes, fromBeBytes, mk.injEq, Mathlib.Vector.toList_reverse]
  rw [← fromLittleEndian_reverse (by simp), List.reverse_reverse]

theorem toNat_fromBeBytes (bytes : Mathlib.Vector UInt8 32) :
    (fromBeBytes bytes).toNat =
      ∑ i in Finset.range 32, (bytes.toList.getD i 0).toNat * 256 ^ (31 - i) := by
  rw [toNat, fromBeBytes, value_fromBigEndian (by simp), beValue_eq_sum, Mathlib.Vector.toList_length]

theorem fromPieceIndexHash_fromU256 (x : U256) :
    fromPieceIndexHash (PieceIndexHash.fromU256 x) = x :=
  fromBeBytes_toBeBytes x

theorem fromU256_fromPieceIndexHash (hash : PieceIndexHash) :
    PieceIndexHash.fromU256 (fromPieceIndexHash hash) = hash :=
  congrArg PieceIndexHash.mk (toBeBytes_fromBeBytes hash.hash)

/-- The byte conversions of `U256` are inverse to each other, the big-endian reading is the number
the bytes spell, and the conversions to and from `PieceIndexHash` are inverse to each other. -/
theorem byteConversions_inverse (x : U256) (bytes : Mathlib.Vector UInt8 32)
    (hash : PieceIndexHash) :
    fromBeBytes x.toBeBytes = x ∧ (fromBeBytes bytes).toBeBytes = bytes ∧
      fromLeBytes x.toLeBytes = x ∧ (fromLeBytes bytes).toLeBytes = bytes ∧
      fromLeBytes bytes = fromBeBytes bytes.reverse ∧
      (fromBeBytes bytes).toNat =
        ∑ i in Finset.range 32, (bytes.toList.getD i 0).toNat * 256 ^ (31 - i) ∧
      fromPieceIndexHash (PieceIndexHash.fromU256 x) = x ∧
      PieceIndexHash.fromU256 (fromPieceIndexHash hash) = hash :=
  ⟨fromBeBytes_toBeBytes x, toBeBytes_fromBeBytes bytes, fromLeBytes_toLeBytes x,
    toLeBytes_fromLeBytes bytes, fromLeBytes_eq_fromBeBytes_reverse bytes, toNat_fromBeBytes bytes,
    fromPieceIndexHash_fromU256 x, fromU256_fromPieceIndexHash hash⟩

/-! Addition, subtraction and multiplication against the numbers. -/

theorem overflowingAdd_spec (x y : U256) :
    (x.overflowingAdd y).1.toNat = (x.toNat + y.toNat) % 2 ^ 256 ∧
      ((x.overflowingAdd y).2 = true ↔ 2 ^ 256 ≤ x.toNat + y.toNat) := by
  have h := Uint.overflowingAdd_spec (x.length_limbs.trans y.length_limbs.symm)
  rw [x.length_limbs] at h
  simp only [overflowingAdd, toNat]
  exact h.2

theorem overflowingSub_spec (x y : U256) :
    (x.overflowingSub y).1.toNat = (2 ^ 256 - y.toNat + x.toNat) % 2 ^ 256 ∧
      ((x.overflowingSub y).2 = true ↔ x.toNat < y.toNat) := by
  have h := Uint.overflowingSub_spec (x.length_limbs.trans y.length_limbs.symm)
  rw [x.length_limbs] at h
  simp only [overflowingSub, toNat]
  exact h.2

theorem overflowingMul_spec (x y : U256) :
    (x.overflowingMul y).1.toNat = x.toNat * y.toNat % 2 ^ 256 ∧
      ((x.overflowingMul y).2 = true ↔ 2 ^ 256 ≤ x.toNat * y.toNat) := by
  simp only [overflowingMul, toNat]
  exact (Uint.overflowingMul_spec x.length_limbs y.length_limbs).2

theorem toNat_overflowingSub_of_le {x y : U256} (hle : y.toNat ≤ x.toNat) :
    (x.overflowingSub y).1.toNat = x.toNat - y.toNat := by
  have hx := x.toNat_lt
  rw [(overflowingSub_spec x y).1,
    show 2 ^ 256 - y.toNat + x.toNat = 2 ^ 256 + (x.toNat - y.toNat) by omega, Nat.add_mod_left,
    Nat.mod_eq_of_lt (by omega)]

theorem toNat_wrappingAdd (x y : U256) :
    (x.wrappingAdd y).toNat = (x.toNat + y.toNat) % 2 ^ 256 :=
  (overflowingAdd_spec x y).1

theorem toNat_wrappingSub (x y : U256) :
    ((x.wrappingSub y).toNat : Int) = ((x.toNat : Int) - y.toNat) % 2 ^ 256 := by
  have hcast : ((2 ^ 256 - y.toNat + x.toNat : Nat) : Int) = (x.toNat - y.toNat : Int) + 2 ^ 256 := by
    rw [Nat.cast_add, Nat.cast_sub y.toNat_lt.le]
    push_cast
    ring
  rw [wrappingSub, (overflowingSub_spec x y).1, Int.natCast_mod, hcast]
  push_cast
  exact Int.add_emod_self

theorem map_toNat_checkedOf {op : U256 × Bool} {inRange : Prop} [Decidable inRange] {exact : Nat}
    (hflag : op.2 = true ↔ ¬ inRange) (hres : inRange → op.1.toNat = exact) :
    (checkedOf op).map toNat = if inRange then some exact else none := by
  obtain ⟨val, flag⟩ := op
  cases flag
  · have hin : inRange := by simpa using hflag
    simp [checkedOf, hin, hres hin]
  · simp [checkedOf, hflag.mp rfl]

theorem toNat_saturatingOf {op : U256 × Bool} {inRange : Prop} [Decidable inRange] {exact : Nat}
    (bound : U256) (hflag : op.2 = true ↔ ¬ inRange) (hres : inRange → op.1.toNat = exact) :
    (saturatingOf bound op).toNat = if inRange then exact else bound.toNat := by
  obtain ⟨val, flag⟩ := op
  cases flag
  · have hin : inRange := by simpa using hflag
    simp [saturatingOf, hin, hres hin]
  · simp [saturatingOf, hflag.mp rfl]

theorem checkedAdd_map_toNat (x y : U256) :
    (x.checkedAdd y).map toNat =
      if x.toNat + y.toNat < 2 ^ 256 then some (x.toNat + y.toNat) else none :=
  map_toNat_checkedOf (by rw [(overflowingAdd_spec x y).2, not_lt])
    (fun h => by rw [(overflowingAdd_spec x y).1, Nat.mod_eq_of_lt h])

theorem checkedSub_map_toNat (x y : U256) :
    (x.checkedSub y).map toNat = if y.toNat ≤ x.toNat then some (x.toNat - y.toNat) else none :=
  map_toNat_checkedOf (by rw [(overflowingSub_spec x y).2, not_le]) toNat_overflowingSub_of_le

theorem checkedMul_map_toNat (x y : U256) :
    (x.checkedMul y).map toNat =
      if x.toNat * y.toNat < 2 ^ 256 then some (x.toNat * y.toNat) else none :=
  map_toNat_checkedOf (by rw [(overflowingMul_spec x y).2, not_lt])
    (fun h => by rw [(overflowingMul_spec x y).1, Nat.mod_eq_of_lt h])

theorem toNat_saturatingAdd (x y : U256) :
    (x.saturatingAdd y).toNat = min (x.toNat + y.toNat) (2 ^ 256 - 1) := by
  have hflag : (x.overflowingAdd y).2 = true ↔ ¬ x.toNat + y.toNat < 2 ^ 256 := by
    rw [(overflowingAdd_spec x y).2, not_lt]
  rw [saturatingAdd, toNat_saturatingOf U256.max hflag
    (fun h => by rw [(overflowingAdd_spec x y).1, Nat.mod_eq_of_lt h]), toNat_max]
  split_ifs <;> omega

theorem toNat_saturatingSub (x y : U256) : (x.saturatingSub y).toNat = x.toNat - y.toNat := by
  rw [saturatingSub, toNat_saturatingOf zero (by rw [(overflowingSub_spec x y).2, not_le])
    toNat_overflowingSub_of_le, toNat_zero]
  split_ifs <;> omega

theorem toNat_saturatingMul (x y : U256) :
    (x.saturatingMul y).toNat = min (x.toNat * y.toNat) (2 ^ 256 - 1) := by
  have hflag : (x.overflowingMul y).2 = true ↔ ¬ x.toNat * y.toNat < 2 ^ 256 := by
    rw [(overflowingMul_spec x y).2, not_lt]
  rw [saturatingMul, toNat_saturatingOf U256.max hflag
    (fun h => by rw [(overflowingMul_spec x y).1, Nat.mod_eq_of_lt h]), toNat_max]
  split_ifs <;> omega

/-- The operators panic exactly where the `checked_*` methods return `None`, and agree with them
elsewhere. -/
theorem panickingOf_eq (op : U256 × Bool) :
    panickingOf op = (checkedOf op).elim (.error "arithmetic operation overflow") .ok := by
  obtain ⟨val, flag⟩ := op
  cases flag <;> rfl

theorem operators_eq_checked (x y : U256) :
    x.add y = (x.checkedAdd y).elim (.error "arithmetic operation overflow") .ok ∧
      x.sub y = (x.checkedSub y).elim (.error "arithmetic operation overflow") .ok ∧
      x.mul y = (x.checkedMul y).elim (.error "arithmetic operation overflow") .ok :=
  ⟨panickingOf_eq (x.overflowingAdd y), panickingOf_eq (x.overflowingSub y),
    panickingOf_eq (x.overflowingMul y)⟩

theorem map_toNat_elim (result : Option U256) (message : String) :
    (result.elim (.error message) .ok : Except String U256).map toNat =
      (result.map toNat).elim (.error message) .ok := by
  cases result <;> rfl

/-- `+`, `-` and `*` of `U256` panic with `"arithmetic operation overflow"` exactly when the exact
result leaves `[0, 2 ^ 256)`, and return it otherwise. -/
theorem operators_map_toNat (x y : U256) :
    (x.add y).map toNat = (if x.toNat + y.toNat < 2 ^ 256 then .ok (x.toNat + y.toNat)
      else .error "arithmetic operation overflow") ∧
    (x.sub y).map toNat = (if y.toNat ≤ x.toNat then .ok (x.toNat - y.toNat)
      else .error "arithmetic operation overflow") ∧
    (x.mul y).map toNat = (if x.toNat * y.toNat < 2 ^ 256 then .ok (x.toNat * y.toNat)
      else .error "arithmetic operation overflow") := by
  obtain ⟨hadd, hsub, hmul⟩ := operators_eq_checked x y
  refine ⟨?_, ?_, ?_⟩
  · rw [hadd, map_toNat_elim, checkedAdd_map_toNat]
    split_ifs <;> rfl
  · rw [hsub, map_toNat_elim, checkedSub_map_toNat]
    split_ifs <;> rfl
  · rw [hmul, map_toNat_elim, checkedMul_map_toNat]
    split_ifs <;> rfl

/-! Order and the conversion to `u64`. -/

theorem compare_eq_compare_toNat (x y : U256) : compare x y = compare x.toNat y.toNat := by
  show cmpIter x.limbs.reverse y.limbs.reverse = _
  rw [cmpIter_eq_compare (by simp [x.length_limbs, y.length_limbs]), List.reverse_reverse,
    List.reverse_reverse]
  rfl

theorem isZero_iff (x : U256) : x.isZero = true ↔ x.toNat = 0 := by
  simp [isZero, toNat, value_eq_zero_iff]

theorem fitsWord_iff (x : U256) : x.fitsWord = true ↔ x.toNat < 2 ^ 64 := by
  obtain ⟨_ | ⟨low, rest⟩, hlimbs⟩ := x
  · simp at hlimbs
  · have hlow := low.toNat_lt
    have hiff : value rest = 0 ↔ low.toNat + 2 ^ 64 * value rest < 2 ^ 64 := by
      constructor
      · intro h
        rw [h]
        omega
      · intro h
        by_contra hne
        have := Nat.pos_of_ne_zero hne
        nlinarith
    show (rest.all (· == 0)) = true ↔ low.toNat + 2 ^ 64 * value rest < 2 ^ 64
    rw [← hiff, value_eq_zero_iff, List.all_eq_true]
    simp

theorem tryFrom_map_toNat (x : U256) :
    x.tryFrom.map UInt64.toNat =
      if x.toNat < 2 ^ 64 then .ok x.toNat else .error "integer overflow when casting to u64" := by
  have hword : (x.limbs.getD 0 0 > u64Max) = False := by
    simp only [GT.gt, UInt64.lt_def, BitVec.lt_def, eq_iff_iff, iff_false, not_lt]
    exact Nat.le_pred_of_lt (x.limbs.getD 0 0).toNat_lt
  by_cases hfits : x.toNat < 2 ^ 64
  · have hlow : x.toNat = (x.limbs.getD 0 0).toNat := value_eq_getD_zero hfits
    have hok : x.tryFrom = .ok (x.limbs.getD 0 0) := by
      rw [tryFrom, if_neg]
      simp only [(fitsWord_iff x).mpr hfits, hword, Bool.not_true, Bool.false_or, decide_False]
      exact Bool.false_ne_true
    rw [hok, if_pos hfits, hlow]
    rfl
  · rw [if_neg hfits]
    simp [tryFrom, (fitsWord_iff x).not.mpr hfits, Except.map]

/-! Division. -/

theorem divMod_of_uint {x y : U256} {q r : List UInt64} (h : Uint.divMod x.limbs y.limbs = .ok (q, r)) :
    ∃ q' r' : U256, x.divMod y = .ok (q', r') ∧ q'.limbs = q ∧ r'.limbs = r := by
  unfold divMod
  split
  · rename_i q₀ r₀ h₀
    rw [h] at h₀
    obtain ⟨rfl, rfl⟩ := Prod.mk.inj (Except.ok.inj h₀)
    exact ⟨_, _, rfl, rfl, rfl⟩
  · rename_i e h₀
    rw [h] at h₀
    cases h₀

theorem divMod_toNat (x : U256) {y : U256} (hy : 0 < y.toNat) :
    ∃ q r : U256, x.divMod y = .ok (q, r) ∧ q.toNat = x.toNat / y.toNat ∧
      r.toNat = x.toNat % y.toNat := by
  obtain ⟨q, r, hdiv, hq, hr⟩ := @divMod_of_pos x.limbs y.limbs hy
  obtain ⟨q', r', hdiv', rfl, rfl⟩ := divMod_of_uint hdiv
  exact ⟨q', r', hdiv', hq, hr⟩

theorem divMod_of_toNat_eq_zero (x : U256) {y : U256} (hy : y.toNat = 0) :
    x.divMod y = .error "division by zero" := by
  unfold divMod
  split
  · rename_i q r h
    rw [divMod_of_value_eq_zero hy] at h
    cases h
  · rename_i e h
    rw [divMod_of_value_eq_zero hy] at h
    cases h
    rfl

theorem div_map_toNat (x y : U256) :
    (x.div y).map toNat =
      if y.toNat = 0 then .error "division by zero" else .ok (x.toNat / y.toNat) := by
  split_ifs with hy
  · simp [div, divMod_of_toNat_eq_zero x hy, Except.map]
  · obtain ⟨q, r, hdiv, hq, -⟩ := x.divMod_toNat (Nat.pos_of_ne_zero hy)
    simp [div, hdiv, hq, Except.map]

theorem rem_map_toNat (x y : U256) :
    (x.rem y).map toNat =
      if y.toNat = 0 then .error "division by zero" else .ok (x.toNat % y.toNat) := by
  split_ifs with hy
  · simp [rem, divMod_of_toNat_eq_zero x hy, Except.map]
  · obtain ⟨q, r, hdiv, -, hr⟩ := x.divMod_toNat (Nat.pos_of_ne_zero hy)
    simp [rem, hdiv, hr, Except.map]

theorem checkedDiv_map_toNat (x y : U256) :
    (x.checkedDiv y).map (Option.map toNat) =
      .ok (if y.toNat = 0 then none else some (x.toNat / y.toNat)) := by
  rw [checkedDiv]
  by_cases hy : y.toNat = 0
  · rw [if_pos ((isZero_iff y).mpr hy), if_pos hy]
    rfl
  · have hdiv := div_map_toNat x y
    rw [if_neg hy] at hdiv
    rw [if_neg (mt (isZero_iff y).mp hy), if_neg hy]
    cases h : x.div y with
    | error e => rw [h] at hdiv; cases hdiv
    | ok z => rw [h] at hdiv; rw [← Except.ok.inj hdiv]; rfl

theorem rem_fromU64 (x : U256) {divisor : UInt64} (hdivisor : divisor ≠ 0) :
    ∃ r : U256, x.rem (fromU64 divisor) = .ok r ∧ r.toNat = x.toNat % divisor.toNat := by
  have hpos : 0 < divisor.toNat :=
    Nat.pos_of_ne_zero fun h => hdivisor (UInt64.ext (by rw [h]; rfl))
  obtain ⟨q, r, hdiv, -, hr⟩ :=
    x.divMod_toNat (y := fromU64 divisor) (by rw [toNat_fromU64]; exact hpos)
  exact ⟨r, by simp [rem, hdiv, Except.map], by rw [hr, toNat_fromU64]⟩

/-- Putting the quotient and the remainder back together with checked arithmetic gives the
dividend: neither `q * y` nor `q * y + r` overflows. -/
theorem div_rem_recompose (x : U256) {y : U256} (hy : 0 < y.toNat) :
    ∃ q r : U256, x.div y = .ok q ∧ x.rem y = .ok r ∧ r.toNat < y.toNat ∧
      (q.checkedMul y).bind (fun product => product.checkedAdd r) = some x := by
  obtain ⟨q, r, hdivMod, hq, hr⟩ := x.divMod_toNat hy
  have hsplit : q.toNat * y.toNat + r.toNat = x.toNat := by rw [hq, hr]; exact Nat.div_add_mod' _ _
  have hx := x.toNat_lt
  obtain ⟨product, hmul, hproduct⟩ := Option.map_eq_some'.mp
    ((checkedMul_map_toNat q y).trans (if_pos (lt_of_le_of_lt (Nat.le.intro hsplit) hx)))
  obtain ⟨sum, hadd, hsum⟩ := Option.map_eq_some'.mp
    ((checkedAdd_map_toNat product r).trans (if_pos (by rw [hproduct, hsplit]; exact hx)))
  refine ⟨q, r, by simp [div, hdivMod, Except.map], by simp [rem, hdivMod, Except.map],
    hr ▸ Nat.mod_lt _ hy, ?_⟩
  have hsumx : sum = x := ext_toNat (by rw [hsum, hproduct, hsplit])
  rw [hmul, Option.some_bind, hadd, hsumx]

theorem div_rem_recompose_seven_by_two :
    0 < (fromU64 2).toNat ∧ ∃ q r : U256, (fromU64 7).div (fromU64 2) = .ok q ∧
      (fromU64 7).rem (fromU64 2) = .ok r ∧ r.toNat < (fromU64 2).toNat ∧
      (q.checkedMul (fromU64 2)).bind (fun product => product.checkedAdd r) = some (fromU64 7) :=
  ⟨by decide, div_rem_recompose (fromU64 7) (by decide)⟩

/-! The operations of `U256` on the numbers they denote. -/

/-- Every arithmetic operation of `U256`, its order and its conversion to `u64`, stated on the
number `toNat` of the words. -/
theorem arithmetic_refines_nat (x y : U256) :
    (x.wrappingAdd y).toNat = (x.toNat + y.toNat) % 2 ^ 256 ∧
      ((x.wrappingSub y).toNat : Int) = ((x.toNat : Int) - y.toNat) % 2 ^ 256 ∧
      (x.checkedAdd y).map toNat =
        (if x.toNat + y.toNat < 2 ^ 256 then some (x.toNat + y.toNat) else none) ∧
      (x.checkedSub y).map toNat =
        (if y.toNat ≤ x.toNat then some (x.toNat - y.toNat) else none) ∧
      (x.checkedMul y).map toNat =
        (if x.toNat * y.toNat < 2 ^ 256 then some (x.toNat * y.toNat) else none) ∧
      (x.checkedDiv y).map (Option.map toNat) =
        .ok (if y.toNat = 0 then none else some (x.toNat / y.toNat)) ∧
      (x.saturatingAdd y).toNat = min (x.toNat + y.toNat) (2 ^ 256 - 1) ∧
      (x.saturatingSub y).toNat = x.toNat - y.toNat ∧
      (x.saturatingMul y).toNat = min (x.toNat * y.toNat) (2 ^ 256 - 1) ∧
      (x.rem y).map toNat =
        (if y.toNat = 0 then .error "division by zero" else .ok (x.toNat % y.toNat)) ∧
      compare x y = compare x.toNat y.toNat ∧
      x.tryFrom.map UInt64.toNat =
        (if x.toNat < 2 ^ 64 then .ok x.toNat else .error "integer overflow when casting to u64") :=
  ⟨toNat_wrappingAdd x y, toNat_wrappingSub x y, checkedAdd_map_toNat x y, checkedSub_map_toNat x y,
    checkedMul_map_toNat x y, checkedDiv_map_toNat x y, toNat_saturatingAdd x y,
    toNat_saturatingSub x y, toNat_saturatingMul x y, rem_map_toNat x y,
    compare_eq_compare_toNat x y, tryFrom_map_toNat x⟩

end U256

end Subspace

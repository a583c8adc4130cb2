import Mathlib

/-! Byte strings as the sources read them: `[u8; N]` arrays, and the little- and big-endian
readings of unsigned integers behind `to_le_bytes`, `from_le_bytes` and `from_be_bytes`. -/

namespace Subspace

def leBytes : Nat → Nat → List UInt8
  | 0, _ => []
  | w + 1, n => UInt8.ofNat n :: leBytes w (n / 256)

def leValue : List UInt8 → Nat
  | [] => 0
  | byte :: rest => byte.toNat + 256 * leValue rest

def beBytes (w n : Nat) : List UInt8 := (leBytes w n).reverse

def beValue (bytes : List UInt8) : Nat := leValue bytes.reverse

@[simp] theorem leBytes_zero (n : Nat) : leBytes 0 n = [] := rfl

@[simp] theorem leBytes_succ (w n : Nat) :
    leBytes (w + 1) n = UInt8.ofNat n :: leBytes w (n / 256) := rfl

@[simp] theorem leValue_nil : leValue [] = 0 := rfl

@[simp] theorem leValue_cons (byte : UInt8) (rest : List UInt8) :
    leValue (byte :: rest) = byte.toNat + 256 * leValue rest := rfl

@[simp] theorem length_leBytes (w n : Nat) : (leBytes w n).length = w := by
  induction w generalizing n with
  | zero => rfl
  | succ w ih => simp [ih]

@[simp] theorem length_beBytes (w n : Nat) : (beBytes w n).length = w := by
  simp [beBytes]

theorem toNat_uint8_ofNat (n : Nat) : (UInt8.ofNat n).toNat = n % 256 :=
  BitVec.toNat_ofNat ..

theorem leValue_leBytes (w n : Nat) : leValue (leBytes w n) = n % 256 ^ w := by
  induction w generalizing n with
  | zero => simp [Nat.mod_one]
  | succ w ih =>
      rw [leBytes_succ, leValue_cons, ih, toNat_uint8_ofNat, pow_succ', Nat.mod_mul]

theorem leBytes_leValue (bytes : List UInt8) : leBytes bytes.length (leValue bytes) = bytes := by
  induction bytes with
  | nil => rfl
  | cons byte rest ih =>
      have hbyte : byte.toNat < 256 := byte.toNat_lt
      rw [List.length_cons, leBytes_succ, leValue_cons,
        Nat.add_mul_div_left _ _ (by norm_num), Nat.div_eq_of_lt hbyte, Nat.zero_add, ih]
      congr 1
      apply UInt8.ext
      rw [toNat_uint8_ofNat]
      omega

theorem leValue_lt (bytes : List UInt8) : leValue bytes < 256 ^ bytes.length := by
  induction bytes with
  | nil => simp
  | cons byte rest ih =>
      have hbyte : byte.toNat < 256 := byte.toNat_lt
      rw [leValue_cons, List.length_cons, pow_succ']
      omega

theorem leValue_append (front back : List UInt8) :
    leValue (front ++ back) = leValue front + 256 ^ front.length * leValue back := by
  induction front with
  | nil => simp
  | cons byte rest ih =>
      rw [List.cons_append, leValue_cons, leValue_cons, ih, List.length_cons, pow_succ']
      ring

theorem leValue_eq_sum (bytes : List UInt8) :
    leValue bytes = ∑ i in Finset.range bytes.length, (bytes.getD i 0).toNat * 256 ^ i := by
  induction bytes with
  | nil => simp
  | cons byte rest ih =>
      rw [leValue_cons, ih, List.length_cons, Finset.sum_range_succ', Finset.mul_sum, add_comm]
      simp only [List.getD_cons_succ, List.getD_cons_zero, pow_zero, mul_one]
      congr 1
      exact Finset.sum_congr rfl fun i _ => by ring

theorem beValue_lt (bytes : List UInt8) : beValue bytes < 256 ^ bytes.length := by
  simpa [beValue] using leValue_lt bytes.reverse

theorem beValue_append (front back : List UInt8) :
    beValue (front ++ back) = beValue front * 256 ^ back.length + beValue back := by
  rw [beValue, List.reverse_append, leValue_append, List.length_reverse, beValue, beValue]
  ring

theorem beValue_cons (byte : UInt8) (rest : List UInt8) :
    beValue (byte :: rest) = byte.toNat * 256 ^ rest.length + beValue rest := by
  simpa [beValue] using beValue_append [byte] rest

theorem beValue_eq_sum (bytes : List UInt8) :
    beValue bytes =
      ∑ i in Finset.range bytes.length, (bytes.getD i 0).toNat * 256 ^ (bytes.length - 1 - i) := by
  induction bytes with
  | nil => rfl
  | cons byte rest ih =>
      rw [beValue_cons, ih, List.length_cons, Finset.sum_range_succ', add_comm]
      simp only [List.getD_cons_succ, List.getD_cons_zero, Nat.add_sub_cancel, Nat.sub_zero]
      congr 1
      refine Finset.sum_congr rfl fun i hi => ?_
      rw [Finset.mem_range] at hi
      congr 2
      omega

theorem beValue_reverse (bytes : List UInt8) : beValue bytes.reverse = leValue bytes := by
  simp [beValue]

end Subspace

namespace Subspace

/-! Rust's conversions between fixed-width unsigned integers and byte arrays. -/

/-- An unsigned integer type of `w` bytes as `to_le_bytes` and `from_le_bytes` see it: its number,
below `256 ^ w`, and back. -/
structure FixedWidth (α : Type) (w : Nat) where
  toNat : α → Nat
  ofNat : Nat → α
  toNat_lt : ∀ x, toNat x < 256 ^ w
  ofNat_toNat : ∀ x, ofNat (toNat x) = x
  toNat_ofNat : ∀ n, n < 256 ^ w → toNat (ofNat n) = n

namespace FixedWidth

variable {α : Type} {w : Nat} (width : FixedWidth α w)

/-- `to_le_bytes` -/
def toLeBytes (x : α) : Mathlib.Vector UInt8 w :=
  ⟨leBytes w (width.toNat x), length_leBytes w _⟩

/-- `from_le_bytes` -/
def fromLeBytes (bytes : Mathlib.Vector UInt8 w) : α :=
  width.ofNat (leValue bytes.toList)

theorem fromLeBytes_toLeBytes (x : α) : width.fromLeBytes (width.toLeBytes x) = x := by
  rw [fromLeBytes, toLeBytes, Mathlib.Vector.toList_mk, leValue_leBytes,
    Nat.mod_eq_of_lt (width.toNat_lt x), width.ofNat_toNat]

theorem toLeBytes_fromLeBytes (bytes : Mathlib.Vector UInt8 w) :
    width.toLeBytes (width.fromLeBytes bytes) = bytes := by
  have hlt := leValue_lt bytes.toList
  have hbytes := leBytes_leValue bytes.toList
  rw [Mathlib.Vector.toList_length] at hlt hbytes
  apply Mathlib.Vector.toList_injective
  rw [toLeBytes, fromLeBytes, Mathlib.Vector.toList_mk, width.toNat_ofNat _ hlt, hbytes]

end FixedWidth

theorem toNat_uint64_ofNat (n : Nat) : (UInt64.ofNat n).toNat = n % 2 ^ 64 :=
  BitVec.toNat_ofNat ..

/-- `u32` -/
def uint32Width : FixedWidth UInt32 4 where
  toNat := UInt32.toNat
  ofNat := UInt32.ofNat
  toNat_lt x := x.toNat_lt_size
  ofNat_toNat x := UInt32.toNat.inj (UInt32.toNat_ofNat_of_lt x.toNat_lt_size)
  toNat_ofNat _ h := UInt32.toNat_ofNat_of_lt h

/-- `u64` -/
def uint64Width : FixedWidth UInt64 8 where
  toNat := UInt64.toNat
  ofNat := UInt64.ofNat
  toNat_lt x := x.toNat_lt_size
  ofNat_toNat x := UInt64.toNat.inj (UInt64.toNat_ofNat_of_lt x.toNat_lt_size)
  toNat_ofNat _ h := UInt64.toNat_ofNat_of_lt h

end Subspace

/-- `u32::to_le_bytes` -/
def UInt32.toLeBytes (x : UInt32) : Mathlib.Vector UInt8 4 := Subspace.uint32Width.toLeBytes x

/-- `u32::from_le_bytes` -/
def UInt32.fromLeBytes (bytes : Mathlib.Vector UInt8 4) : UInt32 :=
  Subspace.uint32Width.fromLeBytes bytes

/-- `u64::to_le_bytes` -/
def UInt64.toLeBytes (x : UInt64) : Mathlib.Vector UInt8 8 := Subspace.uint64Width.toLeBytes x

/-- `u64::from_le_bytes` -/
def UInt64.fromLeBytes (bytes : Mathlib.Vector UInt8 8) : UInt64 :=
  Subspace.uint64Width.fromLeBytes bytes

/-- `u64::from_be_bytes` -/
def UInt64.fromBeBytes (bytes : Mathlib.Vector UInt8 8) : UInt64 :=
  UInt64.ofNat (Subspace.beValue bytes.toList)

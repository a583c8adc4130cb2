import Subspace.Uint.Limbs
import Subspace.Bytes

namespace Subspace.Uint

/-! ### Byte order: `from_little_endian`, `from_big_endian` and their inverses -/

/-- `LittleEndian::read_u64`: the word in the first eight bytes. -/
def readU64Le (bytes : List UInt8) : UInt64 :=
  UInt64.ofNat (leValue (bytes.take 8))

/-- `BigEndian::read_u64` -/
def readU64Be (bytes : List UInt8) : UInt64 :=
  UInt64.ofNat (beValue (bytes.take 8))

/-- `from_little_endian` of `construct_uint!`: the slice is padded with zeros at its end to
`8 * n_words` bytes, and word `i` is read from bytes `8 * i ..`. -/
def fromLittleEndian (nWords : Nat) (slice : List UInt8) : List UInt64 :=
  let padded := slice ++ List.replicate (nWords * 8 - slice.length) 0
  (List.range nWords).map fun i => readU64Le (padded.drop (8 * i))

/-- `from_big_endian`: the slice is padded with zeros in front, and word `n_words - i - 1` is read
from bytes `8 * i ..`. -/
def fromBigEndian (nWords : Nat) (slice : List UInt8) : List UInt64 :=
  let padded := List.replicate (nWords * 8 - slice.length) 0 ++ slice
  ((List.range nWords).map fun i => readU64Be (padded.drop (8 * i))).reverse

/-- `to_little_endian`: word `i` is written to bytes `8 * i ..`. -/
def toLittleEndian (limbs : List UInt64) : List UInt8 :=
  (limbs.map fun word => leBytes 8 word.toNat).flatten

/-- `to_big_endian`: word `n_words - i - 1` is written big-endian to bytes `8 * i ..`. -/
def toBigEndian (limbs : List UInt64) : List UInt8 :=
  (limbs.reverse.map fun word => beBytes 8 word.toNat).flatten

@[simp] theorem length_fromLittleEndian (nWords : Nat) (slice : List UInt8) :
    (fromLittleEndian nWords slice).length = nWords := by
  simp [fromLittleEndian]

@[simp] theorem length_fromBigEndian (nWords : Nat) (slice : List UInt8) :
    (fromBigEndian nWords slice).length = nWords := by
  simp [fromBigEndian]

@[simp] theorem length_toLittleEndian (limbs : List UInt64) :
    (toLittleEndian limbs).length = 8 * limbs.length := by
  induction limbs with
  | nil => rfl
  | cons word rest ih => simp [toLittleEndian] at ih ⊢; omega

theorem toBigEndian_eq_reverse (limbs : List UInt64) :
    toBigEndian limbs = (toLittleEndian limbs).reverse := by
  simp only [toBigEndian, toLittleEndian, List.reverse_flatten, List.map_map, List.map_reverse]
  rfl

@[simp] theorem length_toBigEndian (limbs : List UInt64) :
    (toBigEndian limbs).length = 8 * limbs.length := by
  simp [toBigEndian_eq_reverse]

theorem toNat_readU64Le (bytes : List UInt8) : (readU64Le bytes).toNat = leValue (bytes.take 8) := by
  have hlt := leValue_lt (bytes.take 8)
  have hlen : (bytes.take 8).length ≤ 8 := by simp
  have hpow : 256 ^ (bytes.take 8).length ≤ 2 ^ 64 :=
    (Nat.pow_le_pow_right (by norm_num) hlen).trans (by norm_num)
  rw [readU64Le, toNat_uint64_ofNat, Nat.mod_eq_of_lt (by omega)]

theorem toNat_readU64Be (bytes : List UInt8) : (readU64Be bytes).toNat = beValue (bytes.take 8) := by
  have hlt := beValue_lt (bytes.take 8)
  have hlen : (bytes.take 8).length ≤ 8 := by simp
  have hpow : 256 ^ (bytes.take 8).length ≤ 2 ^ 64 :=
    (Nat.pow_le_pow_right (by norm_num) hlen).trans (by norm_num)
  rw [readU64Be, toNat_uint64_ofNat, Nat.mod_eq_of_lt (by omega)]

theorem value_readU64Le_chunks : ∀ (n : Nat) (bytes : List UInt8), bytes.length = 8 * n →
    value ((List.range n).map fun i => readU64Le (bytes.drop (8 * i))) = leValue bytes
  | 0, bytes, hlength => by simp_all
  | n + 1, bytes, hlength => by
      have ih := value_readU64Le_chunks n (bytes.drop 8) (by simp [hlength]; omega)
      have hsplit := leValue_append (bytes.take 8) (bytes.drop 8)
      rw [List.take_append_drop, List.length_take, min_eq_left (by omega)] at hsplit
      simp only [List.range_succ_eq_map, List.map_cons, List.map_map, value_cons,
        Nat.mul_zero, List.drop_zero, toNat_readU64Le]
      rw [hsplit, ← ih]
      simp [Function.comp_def, Nat.mul_succ, List.drop_drop, Nat.add_comm]

theorem value_readU64Be_chunks : ∀ (n : Nat) (bytes : List UInt8), bytes.length = 8 * n →
    value ((List.range n).map fun i => readU64Be (bytes.drop (8 * i))).reverse = beValue bytes
  | 0, bytes, hlength => by simp_all [beValue]
  | n + 1, bytes, hlength => by
      have ih := value_readU64Be_chunks n (bytes.drop 8) (by simp [hlength]; omega)
      have hsplit := beValue_append (bytes.take 8) (bytes.drop 8)
      rw [List.take_append_drop, List.length_drop, hlength] at hsplit
      simp only [List.range_succ_eq_map, List.map_cons, List.map_map, value_reverse_cons,
        Nat.mul_zero, List.drop_zero, toNat_readU64Be, List.length_map, List.length_range]
      rw [hsplit, ← ih]
      simp [Function.comp_def, Nat.mul_succ, List.drop_drop, Nat.add_comm, pow_mul]

theorem value_fromLittleEndian {nWords : Nat} {slice : List UInt8}
    (hlength : slice.length ≤ 8 * nWords) : value (fromLittleEndian nWords slice) = leValue slice := by
  rw [fromLittleEndian, value_readU64Le_chunks nWords _ (by simp; omega), leValue_append]
  simp [leValue_eq_sum]

theorem value_fromBigEndian {nWords : Nat} {slice : List UInt8}
    (hlength : slice.length ≤ 8 * nWords) : value (fromBigEndian nWords slice) = beValue slice := by
  rw [fromBigEndian, value_readU64Be_chunks nWords _ (by simp; omega), beValue_append]
  simp [beValue_eq_sum]

theorem leValue_toLittleEndian (limbs : List UInt64) :
    leValue (toLittleEndian limbs) = value limbs := by
  induction limbs with
  | nil => rfl
  | cons word rest ih =>
      have hword := word.toNat_lt
      simp only [toLittleEndian, List.map_cons, List.flatten_cons] at ih ⊢
      rw [leValue_append, ih, leValue_leBytes, length_leBytes, value_cons,
        Nat.mod_eq_of_lt (by simpa using hword)]
      norm_num

theorem beValue_toBigEndian (limbs : List UInt64) :
    beValue (toBigEndian limbs) = value limbs := by
  rw [toBigEndian_eq_reverse, beValue_reverse, leValue_toLittleEndian]

theorem eq_of_leValue_eq {front back : List UInt8} (hlength : front.length = back.length)
    (hvalue : leValue front = leValue back) : front = back := by
  rw [← leBytes_leValue front, ← leBytes_leValue back, hlength, hvalue]

theorem fromLittleEndian_toLittleEndian (limbs : List UInt64) :
    fromLittleEndian limbs.length (toLittleEndian limbs) = limbs :=
  eq_of_value_eq (by simp) (by rw [value_fromLittleEndian (by simp), leValue_toLittleEndian])

theorem fromBigEndian_toBigEndian (limbs : List UInt64) :
    fromBigEndian limbs.length (toBigEndian limbs) = limbs :=
  eq_of_value_eq (by simp) (by rw [value_fromBigEndian (by simp), beValue_toBigEndian])

theorem toLittleEndian_fromLittleEndian {nWords : Nat} {bytes : List UInt8}
    (hlength : bytes.length = 8 * nWords) : toLittleEndian (fromLittleEndian nWords bytes) = bytes :=
  eq_of_leValue_eq (by simp [hlength])
    (by rw [leValue_toLittleEndian, value_fromLittleEndian hlength.le])

theorem toBigEndian_fromBigEndian {nWords : Nat} {bytes : List UInt8}
    (hlength : bytes.length = 8 * nWords) : toBigEndian (fromBigEndian nWords bytes) = bytes := by
  have hrev := @eq_of_leValue_eq (toBigEndian (fromBigEndian nWords bytes)).reverse
    bytes.reverse (by simp [hlength])
    (by rw [← beValue_reverse, ← beValue_reverse, List.reverse_reverse, List.reverse_reverse,
      beValue_toBigEndian, value_fromBigEndian hlength.le])
  simpa using hrev

theorem fromLittleEndian_reverse {nWords : Nat} {bytes : List UInt8}
    (hlength : bytes.length ≤ 8 * nWords) :
    fromLittleEndian nWords bytes.reverse = fromBigEndian nWords bytes :=
  eq_of_value_eq (by simp) (by
    rw [value_fromLittleEndian (by simpa using hlength), value_fromBigEndian hlength,
      ← beValue_reverse, List.reverse_reverse])

end Subspace.Uint

import Subspace.Uint.Mul

namespace Subspace.Uint

/-! ### `bits`, `div_mod_word` and `div_mod_small` -/

/-- The scan of `bits` over the words from the most significant one: the first nonzero word
gives the bit length; the lowest word is read whatever it holds. -/
def bitsRev : List UInt64 → Nat
  | [] => 0
  | [low] => 64 - low.leadingZeros
  | word :: rest => if word > 0 then 64 * (rest.length + 1) - word.leadingZeros else bitsRev rest

/-- `bits` of `construct_uint!`: the number of significant bits. -/
def bits (limbs : List UInt64) : Nat :=
  bitsRev limbs.reverse

/-- `words`: how many words a number of `bits > 0` significant bits occupies. -/
def words (bits : Nat) : Nat :=
  1 + (bits - 1) / 64

/-- Modelled from the spec: `div_mod_word` of the `uint` crate, which is not part of the sources.
It is the 128-by-64-bit division of the two-word number `hi * 2 ^ 64 + lo` by `y`, whose caller
keeps `hi < y` so that the quotient fits in one word. -/
def divModWord (hi lo y : UInt64) : UInt64 × UInt64 :=
  let x := hi.toNat * 2 ^ 64 + lo.toNat
  (UInt64.ofNat (x / y.toNat), UInt64.ofNat (x % y.toNat))

/-- The loop of `div_mod_small` over the words from the most significant one: each word is
replaced by its quotient digit and the remainder moves down to the next word. -/
def divModSmallRev (other : UInt64) : List UInt64 → UInt64 → List UInt64 × UInt64
  | [], rem => ([], rem)
  | d :: rest, rem =>
      let (q, r) := divModWord rem d other
      let (qs, rem) := divModSmallRev other rest r
      (q :: qs, rem)

/-- `From<u64>` of `construct_uint!` with `n_words` words. -/
def fromU64 (nWords : Nat) (value : UInt64) : List UInt64 :=
  value :: List.replicate (nWords - 1) 0

/-- `div_mod_small`: division by a number that fits in one word. -/
def divModSmall (me : List UInt64) (other : UInt64) : List UInt64 × List UInt64 :=
  let (q, rem) := divModSmallRev other me.reverse 0
  (q.reverse, fromU64 me.length rem)

/-! Bit lengths. -/

theorem size_leadingZeros (x : UInt64) : 64 - x.leadingZeros = x.toNat.size := by
  have hsize : x.toNat.size ≤ 64 := Nat.size_le.mpr x.toNat_lt
  unfold UInt64.leadingZeros
  omega

theorem size_mul_pow_add {w v k : Nat} (hw : 0 < w) (hv : v < 2 ^ k) :
    (w * 2 ^ k + v).size = w.size + k := by
  apply le_antisymm
  · rw [Nat.size_le, pow_add]
    have hlt : w + 1 ≤ 2 ^ w.size := Nat.lt_size_self w
    nlinarith [Nat.mul_le_mul_right (2 ^ k) hlt]
  · have hpos : 0 < w.size := Nat.size_pos.mpr hw
    have hlow : 2 ^ (w.size - 1) ≤ w := Nat.lt_size.mp (by omega)
    have hge : 2 ^ (w.size - 1 + k) ≤ w * 2 ^ k + v := by
      rw [pow_add]
      nlinarith [Nat.mul_le_mul_right (2 ^ k) hlow]
    have := Nat.lt_size.mpr hge
    omega

theorem bitsRev_eq_size : ∀ rev : List UInt64, bitsRev rev = (value rev.reverse).size
  | [] => by simp [bitsRev]
  | [low] => by simp [bitsRev, size_leadingZeros]
  | word :: next :: rest => by
      have ih := bitsRev_eq_size (next :: rest)
      simp only [bitsRev, value_reverse_cons]
      split_ifs with hword
      · have hpos : 0 < word.toNat := hword
        have hrest := value_lt (next :: rest).reverse
        rw [value_reverse_cons, List.length_reverse, List.length_cons] at hrest
        rw [List.length_cons, size_mul_pow_add hpos hrest,
          ← size_leadingZeros]
        have := word.toNat_lt
        have hlz : word.leadingZeros ≤ 64 := by unfold UInt64.leadingZeros; omega
        omega
      · have hzero : word.toNat = 0 := by
          have : ¬ 0 < word.toNat := hword
          omega
        rw [hzero, Nat.zero_mul, Nat.zero_add, ← value_reverse_cons, ← ih]

theorem bits_eq_size (limbs : List UInt64) : bits limbs = (value limbs).size := by
  rw [bits, bitsRev_eq_size, List.reverse_reverse]

theorem bits_eq_zero_iff (limbs : List UInt64) : bits limbs = 0 ↔ value limbs = 0 := by
  rw [bits_eq_size, Nat.size_eq_zero]

theorem value_lt_of_bits_lt {me you : List UInt64} (h : bits me < bits you) :
    value me < value you := by
  rw [bits_eq_size, bits_eq_size] at h
  by_contra hge
  exact absurd (Nat.size_le_size (not_lt.mp hge)) (not_le.mpr h)

theorem value_lt_of_bits_le {limbs : List UInt64} {n : Nat} (h : bits limbs ≤ n) :
    value limbs < 2 ^ n := by
  rw [bits_eq_size] at h
  exact Nat.size_le.mp h

/-! The small divisor. -/

theorem divModWord_spec {hi lo y : UInt64} (hhi : hi.toNat < y.toNat) :
    (divModWord hi lo y).1.toNat * y.toNat + (divModWord hi lo y).2.toNat =
        hi.toNat * 2 ^ 64 + lo.toNat ∧
      (divModWord hi lo y).2.toNat < y.toNat := by
  have hlo := lo.toNat_lt
  have hy := y.toNat_lt
  have hq : (hi.toNat * 2 ^ 64 + lo.toNat) / y.toNat < 2 ^ 64 := by
    rw [Nat.div_lt_iff_lt_mul (by omega)]
    nlinarith
  have hr := Nat.mod_lt (hi.toNat * 2 ^ 64 + lo.toNat) (show 0 < y.toNat by omega)
  simp only [divModWord, toNat_uint64_ofNat, Nat.mod_eq_of_lt hq, Nat.mod_eq_of_lt (hr.trans hy)]
  exact ⟨Nat.div_add_mod' _ _, hr⟩

@[simp] theorem length_divModSmallRev (other : UInt64) :
    ∀ (rev : List UInt64) (rem : UInt64), (divModSmallRev other rev rem).1.length = rev.length
  | [], _ => rfl
  | _ :: rest, _ => by simp [divModSmallRev, length_divModSmallRev other rest]

theorem divModSmallRev_spec {other : UInt64} (hother : 0 < other.toNat) :
    ∀ (rev : List UInt64) (rem : UInt64), rem.toNat < other.toNat →
      value (divModSmallRev other rev rem).1.reverse * other.toNat +
          (divModSmallRev other rev rem).2.toNat =
        rem.toNat * 2 ^ (64 * rev.length) + value rev.reverse ∧
      (divModSmallRev other rev rem).2.toNat < other.toNat
  | [], rem, hrem => by simp [divModSmallRev, hrem]
  | d :: rest, rem, hrem => by
      obtain ⟨hword, hr⟩ := @divModWord_spec rem d other hrem
      obtain ⟨ih, hlast⟩ := divModSmallRev_spec hother rest (divModWord rem d other).2 hr
      refine ⟨?_, hlast⟩
      have hlen := length_divModSmallRev other rest (divModWord rem d other).2
      simp only [divModSmallRev, value_reverse_cons, hlen, List.length_cons, Nat.mul_succ,
        pow_add] at ih ⊢
      linear_combination 2 ^ (64 * rest.length) * hword + ih

theorem length_fromU64 {nWords : Nat} (h : 0 < nWords) (value : UInt64) :
    (fromU64 nWords value).length = nWords := by
  simp [fromU64]
  omega

@[simp] theorem value_fromU64 (nWords : Nat) (word : UInt64) :
    value (fromU64 nWords word) = word.toNat := by
  simp [fromU64, value_eq_zero_iff.mpr (fun w hw => List.eq_of_mem_replicate hw)]

theorem divModSmall_spec {me : List UInt64} {other : UInt64} (hother : 0 < other.toNat) :
    value (divModSmall me other).1 * other.toNat + value (divModSmall me other).2 = value me ∧
      value (divModSmall me other).2 < other.toNat := by
  obtain ⟨hdiv, hrem⟩ := divModSmallRev_spec hother me.reverse 0 hother
  have hzero : (0 : UInt64).toNat = 0 := rfl
  rw [hzero, Nat.zero_mul, Nat.zero_add, List.reverse_reverse] at hdiv
  simpa only [divModSmall, value_fromU64] using ⟨hdiv, hrem⟩

theorem length_divModSmall {me : List UInt64} (hme : 0 < me.length) (other : UInt64) :
    (divModSmall me other).1.length = me.length ∧ (divModSmall me other).2.length = me.length := by
  simp [divModSmall, length_fromU64 hme]

end Subspace.Uint

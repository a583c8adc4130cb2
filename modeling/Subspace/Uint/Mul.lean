import Subspace.Uint.Limbs

namespace Subspace.Uint

/-! ### `uint_full_mul_reg!` and `uint_overflowing_mul!` -/

/-- `split_u128`: the high and the low word of a number below `2 ^ 128`. -/
def splitU128 (a : Nat) : UInt64 × UInt64 :=
  (UInt64.ofNat (a / 2 ^ 64), UInt64.ofNat a)

/-- The first block of a pass: `ret[k] += low`, giving back the overflow. -/
def addLow (ret : List UInt64) (k : Nat) (low : UInt64) : List UInt64 × Bool :=
  let sum := low.overflowingAdd (ret.getD k 0)
  (ret.set k sum.1, sum.2)

/-- The second block of a pass: `ret[k] += hi + overflow + carry`, giving back the next carry
`(o0 | o1) as u64`. -/
def addHigh (ret : List UInt64) (k : Nat) (hi : UInt64) (overflow : Bool) (carry : UInt64) :
    List UInt64 × UInt64 :=
  let hi := hi + UInt64.ofNat overflow.toNat
  let hi0 := hi.overflowingAdd carry
  let hi1 := hi0.1.overflowingAdd (ret.getD k 0)
  (ret.set k hi1.1, UInt64.ofNat (hi0.2 || hi1.2).toNat)

/-- Pass `j` of the inner loop of `uint_full_mul_reg!` in row `i`, where `b = you[i]`: the
product `me[j] * b` goes to words `i + j` and `i + j + 1` of `ret`, with the carry left by
pass `j - 1` added to word `i + j + 1`. -/
def fullMulStep (me : List UInt64) (b : UInt64) (i : Nat) :
    List UInt64 × UInt64 → Nat → List UInt64 × UInt64
  | (ret, carry), j =>
      let split := splitU128 ((me.getD j 0).toNat * b.toNat)
      let low := addLow ret (i + j) split.2
      addHigh low.1 (i + j + 1) split.1 low.2 carry

/-- Row `i` of `uint_full_mul_reg!`: the inner loop over `j < n_words` from carry `0`; the
carry left after the last pass is dropped. -/
def fullMulRow (nWords : Nat) (me : List UInt64) (b : UInt64) (i : Nat)
    (ret : List UInt64) : List UInt64 :=
  ((List.range nWords).foldl (fullMulStep me b i) (ret, 0)).1

/-- `uint_full_mul_reg!`: the schoolbook product of two `n_words`-word numbers, in
`2 * n_words` words. -/
def fullMulReg (nWords : Nat) (me you : List UInt64) : List UInt64 :=
  (List.range nWords).foldl (fun ret i => fullMulRow nWords me (you.getD i 0) i ret)
    (List.replicate (2 * nWords) 0)

/-- `uint_overflowing_mul!`: the low `n_words` words of the full product, and whether any of its
high words is nonzero. -/
def overflowingMul (nWords : Nat) (me you : List UInt64) : List UInt64 × Bool :=
  let ret := fullMulReg nWords me you
  (ret.take nWords, (ret.drop nWords).any (· != 0))

/-! Word lists under `set` and `take`. -/

theorem value_set : ∀ (limbs : List UInt64) (k : Nat) (word : UInt64), k < limbs.length →
    value (limbs.set k word) + (limbs.getD k 0).toNat * 2 ^ (64 * k) =
      value limbs + word.toNat * 2 ^ (64 * k)
  | [], _, _, hk => absurd hk (Nat.not_lt_zero _)
  | _ :: rest, 0, word, _ => by simp; ring
  | first :: rest, k + 1, word, hk => by
      have ih := value_set rest k word (by simpa using hk)
      simp only [List.set_cons_succ, value_cons, List.getD_cons_succ, Nat.mul_succ, pow_add]
      linear_combination 2 ^ 64 * ih

theorem getD_set_ne (limbs : List UInt64) {k k' : Nat} (word : UInt64) (hne : k ≠ k') :
    (limbs.set k word).getD k' 0 = limbs.getD k' 0 := by
  simp [List.getElem?_set_ne hne]

theorem value_take_succ : ∀ (limbs : List UInt64) (j : Nat),
    value (limbs.take (j + 1)) = value (limbs.take j) + (limbs.getD j 0).toNat * 2 ^ (64 * j)
  | [], _ => by simp
  | _ :: _, 0 => by simp
  | first :: rest, j + 1 => by
      rw [List.take_succ_cons, List.take_succ_cons, value_cons, value_cons, value_take_succ rest j,
        List.getD_cons_succ, Nat.mul_succ, pow_add]
      ring

theorem value_take_of_length_le {limbs : List UInt64} {n : Nat} (h : limbs.length ≤ n) :
    value (limbs.take n) = value limbs := by
  rw [List.take_of_length_le h]

/-! The pass: what one iteration of the inner loop adds. -/

section Pass

variable {me ret : List UInt64} {b carry : UInt64} {i j : Nat}

private theorem splitU128_exact (a b : UInt64) :
    (splitU128 (a.toNat * b.toNat)).1.toNat * 2 ^ 64 + (splitU128 (a.toNat * b.toNat)).2.toNat =
        a.toNat * b.toNat ∧
      (splitU128 (a.toNat * b.toNat)).1.toNat ≤ 2 ^ 64 - 2 := by
  have ha := a.toNat_lt
  have hb := b.toNat_lt
  have hprod : a.toNat * b.toNat ≤ (2 ^ 64 - 1) * (2 ^ 64 - 1) :=
    Nat.mul_le_mul (by omega) (by omega)
  have hhi : a.toNat * b.toNat / 2 ^ 64 ≤ 2 ^ 64 - 2 := by omega
  simp only [splitU128, toNat_uint64_ofNat]
  refine ⟨?_, ?_⟩ <;> omega

private theorem overflowingAdd_twice (x c old : UInt64) (hsmall : x.toNat + c.toNat ≤ 2 ^ 64) :
    ((x.overflowingAdd c).1.overflowingAdd old).1.toNat +
        ((x.overflowingAdd c).2 || ((x.overflowingAdd c).1.overflowingAdd old).2).toNat * 2 ^ 64 =
      x.toNat + c.toNat + old.toNat := by
  have hold := old.toNat_lt
  have f0 := UInt64.overflowingAdd_snd x c
  have f1 := UInt64.overflowingAdd_snd (x.overflowingAdd c).1 old
  simp only [UInt64.toNat_overflowingAdd_fst] at f1 ⊢
  cases h0 : (x.overflowingAdd c).2 <;> cases h1 : ((x.overflowingAdd c).1.overflowingAdd old).2 <;>
    simp only [h0, h1, Bool.false_eq_true, false_iff, true_iff, not_le] at f0 f1 <;>
    simp <;> omega

theorem toNat_ofNat_bool (flag : Bool) : (UInt64.ofNat flag.toNat).toNat = flag.toNat := by
  rw [toNat_uint64_ofNat]
  exact Nat.mod_eq_of_lt (by have := Bool.toNat_le flag; omega)

@[simp] theorem length_addLow (ret : List UInt64) (k : Nat) (low : UInt64) :
    (addLow ret k low).1.length = ret.length := by
  simp [addLow]

@[simp] theorem length_addHigh (ret : List UInt64) (k : Nat) (hi : UInt64) (overflow : Bool)
    (carry : UInt64) : (addHigh ret k hi overflow carry).1.length = ret.length := by
  simp [addHigh]

theorem value_addLow (ret : List UInt64) (k : Nat) (low : UInt64) (hk : k < ret.length) :
    value (addLow ret k low).1 + (addLow ret k low).2.toNat * 2 ^ (64 * (k + 1)) =
      value ret + low.toNat * 2 ^ (64 * k) := by
  have hset := value_set ret k (low.overflowingAdd (ret.getD k 0)).1 hk
  have hsum := wrapsWith_overflowingAdd low (ret.getD k 0)
  simp only [addLow, Nat.mul_succ, pow_add] at hset ⊢
  zify at hset ⊢
  linear_combination hset + (2 : Int) ^ (64 * k) * hsum

theorem addHigh_carry_le (ret : List UInt64) (k : Nat) (hi : UInt64) (overflow : Bool)
    (carry : UInt64) : (addHigh ret k hi overflow carry).2.toNat ≤ 1 := by
  simp only [addHigh, toNat_ofNat_bool]
  exact Bool.toNat_le _

theorem value_addHigh (ret : List UInt64) (k : Nat) (hi : UInt64) (overflow : Bool)
    (carry : UInt64) (hk : k < ret.length) (hhi : hi.toNat ≤ 2 ^ 64 - 2)
    (hcarry : carry.toNat ≤ 1) :
    value (addHigh ret k hi overflow carry).1 +
        (addHigh ret k hi overflow carry).2.toNat * 2 ^ (64 * (k + 1)) =
      value ret + (hi.toNat + overflow.toNat + carry.toNat) * 2 ^ (64 * k) := by
  have hsum : (hi + UInt64.ofNat overflow.toNat).toNat = hi.toNat + overflow.toNat := by
    rw [UInt64.toNat_add, toNat_ofNat_bool, UInt64.size]
    have := Bool.toNat_le overflow
    omega
  have htwice := overflowingAdd_twice (hi + UInt64.ofNat overflow.toNat) carry (ret.getD k 0)
    (by have := Bool.toNat_le overflow; omega)
  have hset := value_set ret k
    (((hi + UInt64.ofNat overflow.toNat).overflowingAdd carry).1.overflowingAdd (ret.getD k 0)).1 hk
  rw [hsum] at htwice
  simp only [addHigh, toNat_ofNat_bool, Nat.mul_succ, pow_add] at hset ⊢
  zify at hset htwice ⊢
  linear_combination hset + (2 : Int) ^ (64 * k) * htwice

theorem fullMulStep_spec {me : List UInt64} {b : UInt64} {i j : Nat} {acc : List UInt64 × UInt64}
    (hk : i + j + 1 < acc.1.length) (hcarry : acc.2.toNat ≤ 1) :
    (fullMulStep me b i acc j).1.length = acc.1.length ∧
      (fullMulStep me b i acc j).2.toNat ≤ 1 ∧
      value (fullMulStep me b i acc j).1 +
          (fullMulStep me b i acc j).2.toNat * 2 ^ (64 * (i + j + 2)) =
        value acc.1 + (me.getD j 0).toNat * b.toNat * 2 ^ (64 * (i + j)) +
          acc.2.toNat * 2 ^ (64 * (i + j + 1)) := by
  obtain ⟨ret, carry⟩ := acc
  dsimp only at hk hcarry ⊢
  obtain ⟨hsplit, hhi⟩ := splitU128_exact (me.getD j 0) b
  have hlow := value_addLow ret (i + j) (splitU128 ((me.getD j 0).toNat * b.toNat)).2 (by omega)
  have hhigh := value_addHigh (addLow ret (i + j) (splitU128 ((me.getD j 0).toNat * b.toNat)).2).1
    (i + j + 1) (splitU128 ((me.getD j 0).toNat * b.toNat)).1
    (addLow ret (i + j) (splitU128 ((me.getD j 0).toNat * b.toNat)).2).2 carry
    (by rw [length_addLow]; omega) hhi hcarry
  refine ⟨by simp [fullMulStep], addHigh_carry_le .., ?_⟩
  simp only [fullMulStep, Nat.mul_add, pow_add, Nat.mul_one] at hlow hhigh ⊢
  zify at hlow hhigh hsplit ⊢
  linear_combination hhigh + hlow + (2 : Int) ^ (64 * i) * 2 ^ (64 * j) * hsplit

end Pass

/-! The rows and the whole product. -/

theorem fullMulRow_firstSteps {me ret : List UInt64} {b : UInt64} {i n : Nat}
    (hn : i + n < ret.length) : ∀ j ≤ n,
      ((List.range j).foldl (fullMulStep me b i) (ret, 0)).1.length = ret.length ∧
      ((List.range j).foldl (fullMulStep me b i) (ret, 0)).2.toNat ≤ 1 ∧
      value ((List.range j).foldl (fullMulStep me b i) (ret, 0)).1 +
          ((List.range j).foldl (fullMulStep me b i) (ret, 0)).2.toNat * 2 ^ (64 * (i + j + 1)) =
        value ret + value (me.take j) * b.toNat * 2 ^ (64 * i)
  | 0, _ => by simp
  | j + 1, hj => by
      obtain ⟨hlength, hcarry, hvalue⟩ := @fullMulRow_firstSteps me ret b i n hn j (by omega)
      obtain ⟨hlength', hcarry', hvalue'⟩ :=
        @fullMulStep_spec me b i j _ (by rw [hlength]; omega) hcarry
      rw [List.range_succ, List.foldl_append, List.foldl_cons, List.foldl_nil]
      refine ⟨hlength'.trans hlength, hcarry', ?_⟩
      rw [show i + (j + 1) + 1 = i + j + 2 by ring, hvalue', value_take_succ]
      simp only [Nat.mul_add, pow_add, Nat.mul_one, Nat.add_mul] at hvalue ⊢
      zify at hvalue ⊢
      linear_combination hvalue

private theorem row_sum_lt {low v b x y : Nat} (hlow : low < x * y) (hv : v + 1 ≤ y)
    (hb : b + 1 ≤ 2 ^ 64) : low + v * b * x < x * y * 2 ^ 64 := by
  have h1 := Nat.mul_le_mul_right b hv
  have h2 := Nat.mul_le_mul_left y hb
  have h3 : v * b + y ≤ y * 2 ^ 64 := by rw [Nat.succ_mul] at h1; rw [Nat.mul_succ] at h2; omega
  have h4 := Nat.mul_le_mul_left x h3
  nlinarith

theorem value_fullMulRow {me ret : List UInt64} {b : UInt64} {i n : Nat}
    (hn : i + n < ret.length) (hret : value ret < 2 ^ (64 * (i + n))) :
    (fullMulRow n me b i ret).length = ret.length ∧
      value (fullMulRow n me b i ret) = value ret + value (me.take n) * b.toNat * 2 ^ (64 * i) := by
  obtain ⟨hlength, -, hvalue⟩ := @fullMulRow_firstSteps me ret b i n hn n le_rfl
  refine ⟨hlength, ?_⟩
  have htake : value (me.take n) + 1 ≤ 2 ^ (64 * n) := by
    have := value_lt (me.take n)
    have := Nat.pow_le_pow_right (show 0 < 2 by norm_num)
      (Nat.mul_le_mul_left 64 (List.length_take_le n me))
    omega
  have hbound := row_sum_lt (x := 2 ^ (64 * i)) (by rwa [← pow_add, ← Nat.mul_add]) htake
    (show b.toNat + 1 ≤ 2 ^ 64 from b.toNat_lt)
  rw [← pow_add, ← pow_add, ← Nat.mul_add, show 64 * (i + n) + 64 = 64 * (i + n + 1) by ring]
    at hbound
  unfold fullMulRow
  set carry := ((List.range n).foldl (fullMulStep me b i) (ret, 0)).2.toNat
  rcases Nat.eq_zero_or_pos carry with hzero | hpos
  · rw [hzero] at hvalue
    omega
  · have := Nat.le_mul_of_pos_left (2 ^ (64 * (i + n + 1))) hpos
    omega

theorem value_fullMulReg {me you : List UInt64} {n : Nat} (hme : me.length = n) :
    (fullMulReg n me you).length = 2 * n ∧
      value (fullMulReg n me you) = value me * value (you.take n) := by
  suffices hrows : ∀ i ≤ n,
      ((List.range i).foldl (fun ret i => fullMulRow n me (you.getD i 0) i ret)
          (List.replicate (2 * n) 0)).length = 2 * n ∧
        value ((List.range i).foldl (fun ret i => fullMulRow n me (you.getD i 0) i ret)
          (List.replicate (2 * n) 0)) = value me * value (you.take i) from hrows n le_rfl
  intro i hi
  induction i with
  | zero =>
      simp only [List.range_zero, List.foldl_nil, List.length_replicate, List.take_zero,
        value_nil, Nat.mul_zero, true_and]
      exact value_eq_zero_iff.mpr fun w hw => List.eq_of_mem_replicate hw
  | succ i ih =>
      obtain ⟨hlength, hvalue⟩ := ih (by omega)
      rw [List.range_succ, List.foldl_append, List.foldl_cons, List.foldl_nil]
      set ret := (List.range i).foldl (fun ret i => fullMulRow n me (you.getD i 0) i ret)
        (List.replicate (2 * n) 0)
      have hbound : value me * value (you.take i) < 2 ^ (64 * (i + n)) := by
        have hyou := value_lt (you.take i)
        have hlen := List.length_take_le i you
        have hme' := value_lt me
        rw [hme] at hme'
        calc value me * value (you.take i)
            < 2 ^ (64 * n) * 2 ^ (64 * i) :=
              Nat.mul_lt_mul_of_lt_of_le hme'
                (le_trans hyou.le (Nat.pow_le_pow_right (by norm_num) (by omega)))
                (by positivity)
          _ = 2 ^ (64 * (i + n)) := by rw [← pow_add]; ring_nf
      obtain ⟨hrowLength, hrowValue⟩ := @value_fullMulRow me ret (you.getD i 0) i n
        (by rw [hlength]; omega) (by rwa [hvalue])
      refine ⟨hrowLength.trans hlength, ?_⟩
      rw [hrowValue, hvalue, value_take_of_length_le hme.le, value_take_succ]
      ring

theorem overflowingMul_spec {me you : List UInt64} {n : Nat} (hme : me.length = n)
    (hyou : you.length = n) :
    (overflowingMul n me you).1.length = n ∧
      value (overflowingMul n me you).1 = value me * value you % 2 ^ (64 * n) ∧
      ((overflowingMul n me you).2 = true ↔ 2 ^ (64 * n) ≤ value me * value you) := by
  obtain ⟨hlength, hvalue⟩ := @value_fullMulReg me you n hme
  rw [value_take_of_length_le hyou.le] at hvalue
  have hsplit := value_append ((fullMulReg n me you).take n) ((fullMulReg n me you).drop n)
  have hlow := value_lt ((fullMulReg n me you).take n)
  have htake : ((fullMulReg n me you).take n).length = n := by simp [hlength]; omega
  rw [List.take_append_drop, htake, hvalue] at hsplit
  rw [htake] at hlow
  refine ⟨htake, ?_, ?_⟩
  · simp only [overflowingMul]
    rw [hsplit, Nat.add_mul_mod_self_left, Nat.mod_eq_of_lt hlow]
  · simp only [overflowingMul, List.any_eq_true, bne_iff_ne, ne_eq]
    rw [hsplit]
    constructor
    · rintro ⟨w, hw, hne⟩
      have : value ((fullMulReg n me you).drop n) ≠ 0 :=
        fun hzero => hne (value_eq_zero_iff.mp hzero w hw)
      have := Nat.le_mul_of_pos_right (2 ^ (64 * n)) (Nat.pos_of_ne_zero this)
      omega
    · intro hge
      by_contra hnone
      push_neg at hnone
      rw [value_eq_zero_iff.mpr hnone] at hge
      omega

end Subspace.Uint

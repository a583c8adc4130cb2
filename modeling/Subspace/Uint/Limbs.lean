import Subspace.Bytes

/-! Rust's `u64` methods that the `uint` crate's arithmetic is built from. -/

/-- `u64::overflowing_add` -/
def UInt64.overflowingAdd (a b : UInt64) : UInt64 × Bool :=
  (a + b, 2 ^ 64 ≤ a.toNat + b.toNat)

/-- `u64::overflowing_sub` -/
def UInt64.overflowingSub (a b : UInt64) : UInt64 × Bool :=
  (a - b, a.toNat < b.toNat)

@[simp] theorem UInt64.toNat_overflowingAdd_fst (a b : UInt64) :
    (a.overflowingAdd b).1.toNat = (a.toNat + b.toNat) % 2 ^ 64 := rfl

@[simp] theorem UInt64.overflowingAdd_snd (a b : UInt64) :
    (a.overflowingAdd b).2 = true ↔ 2 ^ 64 ≤ a.toNat + b.toNat := by
  simp [UInt64.overflowingAdd]

@[simp] theorem UInt64.overflowingSub_snd (a b : UInt64) :
    (a.overflowingSub b).2 = true ↔ a.toNat < b.toNat := by
  simp [UInt64.overflowingSub]

/-- `u64::leading_zeros` -/
def UInt64.leadingZeros (x : UInt64) : Nat :=
  64 - x.toNat.size

namespace Subspace.Uint

/-! Numbers made of little-endian 64-bit limbs, as `construct_uint!` lays them out: the
arithmetic of the macro, generic in the number of words. -/

def value : List UInt64 → Nat
  | [] => 0
  | word :: rest => word.toNat + 2 ^ 64 * value rest

@[simp] theorem value_nil : value [] = 0 := rfl

@[simp] theorem value_cons (word : UInt64) (rest : List UInt64) :
    value (word :: rest) = word.toNat + 2 ^ 64 * value rest := rfl

theorem value_lt (limbs : List UInt64) : value limbs < 2 ^ (64 * limbs.length) := by
  induction limbs with
  | nil => simp
  | cons word rest ih =>
      have hword := word.toNat_lt
      have hrest := Nat.mul_le_mul_left (2 ^ 64) ih
      rw [value_cons, List.length_cons, Nat.mul_succ, pow_add]
      omega

theorem value_append (low high : List UInt64) :
    value (low ++ high) = value low + 2 ^ (64 * low.length) * value high := by
  induction low with
  | nil => simp
  | cons word rest ih =>
      rw [List.cons_append, value_cons, value_cons, ih, List.length_cons, Nat.mul_succ, pow_add]
      ring

theorem eq_of_value_eq {left right : List UInt64} (hlength : left.length = right.length)
    (hvalue : value left = value right) : left = right := by
  induction left generalizing right with
  | nil => exact (List.length_eq_zero.mp hlength.symm).symm
  | cons a as ih =>
      cases right with
      | nil => simp at hlength
      | cons b bs =>
          have ha := a.toNat_lt
          have hb := b.toNat_lt
          rw [value_cons, value_cons] at hvalue
          have hlow : a.toNat = b.toNat := by omega
          have hhigh : value as = value bs := by omega
          rw [UInt64.ext hlow, ih (by simpa using hlength) hhigh]

theorem value_eq_zero_iff : ∀ {limbs : List UInt64}, value limbs = 0 ↔ ∀ w ∈ limbs, w = 0
  | [] => by simp
  | word :: rest => by
      rw [value_cons, List.forall_mem_cons, ← @value_eq_zero_iff rest]
      constructor
      · intro h
        exact ⟨UInt64.ext (by simp; omega), by omega⟩
      · rintro ⟨rfl, hrest⟩
        simp [hrest]

/-! ### `uint_overflowing_binop!` -/

/-- The carry chain of `uint_overflowing_binop!`: word by word from the lowest, `op` applied to
the two words and then, when a carry is pending, to the result and the carry; the carry out of a
word is the number of overflows the word produced. Returns the words and the final carry. -/
def overflowingBinop (op : UInt64 → UInt64 → UInt64 × Bool) :
    List UInt64 → List UInt64 → UInt64 → List UInt64 × UInt64
  | me :: mes, you :: yous, carry =>
      if carry != 0 then
        let (res1, overflow1) := op me you
        let (res2, overflow2) := op res1 carry
        let (rest, out) :=
          overflowingBinop op mes yous (UInt64.ofNat (overflow1.toNat + overflow2.toNat))
        (res2 :: rest, out)
      else
        let (res, overflow) := op me you
        let (rest, out) := overflowingBinop op mes yous (UInt64.ofNat overflow.toNat)
        (res :: rest, out)
  | _, _, carry => ([], carry)

/-- `overflowing_add` of `construct_uint!`: the words of the sum and whether it overflowed. -/
def overflowingAdd (me you : List UInt64) : List UInt64 × Bool :=
  let (ret, carry) := overflowingBinop UInt64.overflowingAdd me you 0
  (ret, carry > 0)

/-- `overflowing_sub` of `construct_uint!`: the words of the difference and whether it
borrowed. -/
def overflowingSub (me you : List UInt64) : List UInt64 × Bool :=
  let (ret, carry) := overflowingBinop UInt64.overflowingSub me you 0
  (ret, carry > 0)

/-- `op` computes `a + sign * b` modulo `2 ^ 64` and reports the wrap: the law of
`u64::overflowing_add` (sign `1`) and of `u64::overflowing_sub` (sign `-1`). -/
def WrapsWith (sign : Int) (op : UInt64 → UInt64 → UInt64 × Bool) : Prop :=
  ∀ a b, ((op a b).1.toNat : Int) =
    a.toNat + sign * b.toNat - sign * 2 ^ 64 * (op a b).2.toNat

theorem wrapsWith_overflowingAdd : WrapsWith 1 UInt64.overflowingAdd := by
  intro a b
  have ha := a.toNat_lt
  have hb := b.toNat_lt
  simp only [UInt64.overflowingAdd, UInt64.toNat_add, UInt64.size]
  by_cases h : 2 ^ 64 ≤ a.toNat + b.toNat <;>
    simp only [h, decide_True, decide_False, Bool.toNat_true, Bool.toNat_false] <;> omega

theorem wrapsWith_overflowingSub : WrapsWith (-1) UInt64.overflowingSub := by
  intro a b
  have ha := a.toNat_lt
  have hb := b.toNat_lt
  simp only [UInt64.overflowingSub, UInt64.toNat_sub, UInt64.size]
  by_cases h : a.toNat < b.toNat <;>
    simp only [h, decide_True, decide_False, Bool.toNat_true, Bool.toNat_false] <;> omega

@[simp] theorem length_overflowingBinop (op : UInt64 → UInt64 → UInt64 × Bool) :
    ∀ (me you : List UInt64) (carry : UInt64),
      (overflowingBinop op me you carry).1.length = min me.length you.length
  | _ :: mes, _ :: yous, carry => by
      by_cases h : carry != 0 <;>
        simp [overflowingBinop, h, length_overflowingBinop op mes yous, Nat.succ_min_succ]
  | [], _, _ => by simp [overflowingBinop]
  | _ :: _, [], _ => by simp [overflowingBinop]

theorem overflowingBinop_cons {sign : Int} {op : UInt64 → UInt64 → UInt64 × Bool}
    (hop : WrapsWith sign op) (me you carry : UInt64) (mes yous : List UInt64) :
    ∃ res next, overflowingBinop op (me :: mes) (you :: yous) carry =
        (res :: (overflowingBinop op mes yous next).1, (overflowingBinop op mes yous next).2) ∧
      (res.toNat : Int) = me.toNat + sign * you.toNat + sign * carry.toNat -
        sign * 2 ^ 64 * next.toNat := by
  by_cases hcarry : carry != 0
  · refine ⟨(op (op me you).1 carry).1,
      UInt64.ofNat ((op me you).2.toNat + (op (op me you).1 carry).2.toNat), ?_, ?_⟩
    · simp [overflowingBinop, hcarry]
    · have hsmall : (op me you).2.toNat + (op (op me you).1 carry).2.toNat < 2 ^ 64 := by
        have := Bool.toNat_le (op me you).2
        have := Bool.toNat_le (op (op me you).1 carry).2
        omega
      rw [toNat_uint64_ofNat, Nat.mod_eq_of_lt hsmall, hop, hop]
      push_cast
      ring
  · have hzero : carry = 0 := by simpa using hcarry
    refine ⟨(op me you).1, UInt64.ofNat (op me you).2.toNat, ?_, ?_⟩
    · simp [overflowingBinop, hcarry]
    · have hsmall : (op me you).2.toNat < 2 ^ 64 := by
        have := Bool.toNat_le (op me you).2
        omega
      rw [toNat_uint64_ofNat, Nat.mod_eq_of_lt hsmall, hop, hzero]
      simp

/-- The whole chain: the words written and the final carry, weighted by `2 ^ (64 * n)`, account
for `me + sign * you + sign * carry`. -/
theorem value_overflowingBinop {sign : Int} {op : UInt64 → UInt64 → UInt64 × Bool}
    (hop : WrapsWith sign op) :
    ∀ (me you : List UInt64) (carry : UInt64), me.length = you.length →
      (value (overflowingBinop op me you carry).1 : Int) =
        value me + sign * value you + sign * carry.toNat -
          sign * 2 ^ (64 * me.length) * (overflowingBinop op me you carry).2.toNat
  | [], [], carry, _ => by simp [overflowingBinop]
  | me :: mes, you :: yous, carry, hlength => by
      obtain ⟨res, next, hchain, hres⟩ := overflowingBinop_cons hop me you carry mes yous
      have ih := value_overflowingBinop hop mes yous next (by simpa using hlength)
      rw [hchain]
      simp only [value_cons, List.length_cons, Nat.mul_succ, pow_add]
      push_cast
      rw [ih, hres]
      ring

theorem carry_pos_iff (carry : UInt64) : carry > 0 ↔ 0 < carry.toNat := by
  simp only [GT.gt, UInt64.lt_def, BitVec.lt_def]
  rfl

theorem overflowingAdd_spec {me you : List UInt64} (hlength : me.length = you.length) :
    (overflowingAdd me you).1.length = me.length ∧
      value (overflowingAdd me you).1 = (value me + value you) % 2 ^ (64 * me.length) ∧
      ((overflowingAdd me you).2 = true ↔ 2 ^ (64 * me.length) ≤ value me + value you) := by
  have hchain := value_overflowingBinop wrapsWith_overflowingAdd me you 0 hlength
  have hres := value_lt (overflowingBinop UInt64.overflowingAdd me you 0).1
  rw [length_overflowingBinop, ← hlength, min_self] at hres
  have hunique := (Nat.div_mod_unique (Nat.two_pow_pos (64 * me.length))).mpr
    ⟨(by zify; simp only [UInt64.toNat_zero, Nat.cast_zero] at hchain; linarith :
      value (overflowingBinop UInt64.overflowingAdd me you 0).1 + 2 ^ (64 * me.length) *
        (overflowingBinop UInt64.overflowingAdd me you 0).2.toNat = value me + value you), hres⟩
  refine ⟨by simp [overflowingAdd, hlength], hunique.2.symm, ?_⟩
  rw [overflowingAdd, decide_eq_true_iff, carry_pos_iff, ← hunique.1,
    Nat.div_pos_iff (Nat.two_pow_pos _).ne']

theorem overflowingSub_spec {me you : List UInt64} (hlength : me.length = you.length) :
    (overflowingSub me you).1.length = me.length ∧
      value (overflowingSub me you).1 =
        (2 ^ (64 * me.length) - value you + value me) % 2 ^ (64 * me.length) ∧
      ((overflowingSub me you).2 = true ↔ value me < value you) := by
  have hchain := value_overflowingBinop wrapsWith_overflowingSub me you 0 hlength
  have hres := value_lt (overflowingBinop UInt64.overflowingSub me you 0).1
  have hme := value_lt me
  have hyou := value_lt you
  rw [length_overflowingBinop, ← hlength, min_self] at hres
  rw [← hlength] at hyou
  have hsub : overflowingSub me you = ((overflowingBinop UInt64.overflowingSub me you 0).1,
      decide ((overflowingBinop UInt64.overflowingSub me you 0).2 > 0)) := rfl
  simp only [hsub, decide_eq_true_eq, carry_pos_iff]
  refine ⟨by simp [hlength], ?_⟩
  have hnat : value (overflowingBinop UInt64.overflowingSub me you 0).1 + value you =
      value me + 2 ^ (64 * me.length) * (overflowingBinop UInt64.overflowingSub me you 0).2.toNat := by
    simp only [UInt64.toNat_zero, Nat.cast_zero] at hchain
    zify
    linarith
  generalize (overflowingBinop UInt64.overflowingSub me you 0).2.toNat = carry at hnat ⊢
  generalize value (overflowingBinop UInt64.overflowingSub me you 0).1 = res at hnat hres ⊢
  generalize 2 ^ (64 * me.length) = bound at hnat hres hme hyou ⊢
  obtain hzero | hone | htwo : carry = 0 ∨ carry = 1 ∨ 2 ≤ carry := by omega
  · subst hzero
    refine ⟨?_, by omega⟩
    rw [show bound - value you + value me = bound + (value me - value you) by omega,
      Nat.add_mod_left, Nat.mod_eq_of_lt (by omega)]
    omega
  · subst hone
    refine ⟨?_, by omega⟩
    rw [Nat.mod_eq_of_lt (by omega)]
    omega
  · have := Nat.mul_le_mul_left bound htwo
    omega

/-! ### Comparison -/

/-- `Iterator::cmp` on two iterators of words: lexicographic, a shorter prefix first. -/
def cmpIter : List UInt64 → List UInt64 → Ordering
  | [], [] => .eq
  | [], _ :: _ => .lt
  | _ :: _, [] => .gt
  | x :: xs, y :: ys =>
      match compare x y with
      | .eq => cmpIter xs ys
      | order => order

theorem compare_uint64 (x y : UInt64) : compare x y = compare x.toNat y.toNat := by
  simp only [compare, compareOfLessAndEq, UInt64.lt_def, BitVec.lt_def, UInt64.ext_iff]
  rfl

theorem compare_add_left_nat (c a b : Nat) : compare (c + a) (c + b) = compare a b := by
  simp only [compare, compareOfLessAndEq]
  split_ifs <;> first | rfl | omega

theorem value_reverse_cons (word : UInt64) (rest : List UInt64) :
    value (word :: rest).reverse = word.toNat * 2 ^ (64 * rest.length) + value rest.reverse := by
  rw [List.reverse_cons, value_append, List.length_reverse]
  simp
  ring

/-- The `Ord` of `construct_uint!` compares the words from the most significant one; on words
of one length this is the order of the values. -/
theorem cmpIter_eq_compare : ∀ {left right : List UInt64}, left.length = right.length →
    cmpIter left right = compare (value left.reverse) (value right.reverse)
  | [], [], _ => rfl
  | x :: xs, y :: ys, hlength => by
      have hlen : xs.length = ys.length := by simpa using hlength
      have hxs := value_lt xs.reverse
      have hys := value_lt ys.reverse
      rw [List.length_reverse] at hxs hys
      rw [value_reverse_cons, value_reverse_cons, cmpIter, compare_uint64, ← hlen]
      rcases Nat.lt_trichotomy x.toNat y.toNat with hlt | heq | hgt
      · have hsum : x.toNat * 2 ^ (64 * xs.length) + value xs.reverse <
            y.toNat * 2 ^ (64 * xs.length) + value ys.reverse := by
          rw [hlen] at hxs ⊢
          nlinarith
        simp [Nat.compare_eq_lt.mpr hlt, Nat.compare_eq_lt.mpr hsum]
      · rw [heq, Nat.compare_eq_eq.mpr rfl, cmpIter_eq_compare hlen]
        simp only
        rw [hlen, compare_add_left_nat]
      · have hsum : y.toNat * 2 ^ (64 * xs.length) + value ys.reverse <
            x.toNat * 2 ^ (64 * xs.length) + value xs.reverse := by
          rw [hlen] at hxs ⊢
          nlinarith
        simp [Nat.compare_eq_gt.mpr hgt, Nat.compare_eq_gt.mpr hsum]

end Subspace.Uint

import Subspace.Uint.Knuth

namespace Subspace.Uint

/-! ### What the word-level steps of `div_mod_knuth` compute

The shifts of the normalisation, the product by one word and the in-place subtraction and
addition of `binop_slice`, each stated against `value`. -/

/-! Shifts of one word by `s < 64`. -/

theorem toNat_ofNat_mod_64 {s : Nat} (hs : s < 64) : (UInt64.ofNat s % 64).toNat = s := by
  rw [UInt64.toNat_mod, toNat_uint64_ofNat, show (64 : UInt64).toNat = 64 from rfl]
  omega

theorem toNat_shiftLeft (x : UInt64) {s : Nat} (hs : s < 64) :
    (x <<< UInt64.ofNat s).toNat = x.toNat * 2 ^ s % 2 ^ 64 := by
  show (x.toBitVec <<< (UInt64.ofNat s % 64).toBitVec).toNat = _
  rw [BitVec.shiftLeft_eq', BitVec.toNat_shiftLeft, Nat.shiftLeft_eq]
  show x.toNat * 2 ^ (UInt64.ofNat s % 64).toNat % 2 ^ 64 = _
  rw [toNat_ofNat_mod_64 hs]

theorem toNat_shiftRight (x : UInt64) {s : Nat} (hs : s < 64) :
    (x >>> UInt64.ofNat s).toNat = x.toNat / 2 ^ s := by
  show (x.toBitVec >>> (UInt64.ofNat s % 64).toBitVec).toNat = _
  rw [BitVec.ushiftRight_eq', BitVec.toNat_ushiftRight, Nat.shiftRight_eq_div_pow]
  show x.toNat / 2 ^ (UInt64.ofNat s % 64).toNat = _
  rw [toNat_ofNat_mod_64 hs]

theorem toNat_or (x y : UInt64) : (x ||| y).toNat = x.toNat ||| y.toNat :=
  BitVec.toNat_or _ _

theorem zero_shiftRight (k : UInt64) : (0 : UInt64) >>> k = 0 := by
  apply UInt64.ext
  show (0#64 >>> (k % 64).toBitVec).toNat = 0
  simp

theorem toNat_shiftOut (b : UInt64) {s : Nat} (hs : s < 64) :
    (if 0 < s then b >>> UInt64.ofNat (64 - s) else 0).toNat = b.toNat * 2 ^ s / 2 ^ 64 := by
  split_ifs with hpos
  · rw [toNat_shiftRight b (by omega), show 2 ^ 64 = 2 ^ (64 - s) * 2 ^ s by
      rw [← pow_add]; congr 1; omega, Nat.mul_div_mul_right _ _ (Nat.two_pow_pos s)]
  · rw [show s = 0 by omega, pow_zero, Nat.mul_one, Nat.div_eq_of_lt b.toNat_lt]
    rfl

theorem toNat_shiftLeft_add (a b : UInt64) {s : Nat} (hs : s < 64) :
    (a <<< UInt64.ofNat s + (if 0 < s then b >>> UInt64.ofNat (64 - s) else 0)).toNat =
      a.toNat * 2 ^ s % 2 ^ 64 + b.toNat * 2 ^ s / 2 ^ 64 := by
  have hsplit : (2 : Nat) ^ 64 = 2 ^ (64 - s) * 2 ^ s := by rw [← pow_add]; congr 1; omega
  have hlow : a.toNat * 2 ^ s % 2 ^ 64 = a.toNat % 2 ^ (64 - s) * 2 ^ s := by
    rw [hsplit, Nat.mul_mod_mul_right]
  have hout : b.toNat * 2 ^ s / 2 ^ 64 < 2 ^ s := by
    rw [Nat.div_lt_iff_lt_mul (Nat.two_pow_pos 64)]
    exact Nat.mul_lt_mul_of_pos_right b.toNat_lt (Nat.two_pow_pos s) |>.trans_eq (Nat.mul_comm _ _)
  have hmod : a.toNat % 2 ^ (64 - s) + 1 ≤ 2 ^ (64 - s) := Nat.mod_lt _ (Nat.two_pow_pos _)
  have hsum : a.toNat % 2 ^ (64 - s) * 2 ^ s + b.toNat * 2 ^ s / 2 ^ 64 < 2 ^ 64 := by
    have := Nat.mul_le_mul_right (2 ^ s) hmod
    rw [Nat.add_mul, Nat.one_mul] at this
    omega
  rw [UInt64.toNat_add, toNat_shiftLeft a hs, toNat_shiftOut b hs, hlow]
  exact Nat.mod_eq_of_lt hsum

theorem toNat_shiftRight_or (a b : UInt64) {s : Nat} (hs : s < 64) :
    ((b >>> UInt64.ofNat s) ||| (if 0 < s then a <<< UInt64.ofNat (64 - s) else 0)).toNat =
      b.toNat / 2 ^ s + a.toNat % 2 ^ s * 2 ^ (64 - s) := by
  rw [toNat_or, toNat_shiftRight b hs]
  split_ifs with hpos
  · have hsplit : (2 : Nat) ^ 64 = 2 ^ s * 2 ^ (64 - s) := by rw [← pow_add]; congr 1; omega
    have hlow : b.toNat / 2 ^ s < 2 ^ (64 - s) := by
      rw [Nat.div_lt_iff_lt_mul (Nat.two_pow_pos s), Nat.mul_comm, ← hsplit]
      exact b.toNat_lt
    rw [toNat_shiftLeft a (by omega), hsplit, Nat.mul_mod_mul_right, Nat.lor_comm, Nat.mul_comm,
      ← Nat.mul_add_lt_is_or hlow, Nat.add_comm]
  · rw [show s = 0 by omega]
    simp [Nat.mod_one]

/-! `Shl` by less than a word and `full_shl`: the number times `2 ^ s`, what leaves the top word
lost by `Shl` and kept by `full_shl`. -/

theorem shl_append_singleton (xs : List UInt64) (a : UInt64) {s : Nat} (hs : s < 64) :
    shl (xs ++ [a]) s = shl xs s ++
      [a <<< UInt64.ofNat s +
        (if 0 < s then xs.getD (xs.length - 1) 0 >>> UInt64.ofNat (64 - s) else 0)] := by
  simp only [shl, Nat.div_eq_of_lt hs, Nat.mod_eq_of_lt hs, List.length_append,
    List.length_singleton, List.range_succ, List.map_append, List.map_singleton, Nat.zero_le,
    if_true, Nat.sub_zero, Nat.zero_add]
  congr 1
  · refine List.map_congr_left fun i hi => ?_
    rw [List.mem_range] at hi
    rw [List.getD_append _ _ _ _ hi, List.getD_append _ _ _ _ (by omega)]
  · rw [List.getD_append_right _ _ _ _ le_rfl, Nat.sub_self, List.getD_cons_zero]
    rcases Nat.eq_zero_or_pos xs.length with hnil | hpos
    · simp [List.length_eq_zero.mp hnil, zero_shiftRight]
    · simp only [show 1 ≤ xs.length from hpos, and_true,
        List.getD_append _ _ _ _ (Nat.sub_lt hpos Nat.one_pos)]

theorem value_shl {s : Nat} (hs : s < 64) (xs : List UInt64) :
    value (shl xs s) + 2 ^ (64 * xs.length) * ((xs.getD (xs.length - 1) 0).toNat * 2 ^ s / 2 ^ 64) =
      value xs * 2 ^ s := by
  induction xs using List.reverseRecOn with
  | nil => simp [shl]
  | append_singleton xs a ih =>
      have hlast : (xs ++ [a]).getD ((xs ++ [a]).length - 1) 0 = a := by simp
      have hword := Nat.mod_add_div (a.toNat * 2 ^ s) (2 ^ 64)
      rw [shl_append_singleton xs a hs, hlast, value_append, value_append, length_shl,
        value_cons, value_nil, value_cons, value_nil, toNat_shiftLeft_add a _ hs,
        List.length_append, List.length_singleton, Nat.mul_succ, pow_add]
      linear_combination ih + 2 ^ (64 * xs.length) * hword

theorem value_shl_of_lt {s : Nat} (hs : s < 64) {xs : List UInt64}
    (hfits : value xs * 2 ^ s < 2 ^ (64 * xs.length)) : value (shl xs s) = value xs * 2 ^ s := by
  have hshl := value_shl hs xs
  rcases Nat.eq_zero_or_pos ((xs.getD (xs.length - 1) 0).toNat * 2 ^ s / 2 ^ 64) with hzero | hpos
  · rwa [hzero, Nat.mul_zero, Nat.add_zero] at hshl
  · have := Nat.le_mul_of_pos_right (2 ^ (64 * xs.length)) hpos
    omega

theorem leadingZeros_bounds {t : UInt64} (ht : 0 < t.toNat) :
    t.leadingZeros < 64 ∧ 2 ^ 63 ≤ t.toNat * 2 ^ t.leadingZeros ∧
      (t.toNat + 1) * 2 ^ t.leadingZeros ≤ 2 ^ 64 := by
  have hsize : t.toNat.size ≤ 64 := Nat.size_le.mpr t.toNat_lt
  have hsize_pos : 0 < t.toNat.size := Nat.size_pos.mpr ht
  have hs : t.leadingZeros = 64 - t.toNat.size := rfl
  refine ⟨by omega, ?_, ?_⟩
  · calc 2 ^ 63 = 2 ^ (t.toNat.size - 1) * 2 ^ t.leadingZeros := by
          rw [← pow_add]; congr 1; omega
      _ ≤ t.toNat * 2 ^ t.leadingZeros := Nat.mul_le_mul_right _ (Nat.lt_size.mp (by omega))
  · calc (t.toNat + 1) * 2 ^ t.leadingZeros ≤ 2 ^ t.toNat.size * 2 ^ t.leadingZeros :=
          Nat.mul_le_mul_right _ (Nat.lt_size_self _)
      _ = 2 ^ 64 := by rw [← pow_add]; congr 1; omega

theorem toNat_shr_last {self : List UInt64} (hself : 0 < self.length) {s : Nat} (hs : s < 64) :
    ((shr self (64 - s)).getD (self.length - 1) 0).toNat =
      (self.getD (self.length - 1) 0).toNat * 2 ^ s / 2 ^ 64 := by
  have htop : self.length - 1 + 1 = self.length := by omega
  rw [← toNat_shiftOut _ hs]
  rcases Nat.eq_zero_or_pos s with rfl | hpos
  · simp [shr, hself, htop]
  · simp [shr, hself, hpos, htop, Nat.div_eq_of_lt (show 64 - s < 64 by omega),
      Nat.mod_eq_of_lt (show 64 - s < 64 by omega)]

theorem fullShl_eq {self : List UInt64} (hself : 0 < self.length) {s : Nat} (hs : s < 64) :
    fullShl self s = shl self s ++ [(shr self (64 - s)).getD (self.length - 1) 0] := by
  obtain ⟨x, rest, rfl⟩ := List.exists_cons_of_length_pos hself
  simp [fullShl, shl, List.range_succ_eq_map, Nat.div_eq_of_lt hs, Nat.mod_eq_of_lt hs]

theorem value_fullShl {self : List UInt64} (hself : 0 < self.length) {s : Nat} (hs : s < 64) :
    value (fullShl self s) = value self * 2 ^ s := by
  rw [fullShl_eq hself hs, value_append, length_shl, value_cons, value_nil, Nat.mul_zero,
    Nat.add_zero, toNat_shr_last hself hs, value_shl hs]

/-! `full_shr`: the `n_words + 1` words divided by `2 ^ s`, the top word's part dropped. -/

theorem fullShr_append_singleton {u : List UInt64} (hu : 0 < u.length) (a : UInt64) (s : Nat) :
    fullShr (u ++ [a]) s = fullShr u s ++
      [(u.getD (u.length - 1) 0 >>> UInt64.ofNat s) |||
        (if 0 < s then a <<< UInt64.ofNat (64 - s) else 0)] := by
  have hlen : (u ++ [a]).length - 1 = u.length - 1 + 1 := by simp; omega
  rw [fullShr, hlen, List.range_succ, List.map_append, List.map_singleton, fullShr]
  congr 1
  · refine List.map_congr_left fun i hi => ?_
    rw [List.mem_range] at hi
    rw [List.getD_append _ _ _ _ (by omega), List.getD_append _ _ _ _ (by omega)]
  · rw [List.getD_append _ _ _ _ (by omega), Nat.sub_add_cancel hu,
      List.getD_append_right _ _ _ _ le_rfl, Nat.sub_self, List.getD_cons_zero]

theorem value_fullShr {s : Nat} (hs : s < 64) {u : List UInt64} (hu : 0 < u.length) :
    value (fullShr u s) + 2 ^ (64 * (u.length - 1)) * ((u.getD (u.length - 1) 0).toNat / 2 ^ s) =
      value u / 2 ^ s := by
  induction u using List.reverseRecOn with
  | nil => exact absurd hu (Nat.lt_irrefl 0)
  | append_singleton u a ih =>
      rcases Nat.eq_zero_or_pos u.length with hnil | hpos
      · rw [List.length_eq_zero.mp hnil]
        simp [fullShr]
      · have hlast : (u ++ [a]).getD ((u ++ [a]).length - 1) 0 = a := by simp
        have hlen : (u ++ [a]).length - 1 = u.length - 1 + 1 := by simp; omega
        have hshift : 2 ^ (64 * u.length) * a.toNat =
            2 ^ (64 * (u.length - 1)) * 2 ^ (64 - s) * a.toNat * 2 ^ s := by
          rw [show 64 * u.length = 64 * (u.length - 1) + (64 - s) + s by omega, pow_add, pow_add]
          ring
        have hdigit := Nat.mod_add_div a.toNat (2 ^ s)
        rw [fullShr_append_singleton hpos, hlast, hlen, value_append, value_append, length_fullShr,
          value_cons, value_nil, value_cons, value_nil, toNat_shiftRight_or a _ hs]
        simp only [Nat.mul_zero, Nat.add_zero]
        rw [hshift, Nat.add_mul_div_right _ _ (Nat.two_pow_pos s),
          ← ih hpos, Nat.mul_succ, pow_add, show 2 ^ 64 = 2 ^ (64 - s) * 2 ^ s by
            rw [← pow_add]; congr 1; omega]
        linear_combination 2 ^ (64 * (u.length - 1)) * 2 ^ (64 - s) * hdigit

/-! The product by one word. -/

theorem mulU64_spec (a b carry : UInt64) :
    (mulU64 a b carry).1.toNat + (mulU64 a b carry).2.toNat * 2 ^ 64 =
      a.toNat * b.toNat + carry.toNat := by
  have hprod : a.toNat * b.toNat ≤ (2 ^ 64 - 1) * (2 ^ 64 - 1) :=
    Nat.mul_le_mul (by have := a.toNat_lt; omega) (by have := b.toNat_lt; omega)
  have hcarry := carry.toNat_lt
  have hhi : (a.toNat * b.toNat + carry.toNat) / 2 ^ 64 < 2 ^ 64 := by omega
  simp only [mulU64, splitU128, toNat_uint64_ofNat, Nat.mod_eq_of_lt hhi]
  omega

@[simp] theorem length_overflowingMulU64 (w : UInt64) :
    ∀ (x : List UInt64) (carry : UInt64), (overflowingMulU64 x w carry).1.length = x.length
  | [], _ => rfl
  | _ :: rest, _ => by simp [overflowingMulU64, length_overflowingMulU64 w rest]

theorem value_overflowingMulU64 (w : UInt64) : ∀ (x : List UInt64) (carry : UInt64),
    value (overflowingMulU64 x w carry).1 +
        (overflowingMulU64 x w carry).2.toNat * 2 ^ (64 * x.length) =
      value x * w.toNat + carry.toNat
  | [], carry => by simp [overflowingMulU64]
  | d :: rest, carry => by
      have ih := value_overflowingMulU64 w rest (mulU64 d w carry).2
      simp only [overflowingMulU64, value_cons, List.length_cons, Nat.mul_succ, pow_add]
      linear_combination mulU64_spec d w carry + 2 ^ 64 * ih

theorem value_fullMulU64 (x : List UInt64) (w : UInt64) :
    value (fullMulU64 x w) = value x * w.toNat := by
  have h := value_overflowingMulU64 w x 0
  simp only [fullMulU64, value_append, length_overflowingMulU64, value_cons, value_nil]
  simp only [UInt64.toNat_zero, Nat.add_zero] at h
  rw [← h]
  ring

@[simp] theorem length_fullMulU64 (x : List UInt64) (w : UInt64) :
    (fullMulU64 x w).length = x.length + 1 := by
  simp [fullMulU64]

/-! `binop_slice`, `sub_slice` and `add_slice`. -/

section Slice

variable {sign : Int} {op : UInt64 → UInt64 → UInt64 × Bool}

theorem binopCarry_spec (hop : WrapsWith sign op) (hzero : ∀ a, (op a 0).2 = false)
    (a b : UInt64) (c : Bool) :
    ((binopCarry op a b c).1.toNat : Int) =
      a.toNat + sign * (b.toNat + c.toNat) - sign * 2 ^ 64 * (binopCarry op a b c).2.toNat := by
  have hsum := wrapsWith_overflowingAdd b (UInt64.ofNat c.toNat)
  rw [toNat_ofNat_bool] at hsum
  set sum := b.overflowingAdd (UInt64.ofNat c.toNat)
  have hcarry : binopCarry op a b c = ((op a sum.1).1, sum.2 || (op a sum.1).2) := rfl
  -- the carry is added first, so the two additions never both wrap
  have hor : ((sum.2 || (op a sum.1).2).toNat : Int) = sum.2.toNat + (op a sum.1).2.toNat := by
    cases hwrap : sum.2
    · simp
    · have hb := b.toNat_lt
      have hc := Bool.toNat_le c
      have hzero' : sum.1 = 0 := UInt64.ext (by
        rw [hwrap, Bool.toNat_true] at hsum
        show sum.1.toNat = 0
        omega)
      simp [hzero', hzero]
  rw [hcarry, hop, hor, hsum]
  ring

/-- `binop_slice` over the first `b.length` words of `a`: those words and the carry out account
for `a + sign * (b + c)`; the words above are untouched. -/

theorem binopSlice_spec (hop : WrapsWith sign op) (hzero : ∀ a, (op a 0).2 = false) :
    ∀ (a b : List UInt64) (c : Bool), b.length ≤ a.length →
      (binopSlice op a b c).1.drop b.length = a.drop b.length ∧
        (value ((binopSlice op a b c).1.take b.length) : Int) =
          value (a.take b.length) + sign * (value b + c.toNat) -
            sign * 2 ^ (64 * b.length) * (binopSlice op a b c).2.toNat
  | x :: xs, y :: ys, c, hlen => by
      have ih := binopSlice_spec hop hzero xs ys (binopCarry op x y c).2 (by simpa using hlen)
      have hstep : binopSlice op (x :: xs) (y :: ys) c =
          ((binopCarry op x y c).1 :: (binopSlice op xs ys (binopCarry op x y c).2).1,
            (binopSlice op xs ys (binopCarry op x y c).2).2) := rfl
      rw [hstep]
      simp only [List.length_cons, List.drop_succ_cons, List.take_succ_cons, value_cons,
        Nat.mul_succ, pow_add]
      refine ⟨ih.1, ?_⟩
      push_cast
      rw [ih.2, binopCarry_spec hop hzero]
      ring
  | [], [], c, _ => by simp [binopSlice]
  | _ :: _, [], c, _ => by simp [binopSlice]
  | [], _ :: _, _, hlen => absurd hlen (by simp)

end Slice

theorem overflowingSub_zero_snd (a : UInt64) : (a.overflowingSub 0).2 = false := by
  simp [UInt64.overflowingSub]

theorem overflowingAdd_zero_snd (a : UInt64) : (a.overflowingAdd 0).2 = false := by
  simp [UInt64.overflowingAdd, a.toNat_lt]

theorem subSlice_spec {a b : List UInt64} (hlen : b.length ≤ a.length) :
    (subSlice a b).1.drop b.length = a.drop b.length ∧
      (value ((subSlice a b).1.take b.length) : Int) =
        value (a.take b.length) - value b + 2 ^ (64 * b.length) * (subSlice a b).2.toNat := by
  obtain ⟨hdrop, hvalue⟩ :=
    binopSlice_spec wrapsWith_overflowingSub overflowingSub_zero_snd a b false hlen
  refine ⟨hdrop, ?_⟩
  rw [subSlice, hvalue]
  simp
  ring

theorem addSlice_spec {a b : List UInt64} (hlen : b.length ≤ a.length) :
    (addSlice a b).1.drop b.length = a.drop b.length ∧
      (value ((addSlice a b).1.take b.length) : Int) =
        value (a.take b.length) + value b - 2 ^ (64 * b.length) * (addSlice a b).2.toNat := by
  obtain ⟨hdrop, hvalue⟩ :=
    binopSlice_spec wrapsWith_overflowingAdd overflowingAdd_zero_snd a b false hlen
  refine ⟨hdrop, ?_⟩
  rw [addSlice, hvalue]
  simp

/-! Windows of a word list: the words below `k`, the words from `k` on. -/

theorem value_take_add_drop (limbs : List UInt64) (k : Nat) :
    value limbs = value (limbs.take k) + 2 ^ (64 * k) * value (limbs.drop k) := by
  rcases le_or_lt k limbs.length with hk | hk
  · conv_lhs => rw [← List.take_append_drop k limbs]
    rw [value_append, List.length_take_of_le hk]
  · rw [List.take_of_length_le hk.le, List.drop_of_length_le hk.le, value_nil, Nat.mul_zero,
      Nat.add_zero]

theorem value_drop_eq (limbs : List UInt64) (k : Nat) :
    value (limbs.drop k) = (limbs.getD k 0).toNat + 2 ^ 64 * value (limbs.drop (k + 1)) := by
  rcases lt_or_le k limbs.length with hk | hk
  · rw [List.drop_eq_getElem_cons hk, value_cons, List.getD_eq_getElem _ _ hk]
  · rw [List.drop_of_length_le hk, List.drop_of_length_le (by omega), List.getD_eq_default _ _ hk]
    rfl

theorem value_take_of_lt {limbs : List UInt64} {k : Nat} (h : value limbs < 2 ^ (64 * k)) :
    value (limbs.take k) = value limbs ∧ value (limbs.drop k) = 0 := by
  have hsplit := value_take_add_drop limbs k
  rcases Nat.eq_zero_or_pos (value (limbs.drop k)) with hzero | hpos
  · rw [hzero, Nat.mul_zero, Nat.add_zero] at hsplit
    exact ⟨hsplit.symm, hzero⟩
  · have : 2 ^ (64 * k) ≤ 2 ^ (64 * k) * value (limbs.drop k) := Nat.le_mul_of_pos_right _ hpos
    omega

theorem value_take_lt (limbs : List UInt64) (k : Nat) : value (limbs.take k) < 2 ^ (64 * k) :=
  lt_of_lt_of_le (value_lt _) (Nat.pow_le_pow_right (by norm_num)
    (Nat.mul_le_mul_left _ (List.length_take_le _ _)))


theorem getD_of_drop_eq {l l' : List UInt64} {k : Nat} (h : l.drop k = l'.drop k) :
    l.getD k 0 = l'.getD k 0 := by
  have := congrArg (fun xs : List UInt64 => xs.getD 0 0) h
  simpa [List.getD_eq_getElem?_getD, List.getElem?_drop] using this

theorem add_mul_mod_mul {A M y K : Nat} (hA : A < M) (hK : 0 < K) :
    (A + M * y) % (M * K) = A + M * (y % K) := by
  have hsplit : A + M * y = (A + M * (y % K)) + M * K * (y / K) := by
    conv_lhs => rw [← Nat.mod_add_div y K]
    ring
  have hlt : A + M * (y % K) < M * K := by
    have := Nat.mul_le_mul_left M (Nat.mod_lt y hK)
    rw [Nat.mul_succ] at this
    omega
  rw [hsplit, Nat.add_mul_mod_self_left, Nat.mod_eq_of_lt hlt]

theorem addBack_spec {v s pre : List UInt64} {n j : Nat} (hpre : pre.length = j)
    (hn : n < s.length) (hv : n ≤ v.length) :
    ∃ s', addBack v n (pre ++ s) j = pre ++ s' ∧ s'.length = s.length ∧
      s'.drop (n + 1) = s.drop (n + 1) ∧
      value (s'.take (n + 1)) =
        (value (s.take (n + 1)) + value (v.take n)) % 2 ^ (64 * (n + 1)) := by
  have hvn : (v.take n).length = n := List.length_take_of_le hv
  obtain ⟨hdrop, hvalue⟩ := @addSlice_spec s (v.take n) (by omega)
  rw [hvn] at hdrop hvalue
  set add := addSlice s (v.take n)
  have hlen : add.1.length = s.length := length_binopSlice _ _ _ _
  have hword : add.1.getD n 0 = s.getD n 0 := getD_of_drop_eq hdrop
  refine ⟨add.1.set n (add.1.getD n 0 + UInt64.ofNat add.2.toNat), ?_, by simp [hlen], ?_, ?_⟩
  · subst hpre
    simp only [addBack, List.drop_left, List.take_left]
    rw [List.getD_append_right _ _ _ _ (Nat.le_add_right _ _), Nat.add_sub_cancel_left,
      List.set_append_right _ _ (Nat.le_add_right _ _), Nat.add_sub_cancel_left]
  · rw [List.drop_set_of_lt _ _ (Nat.lt_succ_self n)]
    show List.drop (n + 1) add.1 = _
    rw [← List.drop_drop 1 n add.1, hdrop, List.drop_drop]
  · have htake : (add.1.take (n + 1)).getD n 0 = add.1.getD n 0 := by
      simp [List.getD_eq_getElem?_getD, List.getElem?_take]
    have hset := value_set (add.1.take (n + 1)) n (add.1.getD n 0 + UInt64.ofNat add.2.toNat)
      (by simp; omega)
    have hlow := value_take_succ add.1 n
    have hA := value_take_lt add.1 n
    have hsum : value (add.1.take n) + 2 ^ (64 * n) * add.2.toNat =
        value (s.take n) + value (v.take n) := by
      zify
      linarith
    have hx : (add.1.getD n 0 + UInt64.ofNat add.2.toNat).toNat =
        ((s.getD n 0).toNat + add.2.toNat) % 2 ^ 64 := by
      rw [UInt64.toNat_add, toNat_ofNat_bool, hword]
      rfl
    rw [htake, hx] at hset
    rw [List.set_take]
    calc value ((add.1.take (n + 1)).set n (add.1.getD n 0 + UInt64.ofNat add.2.toNat))
        = value (add.1.take n) + 2 ^ (64 * n) * (((s.getD n 0).toNat + add.2.toNat) % 2 ^ 64) := by
          linarith
      _ = (value (add.1.take n) + 2 ^ (64 * n) * ((s.getD n 0).toNat + add.2.toNat)) %
            (2 ^ (64 * n) * 2 ^ 64) := (add_mul_mod_mul hA (by norm_num)).symm
      _ = (value (s.take (n + 1)) + value (v.take n)) % 2 ^ (64 * (n + 1)) := by
          rw [value_take_succ s n, Nat.mul_succ, pow_add]
          congr 1
          linarith

theorem value_drop_bounds (limbs : List UInt64) (m : Nat) :
    2 ^ (64 * m) * value (limbs.drop m) ≤ value limbs ∧
      value limbs < 2 ^ (64 * m) * (value (limbs.drop m) + 1) := by
  have hsplit := value_take_add_drop limbs m
  have hlow := value_take_lt limbs m
  constructor <;> rw [hsplit] <;> [omega; (rw [Nat.mul_succ]; omega)]

end Subspace.Uint

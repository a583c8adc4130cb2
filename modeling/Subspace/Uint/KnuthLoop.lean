import Subspace.Uint.KnuthWords
import Subspace.Uint.KnuthEstimate

namespace Subspace.Uint

/-! ### `div_mod_knuth` divides

The loop runs over the quotient digits from the top. While digit `j` is worked on, the remainder
is below `v * b ^ (j + 1)` for the normalised divisor `v`, so its window from word `j` is below
`v * b` and the digit fits in a word; each pass keeps `remainder + v * quotient` and takes the
remainder below `v * b ^ j`. -/

/-- The divisor after step D1: `n ≥ 2` significant words, the top one with its high bit set. -/
structure Normalised (v : List UInt64) (n : Nat) : Prop where
  two_le : 2 ≤ n
  le_length : n ≤ v.length
  lt : value v < 2 ^ (64 * n)
  le : 2 ^ (64 * n - 1) ≤ value v

namespace Normalised

variable {v : List UInt64} {n : Nat} (hv : Normalised v n)
include hv

theorem value_pos : 0 < value v := lt_of_lt_of_le (Nat.two_pow_pos _) hv.le

theorem value_drop : value (v.drop (n - 2)) =
    (v.getD (n - 1) 0).toNat * 2 ^ 64 + (v.getD (n - 2) 0).toNat := by
  have hzero := (value_take_of_lt hv.lt).2
  have h1 := value_drop_eq v (n - 2)
  have h2 := value_drop_eq v (n - 1)
  rw [show n - 2 + 1 = n - 1 by have := hv.two_le; omega] at h1
  rw [show n - 1 + 1 = n by have := hv.two_le; omega, hzero] at h2
  rw [h1, h2]
  ring

theorem high_bit : 2 ^ 63 ≤ (v.getD (n - 1) 0).toNat := by
  obtain ⟨-, hlt⟩ := value_drop_bounds v (n - 2)
  rw [hv.value_drop] at hlt
  have hv0 := (v.getD (n - 2) 0).toNat_lt
  have hpow : 2 ^ (64 * n - 1) = 2 ^ (64 * (n - 2)) * (2 ^ 64 * 2 ^ 63) := by
    rw [← pow_add, ← pow_add]; congr 1; have := hv.two_le; omega
  by_contra hsmall
  have htop : (v.getD (n - 1) 0).toNat * 2 ^ 64 + (v.getD (n - 2) 0).toNat + 1 ≤
      2 ^ 64 * 2 ^ 63 := by
    omega
  have := Nat.mul_le_mul_left (2 ^ (64 * (n - 2))) htop
  have := hv.le
  omega

theorem window_lt {u : List UInt64} {j : Nat} (hW : value (u.drop j) < value v * 2 ^ 64) :
    value (u.drop j) < 2 ^ (64 * (n + 1)) := by
  rw [Nat.mul_succ, pow_add]
  exact lt_of_lt_of_le hW (Nat.mul_le_mul_right _ hv.lt.le)

theorem qHatOf_window {u : List UInt64} {j : Nat} (hW : value (u.drop j) < value v * 2 ^ 64) :
    value (u.drop j) / value v ≤
        (qHatOf (v.getD (n - 1) 0) (v.getD (n - 2) 0) u j n).toNat ∧
      (qHatOf (v.getD (n - 1) 0) (v.getD (n - 2) 0) u j n).toNat ≤
        value (u.drop j) / value v + 1 := by
  have hn := hv.two_le
  have hword : ∀ k, (u.drop j).getD k 0 = u.getD (j + k) 0 := fun k => by
    simp [List.getD_eq_getElem?_getD, List.getElem?_drop]
  have hwindow : value ((u.drop j).drop (n - 2)) =
      ((u.getD (j + n) 0).toNat * 2 ^ 64 + (u.getD (j + n - 1) 0).toNat) * 2 ^ 64 +
        (u.getD (j + n - 2) 0).toNat := by
    have h1 := value_drop_eq (u.drop j) (n - 2)
    have h2 := value_drop_eq (u.drop j) (n - 1)
    have h3 := value_drop_eq (u.drop j) n
    rw [show n - 2 + 1 = n - 1 by omega] at h1
    rw [show n - 1 + 1 = n by omega] at h2
    rw [(value_take_of_lt (hv.window_lt hW)).2] at h3
    rw [h1, h2, h3, hword, hword, hword, show j + (n - 2) = j + n - 2 by omega,
      show j + (n - 1) = j + n - 1 by omega]
    ring
  obtain ⟨hWlo, hWhi⟩ := value_drop_bounds (u.drop j) (n - 2)
  obtain ⟨hVlo, hVhi⟩ := value_drop_bounds v (n - 2)
  rw [hwindow, Nat.mul_comm] at hWlo hWhi
  rw [hv.value_drop, Nat.mul_comm] at hVlo hVhi
  exact qHatOf_bounds hv.high_bit (Nat.two_pow_pos _) hWlo hWhi hVlo hVhi hW

theorem subSlice_window {u : List UInt64} {j : Nat} (hj : j + n < u.length)
    (hW : value (u.drop j) < value v * 2 ^ 64) (qHat : UInt64) :
    (subSlice (u.drop j) ((fullMulU64 v qHat).take (n + 1))).1.length = u.length - j ∧
      value ((subSlice (u.drop j) ((fullMulU64 v qHat).take (n + 1))).1.drop (n + 1)) = 0 ∧
      (value ((subSlice (u.drop j) ((fullMulU64 v qHat).take (n + 1))).1.take (n + 1)) : Int) =
        value (u.drop j) - value v * qHat.toNat + 2 ^ (64 * (n + 1)) *
          (subSlice (u.drop j) ((fullMulU64 v qHat).take (n + 1))).2.toNat := by
  have htop := hv.window_lt hW
  have hprod : value ((fullMulU64 v qHat).take (n + 1)) = value v * qHat.toNat := by
    rw [(value_take_of_lt _).1, value_fullMulU64]
    rw [value_fullMulU64, Nat.mul_succ, pow_add]
    exact Nat.mul_lt_mul'' hv.lt qHat.toNat_lt
  have hplen : ((fullMulU64 v qHat).take (n + 1)).length = n + 1 := by
    simp only [List.length_take, length_fullMulU64]
    have := hv.le_length
    omega
  obtain ⟨hdrop, hvalue⟩ := @subSlice_spec (u.drop j) ((fullMulU64 v qHat).take (n + 1))
    (by rw [hplen, List.length_drop]; omega)
  rw [hplen] at hdrop hvalue
  refine ⟨by rw [subSlice, length_binopSlice, List.length_drop], by
    rw [hdrop]; exact (value_take_of_lt htop).2, ?_⟩
  rw [hvalue, hprod, (value_take_of_lt htop).1]
  push_cast
  ring

theorem knuthStep_spec {u q : List UInt64} {j : Nat} (hj : j + n < u.length)
    (hu : value (u.drop j) < value v * 2 ^ 64) :
    (knuthStep v n (u, q) j).1.length = u.length ∧
      value (knuthStep v n (u, q) j).1 =
        value (u.take j) + 2 ^ (64 * j) * (value (u.drop j) % value v) ∧
      (knuthStep v n (u, q) j).2 = q.set j (UInt64.ofNat (value (u.drop j) / value v)) := by
  obtain ⟨hlo, hhi⟩ := hv.qHatOf_window hu
  set qHat := qHatOf (v.getD (n - 1) 0) (v.getD (n - 2) 0) u j n
  obtain ⟨hsublen, hrest, hsval⟩ := hv.subSlice_window hj hu qHat
  set sub := subSlice (u.drop j) ((fullMulU64 v qHat).take (n + 1))
  have hstep : knuthStep v n (u, q) j =
      if sub.2 then (addBack v n (u.take j ++ sub.1) j, q.set j (qHat - 1))
      else (u.take j ++ sub.1, q.set j qHat) := rfl
  have hS := value_take_lt sub.1 (n + 1)
  have hpre : (u.take j).length = j := List.length_take_of_le (by omega)
  have hdiv : value (u.drop j) / value v < 2 ^ 64 := Nat.div_lt_of_lt_mul hu
  have hmod := Nat.div_add_mod (value (u.drop j)) (value v)
  rw [hstep]
  cases hborrow : sub.2
  · -- no borrow: the guess was the digit
    simp only [hborrow, Bool.toNat_false, Nat.cast_zero, mul_zero, add_zero,
      Bool.false_eq_true, if_false] at hsval ⊢
    have hq : qHat.toNat = value (u.drop j) / value v := by
      refine le_antisymm ((Nat.le_div_iff_mul_le hv.value_pos).mpr ?_) hlo
      rw [Nat.mul_comm]
      omega
    refine ⟨by simp only [List.length_append, hpre, hsublen]; omega, ?_, ?_⟩
    · rw [value_append, hpre, value_take_add_drop sub.1 (n + 1), hrest]
      rw [hq] at hsval
      congr 2
      omega
    · exact congrArg _ (UInt64.ext (by rw [toNat_uint64_ofNat, Nat.mod_eq_of_lt hdiv, hq]))
  · -- a borrow: the guess was one too large, and adding `v` back undoes the wrap
    simp only [hborrow, if_true, Bool.toNat_true, Nat.cast_one, mul_one] at hsval ⊢
    have hq : qHat.toNat = value (u.drop j) / value v + 1 := by
      refine le_antisymm hhi (Nat.succ_le_of_lt ((Nat.div_lt_iff_lt_mul hv.value_pos).mpr ?_))
      have : (value (u.drop j) : Int) < value v * qHat.toNat := by
        push_cast at hS
        linarith
      rw [Nat.mul_comm]
      exact_mod_cast this
    obtain ⟨s', heq, hlen', hdrop', hval'⟩ :=
      @addBack_spec v sub.1 (u.take j) n j hpre (by omega) hv.le_length
    rw [(value_take_of_lt hv.lt).1] at hval'
    have hSV : value (sub.1.take (n + 1)) + value v =
        value (u.drop j) % value v + 2 ^ (64 * (n + 1)) := by
      rw [hq] at hsval
      zify at hmod ⊢
      push_cast at hsval
      linarith
    have hrem : value (u.drop j) % value v < 2 ^ (64 * (n + 1)) :=
      lt_of_lt_of_le (Nat.mod_lt _ hv.value_pos) (hv.lt.le.trans
        (Nat.pow_le_pow_right (by norm_num) (by omega)))
    rw [heq]
    refine ⟨by simp only [List.length_append, hpre, hlen', hsublen]; omega, ?_, ?_⟩
    · rw [value_append, hpre, value_take_add_drop s' (n + 1), hdrop', hrest, hval', hSV,
        Nat.add_mod_right, Nat.mod_eq_of_lt hrem, Nat.mul_zero, Nat.add_zero]
    · have hpos : 0 < qHat.toNat := by rw [hq]; exact Nat.succ_pos _
      exact congrArg _ (UInt64.ext (by
        rw [toNat_uint64_ofNat, Nat.mod_eq_of_lt hdiv, toNat_pred_of_lt hpos, hq]
        rfl))

/-- One pass of the loop of `div_mod_knuth` keeps its invariant: the remainder drops below
`v * b ^ j` and `remainder + v * quotient` is unchanged. -/
theorem knuthStep_invariant {u q : List UInt64} {j : Nat} (hj : j + n < u.length)
    (hjq : j < q.length) (hu : value u < value v * 2 ^ (64 * (j + 1))) (hq : q.getD j 0 = 0) :
    (knuthStep v n (u, q) j).1.length = u.length ∧
      value (knuthStep v n (u, q) j).1 < value v * 2 ^ (64 * j) ∧
      value (knuthStep v n (u, q) j).1 + value v * value (knuthStep v n (u, q) j).2 =
        value u + value v * value q ∧
      (knuthStep v n (u, q) j).2.length = q.length ∧
      ∀ i, i ≠ j → (knuthStep v n (u, q) j).2.getD i 0 = q.getD i 0 := by
  have hsplit := value_take_add_drop u j
  have hlow := value_take_lt u j
  have hwindow : value (u.drop j) < value v * 2 ^ 64 := by
    refine Nat.lt_of_mul_lt_mul_left (a := 2 ^ (64 * j)) ?_
    calc 2 ^ (64 * j) * value (u.drop j) ≤ value u := hsplit ▸ Nat.le_add_left _ _
      _ < value v * 2 ^ (64 * (j + 1)) := hu
      _ = 2 ^ (64 * j) * (value v * 2 ^ 64) := by rw [Nat.mul_succ, pow_add]; ring
  obtain ⟨hlen, hvalue, hquot⟩ := hv.knuthStep_spec (q := q) hj hwindow
  have hdigit : value (u.drop j) / value v < 2 ^ 64 := Nat.div_lt_of_lt_mul hwindow
  have hset := value_set q j (UInt64.ofNat (value (u.drop j) / value v)) hjq
  rw [hq, toNat_uint64_ofNat, Nat.mod_eq_of_lt hdigit, UInt64.toNat_zero, Nat.zero_mul,
    Nat.add_zero] at hset
  have hmod := Nat.div_add_mod (value (u.drop j)) (value v)
  have hrem : value (u.drop j) % value v + 1 ≤ value v := Nat.mod_lt _ hv.value_pos
  refine ⟨hlen, ?_, ?_, by rw [hquot, List.length_set],
    fun i hi => by rw [hquot, getD_set_ne _ _ hi.symm]⟩
  · rw [hvalue]
    have := Nat.mul_le_mul_left (2 ^ (64 * j)) hrem
    rw [Nat.mul_succ] at this
    rw [Nat.mul_comm (value v)]
    omega
  · rw [hvalue, hquot, hsplit, hset]
    linear_combination 2 ^ (64 * j) * hmod

/-- The loop of `div_mod_knuth` over digits `k, k - 1, ..., 0`: the remainder ends below `v` and
`remainder + v * quotient` is what it was. -/
theorem foldl_knuthStep : ∀ (k : Nat) (u q : List UInt64), k + n < u.length → k < q.length →
    value u < value v * 2 ^ (64 * (k + 1)) → (∀ i ≤ k, q.getD i 0 = 0) →
    ((List.range (k + 1)).reverse.foldl (knuthStep v n) (u, q)).1.length = u.length ∧
      value ((List.range (k + 1)).reverse.foldl (knuthStep v n) (u, q)).1 < value v ∧
      value ((List.range (k + 1)).reverse.foldl (knuthStep v n) (u, q)).1 +
          value v * value ((List.range (k + 1)).reverse.foldl (knuthStep v n) (u, q)).2 =
        value u + value v * value q
  | 0, u, q, hj, hjq, hu, hq => by
      obtain ⟨hlen, hlt, hsum, -⟩ := hv.knuthStep_invariant hj hjq hu (hq 0 le_rfl)
      rw [show (List.range 1).reverse = [0] from rfl, List.foldl_cons, List.foldl_nil]
      rw [Nat.mul_zero, pow_zero, Nat.mul_one] at hlt
      exact ⟨hlen, hlt, hsum⟩
  | k + 1, u, q, hj, hjq, hu, hq => by
      obtain ⟨hlen, hlt, hsum, hqlen, hrest⟩ :=
        hv.knuthStep_invariant hj hjq hu (hq (k + 1) le_rfl)
      obtain ⟨hlen', hlt', hsum'⟩ := foldl_knuthStep k (knuthStep v n (u, q) (k + 1)).1
        (knuthStep v n (u, q) (k + 1)).2 (by omega) (by omega) hlt
        (fun i hi => by rw [hrest i (by omega)]; exact hq i (by omega))
      rw [List.range_succ, List.reverse_append, List.reverse_singleton, List.singleton_append,
        List.foldl_cons]
      exact ⟨hlen'.trans hlen, hlt', hsum'.trans hsum⟩

end Normalised

theorem normalised_shl {v : List UInt64} {n : Nat} (hn : 2 ≤ n) (hlen : n ≤ v.length)
    (hlt : value v < 2 ^ (64 * n)) (hge : 2 ^ (64 * (n - 1)) ≤ value v) :
    (v.getD (n - 1) 0).leadingZeros < 64 ∧
      Normalised (shl v (v.getD (n - 1) 0).leadingZeros) n ∧
      value (shl v (v.getD (n - 1) 0).leadingZeros) =
        value v * 2 ^ (v.getD (n - 1) 0).leadingZeros := by
  set t := v.getD (n - 1) 0
  have htop : value (v.drop (n - 1)) = t.toNat := by
    rw [value_drop_eq, show n - 1 + 1 = n by omega, (value_take_of_lt hlt).2, Nat.mul_zero,
      Nat.add_zero]
  obtain ⟨hlo, hhi⟩ := value_drop_bounds v (n - 1)
  rw [htop] at hlo hhi
  have ht : 0 < t.toNat := by
    by_contra h
    rw [Nat.eq_zero_of_not_pos h, Nat.zero_add, Nat.mul_one] at hhi
    omega
  obtain ⟨hs, hhigh_bit, hfits⟩ := leadingZeros_bounds ht
  have hvlt : value v * 2 ^ t.leadingZeros < 2 ^ (64 * n) :=
    calc value v * 2 ^ t.leadingZeros < 2 ^ (64 * (n - 1)) * (t.toNat + 1) * 2 ^ t.leadingZeros :=
          Nat.mul_lt_mul_of_pos_right hhi (Nat.two_pow_pos _)
      _ ≤ 2 ^ (64 * (n - 1)) * 2 ^ 64 := by rw [Nat.mul_assoc]; exact Nat.mul_le_mul_left _ hfits
      _ = 2 ^ (64 * n) := by rw [← pow_add]; congr 1; omega
  have hvge : 2 ^ (64 * n - 1) ≤ value v * 2 ^ t.leadingZeros :=
    calc 2 ^ (64 * n - 1) = 2 ^ (64 * (n - 1)) * 2 ^ 63 := by rw [← pow_add]; congr 1; omega
      _ ≤ 2 ^ (64 * (n - 1)) * (t.toNat * 2 ^ t.leadingZeros) := Nat.mul_le_mul_left _ hhigh_bit
      _ ≤ value v * 2 ^ t.leadingZeros := by rw [← Nat.mul_assoc]; exact Nat.mul_le_mul_right _ hlo
  have hexact := value_shl_of_lt hs (lt_of_lt_of_le hvlt
    (Nat.pow_le_pow_right (by norm_num) (by omega)))
  exact ⟨hs, ⟨hn, by rw [length_shl]; exact hlen, hexact ▸ hvlt, hexact ▸ hvge⟩, hexact⟩

/-- `div_mod_knuth` divides: for a divisor of exactly `n ≥ 2` significant words and a dividend of
at most `m + n` words, the quotient and the remainder. -/
theorem divModKnuth_spec {self v : List UInt64} {n m : Nat} (hn : 2 ≤ n) (hvlen : n ≤ v.length)
    (hvlt : value v < 2 ^ (64 * n)) (hvge : 2 ^ (64 * (n - 1)) ≤ value v)
    (hself : m + n ≤ self.length) (hselflt : value self < 2 ^ (64 * (m + n))) :
    value (divModKnuth self v n m).1 = value self / value v ∧
      value (divModKnuth self v n m).2 = value self % value v := by
  obtain ⟨hs, hnorm, hV⟩ := normalised_shl hn hvlen hvlt hvge
  set s := (v.getD (n - 1) 0).leadingZeros
  have hpos : 0 < self.length := by omega
  have hstart : value (fullShl self s) < value (shl v s) * 2 ^ (64 * (m + 1)) := by
    rw [value_fullShl hpos hs, hV, Nat.mul_right_comm]
    refine Nat.mul_lt_mul_of_pos_right (lt_of_lt_of_le hselflt ?_) (Nat.two_pow_pos _)
    rw [show 64 * (m + n) = 64 * (n - 1) + 64 * (m + 1) by omega, pow_add]
    exact Nat.mul_le_mul_right _ hvge
  obtain ⟨hlen, hlt, hsum⟩ := hnorm.foldl_knuthStep m (fullShl self s)
    (List.replicate self.length 0) (by rw [length_fullShl hpos]; omega) (by simp; omega) hstart
    (fun i _ => by rw [List.getD_eq_getElem?_getD, List.getElem?_replicate]; split <;> rfl)
  have hzero : value (List.replicate self.length 0) = 0 :=
    value_eq_zero_iff.mpr fun w hw => List.eq_of_mem_replicate hw
  simp only [hzero, Nat.mul_zero, Nat.add_zero] at hsum
  rw [value_fullShl hpos hs, hV] at hsum
  rw [hV] at hlt
  set loop := (List.range (m + 1)).reverse.foldl (knuthStep (shl v s) n)
    (fullShl self s, List.replicate self.length 0)
  have hvpos : 0 < value v := lt_of_lt_of_le (Nat.two_pow_pos _) hvge
  obtain ⟨hq, hr⟩ := (Nat.div_mod_unique (Nat.mul_pos hvpos (Nat.two_pow_pos s))).mpr
    ⟨hsum, hlt⟩
  rw [Nat.mul_div_mul_right _ _ (Nat.two_pow_pos s)] at hq
  rw [Nat.mul_mod_mul_right] at hr
  refine ⟨hq.symm, ?_⟩
  show value (fullShr loop.1 s) = _
  rw [length_fullShl hpos] at hlen
  have hsmall : value loop.1 < 2 ^ (64 * (loop.1.length - 1)) :=
    lt_of_lt_of_le (hlt.trans (hV ▸ hnorm.lt))
      (Nat.pow_le_pow_right (by norm_num) (by rw [hlen]; omega))
  have htop : (loop.1.getD (loop.1.length - 1) 0).toNat = 0 := by
    have hzero := (value_take_of_lt hsmall).2
    rw [value_drop_eq] at hzero
    omega
  have hshr := value_fullShr hs (show 0 < loop.1.length by omega)
  rw [htop, Nat.zero_div, Nat.mul_zero, Nat.add_zero, ← hr,
    Nat.mul_div_cancel _ (Nat.two_pow_pos s)] at hshr
  exact hshr

end Subspace.Uint

import Subspace.Uint.Knuth

namespace Subspace.Uint

/-! ### Step D3 of `div_mod_knuth`: the guess for a quotient digit

Let `W` be the window of the remainder that digit `j` is taken from and `V` the normalised divisor.
The guess is made from the top three words of `W` and the top two words `v1`, `v0` of `V`; `P`
weighs the words below them, so that `W` lies in `[(T * b + u0) * P, (T * b + u0 + 1) * P)` with
`T` the top two words, and `V` in `[(v1 * b + v0) * P, (v1 * b + v0 + 1) * P)`. The guess is then
the true digit `W / V` or one more. The arithmetic facts come first, then `refineQHat` and
`qHatOf`. -/

theorem refineTest_iff (q v0 r u0 : UInt64) :
    ((splitU128 (q.toNat * v0.toNat)).1 < r ∨
        (splitU128 (q.toNat * v0.toNat)).1 = r ∧ (splitU128 (q.toNat * v0.toNat)).2 ≤ u0) ↔
      q.toNat * v0.toNat ≤ r.toNat * 2 ^ 64 + u0.toNat := by
  have hprod : q.toNat * v0.toNat < 2 ^ 64 * 2 ^ 64 :=
    Nat.mul_lt_mul'' q.toNat_lt v0.toNat_lt
  have hhi : q.toNat * v0.toNat / 2 ^ 64 < 2 ^ 64 := by omega
  have hr := r.toNat_lt
  have hu := u0.toNat_lt
  have hlt : ∀ a b : UInt64, a < b ↔ a.toNat < b.toNat := fun _ _ => Iff.rfl
  have hle : ∀ a b : UInt64, a ≤ b ↔ a.toNat ≤ b.toNat := fun _ _ => Iff.rfl
  simp only [hlt, hle, UInt64.ext_iff, splitU128, toNat_uint64_ofNat, Nat.mod_eq_of_lt hhi]
  omega

section Estimate

variable {v1 v0 u0 : Nat} {T W V P q r : Nat}

theorem quotient_le_top_div (hv1 : 0 < v1)
    (hWhi : W < (T * 2 ^ 64 + u0 + 1) * P) (hVlo : (v1 * 2 ^ 64 + v0) * P ≤ V)
    (hu0 : u0 < 2 ^ 64) : W / V ≤ T / v1 := by
  rw [Nat.le_div_iff_mul_le hv1]
  have hle : W / V * V ≤ W := Nat.div_mul_le_self W V
  have : W / V * v1 * (2 ^ 64 * P) < (T + 1) * (2 ^ 64 * P) := by
    calc W / V * v1 * (2 ^ 64 * P) = W / V * (v1 * 2 ^ 64 * P) := by ring
      _ ≤ W / V * V := Nat.mul_le_mul_left _
          (le_trans (Nat.mul_le_mul_right P (Nat.le_add_right _ v0)) hVlo)
      _ ≤ W := hle
      _ < (T * 2 ^ 64 + u0 + 1) * P := hWhi
      _ ≤ (T + 1) * 2 ^ 64 * P := Nat.mul_le_mul_right P (by omega)
      _ = (T + 1) * (2 ^ 64 * P) := Nat.mul_assoc _ _ _
  exact Nat.le_of_lt_succ (Nat.lt_of_mul_lt_mul_right this)

theorem quotient_lt_of_test_fails (hqr : q * v1 + r = T) (htest : r * 2 ^ 64 + u0 < q * v0)
    (hWhi : W < (T * 2 ^ 64 + u0 + 1) * P) (hVlo : (v1 * 2 ^ 64 + v0) * P ≤ V) : W / V < q := by
  have htop : T * 2 ^ 64 + u0 + 1 ≤ q * (v1 * 2 ^ 64 + v0) := by rw [← hqr]; linarith
  apply Nat.div_lt_of_lt_mul
  calc W < (T * 2 ^ 64 + u0 + 1) * P := hWhi
    _ ≤ q * (v1 * 2 ^ 64 + v0) * P := Nat.mul_le_mul_right P htop
    _ ≤ V * q := by rw [Nat.mul_assoc, Nat.mul_comm V]; exact Nat.mul_le_mul_left q hVlo

theorem le_quotient_succ_of_test (hqr : q * v1 + r = T) (htest : q * v0 ≤ r * 2 ^ 64 + u0)
    (hq : q < 2 ^ 64) (hv1 : 0 < v1) (hP : 0 < P) (hWlo : (T * 2 ^ 64 + u0) * P ≤ W)
    (hVlo : (v1 * 2 ^ 64 + v0) * P ≤ V) (hVhi : V < (v1 * 2 ^ 64 + v0 + 1) * P) :
    q ≤ W / V + 1 := by
  have hV : 2 ^ 64 * P ≤ V := le_trans (Nat.mul_le_mul_right P (by omega)) hVlo
  have hlow : q * ((v1 * 2 ^ 64 + v0) * P) ≤ W := by
    have htop : q * (v1 * 2 ^ 64 + v0) ≤ T * 2 ^ 64 + u0 := by rw [← hqr]; linarith
    calc q * ((v1 * 2 ^ 64 + v0) * P) = q * (v1 * 2 ^ 64 + v0) * P := (Nat.mul_assoc _ _ _).symm
      _ ≤ (T * 2 ^ 64 + u0) * P := Nat.mul_le_mul_right P htop
      _ ≤ W := hWlo
  by_contra hbig
  have hnext : W < (W / V + 1) * V := by
    rw [Nat.mul_comm]; exact Nat.lt_mul_div_succ W (by omega)
  have hqV : (W / V + 2) * V ≤ q * V := Nat.mul_le_mul_right V (by omega)
  have hqP : q * V ≤ q * ((v1 * 2 ^ 64 + v0) * P) + q * P := by
    rw [← Nat.mul_add]
    exact Nat.mul_le_mul_left q (by rw [Nat.add_mul, Nat.one_mul] at hVhi; omega)
  have hPq : q * P < 2 ^ 64 * P := Nat.mul_lt_mul_of_pos_right hq hP
  linarith

theorem pred_le_quotient_of_overflow (hqr : q * v1 + r = T) (hr : 2 ^ 64 ≤ r + v1)
    (hq : q < 2 ^ 64) (hv0 : v0 < 2 ^ 64) (hv1 : 0 < v1) (hP : 0 < P)
    (hWlo : (T * 2 ^ 64 + u0) * P ≤ W) (hVlo : (v1 * 2 ^ 64 + v0) * P ≤ V)
    (hVhi : V < (v1 * 2 ^ 64 + v0 + 1) * P) : q - 1 ≤ W / V := by
  have hV : 0 < V := lt_of_lt_of_le (by positivity) hVlo
  rw [Nat.le_div_iff_mul_le hV]
  have hdigits : (q - 1) * (v1 * 2 ^ 64 + v0 + 1) ≤ T * 2 ^ 64 := by
    rw [← hqr]
    have : (q - 1) * (v0 + 1) ≤ (q - 1) * 2 ^ 64 := Nat.mul_le_mul_left _ hv0
    have : (q - 1) * 2 ^ 64 ≤ (v1 + r) * 2 ^ 64 := Nat.mul_le_mul_right _ (by omega)
    rcases Nat.eq_zero_or_pos q with rfl | hpos
    · simp
    · obtain ⟨p, rfl⟩ : ∃ p, q = p + 1 := ⟨q - 1, by omega⟩
      simp only [Nat.add_sub_cancel] at *
      linarith
  calc (q - 1) * V ≤ (q - 1) * ((v1 * 2 ^ 64 + v0 + 1) * P) := Nat.mul_le_mul_left _ hVhi.le
    _ = (q - 1) * (v1 * 2 ^ 64 + v0 + 1) * P := (Nat.mul_assoc _ _ _).symm
    _ ≤ T * 2 ^ 64 * P := Nat.mul_le_mul_right P hdigits
    _ ≤ W := le_trans (Nat.mul_le_mul_right P (Nat.le_add_right _ _)) hWlo

theorem sub_two_le_quotient {u2 u1 : Nat} (hT : T = u2 * 2 ^ 64 + u1) (hu2 : v1 ≤ u2)
    (hv1 : 2 ^ 63 ≤ v1) (hv0 : v0 < 2 ^ 64) (hP : 0 < P) (hWlo : (T * 2 ^ 64 + u0) * P ≤ W)
    (hVlo : (v1 * 2 ^ 64 + v0) * P ≤ V) (hVhi : V < (v1 * 2 ^ 64 + v0 + 1) * P) :
    2 ^ 64 - 2 ≤ W / V := by
  have hV : 0 < V := lt_of_lt_of_le (by positivity) hVlo
  rw [Nat.le_div_iff_mul_le hV]
  have hdigits : (2 ^ 64 - 2) * (v1 * 2 ^ 64 + v0 + 1) ≤ T * 2 ^ 64 := by
    have : (2 ^ 64 - 2) * (v1 + 1) ≤ v1 * 2 ^ 64 := by
      rw [Nat.sub_mul, Nat.mul_comm]; omega
    calc (2 ^ 64 - 2) * (v1 * 2 ^ 64 + v0 + 1) ≤ (2 ^ 64 - 2) * ((v1 + 1) * 2 ^ 64) :=
          Nat.mul_le_mul_left _ (by omega)
      _ = (2 ^ 64 - 2) * (v1 + 1) * 2 ^ 64 := (Nat.mul_assoc _ _ _).symm
      _ ≤ v1 * 2 ^ 64 * 2 ^ 64 := Nat.mul_le_mul_right _ this
      _ ≤ T * 2 ^ 64 := Nat.mul_le_mul_right _ (by omega)
  calc (2 ^ 64 - 2) * V ≤ (2 ^ 64 - 2) * ((v1 * 2 ^ 64 + v0 + 1) * P) :=
        Nat.mul_le_mul_left _ hVhi.le
    _ = (2 ^ 64 - 2) * (v1 * 2 ^ 64 + v0 + 1) * P := (Nat.mul_assoc _ _ _).symm
    _ ≤ T * 2 ^ 64 * P := Nat.mul_le_mul_right P hdigits
    _ ≤ W := le_trans (Nat.mul_le_mul_right P (Nat.le_add_right _ _)) hWlo

theorem top_le_divisor {u2 u1 : Nat} (hT : T = u2 * 2 ^ 64 + u1) (hv0 : v0 < 2 ^ 64)
    (hWlo : (T * 2 ^ 64 + u0) * P ≤ W) (hVhi : V < (v1 * 2 ^ 64 + v0 + 1) * P)
    (hWV : W < V * 2 ^ 64) : u2 ≤ v1 := by
  have : u2 * 2 ^ 64 * P * 2 ^ 64 < (v1 + 1) * 2 ^ 64 * P * 2 ^ 64 :=
    calc u2 * 2 ^ 64 * P * 2 ^ 64 = u2 * 2 ^ 64 * 2 ^ 64 * P := Nat.mul_right_comm _ _ _
      _ ≤ (T * 2 ^ 64 + u0) * P := Nat.mul_le_mul_right P (by rw [hT]; omega)
      _ ≤ W := hWlo
      _ < V * 2 ^ 64 := hWV
      _ ≤ (v1 * 2 ^ 64 + v0 + 1) * P * 2 ^ 64 := Nat.mul_le_mul_right _ hVhi.le
      _ ≤ (v1 + 1) * 2 ^ 64 * P * 2 ^ 64 :=
          Nat.mul_le_mul_right _ (Nat.mul_le_mul_right _ (by omega))
  have := Nat.lt_of_mul_lt_mul_right (Nat.lt_of_mul_lt_mul_right (Nat.lt_of_mul_lt_mul_right this))
  omega

end Estimate

section Refine

variable {v1 v0 u0 : UInt64} {T W V P : Nat}

theorem toNat_pred_of_lt {q : UInt64} {k : Nat} (hk : k < q.toNat) : (q - 1).toNat = q.toNat - 1 :=
  UInt64.toNat_sub_of_le _ _ (show 1 ≤ q.toNat by omega)

theorem refineQHat_bounds (hv1 : 0 < v1.toNat) (hP : 0 < P)
    (hWlo : (T * 2 ^ 64 + u0.toNat) * P ≤ W) (hWhi : W < (T * 2 ^ 64 + u0.toNat + 1) * P)
    (hVlo : (v1.toNat * 2 ^ 64 + v0.toNat) * P ≤ V)
    (hVhi : V < (v1.toNat * 2 ^ 64 + v0.toNat + 1) * P) (qHat rHat : UInt64) :
    qHat.toNat * v1.toNat + rHat.toNat = T → W / V ≤ qHat.toNat →
      W / V ≤ (refineQHat v1 v0 u0 qHat rHat).toNat ∧
        (refineQHat v1 v0 u0 qHat rHat).toNat ≤ W / V + 1 := by
  induction qHat, rHat using refineQHat.induct v1 v0 u0 with
  | case1 qHat rHat split hle =>
      simp only [split] at hle
      intro hqr hge
      rw [refineQHat, dif_pos hle]
      exact ⟨hge, le_quotient_succ_of_test hqr ((refineTest_iff _ _ _ _).mp hle) qHat.toNat_lt
        hv1 hP hWlo hVlo hVhi⟩
  | case2 qHat rHat split hle next hnext =>
      simp only [split] at hle
      simp only [next] at hnext
      intro hqr hge
      rw [refineQHat, dif_neg hle]
      dsimp only
      rw [if_pos hnext]
      rw [refineTest_iff, not_le] at hle
      have hlt := quotient_lt_of_test_fails hqr hle hWhi hVlo
      rw [UInt64.overflowingAdd_snd] at hnext
      have hpred := pred_le_quotient_of_overflow hqr (by omega) qHat.toNat_lt v0.toNat_lt hv1 hP
        hWlo hVlo hVhi
      rw [toNat_pred_of_lt hlt]
      omega
  | case3 qHat rHat split hle next hnext ih =>
      simp only [split] at hle
      simp only [next] at hnext ih
      intro hqr hge
      rw [refineQHat, dif_neg hle]
      dsimp only
      rw [if_neg hnext]
      rw [refineTest_iff, not_le] at hle
      have hlt := quotient_lt_of_test_fails hqr hle hWhi hVlo
      rw [UInt64.overflowingAdd_snd, not_le] at hnext
      apply ih
      · rw [toNat_pred_of_lt hlt, UInt64.toNat_overflowingAdd_fst, Nat.mod_eq_of_lt hnext, ← hqr,
          Nat.sub_mul]
        have : v1.toNat ≤ qHat.toNat * v1.toNat :=
          Nat.le_mul_of_pos_left v1.toNat (Nat.zero_lt_of_lt hlt)
        omega
      · rw [toNat_pred_of_lt hlt]
        omega

/-- Step D3 as a whole: with the divisor normalised (`v1 ≥ 2 ^ 63`) and the window below
`v * b`, the guess for the digit is the true digit or one more. `W` is the window and `V` the
divisor; `P` weighs the words below the top three of the window and the top two of `V`. -/
theorem qHatOf_bounds {u : List UInt64} {j n : Nat} (hv1 : 2 ^ 63 ≤ v1.toNat) (hP : 0 < P)
    (hWlo : (((u.getD (j + n) 0).toNat * 2 ^ 64 + (u.getD (j + n - 1) 0).toNat) * 2 ^ 64 +
      (u.getD (j + n - 2) 0).toNat) * P ≤ W)
    (hWhi : W < (((u.getD (j + n) 0).toNat * 2 ^ 64 + (u.getD (j + n - 1) 0).toNat) * 2 ^ 64 +
      (u.getD (j + n - 2) 0).toNat + 1) * P)
    (hVlo : (v1.toNat * 2 ^ 64 + v0.toNat) * P ≤ V)
    (hVhi : V < (v1.toNat * 2 ^ 64 + v0.toNat + 1) * P) (hWV : W < V * 2 ^ 64) :
    W / V ≤ (qHatOf v1 v0 u j n).toNat ∧ (qHatOf v1 v0 u j n).toNat ≤ W / V + 1 := by
  have hv1pos : 0 < v1.toNat := lt_of_lt_of_le (by norm_num) hv1
  rw [qHatOf]
  dsimp only
  split_ifs with htop
  · obtain ⟨hqr, hr⟩ := @divModWord_spec _ (u.getD (j + n - 1) 0) _ htop
    have hdigit : (divModWord (u.getD (j + n) 0) (u.getD (j + n - 1) 0) v1).1.toNat =
        ((u.getD (j + n) 0).toNat * 2 ^ 64 + (u.getD (j + n - 1) 0).toNat) / v1.toNat := by
      rw [← hqr, Nat.mul_comm, Nat.mul_add_div hv1pos, Nat.div_eq_of_lt hr, Nat.add_zero]
    exact refineQHat_bounds hv1pos hP hWlo hWhi hVlo hVhi _ _ hqr
      (hdigit ▸ quotient_le_top_div hv1pos hWhi hVlo (u.getD (j + n - 2) 0).toNat_lt)
  · have hle := top_le_divisor rfl v0.toNat_lt hWlo hVhi hWV
    have hsat := sub_two_le_quotient rfl (not_lt.mp htop) hv1 v0.toNat_lt hP hWlo hVlo hVhi
    have hlt : W / V < 2 ^ 64 := Nat.div_lt_of_lt_mul hWV
    rw [toNat_uint64_ofNat]
    omega

end Refine

end Subspace.Uint

import Subspace.Uint.KnuthLoop

namespace Subspace.Uint

/-! ### `div_mod` -/

/-- `div_mod` of `construct_uint!`: `(self / other, self % other)`; the `assert!` on a zero
divisor is the panic `"division by zero"`. Divisors that fit in a word go to `div_mod_small`,
larger ones to `div_mod_knuth`. -/
def divMod (me other : List UInt64) : Except String (List UInt64 × List UInt64) :=
  let myBits := bits me
  let yourBits := bits other
  if yourBits = 0 then .error "division by zero"
  else if myBits < yourBits then .ok (List.replicate me.length 0, me)
  else if yourBits ≤ 64 then .ok (divModSmall me (other.getD 0 0))
  else .ok (divModKnuth me other (words yourBits) (words myBits - words yourBits))

theorem bits_le_length (limbs : List UInt64) : bits limbs ≤ 64 * limbs.length := by
  rw [bits_eq_size, Nat.size_le]
  exact value_lt limbs

theorem length_divMod {me other q r : List UInt64} (h : divMod me other = .ok (q, r)) :
    q.length = me.length ∧ r.length = me.length := by
  have hbits := bits_le_length me
  dsimp only [divMod] at h
  split_ifs at h with hzero hlt hword <;> simp only [Except.ok.injEq, Prod.mk.injEq] at h
  · obtain ⟨rfl, rfl⟩ := h
    simp
  · obtain ⟨rfl, rfl⟩ := h
    exact length_divModSmall (by omega) _
  · obtain ⟨rfl, rfl⟩ := h
    exact length_divModKnuth (by omega) _ (by unfold words; omega)

theorem divMod_of_value_eq_zero {me other : List UInt64} (hzero : value other = 0) :
    divMod me other = .error "division by zero" := by
  simp [divMod, (bits_eq_zero_iff other).mpr hzero]

theorem value_eq_getD_zero {limbs : List UInt64} (hsmall : value limbs < 2 ^ 64) :
    value limbs = (limbs.getD 0 0).toNat := by
  cases limbs with
  | nil => rfl
  | cons word rest =>
      have hword := word.toNat_lt
      have hrest : value rest = 0 := by simp only [value_cons] at hsmall; omega
      simp [hrest]

theorem bits_lt_words (b : Nat) (hb : 0 < b) : 64 * (words b - 1) < b ∧ b ≤ 64 * words b := by
  unfold words
  omega

/-- `div_mod` never panics on a nonzero divisor and is exact, on every path: a dividend shorter
in bits than the divisor, `div_mod_small` and `div_mod_knuth`. -/
theorem divMod_of_pos {me other : List UInt64} (hpos : 0 < value other) :
    ∃ q r, divMod me other = .ok (q, r) ∧
      value q = value me / value other ∧ value r = value me % value other := by
  have hbits : bits other ≠ 0 := fun h => by rw [bits_eq_zero_iff] at h; omega
  by_cases hlt : bits me < bits other
  · have hvalue := value_lt_of_bits_lt hlt
    refine ⟨List.replicate me.length 0, me, by simp [divMod, hbits, hlt], ?_, ?_⟩
    · rw [value_eq_zero_iff.mpr (fun w hw => List.eq_of_mem_replicate hw),
        Nat.div_eq_of_lt hvalue]
    · rw [Nat.mod_eq_of_lt hvalue]
  by_cases hword : bits other ≤ 64
  · have hother := value_eq_getD_zero (value_lt_of_bits_le hword)
    obtain ⟨hdiv, hrem⟩ := @divModSmall_spec me (other.getD 0 0) (by omega)
    have hunique := (Nat.div_mod_unique (by omega : 0 < (other.getD 0 0).toNat)).mpr
      ⟨(by rw [← hdiv, Nat.add_comm, Nat.mul_comm] :
        _ + _ * value (divModSmall me (other.getD 0 0)).1 = value me), hrem⟩
    rw [hother]
    exact ⟨_, _, by simp [divMod, hbits, hlt, hword], hunique.1.symm, hunique.2.symm⟩
  · obtain ⟨hyours, hyours'⟩ := bits_lt_words (bits other) (by omega)
    obtain ⟨hmine, hmine'⟩ := bits_lt_words (bits me) (by omega)
    have hwords : words (bits other) ≤ words (bits me) := by unfold words; omega
    have hme_len := bits_le_length me
    have hother_len := bits_le_length other
    obtain ⟨hq, hr⟩ := @divModKnuth_spec me other (words (bits other))
      (words (bits me) - words (bits other)) (by unfold words; omega) (by omega)
      (value_lt_of_bits_le hyours')
      (Nat.lt_size.mp (by rw [← bits_eq_size]; exact hyours))
      (by unfold words at *; omega)
      (value_lt_of_bits_le (by rw [Nat.sub_add_cancel hwords]; exact hmine'))
    exact ⟨_, _, by simp [divMod, hbits, hlt, hword], hq, hr⟩

/-- The whole contract of `div_mod`: it panics with `"division by zero"` exactly on a zero divisor,
and it returns `(q, r)` exactly when the divisor is nonzero and `q` and `r` are the quotient and the
remainder, as wide as the dividend; whichever path computes them. -/
theorem divMod_contract (me other : List UInt64) :
    (divMod me other = .error "division by zero" ↔ value other = 0) ∧
      ∀ q r, divMod me other = .ok (q, r) ↔
        0 < value other ∧ q.length = me.length ∧ r.length = me.length ∧
          value q = value me / value other ∧ value r = value me % value other := by
  refine ⟨⟨fun h => ?_, divMod_of_value_eq_zero⟩, fun q r => ⟨fun h => ?_, ?_⟩⟩
  · by_contra hne
    obtain ⟨q, r, hok, -⟩ := divMod_of_pos (Nat.pos_of_ne_zero hne)
    rw [hok] at h
    cases h
  · have hpos : 0 < value other := Nat.pos_of_ne_zero fun hzero => by
      rw [divMod_of_value_eq_zero hzero] at h
      cases h
    obtain ⟨q', r', hok, hq, hr⟩ := @divMod_of_pos me other hpos
    obtain ⟨rfl, rfl⟩ := Prod.mk.inj (Except.ok.inj (hok.symm.trans h))
    exact ⟨hpos, length_divMod hok |>.1, length_divMod hok |>.2, hq, hr⟩
  · rintro ⟨hpos, hqlength, hrlength, hq, hr⟩
    obtain ⟨q', r', hok, hq', hr'⟩ := @divMod_of_pos me other hpos
    obtain ⟨hq'length, hr'length⟩ := length_divMod hok
    rw [hok, eq_of_value_eq (hq'length.trans hqlength.symm) (hq'.trans hq.symm),
      eq_of_value_eq (hr'length.trans hrlength.symm) (hr'.trans hr.symm)]

end Subspace.Uint

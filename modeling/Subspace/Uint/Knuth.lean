import Subspace.Uint.Div

namespace Subspace.Uint

/-! ### Division by a number of two words or more: `div_mod_knuth`

Algorithm D of Knuth (TAOCP vol. 2, 4.3.1), as `construct_uint!` implements it: normalise so that
the top word of the divisor has its high bit set, guess each quotient digit from the top words,
subtract, and add the divisor back once when the guess was one too large. -/

/-- `Shl` of `construct_uint!`: whole words move up by `shift / 64`, bits within the words by
`shift % 64`; what leaves the top word is lost. -/
def shl (original : List UInt64) (shift : Nat) : List UInt64 :=
  let wordShift := shift / 64
  let bitShift := shift % 64
  (List.range original.length).map fun i =>
    (if wordShift ≤ i then original.getD (i - wordShift) 0 <<< UInt64.ofNat bitShift else 0) +
      (if 0 < bitShift ∧ wordShift + 1 ≤ i then
        original.getD (i - 1 - wordShift) 0 >>> UInt64.ofNat (64 - bitShift)
      else 0)

/-- `Shr` of `construct_uint!`. -/
def shr (original : List UInt64) (shift : Nat) : List UInt64 :=
  let wordShift := shift / 64
  let bitShift := shift % 64
  (List.range original.length).map fun k =>
    (if k + wordShift < original.length then
        original.getD (k + wordShift) 0 >>> UInt64.ofNat bitShift
      else 0) +
      (if 0 < bitShift ∧ k + wordShift + 1 < original.length then
        original.getD (k + wordShift + 1) 0 <<< UInt64.ofNat (64 - bitShift)
      else 0)

/-- `full_shl`: `self << shift` for `shift < 64`, in `n_words + 1` words so that nothing is
lost. -/
def fullShl (self : List UInt64) (shift : Nat) : List UInt64 :=
  let uLo := self.getD 0 0 <<< UInt64.ofNat shift
  let uHi := shr self (64 - shift)
  uLo :: ((shl self shift).drop 1 ++ [uHi.getD (self.length - 1) 0])

/-- `full_shr`: the `n_words + 1` words of `u` shifted right by `shift < 64`, in `n_words`
words. -/
def fullShr (u : List UInt64) (shift : Nat) : List UInt64 :=
  (List.range (u.length - 1)).map fun i =>
    (u.getD i 0 >>> UInt64.ofNat shift) |||
      (if 0 < shift then u.getD (i + 1) 0 <<< UInt64.ofNat (64 - shift) else 0)

/-- `mul_u64`: `a * b + carry` as its low and high word. -/
def mulU64 (a b carry : UInt64) : UInt64 × UInt64 :=
  let split := splitU128 (a.toNat * b.toNat + carry.toNat)
  (split.2, split.1)

/-- `overflowing_mul_u64`: the words times one word, and the carry out of the top word. -/
def overflowingMulU64 : List UInt64 → UInt64 → UInt64 → List UInt64 × UInt64
  | [], _, carry => ([], carry)
  | d :: rest, other, carry =>
      let (low, hi) := mulU64 d other carry
      let (ds, carry) := overflowingMulU64 rest other hi
      (low :: ds, carry)

/-- `full_mul_u64`: the product by one word, in `n_words + 1` words. -/
def fullMulU64 (self : List UInt64) (factor : UInt64) : List UInt64 :=
  let (prod, carry) := overflowingMulU64 self factor 0
  prod ++ [carry]

/-- `binop_carry`: the incoming carry is added to `b` before `binop` is applied. -/
def binopCarry (binop : UInt64 → UInt64 → UInt64 × Bool) (a b : UInt64) (c : Bool) :
    UInt64 × Bool :=
  let (res1, overflow1) := b.overflowingAdd (UInt64.ofNat c.toNat)
  let (res2, overflow2) := binop a res1
  (res2, overflow1 || overflow2)

/-- `binop_slice`: `a` is updated in place from its lowest word for as long as `b` has words;
the rest of `a` is left as it is. -/
def binopSlice (binop : UInt64 → UInt64 → UInt64 × Bool) :
    List UInt64 → List UInt64 → Bool → List UInt64 × Bool
  | x :: xs, y :: ys, c =>
      let (res, carry) := binopCarry binop x y c
      let (rest, c) := binopSlice binop xs ys carry
      (res :: rest, c)
  | xs, _, c => (xs, c)

/-- `sub_slice`: `a -= b` in place, and whether it borrowed. -/
def subSlice (a b : List UInt64) : List UInt64 × Bool :=
  binopSlice UInt64.overflowingSub a b false

/-- `add_slice`: `a += b` in place, and whether it carried. -/
def addSlice (a b : List UInt64) : List UInt64 × Bool :=
  binopSlice UInt64.overflowingAdd a b false

/-- The correction loop of step D3: while `q_hat * v_{n-2} > b * r_hat + u_{j+n-2}` the guess
is lowered by one and `r_hat` raised by `v_{n-1}`, until `r_hat` overflows. The tuple test is
Rust's lexicographic order on `(hi, lo)`. The loop ends since the test fails at `q_hat = 0`. -/
def refineQHat (vn1 vn2 ujn2 qHat rHat : UInt64) : UInt64 :=
  let split := splitU128 (qHat.toNat * vn2.toNat)
  if hle : split.1 < rHat ∨ (split.1 = rHat ∧ split.2 ≤ ujn2) then qHat
  else
    let next := rHat.overflowingAdd vn1
    if next.2 then qHat - 1 else refineQHat vn1 vn2 ujn2 (qHat - 1) next.1
termination_by qHat.toNat
decreasing_by
  have hpos : qHat ≠ 0 := by
    rintro rfl
    apply hle
    simp only [split, splitU128, UInt64.toNat_zero, Nat.zero_mul, Nat.zero_div]
    rcases Nat.eq_zero_or_pos rHat.toNat with hzero | hpos
    · exact Or.inr ⟨UInt64.ext (by rw [hzero]; rfl), UInt64.le_def.mpr (Nat.zero_le _)⟩
    · exact Or.inl hpos
  have hsub : (qHat - 1).toNat = qHat.toNat - 1 :=
    UInt64.toNat_sub_of_le _ _ (UInt64.le_def.mpr (by
      have : qHat.toNat ≠ 0 := fun h => hpos (UInt64.ext h)
      show 1 ≤ qHat.toNat
      omega))
  have : qHat.toNat ≠ 0 := fun h => hpos (UInt64.ext h)
  omega

/-- Step D3: the guess `q_hat` for quotient digit `j` from the top words of the remainder `u`
and the top two words `vn1`, `vn2` of the divisor. When `u_{j+n} = v_{n-1}` the guess is
`u64::MAX` and is not refined. -/
def qHatOf (vn1 vn2 : UInt64) (u : List UInt64) (j n : Nat) : UInt64 :=
  let ujn := u.getD (j + n) 0
  if ujn < vn1 then
    let estimate := divModWord ujn (u.getD (j + n - 1) 0) vn1
    refineQHat vn1 vn2 (u.getD (j + n - 2) 0) estimate.1 estimate.2
  else UInt64.ofNat (2 ^ 64 - 1)

/-- Step D6: `v` added back to words `j ..= j + n` of `u`, the carry out of word `j + n - 1`
added to word `j + n` with wrap-around. -/
def addBack (v : List UInt64) (n : Nat) (u : List UInt64) (j : Nat) : List UInt64 :=
  let add := addSlice (u.drop j) (v.take n)
  let u := u.take j ++ add.1
  u.set (j + n) (u.getD (j + n) 0 + UInt64.ofNat add.2.toNat)

/-- Steps D3 to D6 for quotient digit `j`, on the remainder `u` (`n_words + 1` words) and the
quotient `q`: subtract `q_hat * v` from words `j ..= j + n`, and when that borrows, add `v` back
and lower `q_hat` by one. -/
def knuthStep (v : List UInt64) (n : Nat) (acc : List UInt64 × List UInt64) (j : Nat) :
    List UInt64 × List UInt64 :=
  let qHat := qHatOf (v.getD (n - 1) 0) (v.getD (n - 2) 0) acc.1 j n
  let sub := subSlice (acc.1.drop j) ((fullMulU64 v qHat).take (n + 1))
  let u := acc.1.take j ++ sub.1
  if sub.2 then (addBack v n u j, acc.2.set j (qHat - 1))
  else (u, acc.2.set j qHat)

/-- `div_mod_knuth`: `n` is the number of words of the divisor `v`, `m + n` that of `self`. -/
def divModKnuth (self v : List UInt64) (n m : Nat) : List UInt64 × List UInt64 :=
  let shift := (v.getD (n - 1) 0).leadingZeros
  let v := shl v shift
  let u := fullShl self shift
  let loop := (List.range (m + 1)).reverse.foldl (knuthStep v n) (u, List.replicate self.length 0)
  (loop.2, fullShr loop.1 shift)

/-! Every step keeps the number of words. -/

@[simp] theorem length_shl (original : List UInt64) (shift : Nat) :
    (shl original shift).length = original.length := by
  simp [shl]

@[simp] theorem length_shr (original : List UInt64) (shift : Nat) :
    (shr original shift).length = original.length := by
  simp [shr]

theorem length_fullShl {self : List UInt64} (hself : 0 < self.length) (shift : Nat) :
    (fullShl self shift).length = self.length + 1 := by
  simp [fullShl]
  omega

@[simp] theorem length_fullShr (u : List UInt64) (shift : Nat) :
    (fullShr u shift).length = u.length - 1 := by
  simp [fullShr]

@[simp] theorem length_binopSlice (binop : UInt64 → UInt64 → UInt64 × Bool) :
    ∀ (a b : List UInt64) (c : Bool), (binopSlice binop a b c).1.length = a.length
  | _ :: xs, _ :: ys, c => by simp [binopSlice, length_binopSlice binop xs ys]
  | [], _, _ => rfl
  | _ :: _, [], _ => rfl

theorem length_knuthStep (v : List UInt64) (n : Nat) (acc : List UInt64 × List UInt64) {j : Nat}
    (hj : j ≤ acc.1.length) :
    (knuthStep v n acc j).1.length = acc.1.length ∧
      (knuthStep v n acc j).2.length = acc.2.length := by
  dsimp only [knuthStep]
  split <;> simp [subSlice, addBack, addSlice] <;> omega

theorem length_foldl_knuthStep (v : List UInt64) (n : Nat) :
    ∀ (js : List Nat) (acc : List UInt64 × List UInt64), (∀ j ∈ js, j ≤ acc.1.length) →
      (js.foldl (knuthStep v n) acc).1.length = acc.1.length ∧
        (js.foldl (knuthStep v n) acc).2.length = acc.2.length
  | [], _, _ => ⟨rfl, rfl⟩
  | j :: js, acc, hjs => by
      obtain ⟨hu, hq⟩ := length_knuthStep v n acc (hjs j (List.mem_cons_self _ _))
      obtain ⟨hu', hq'⟩ := length_foldl_knuthStep v n js (knuthStep v n acc j)
        (fun k hk => hu ▸ hjs k (List.mem_cons_of_mem _ hk))
      exact ⟨hu'.trans hu, hq'.trans hq⟩

theorem length_divModKnuth {self : List UInt64} (hself : 0 < self.length) (v : List UInt64)
    {n m : Nat} (hm : m ≤ self.length) :
    (divModKnuth self v n m).1.length = self.length ∧
      (divModKnuth self v n m).2.length = self.length := by
  obtain ⟨hu, hq⟩ := length_foldl_knuthStep (shl v (v.getD (n - 1) 0).leadingZeros) n
    (List.range (m + 1)).reverse
    (fullShl self (v.getD (n - 1) 0).leadingZeros, List.replicate self.length 0)
    (fun j hj => by
      rw [List.mem_reverse, List.mem_range] at hj
      rw [length_fullShl hself]
      omega)
  dsimp only at hu hq
  rw [length_fullShl hself] at hu
  rw [List.length_replicate] at hq
  simp only [divModKnuth, length_fullShr]
  exact ⟨hq, by omega⟩

end Subspace.Uint

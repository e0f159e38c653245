import Mathlib.Algebra.Order.Group.Nat

/-!
# Adding a share on top

A net amount is raised to a total so that `rate` parts in `base` of the total can be taken away
and the net amount is left.  The total is rounded down, and rounding costs nothing: what is on top
of the net amount is the share of the total rounded down (`grossUp_sub_eq`), never one unit off.
-/

set_option autoImplicit false

namespace Shares

/-- The total of which `rate` parts in `base` are on top of `net`, rounded down. -/
def grossUp (base rate net : Nat) : Nat := base * net / (base - rate)

variable {base rate : Nat}

theorem le_grossUp (net : Nat) (h : rate < base) : net ≤ grossUp base rate net := by
  rw [grossUp, Nat.le_div_iff_mul_le (by omega), Nat.mul_comm base]
  exact Nat.mul_le_mul_left _ (Nat.sub_le _ _)

/-- What the division left over. -/
theorem grossUp_remainder (net : Nat) (h : rate < base) :
    ∃ s < base, base * net + rate * grossUp base rate net = base * grossUp base rate net + s := by
  have hdiv := Nat.div_add_mod (base * net) (base - rate)
  have hmod := Nat.mod_lt (base * net) (show 0 < base - rate by omega)
  refine ⟨base * net % (base - rate), by omega, ?_⟩
  have hsplit : (base - rate) * grossUp base rate net + rate * grossUp base rate net =
      base * grossUp base rate net := by
    rw [← Nat.add_mul, Nat.sub_add_cancel (Nat.le_of_lt h)]
  rw [grossUp] at hsplit ⊢
  omega

/-- **The share is exact**: it is the advertised part of the total, rounded down. -/
theorem grossUp_sub_eq (net : Nat) (h : rate < base) :
    grossUp base rate net - net = rate * grossUp base rate net / base := by
  obtain ⟨s, hs, hsum⟩ := grossUp_remainder net h
  obtain ⟨fee, hfee⟩ := Nat.exists_eq_add_of_le (le_grossUp net h)
  rw [hfee, Nat.mul_add base] at hsum
  rw [hfee, Nat.add_sub_cancel_left]
  refine (Nat.div_eq_of_lt_le ?_ ?_).symm
  · rw [Nat.mul_comm fee]
    omega
  · rw [Nat.succ_mul, Nat.mul_comm fee]
    omega

/-- The share is small next to the net amount when the rate is. -/
theorem grossUp_sub_le (net : Nat) {k : Nat} (hk : 0 < k) (h : (k + 1) * rate ≤ base)
    (hbase : 0 < base) : grossUp base rate net - net ≤ net / k := by
  have hlt : rate < base := by
    rcases Nat.eq_zero_or_pos rate with rfl | hpos
    · exact hbase
    · have := Nat.mul_le_mul_right rate (show 2 ≤ k + 1 by omega)
      omega
  obtain ⟨fee, hfee⟩ := Nat.exists_eq_add_of_le (le_grossUp net hlt)
  rw [Nat.le_div_iff_mul_le hk, hfee, Nat.add_sub_cancel_left]
  have hshare : base * fee ≤ rate * (net + fee) := by
    have hsub := grossUp_sub_eq net hlt
    rw [hfee, Nat.add_sub_cancel_left] at hsub
    calc base * fee = rate * (net + fee) / base * base := by rw [← hsub, Nat.mul_comm]
      _ ≤ rate * (net + fee) := Nat.div_mul_le_self _ _
  rcases Nat.eq_zero_or_pos rate with rfl | hpos
  · rw [Nat.zero_mul, Nat.le_zero, Nat.mul_eq_zero] at hshare
    obtain rfl : fee = 0 := by omega
    simp
  -- `(k + 1) * rate * fee ≤ base * fee ≤ rate * (net + fee)`
  have hle : rate * ((k + 1) * fee) ≤ rate * (net + fee) := by
    refine Nat.le_trans ?_ hshare
    rw [← Nat.mul_assoc, Nat.mul_comm rate]
    exact Nat.mul_le_mul_right _ h
  have := Nat.le_of_mul_le_mul_left hle hpos
  rw [Nat.succ_mul] at this
  rw [Nat.mul_comm]
  omega

theorem grossUp_mono {rate' net net' : Nat} (hnet : net ≤ net') (hrate : rate ≤ rate')
    (h : rate' < base) : grossUp base rate net ≤ grossUp base rate' net' :=
  Nat.div_le_div (Nat.mul_le_mul_left _ hnet) (by omega) (by omega)

end Shares

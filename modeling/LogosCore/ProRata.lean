import LogosCore.ExactRationals

/-! # Parts of a whole

A whole number `w` is divided into `d` parts. What is made up of such parts has a denominator that
divides `d`, so that drawing parts from parts stays exact in 256 bits. -/
namespace LogosCore.Rational

/-- The worth of `n` of the `d` parts of `w`. -/
def parts (w d n : ℕ) : Rational := ofRat (n * w / d)

variable {w d m n t : ℕ}

theorem lt_ofRat {p q : ℚ} : (ofRat p).lt (ofRat q) = decide (p < q) := by
  exact decide_eq_decide.mpr (Rat.lt_iff p q).symm

theorem parts_lt (hw : 0 < w) (hd : 0 < d) : (parts w d m).lt (parts w d n) = decide (m < n) := by
  have hw' : (0 : ℚ) < w := by exact_mod_cast hw
  have hd' : (0 : ℚ) < d := by exact_mod_cast hd
  have hiff : (m * w / d : ℚ) < n * w / d ↔ m < n := by
    rw [div_lt_div_iff_of_pos_right hd',mul_lt_mul_iff_left₀ hw']
    exact Nat.cast_lt
  simp only [parts,lt_ofRat,hiff]

theorem parts_zero (w d : ℕ) : parts w d 0 = zero := by
  simp only [parts,Nat.cast_zero,zero_mul,zero_div]
  rfl

theorem zero_lt_parts (hw : 0 < w) (hd : 0 < d) : zero.lt (parts w d n) = decide (0 < n) := by
  rw [← parts_zero w d,parts_lt hw hd]

theorem den_parts_dvd (w d n : ℕ) : (n * w / d : ℚ).den ∣ d := by
  have hdvd := den_natCast_div_dvd (n * w) d
  rwa [Nat.cast_mul] at hdvd

theorem parts_mul_den_le {l : ℕ} (hd : 0 < d) (hl : l ∣ d) : |(n * w / d : ℚ)| * l ≤ (n * w : ℕ) := by
  have hle : (l : ℚ) ≤ d := by exact_mod_cast Nat.le_of_dvd hd hl
  have hpos : (0 : ℚ) ≤ n * w / d := by positivity
  calc |(n * w / d : ℚ)| * l = n * w / d * l := by rw [abs_of_nonneg hpos]
    _ ≤ n * w / d * d := by gcongr
    _ = (n * w : ℕ) := by
      push_cast
      field_simp

theorem sub_parts (hd : 0 < d) (hfit : d < 2 ^ 256) (hle : m ≤ n) (hn : n * w < 2 ^ 256) :
    (parts w d n).sub (parts w d m) = parts w d (n - m) := by
  have hdvd : (n * w / d : ℚ).den.lcm (m * w / d : ℚ).den ∣ d :=
    Nat.lcm_dvd (den_parts_dvd w d n) (den_parts_dvd w d m)
  have hdiff : (n * w / d - m * w / d : ℚ) = (n - m : ℕ) * w / d := by
    push_cast [hle]
    ring
  have hbound : ∀ k ≤ n,|(k * w / d : ℚ)| * (n * w / d : ℚ).den.lcm (m * w / d : ℚ).den < 2 ^ 256 := by
    intro k hk
    have hkw : k * w < 2 ^ 256 := (Nat.mul_le_mul_right w hk).trans_lt hn
    exact (parts_mul_den_le hd hdvd).trans_lt (by exact_mod_cast hkw)
  unfold parts
  rw [sub_ofRat ((Nat.le_of_dvd hd hdvd).trans_lt hfit) (hbound n le_rfl) (hbound m hle),hdiff]
  rw [hdiff]
  exact hbound (n - m) (Nat.sub_le n m)

/-- A product that is worth `n` parts is computed as such. -/
theorem mul_eq_parts {p q : ℚ} (hd : 0 < d) (hfit : d < 2 ^ 256) (hn : n * w < 2 ^ 256)
    (hpq : p * q = n * w / d) : (ofRat p).mul (ofRat q) = parts w d n := by
  have hvalue : (n * w / d : ℚ) = (n * w : ℕ) / d := by push_cast; rfl
  have hnum : |(n * w / d : ℚ).num| < 2 ^ 256 := by
    rw [hvalue]
    exact (num_natCast_div_le (n * w) hd).trans_lt (by exact_mod_cast hn)
  have hden : (n * w / d : ℚ).den < 2 ^ 256 :=
    (Nat.le_of_dvd hd (den_parts_dvd w d n)).trans_lt hfit
  rw [← hpq] at hnum hden
  rw [mul_ofRat hnum hden,hpq]
  rfl

theorem share_mul_parts (hd : 0 < d) (hfit : d < 2 ^ 256) (ht : 0 < t) (hn : n * w < 2 ^ 256) :
    (ofRat (n / t)).mul (parts w d t) = parts w d n := by
  refine mul_eq_parts hd hfit hn ?_
  field_simp

theorem share_mul_whole (hd : 0 < d) (hfit : d < 2 ^ 256) (hw : w < 2 ^ 256) (hn : n * w < 2 ^ 256) :
    (ofRat (n / d)).mul (.ofNat w) = parts w d n := by
  rw [ofNat_eq_ofRat hw]
  refine mul_eq_parts hd hfit hn ?_
  ring

theorem parts_all (hd : 0 < d) (hw : w < 2 ^ 256) : parts w d d = .ofNat w := by
  rw [ofNat_eq_ofRat hw,parts]
  field_simp

/-- Parts add up exactly to a sum whose denominator divides `k`, as long as the sum is at most
`r`. -/
theorem add_parts {q : ℚ} {k r : ℕ} (hd : 0 < d) (hk : 0 < k) (hfit : k < 2 ^ 256)
    (hr : r * k < 2 ^ 256) (hq : 0 ≤ q) (hqk : q.den ∣ k) (hdk : d ∣ k) (hn : n ≤ d)
    (hle : q + w ≤ r) :
    (ofRat q).add (parts w d n) = ofRat (q + n * w / d) ∧ 0 ≤ q + n * w / d ∧
      (q + n * w / d).den ∣ k ∧ q + n * w / d ≤ q + w := by
  have hd' : (0 : ℚ) < d := by exact_mod_cast hd
  have hpart : (0 : ℚ) ≤ n * w / d := by positivity
  have hpart' : (n * w / d : ℚ) ≤ w := by
    rw [div_le_iff₀ hd',mul_comm (w : ℚ)]
    gcongr
  have hlcm : q.den.lcm (n * w / d : ℚ).den ∣ k := Nat.lcm_dvd hqk ((den_parts_dvd w d n).trans hdk)
  have hlcm' : ((q.den.lcm (n * w / d : ℚ).den : ℕ) : ℚ) ≤ k := by
    exact_mod_cast Nat.le_of_dvd hk hlcm
  have hrk : (r * k : ℚ) < 2 ^ 256 := by exact_mod_cast hr
  have hbound : ∀ x : ℚ,0 ≤ x → x ≤ r → |x| * (q.den.lcm (n * w / d : ℚ).den : ℕ) < 2 ^ 256 := by
    intro x hx hxr
    rw [abs_of_nonneg hx]
    exact lt_of_le_of_lt (mul_le_mul hxr hlcm' (Nat.cast_nonneg _) (Nat.cast_nonneg _)) hrk
  refine ⟨?_,by linarith,(Rat.add_den_dvd_lcm _ _).trans hlcm,by linarith⟩
  refine add_ofRat ((Nat.le_of_dvd hk hlcm).trans_lt hfit) ?_ ?_ ?_
  · exact hbound q hq (by linarith)
  · exact hbound _ hpart (by linarith)
  · exact hbound _ (by linarith) (by linarith)

end LogosCore.Rational

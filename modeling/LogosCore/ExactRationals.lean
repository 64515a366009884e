import LogosCore.Rational

/-! # Exact results of the 256-bit rationals

A rational in lowest terms is determined by its value. Where neither numerator nor denominator of
what is computed on the way leaves the 256 bits, an operation gives the value it should have. -/
namespace LogosCore.Rational

/-- Numerator and denominator of a value in lowest terms. -/
def ofRat (q : ℚ) : Rational := ⟨q.num,q.den⟩

theorem eq_ofRat {n d : ℤ} {q : ℚ} (hd : 0 < d) (hcop : IsCoprime n d) (hq : (n : ℚ) / d = q) :
    (⟨n,d⟩ : Rational) = ofRat q := by
  have hgcd : n.natAbs.Coprime d.natAbs := Int.isCoprime_iff_gcd_eq_one.mp hcop
  subst hq
  simp only [ofRat,Rat.num_div_eq_of_coprime hd hgcd,Rat.den_div_eq_of_coprime hd hgcd]

theorem int256_eq_self {z : ℤ} (h : |z| < 2 ^ 256) : int256 z = z := by
  rcases le_total 0 z with hz | hz
  · rw [abs_of_nonneg hz] at h
    exact Int.tmod_eq_of_lt hz h
  · rw [abs_of_nonpos hz] at h
    have hneg := Int.tmod_eq_of_lt (neg_nonneg.mpr hz) h
    rw [Int.neg_tmod] at hneg
    exact neg_inj.mp hneg

theorem int256_neg (z : ℤ) : int256 (-z) = -int256 z := Int.neg_tmod z _

/-- Two integers as multiples of their greatest common divisor. -/
theorem gcd_factors (m : ℤ) {n : ℤ} (hn : n ≠ 0) : ∃ g a b : ℤ,0 < g ∧ (m.gcd n : ℤ) = g ∧
    m = g * a ∧ n = g * b ∧ IsCoprime a b ∧ m.tdiv g = a ∧ n.tdiv g = b := by
  have hpos : 0 < m.gcd n := Int.gcd_pos_of_ne_zero_right m hn
  have hg : (0 : ℤ) < m.gcd n := by exact_mod_cast hpos
  obtain ⟨a,b,hcop,ha,hb⟩ := Int.exists_gcd_one hpos
  rw [mul_comm] at ha hb
  generalize (m.gcd n : ℤ) = g at ha hb hg
  refine ⟨g,a,b,hg,rfl,ha,hb,Int.isCoprime_iff_gcd_eq_one.mpr hcop,?_,?_⟩
  · rw [ha]
    exact Int.mul_tdiv_cancel_left a hg.ne'
  · rw [hb]
    exact Int.mul_tdiv_cancel_left b hg.ne'

theorem ofRat_eq_zero {q : ℚ} : ofRat q = zero ↔ q = 0 := by
  constructor
  · intro h
    exact Rat.num_eq_zero.mp (congrArg Rational.num h)
  · rintro rfl
    rfl

theorem ofNat_eq_ofRat {n : ℕ} (h : n < 2 ^ 256) : ofNat n = ofRat n := by
  have habs : |(n : ℤ)| < 2 ^ 256 := by
    exact_mod_cast h
  simp only [ofNat,int256_eq_self habs,ofRat,Rat.num_natCast,Rat.den_natCast,Nat.cast_one]

theorem make_natCast (n : ℕ) {d : ℕ} (hd : 0 < d) : make n d = some (ofRat (n / d)) := by
  have hne : (d : ℤ) ≠ 0 := by exact_mod_cast hd.ne'
  unfold make
  rw [if_neg hne]
  by_cases hn : (n : ℤ) = 0
  · have hzero : n = 0 := by exact_mod_cast hn
    simp [hzero,ofRat]
  · rw [if_neg hn]
    obtain ⟨g,a,b,hg,hgcd,ha,hb,hcop,hadiv,hbdiv⟩ := gcd_factors (n : ℤ) hne
    have hbpos : 0 < b := by
      have : 0 < g * b := by
        rw [← hb]
        exact_mod_cast hd
      exact pos_of_mul_pos_right this hg.le
    simp only [hgcd,hadiv,hbdiv,if_neg hbpos.not_gt]
    refine congrArg some (eq_ofRat hbpos hcop ?_)
    have hn' : (n : ℚ) = g * a := by exact_mod_cast congrArg (Int.cast (R := ℚ)) ha
    have hd' : (d : ℚ) = g * b := by exact_mod_cast congrArg (Int.cast (R := ℚ)) hb
    have hg' : (g : ℚ) ≠ 0 := by exact_mod_cast hg.ne'
    rw [hn',hd',mul_div_mul_left _ _ hg']

theorem isCoprime_num_den (q : ℚ) : IsCoprime q.num (q.den : ℤ) := by
  rw [Int.isCoprime_iff_gcd_eq_one]
  exact q.reduced

theorem den_ne_zero (q : ℚ) : (q.den : ℤ) ≠ 0 := by exact_mod_cast q.den_nz

theorem den_pos (q : ℚ) : 0 < (q.den : ℤ) := by exact_mod_cast q.den_pos

/-- Reducing crosswise before the multiplication leaves nothing to reduce after it. -/
theorem mul_ofRat {p q : ℚ} (hnum : |(p * q).num| < 2 ^ 256) (hden : (p * q).den < 2 ^ 256) :
    (ofRat p).mul (ofRat q) = ofRat (p * q) := by
  obtain ⟨g1,a,d,hg1,hgcd1,ha,hd,had,hadiv,hddiv⟩ := gcd_factors p.num (den_ne_zero q)
  obtain ⟨g2,c,b,hg2,hgcd2,hc,hb,hcb,hcdiv,hbdiv⟩ := gcd_factors q.num (den_ne_zero p)
  have hpcop := isCoprime_num_den p
  have hqcop := isCoprime_num_den q
  rw [ha,hb] at hpcop
  rw [hc,hd] at hqcop
  have hcop : IsCoprime (a * c) (b * d) :=
    .mul_left (.mul_right hpcop.of_mul_left_right.of_mul_right_right had)
      (.mul_right hcb hqcop.of_mul_left_right.of_mul_right_right)
  have hbpos : 0 < b := pos_of_mul_pos_right (hb ▸ den_pos p) hg2.le
  have hdpos : 0 < d := pos_of_mul_pos_right (hd ▸ den_pos q) hg1.le
  have hvalue : ((a * c : ℤ) : ℚ) / (b * d : ℤ) = p * q := by
    have hp : p = (g1 * a : ℤ) / (g2 * b : ℤ) := by
      rw [← ha,← hb]
      exact (Rat.num_div_den p).symm
    have hq : q = (g2 * c : ℤ) / (g1 * d : ℤ) := by
      rw [← hc,← hd]
      exact (Rat.num_div_den q).symm
    have h2 : (g2 : ℚ) ≠ 0 := by exact_mod_cast hg2.ne'
    rw [hp,hq]
    push_cast
    field_simp
  have hresult : (⟨a * c,b * d⟩ : Rational) = ofRat (p * q) :=
    eq_ofRat (mul_pos hbpos hdpos) hcop hvalue
  have hac : a * c = (p * q).num := congrArg Rational.num hresult
  have hbd : b * d = (p * q).den := congrArg Rational.den hresult
  have hden' : |((p * q).den : ℤ)| < 2 ^ 256 := by
    rw [abs_of_nonneg (den_pos _).le]
    exact_mod_cast hden
  simp only [mul,ofRat,hgcd1,hgcd2,hadiv,hbdiv,hcdiv,hddiv,hac,hbd,int256_eq_self hnum,
    int256_eq_self hden']

/-- The numerator of a sum over the least common denominator is prime to the cofactors. -/
theorem isCoprime_sum {m n a b g : ℤ} (hm : IsCoprime m (g * a)) (hab : IsCoprime a b) :
    IsCoprime (m * b + n * a) a := by
  have hma : IsCoprime m a := hm.of_mul_right_right
  have : IsCoprime (m * b) a := .mul_left hma hab.symm
  rw [mul_comm n a]
  exact IsCoprime.add_mul_left_left this n

theorem cast_num_mul {p : ℚ} {g a b : ℤ} (ha : (p.den : ℤ) = g * a) :
    ((p.num * b : ℤ) : ℚ) = p * (g * a * b : ℤ) := by
  have hcast : ((g * a : ℤ) : ℚ) = p.den := by exact_mod_cast congrArg (Int.cast (R := ℚ)) ha.symm
  rw [Int.cast_mul (g * a) b,hcast,← mul_assoc,Rat.mul_den_eq_num,Int.cast_mul]

theorem abs_lt_of_cast {z : ℤ} {x : ℚ} (h : (z : ℚ) = x) (hx : |x| < 2 ^ 256) : |z| < 2 ^ 256 := by
  rw [← h] at hx
  exact_mod_cast hx

/-- An addition brings both values and their sum over the least common denominator. -/
theorem add_ofRat {p q : ℚ} (hden : p.den.lcm q.den < 2 ^ 256)
    (hp : |p| * p.den.lcm q.den < 2 ^ 256) (hq : |q| * p.den.lcm q.den < 2 ^ 256)
    (hsum : |p + q| * p.den.lcm q.den < 2 ^ 256) : (ofRat p).add (ofRat q) = ofRat (p + q) := by
  obtain ⟨g,a,b,hg,hgcd,ha,hb,hab,hadiv,hbdiv⟩ := gcd_factors (p.den : ℤ) (den_ne_zero q)
  have hapos : 0 < a := pos_of_mul_pos_right (ha ▸ den_pos p) hg.le
  have hbpos : 0 < b := pos_of_mul_pos_right (hb ▸ den_pos q) hg.le
  have hlcm : ((p.den.lcm q.den : ℕ) : ℤ) = g * a * b := by
    have hprod : ((p.den.gcd q.den : ℕ) : ℤ) * (p.den.lcm q.den : ℕ) = p.den * q.den := by
      exact_mod_cast Nat.gcd_mul_lcm p.den q.den
    have hgcd' : ((p.den.gcd q.den : ℕ) : ℤ) = g := hgcd
    rw [hgcd',ha,hb] at hprod
    exact mul_left_cancel₀ hg.ne' (hprod.trans (by ring))
  have hlcm' : ((p.den.lcm q.den : ℕ) : ℚ) = (g * a * b : ℤ) := by
    exact_mod_cast congrArg (Int.cast (R := ℚ)) hlcm
  rw [hlcm'] at hp hq hsum
  have hpos : (0 : ℚ) < (g * a * b : ℤ) := by exact_mod_cast mul_pos (mul_pos hg hapos) hbpos
  have hbound : ∀ x : ℚ,|x| * (g * a * b : ℤ) < 2 ^ 256 → |x * (g * a * b : ℤ)| < 2 ^ 256 := by
    intro x hx
    rwa [abs_mul,abs_of_pos hpos]
  have hpnum : ((p.num * b : ℤ) : ℚ) = p * (g * a * b : ℤ) := cast_num_mul ha
  have hqnum : ((q.num * a : ℤ) : ℚ) = q * (g * a * b : ℤ) := by
    rw [cast_num_mul hb,mul_right_comm g b a]
  have hnum : ((p.num * b + q.num * a : ℤ) : ℚ) = (p + q) * (g * a * b : ℤ) := by
    rw [Int.cast_add,hpnum,hqnum,add_mul]
  have h1 := int256_eq_self (abs_lt_of_cast hpnum (hbound p hp))
  have h2 := int256_eq_self (abs_lt_of_cast hqnum (hbound q hq))
  have h3 := int256_eq_self (abs_lt_of_cast hnum (hbound (p + q) hsum))
  have hpcop := isCoprime_num_den p
  have hqcop := isCoprime_num_den q
  rw [ha] at hpcop
  rw [hb] at hqcop
  have hcopa : IsCoprime (p.num * b + q.num * a) a := isCoprime_sum hpcop hab
  have hcopb : IsCoprime (p.num * b + q.num * a) b := by
    rw [add_comm]
    exact isCoprime_sum hqcop hab.symm
  obtain ⟨g',n,e,hg',hgcd',hn,he,hne,hndiv,-⟩ := gcd_factors (p.num * b + q.num * a) hg.ne'
  have hqdiv : (q.den : ℤ).tdiv g' = e * b := by
    rw [hb,he,mul_assoc]
    exact Int.mul_tdiv_cancel_left _ hg'.ne'
  have hepos : 0 < e := pos_of_mul_pos_right (he ▸ hg) hg'.le
  have hdenle : |a * (e * b)| < 2 ^ 256 := by
    have hlt : (g * a * b : ℤ) < 2 ^ 256 := by
      rw [← hlcm]
      exact_mod_cast hden
    have hle : a * (e * b) ≤ g * a * b := by
      have : a * (e * b) ≤ g' * (a * (e * b)) := le_mul_of_one_le_left (by positivity) hg'
      rw [he]
      linarith [this,show g' * (a * (e * b)) = g' * e * a * b by ring]
    rw [abs_of_pos (by positivity)]
    exact lt_of_le_of_lt hle hlt
  have hresult : (⟨n,a * (e * b)⟩ : Rational) = ofRat (p + q) := by
    rw [hn] at hcopa hcopb
    refine eq_ofRat (by positivity) ?_ ?_
    · exact .mul_right hcopa.of_mul_left_right (.mul_right hne hcopb.of_mul_left_right)
    · have hg'' : (g' : ℚ) ≠ 0 := by exact_mod_cast hg'.ne'
      rw [hn] at hnum
      have hsum' : p + q = ((g' * n : ℤ) : ℚ) / (g * a * b : ℤ) := by
        rw [hnum,mul_div_cancel_right₀ _ hpos.ne']
      have hfactor : (g * a * b : ℤ) = g' * (a * (e * b)) := by
        rw [he]
        ring
      rw [hsum',hfactor,Int.cast_mul g' n,Int.cast_mul g' (a * (e * b)),mul_div_mul_left _ _ hg'']
  rw [← hresult]
  simp only [add,combine,ofRat,hgcd,hadiv,hbdiv,h1,h2,h3,hgcd',hndiv,hqdiv,int256_eq_self hdenle]

theorem sub_ofRat {p q : ℚ} (hden : p.den.lcm q.den < 2 ^ 256)
    (hp : |p| * p.den.lcm q.den < 2 ^ 256) (hq : |q| * p.den.lcm q.den < 2 ^ 256)
    (hdiff : |p - q| * p.den.lcm q.den < 2 ^ 256) : (ofRat p).sub (ofRat q) = ofRat (p - q) := by
  have hneg : (ofRat p).sub (ofRat q) = (ofRat p).add (ofRat (-q)) := by
    simp only [sub,add,combine,ofRat,Rat.neg_num,Rat.neg_den,neg_mul,int256_neg,← sub_eq_add_neg]
  rw [hneg,sub_eq_add_neg]
  refine add_ofRat ?_ ?_ ?_ ?_
  · rwa [Rat.neg_den]
  · rwa [Rat.neg_den]
  · rwa [Rat.neg_den,abs_neg]
  · rwa [Rat.neg_den,← sub_eq_add_neg]

theorem decrement_ofRat {q : ℚ} (h : |q - 1| * q.den < 2 ^ 256) :
    (ofRat q).decrement = ofRat (q - 1) := by
  have hne : (q.den : ℚ) ≠ 0 := by exact_mod_cast q.den_nz
  have hcast : ((q.num - q.den : ℤ) : ℚ) = (q - 1) * q.den := by
    rw [sub_mul,Rat.mul_den_eq_num,one_mul]
    push_cast
    rfl
  have hlt : |q.num - q.den| < 2 ^ 256 := by
    refine abs_lt_of_cast hcast ?_
    rwa [abs_mul,Nat.abs_cast]
  simp only [decrement,ofRat,int256_eq_self hlt]
  refine eq_ofRat (den_pos q) ?_ ?_
  · have hcop := isCoprime_num_den q
    have := IsCoprime.add_mul_left_left hcop (-1)
    rwa [mul_neg_one,← sub_eq_add_neg] at this
  · rw [hcast,Int.cast_natCast,mul_div_cancel_right₀ _ hne]

theorem truncate_ofRat {q : ℚ} (hq : 0 ≤ q) : (ofRat q).truncate = ⌊q⌋ := by
  simp only [truncate,ofRat,Rat.floor_def']
  exact Int.tdiv_eq_ediv_of_nonneg (Rat.num_nonneg.mpr hq)

theorem remainder_ofRat {q : ℚ} (hq : 0 ≤ q) : (ofRat q).remainder = some (ofRat (Int.fract q)) := by
  have hnum : 0 ≤ q.num := Rat.num_nonneg.mpr hq
  obtain ⟨n,hn⟩ : ∃ n : ℕ,q.num.tmod q.den = n :=
    ⟨_,(Int.toNat_of_nonneg (Int.tmod_nonneg _ hnum)).symm⟩
  have hne : (q.den : ℚ) ≠ 0 := by exact_mod_cast q.den_nz
  have hvalue : (n : ℚ) / q.den = Int.fract q := by
    have hdiv : (q.num.tmod q.den : ℤ) = q.num - q.den * ⌊q⌋ := by
      rw [← truncate_ofRat hq]
      exact Int.tmod_def q.num q.den
    have hcast : (n : ℚ) = q.num - q.den * ⌊q⌋ := by
      rw [hn] at hdiv
      exact_mod_cast congrArg (Int.cast (R := ℚ)) hdiv
    rw [hcast,sub_div,Rat.num_div_den,mul_div_cancel_left₀ _ hne]
    rfl
  simp only [remainder,ofRat,hn]
  rw [make_natCast n q.den_pos,hvalue]
  rfl

def toRat (r : Rational) : ℚ := r.num / r.den

@[simp] theorem toRat_ofRat (q : ℚ) : (ofRat q).toRat = q := Rat.num_div_den q

theorem ofRat_den_le_num {q : ℚ} : (ofRat q).den ≤ (ofRat q).num ↔ 1 ≤ q := by
  have hpos : (0 : ℚ) < q.den := by exact_mod_cast q.den_pos
  conv_rhs => rw [← Rat.num_div_den q]
  rw [le_div_iff₀ hpos,one_mul]
  exact_mod_cast Iff.rfl

/-- A part of a unit, in lowest terms. -/
def IsFraction (r : Rational) : Prop := ∃ q : ℚ,r = ofRat q ∧ 0 ≤ q ∧ q < 1

/-- A quotient of natural numbers has a numerator and a denominator no greater than these. -/
theorem num_natCast_div_le (n : ℕ) {d : ℕ} (hd : 0 < d) : |((n : ℚ) / d).num| ≤ n := by
  rcases Nat.eq_zero_or_pos n with rfl | hn
  · simp
  · have hne : (d : ℤ) ≠ 0 := by exact_mod_cast hd.ne'
    have hdvd := Rat.num_dvd n hne
    rw [Rat.divInt_eq_div,Int.cast_natCast,Int.cast_natCast] at hdvd
    exact Int.le_of_dvd (by exact_mod_cast hn) ((abs_dvd _ _).mpr hdvd)

theorem den_natCast_div_dvd (n d : ℕ) : ((n : ℚ) / d).den ∣ d := by
  have hdvd := Rat.den_dvd n d
  rw [Rat.divInt_eq_div,Int.cast_natCast,Int.cast_natCast] at hdvd
  exact Int.natCast_dvd_natCast.mp hdvd

end LogosCore.Rational

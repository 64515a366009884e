import LogosCore.EpochFrames
import LogosCore.ExactRationals

/-! # The distribution of fees

An epoch block pays the fees of its epoch to delegates in proportion to their stakes. What is not
a whole unit goes into the dust of their accounts, so that nothing of the pool is lost. -/
namespace LogosCore.Ledger

variable {H : Type} [DecidableEq H] [Zero H] {cfg : Config H}

open Option Rational
open Int (fract)

def Account.worth : Account H → ℚ
  | .user u => u.balance.toNat + u.dust.toRat
  | .token t => t.balance.toNat

namespace Store

def worth (s : Store H) (account : H) : ℚ := ((s.accounts.lookup account).map Account.worth).getD 0

/-- The dust of every account is less than a unit. -/
def Dusty (s : Store H) : Prop :=
  ∀ a u,s.accounts.lookup a = some (.user u) → u.dust.IsFraction

def owed (totalStake : ℕ) (feePool : Amount) (d : Delegate H) : ℚ :=
  (d.rawStake.toNat * feePool.toNat : ℕ) / totalStake

variable {q : ℚ} {account : H}

section Dust

/-- A reward is split into whole units and dust without loss. -/
theorem collectDust_ofRat {δ : ℚ} (hδ : 0 ≤ δ) (hδ' : δ < 1) (hq : 0 ≤ q)
    (hfit : δ.den.lcm q.den ≤ 2 ^ 255) (hlt : δ + q < 2 ^ 128) :
    ∃ (deposit : Amount) (ε : ℚ),collectDust (ofRat δ) (ofRat q) = some (deposit,ofRat ε) ∧
      0 ≤ ε ∧ ε < 1 ∧ deposit.toNat + ε = δ + q ∧ ε.den ∣ δ.den.lcm q.den := by
  have hfract := Int.fract_nonneg q
  have hfract' := Int.fract_lt_one q
  have hfractden : (fract q).den ∣ q.den := by
    have hdvd := Rat.sub_den_dvd_lcm q ⌊q⌋
    rwa [Rat.den_intCast,Nat.lcm_one_right] at hdvd
  have hlcm : δ.den.lcm (fract q).den ∣ δ.den.lcm q.den :=
    Nat.lcm_dvd (Nat.dvd_lcm_left _ _) (hfractden.trans (Nat.dvd_lcm_right _ _))
  have hle : δ.den.lcm (fract q).den ≤ 2 ^ 255 :=
    (Nat.le_of_dvd (Nat.lcm_pos δ.den_pos q.den_pos) hlcm).trans hfit
  have hleq : ((δ.den.lcm (fract q).den : ℕ) : ℚ) ≤ 2 ^ 255 := by exact_mod_cast hle
  have hpos : (0 : ℚ) < (δ.den.lcm (fract q).den : ℕ) := by
    exact_mod_cast Nat.lcm_pos δ.den_pos (fract q).den_pos
  have hbound : ∀ x : ℚ,0 ≤ x → x < 2 → |x| * (δ.den.lcm (fract q).den : ℕ) < 2 ^ 256 := by
    intro x hx hx'
    rw [abs_of_nonneg hx]
    calc x * (δ.den.lcm (fract q).den : ℕ) < 2 * (δ.den.lcm (fract q).den : ℕ) :=
          mul_lt_mul_of_pos_right hx' hpos
      _ ≤ 2 * 2 ^ 255 := by linarith
      _ = 2 ^ 256 := by norm_num
  have hadd : (ofRat δ).add (ofRat (fract q)) = ofRat (δ + fract q) :=
    add_ofRat (lt_of_le_of_lt hle (by norm_num)) (hbound δ hδ (by linarith))
      (hbound _ hfract (by linarith)) (hbound _ (by linarith) (by linarith))
  have hden : (δ + fract q).den ∣ δ.den.lcm q.den := (Rat.add_den_dvd_lcm _ _).trans hlcm
  have hfloor : (0 : ℤ) ≤ ⌊q⌋ := Int.floor_nonneg.mpr hq
  obtain ⟨n,hn⟩ : ∃ n : ℕ,⌊q⌋ = n := ⟨_,(Int.toNat_of_nonneg hfloor).symm⟩
  have hparts : (n : ℚ) + fract q = q := by
    rw [← Int.cast_natCast (R := ℚ) n,← hn]
    exact Int.floor_add_fract q
  have hnlt : n < 2 ^ 128 := by
    have : (n : ℚ) < 2 ^ 128 := by linarith
    exact_mod_cast this
  have hwhole : (BitVec.ofInt 128 ⌊q⌋).toNat = n := by
    rw [hn]
    simpa using Nat.mod_eq_of_lt hnlt
  unfold collectDust
  rw [remainder_ofRat hq,map_some,truncate_ofRat hq]
  rw [hadd]
  by_cases hunit : 1 ≤ δ + fract q
  · rw [if_pos (ofRat_den_le_num.mpr hunit)]
    have hdec : (ofRat (δ + fract q)).decrement = ofRat (δ + fract q - 1) := by
      refine decrement_ofRat ?_
      have hdenle : (((δ + fract q).den : ℕ) : ℚ) ≤ 2 ^ 255 := by
        exact_mod_cast (Nat.le_of_dvd (Nat.lcm_pos δ.den_pos q.den_pos) hden).trans hfit
      have hdenpos : (0 : ℚ) < ((δ + fract q).den : ℕ) := by
        exact_mod_cast (δ + fract q).den_pos
      rw [abs_of_nonneg (by linarith)]
      calc (δ + fract q - 1) * (δ + fract q).den < 1 * (δ + fract q).den :=
            mul_lt_mul_of_pos_right (by linarith) hdenpos
        _ < 2 ^ 256 := by linarith
    rw [hdec]
    refine ⟨_,_,rfl,by linarith,by linarith,?_,?_⟩
    · have hsucc : n + 1 < 2 ^ 128 := by
        have : (n : ℚ) + 1 < 2 ^ 128 := by linarith
        exact_mod_cast this
      have hdeposit : (BitVec.ofInt 128 ⌊q⌋ + 1).toNat = n + 1 := by
        rw [BitVec.toNat_add,hwhole]
        exact Nat.mod_eq_of_lt hsucc
      rw [hdeposit]
      push_cast
      linarith
    · have hdvd := Rat.sub_den_dvd_lcm (δ + fract q) 1
      rw [Rat.den_one,Nat.lcm_one_right] at hdvd
      exact hdvd.trans hden
  · rw [if_neg (fun h => hunit (ofRat_den_le_num.mp h))]
    refine ⟨_,_,rfl,by linarith,not_le.mp hunit,?_,hden⟩
    rw [hwhole]
    linarith

end Dust

section Shares

variable {totalStake feePool : Amount}

theorem owed_nonneg (total : ℕ) (d : Delegate H) : 0 ≤ owed total feePool d := by
  unfold owed
  positivity

theorem owed_den_dvd (total : ℕ) (d : Delegate H) : (owed total feePool d).den ∣ total :=
  den_natCast_div_dvd _ _

/-- The share of a delegate is computed without loss. -/
theorem earnings_eq (htotal : 0 < totalStake.toNat) (d : Delegate H) :
    earnings totalStake feePool d = some (ofRat (owed totalStake.toNat feePool d)) := by
  have howed : (d.rawStake.toNat : ℚ) / totalStake.toNat * feePool.toNat =
      owed totalStake.toNat feePool d := by
    unfold owed
    push_cast
    ring
  have hfee : ofNat feePool.toNat = ofRat feePool.toNat :=
    ofNat_eq_ofRat (feePool.isLt.trans (by norm_num))
  unfold earnings
  rw [make_natCast _ htotal,map_some,hfee,mul_ofRat,howed]
  · rw [howed]
    refine lt_of_le_of_lt (num_natCast_div_le _ htotal) ?_
    have hlt : d.rawStake.toNat * feePool.toNat < 2 ^ 128 * 2 ^ 128 :=
      Nat.mul_lt_mul'' d.rawStake.isLt feePool.isLt
    exact_mod_cast lt_of_lt_of_eq hlt (by norm_num)
  · rw [howed]
    have hdvd : (owed totalStake.toNat feePool d).den ∣ totalStake.toNat := owed_den_dvd ..
    exact lt_of_le_of_lt (Nat.le_of_dvd htotal hdvd) (totalStake.isLt.trans (by norm_num))

end Shares

section Pay

variable {s s' : Store H} {block : EpochBlock H} {hash : H} {index : BitVec 16}

/-- Account and pool leave room for the reward: the balance, and the dust in 256 bits. -/
structure Room (s : Store H) (total : ℕ) (pool : ℚ) (account : H) : Prop where
  dust : ∀ u,s.accounts.lookup account = some (.user u) → u.dust.den.toNat.lcm total ≤ 2 ^ 255
  balance : s.worth account + pool < 2 ^ 128

theorem room_iff {total : ℕ} {fee : ℚ} :
    ((∀ u ∈ (s.accounts.lookup account).bind (·.asUser),u.dust.den.toNat.lcm total ≤ 2 ^ 255) ∧
      s.worth account + fee < 2 ^ 128) ↔ s.Room total fee account := by
  constructor
  · intro h
    refine ⟨fun u hu => h.1 u ?_,h.2⟩
    rw [hu]
    rfl
  · intro h
    refine ⟨fun u hu => ?_,h.balance⟩
    obtain ⟨info,hlookup,huser⟩ := bind_eq_some_iff.mp hu
    cases Account.asUser_eq_some.mp huser
    exact h.dust u hlookup

instance (s : Store H) (total : ℕ) (fee : ℚ) (account : H) : Decidable (s.Room total fee account) :=
  decidable_of_iff _ room_iff

theorem worth_of_lookup {info : Account H} (h : s.accounts.lookup account = some info) :
    s.worth account = info.worth := by
  simp only [worth,h,map_some,getD_some]

theorem worth_insert {info : Account H} (h : s'.accounts = s.accounts.insert account info) (a : H) :
    s'.worth a = if a = account then info.worth else s.worth a := by
  unfold worth
  rw [h,Table.lookup_insert_ite]
  split <;> rfl

/-- The account of a delegate gets exactly its reward. -/
theorem payDelegate_exact {total : ℕ} {pool : ℚ} (hs : s.Dusty) (hq : 0 ≤ q)
    (hden : q.den ∣ total) (htotal : 0 < total) (hle : q ≤ pool) (hroom : s.Room total pool account)
    (hpay : s.payDelegate cfg block hash index account (ofRat q) = some s') :
    ∃ u u',s.accounts.lookup account = some (.user u) ∧
      s'.accounts = s.accounts.insert account (.user u') ∧
      (Account.user u').worth = (Account.user u).worth + q ∧ u'.dust.IsFraction ∧
      u'.dust.den.toNat ∣ u.dust.den.toNat.lcm total := by
  obtain ⟨u,hu,hpay⟩ := bind_eq_some_iff.mp hpay
  obtain ⟨info,hlookup,huser⟩ := bind_eq_some_iff.mp hu
  cases Account.asUser_eq_some.mp huser
  obtain ⟨δ,hδ,hδ0,hδ1⟩ := hs account u hlookup
  have hδden : u.dust.den.toNat = δ.den := by
    rw [hδ]
    rfl
  have hlcm : δ.den.lcm q.den ∣ u.dust.den.toNat.lcm total := by
    rw [hδden]
    exact Nat.lcm_dvd (Nat.dvd_lcm_left _ _) (hden.trans (Nat.dvd_lcm_right _ _))
  have hlcmpos : 0 < u.dust.den.toNat.lcm total := by
    rw [hδden]
    exact Nat.lcm_pos δ.den_pos htotal
  have hworth : s.worth account = u.balance.toNat + δ := by
    rw [worth_of_lookup hlookup,Account.worth,hδ,toRat_ofRat]
  have hbalance := hroom.balance
  obtain ⟨deposit,ε,hcollect,hε0,hε1,hsum,hεden⟩ := collectDust_ofRat hδ0 hδ1 hq
    ((Nat.le_of_dvd hlcmpos hlcm).trans (hroom.dust u hlookup)) (by linarith)
  rw [← hδ] at hcollect
  rw [hcollect] at hpay
  replace hpay : (if 0 < deposit then s.depositReward cfg block hash index account
      { u with dust := ofRat ε } deposit
    else some (s.accountPut account (.user { u with dust := ofRat ε }))) = some s' := hpay
  have hworthu : (Account.user u).worth = u.balance.toNat + δ := by
    rw [Account.worth,hδ,toRat_ofRat]
  by_cases hpos : 0 < deposit
  · rw [if_pos hpos] at hpay
    obtain ⟨⟨info,s1⟩,hrun,hplace⟩ := bind_eq_some_iff.mp hpay
    have hinfo := (result_runGov (AccountInfo.ensures_setBalance _ _ _) hrun).1
    have haccounts := (sameMoney_runGov hrun).accounts
    have hplaced := (sameMoney_placeReceive hplace).accounts
    refine ⟨u,{ info with
      receiveCount := info.receiveCount + 1
      receiveHead := cfg.receiveHash hash index },hlookup,?_,?_,?_,?_⟩
    · rw [hplaced,← haccounts]
      rfl
    · have hfits : u.balance.toNat + deposit.toNat < 2 ^ 128 := by
        have : (u.balance.toNat + deposit.toNat : ℚ) < 2 ^ 128 := by linarith
        exact_mod_cast this
      have hnew : (u.balance + deposit).toNat = u.balance.toNat + deposit.toNat := by
        exact Nat.mod_eq_of_lt hfits
      rw [hworthu,hinfo]
      simp only [Account.worth,hnew,toRat_ofRat]
      push_cast
      linarith
    · rw [hinfo]
      exact ⟨ε,rfl,hε0,hε1⟩
    · rw [hinfo]
      exact hεden.trans hlcm
  · rw [if_neg hpos] at hpay
    cases hpay
    refine ⟨u,_,hlookup,rfl,?_,⟨ε,rfl,hε0,hε1⟩,hεden.trans hlcm⟩
    have hzero : deposit.toNat = 0 := by
      by_contra hne
      exact hpos (by bv_omega)
    rw [hzero] at hsum
    rw [hworthu]
    simp only [Account.worth,toRat_ofRat]
    push_cast at hsum
    linarith

def pool (total : ℕ) (feePool : Amount) (ds : List (Delegate H)) : ℚ :=
  ((ds.map fun d => d.rawStake.toNat).sum * feePool.toNat : ℕ) / total

theorem pool_cons (total : ℕ) (feePool : Amount) (d : Delegate H) (ds : List (Delegate H)) :
    pool total feePool (d::ds) = owed total feePool d + pool total feePool ds := by
  simp only [pool,owed,List.map_cons,List.sum_cons]
  push_cast
  ring

theorem pool_nonneg (total : ℕ) (feePool : Amount) (ds : List (Delegate H)) :
    0 ≤ pool total feePool ds := by
  unfold pool
  positivity

theorem pool_den_dvd (total : ℕ) (feePool : Amount) (ds : List (Delegate H)) :
    (pool total feePool ds).den ∣ total :=
  den_natCast_div_dvd _ _

/-- The pool that remains is computed without loss. -/
theorem sub_owed {total : ℕ} {feePool : Amount} {d : Delegate H} {ds : List (Delegate H)}
    (htotal : 0 < total) (htotal' : total < 2 ^ 128)
    (hsum : ((d::ds).map fun d => d.rawStake.toNat).sum ≤ total) :
    (ofRat (pool total feePool (d::ds))).sub (ofRat (owed total feePool d)) =
      ofRat (pool total feePool ds) := by
  have hsplit := pool_cons total feePool d ds
  have howed : 0 ≤ owed total feePool d := owed_nonneg ..
  have hrest : 0 ≤ pool total feePool ds := pool_nonneg ..
  have hdvd : (pool total feePool (d::ds)).den.lcm (owed total feePool d).den ∣ total :=
    Nat.lcm_dvd (pool_den_dvd ..) (owed_den_dvd ..)
  have hlcm := Nat.le_of_dvd htotal hdvd
  have htop : pool total feePool (d::ds) * total < 2 ^ 256 := by
    have hne : (total : ℚ) ≠ 0 := by exact_mod_cast htotal.ne'
    unfold pool
    rw [div_mul_cancel₀ _ hne]
    have hlt : ((d::ds).map fun d => d.rawStake.toNat).sum * feePool.toNat < 2 ^ 128 * 2 ^ 128 :=
      Nat.mul_lt_mul'' (lt_of_le_of_lt hsum htotal') feePool.isLt
    exact_mod_cast lt_of_lt_of_eq hlt (by norm_num)
  have hbound : ∀ x : ℚ,0 ≤ x → x ≤ pool total feePool (d::ds) →
      |x| * ((pool total feePool (d::ds)).den.lcm (owed total feePool d).den : ℕ) < 2 ^ 256 := by
    intro x hx hx'
    rw [abs_of_nonneg hx]
    have hlcm' : (((pool total feePool (d::ds)).den.lcm (owed total feePool d).den : ℕ) : ℚ) ≤ total := by
      exact_mod_cast hlcm
    calc x * ((pool total feePool (d::ds)).den.lcm (owed total feePool d).den : ℕ)
        ≤ pool total feePool (d::ds) * total :=
          mul_le_mul hx' hlcm' (Nat.cast_nonneg _) (hx.trans hx')
      _ < 2 ^ 256 := htop
  have hdiff : pool total feePool (d::ds) - owed total feePool d = pool total feePool ds := by
    rw [hsplit,add_sub_cancel_left]
  rw [sub_ofRat (lt_of_le_of_lt hlcm (htotal'.trans (by norm_num)))
    (hbound _ (pool_nonneg ..) le_rfl) (hbound _ howed (by linarith)),hdiff]
  rw [hdiff]
  exact hbound _ hrest (by linarith)

theorem payDelegate_room {total : ℕ} {ρ : ℚ} {u u' : AccountInfo H}
    (hlookup : s.accounts.lookup account = some (.user u))
    (haccounts : s'.accounts = s.accounts.insert account (.user u'))
    (hworth : (Account.user u').worth = (Account.user u).worth + q)
    (hdvd : u'.dust.den.toNat ∣ u.dust.den.toNat.lcm total)
    (hlcmpos : 0 < u.dust.den.toNat.lcm total) (hq : 0 ≤ q) {a : H}
    (hroom : s.Room total (q + ρ) a) (hroom' : s.Room total (q + ρ) account) :
    s'.Room total ρ a := by
  constructor
  · intro v hv
    rw [haccounts,Table.lookup_insert_ite] at hv
    split at hv
    · cases hv
      have hle : u'.dust.den.toNat.lcm total ∣ u.dust.den.toNat.lcm total :=
        Nat.lcm_dvd hdvd (Nat.dvd_lcm_right _ _)
      exact (Nat.le_of_dvd hlcmpos hle).trans (hroom'.dust u hlookup)
    · exact hroom.dust v hv
  · rw [worth_insert haccounts]
    split
    · next heq =>
      have hbalance := hroom'.balance
      rw [worth_of_lookup hlookup] at hbalance
      linarith
    · have hbalance := hroom.balance
      linarith

/-- The loop pays the whole pool, and never divides by zero. -/
theorem payDelegates_exact (index : BitVec 16) {totalStake : Amount}
    (htotal : 0 < totalStake.toNat) {ds : List (Delegate H)} (hsum : (ds.map fun d => d.rawStake.toNat).sum ≤ totalStake.toNat)
    (hs : s.Dusty) (hroom : ∀ d ∈ ds,
      s.Room totalStake.toNat (pool totalStake.toNat block.transactionFeePool ds) d.account) :
    payDelegates cfg block hash totalStake index
        (ofRat (pool totalStake.toNat block.transactionFeePool ds)) ds s ≠ .error .division ∧
      ∀ r,payDelegates cfg block hash totalStake index
          (ofRat (pool totalStake.toNat block.transactionFeePool ds)) ds s = .ok r →
        r.2.Dusty ∧ ∀ A : Finset H,(∀ d ∈ ds,d.account ∈ A) → ∑ a ∈ A,r.2.worth a =
          ∑ a ∈ A,s.worth a + pool totalStake.toNat block.transactionFeePool ds := by
  induction ds generalizing index s with
  | nil =>
    refine ⟨by simp [payDelegates],fun r hr => ?_⟩
    cases hr
    refine ⟨hs,fun A _ => ?_⟩
    simp [pool]
  | cons d ds ih =>
    by_cases hzero : pool totalStake.toNat block.transactionFeePool (d::ds) = 0
    · have hstop := ofRat_eq_zero.mpr hzero
      simp only [payDelegates,hstop,if_true]
      refine ⟨by simp,fun r hr => ?_⟩
      cases hr
      refine ⟨hs,fun A _ => ?_⟩
      rw [hzero,add_zero]
    · have hgo : ofRat (pool totalStake.toNat block.transactionFeePool (d::ds)) ≠ zero :=
        fun h => hzero (ofRat_eq_zero.mp h)
      have hrestsum : (ds.map fun d => d.rawStake.toNat).sum ≤ totalStake.toNat := by
        exact (Nat.le_add_left _ _).trans hsum
      simp only [payDelegates,if_neg hgo,earnings_eq htotal,sub_owed htotal totalStake.isLt hsum]
      have hsplit := pool_cons totalStake.toNat block.transactionFeePool d ds
      have hnonneg : 0 ≤ pool totalStake.toNat block.transactionFeePool ds := pool_nonneg ..
      have howed : 0 ≤ owed totalStake.toNat block.transactionFeePool d := owed_nonneg ..
      cases hpay : s.payDelegate cfg block hash index d.account
          (ofRat (owed totalStake.toNat block.transactionFeePool d)) with
      | none => exact ⟨by simp,fun r hr => by cases hr⟩
      | some s1 =>
        obtain ⟨u,u',hlookup,haccounts,hworth,hfraction,hdvd⟩ :=
          payDelegate_exact hs howed (owed_den_dvd ..) htotal (by linarith)
            (hroom d List.mem_cons_self) hpay
        have hlcmpos : 0 < u.dust.den.toNat.lcm totalStake.toNat := by
          obtain ⟨δ,hδ,-⟩ := hs d.account u hlookup
          rw [hδ]
          exact Nat.lcm_pos δ.den_pos htotal
        have hs1 : s1.Dusty := by
          intro a v hv
          rw [haccounts,Table.lookup_insert_ite] at hv
          split at hv
          · cases hv
            exact hfraction
          · exact hs a v hv
        rw [hsplit] at hroom
        obtain ⟨hdivision,hpaid⟩ := ih (index + 1) hrestsum hs1 fun d' hd' =>
          payDelegate_room hlookup haccounts hworth hdvd hlcmpos howed
            (hroom d' (List.mem_cons_of_mem _ hd')) (hroom d List.mem_cons_self)
        refine ⟨hdivision,fun r hr => ?_⟩
        obtain ⟨hdusty,hworths⟩ := hpaid r hr
        refine ⟨hdusty,fun A hA => ?_⟩
        have hmem := hA d List.mem_cons_self
        have hstep : ∑ a ∈ A,s1.worth a =
            ∑ a ∈ A,s.worth a + owed totalStake.toNat block.transactionFeePool d := by
          rw [← Finset.add_sum_erase A _ hmem,← Finset.add_sum_erase A s.worth hmem,
            worth_insert haccounts,if_pos rfl,hworth,worth_of_lookup hlookup]
          have hothers : ∑ a ∈ A.erase d.account,s1.worth a = ∑ a ∈ A.erase d.account,s.worth a :=
            Finset.sum_congr rfl fun a ha => by
              rw [worth_insert haccounts,if_neg (Finset.ne_of_mem_erase ha)]
          rw [hothers]
          ring
        rw [hworths A fun d' hd' => hA d' (List.mem_cons_of_mem _ hd'),hstep,hsplit]
        ring

/-- At every point of the loop the rest of the pool is what the remaining delegates are owed. -/
theorem remaining_exact (feePool : Amount) {total : ℕ} (htotal : 0 < total)
    (htotal' : total < 2 ^ 128) {paid rest : List (Delegate H)}
    (hsum : ((paid ++ rest).map fun d => d.rawStake.toNat).sum ≤ total) :
    (paid.map fun d => ofRat (owed total feePool d)).foldl Rational.sub
      (ofRat (pool total feePool (paid ++ rest))) = ofRat (pool total feePool rest) := by
  induction paid with
  | nil => rfl
  | cons d paid ih =>
    rw [List.cons_append] at hsum ⊢
    rw [List.map_cons,List.foldl_cons,sub_owed htotal htotal' hsum]
    refine ih ?_
    exact (Nat.le_add_left _ _).trans hsum

end Pay

section Epochs

variable {s s' : Store H} {block : EpochBlock H} {hash : H} {digest : Delegate H → ℕ}

def stakeOf (delegates : List (Delegate H)) : ℕ := (delegates.map fun d => d.rawStake.toNat).sum

def rewardedBy (s : Store H) (hash : H) (block : EpochBlock H) : Option (List (Delegate H)) :=
  rewarded { s.gov with epochs := s.gov.epochs.insert hash block } block

/-- An epoch block with fees that can be paid: stakes add up within 128 bits to more than zero. -/
structure Payable (s : Store H) (hash : H) (block : EpochBlock H) : Prop where
  fresh : hash ∉ s.gov.epochs
  late : genesisEpoch < block.epochNumber
  stakes : 0 < block.transactionFeePool → ∀ delegates,s.rewardedBy hash block = some delegates →
    0 < stakeOf delegates ∧ stakeOf delegates < 2 ^ 128 ∧
      ∀ d ∈ delegates,s.Room (stakeOf delegates) block.transactionFeePool.toNat d.account

theorem payable_iff :
    (hash ∉ s.gov.epochs ∧ genesisEpoch < block.epochNumber ∧ (0 < block.transactionFeePool →
      ∀ delegates ∈ s.rewardedBy hash block,0 < stakeOf delegates ∧ stakeOf delegates < 2 ^ 128 ∧
        ∀ d ∈ delegates,s.Room (stakeOf delegates) block.transactionFeePool.toNat d.account)) ↔
      s.Payable hash block :=
  ⟨fun h => ⟨h.1,h.2.1,h.2.2⟩,fun h => ⟨h.fresh,h.late,h.stakes⟩⟩

instance (s : Store H) (hash : H) (block : EpochBlock H) : Decidable (s.Payable hash block) :=
  decidable_of_iff _ payable_iff

/-- The fees reach the accounts of the delegates to the last unit. -/
structure FeesExact (s s' : Store H) (block : EpochBlock H) (delegates : List (Delegate H)) :
    Prop where
  paid : ∑ a ∈ (delegates.map (·.account)).toFinset,s'.worth a =
    ∑ a ∈ (delegates.map (·.account)).toFinset,s.worth a + block.transactionFeePool.toNat
  earned : 0 < block.transactionFeePool → ∀ d ∈ delegates,
    earnings (delegates.map (·.rawStake)).sum block.transactionFeePool d =
      some (ofRat (owed (stakeOf delegates) block.transactionFeePool d))
  remaining : 0 < block.transactionFeePool → ∀ paid rest,(paid ++ rest).Perm delegates →
    (paid.map fun d => ofRat (owed (stakeOf delegates) block.transactionFeePool d)).foldl
        Rational.sub (.ofNat block.transactionFeePool.toNat) =
      ofRat (pool (stakeOf delegates) block.transactionFeePool rest)

variable {ds : List (Delegate H)}

theorem stakeOf_perm {ds' : List (Delegate H)} (h : ds.Perm ds') : stakeOf ds = stakeOf ds' :=
  (h.map _).sum_eq

theorem toNat_sum_rawStake (h : stakeOf ds < 2 ^ 128) :
    (ds.map Delegate.rawStake).sum.toNat = stakeOf ds := by
  induction ds with
  | nil => rfl
  | cons d ds ih =>
    simp only [stakeOf,List.map_cons,List.sum_cons] at h ih ⊢
    have hrest := ih (lt_of_le_of_lt (Nat.le_add_left _ _) h)
    rw [BitVec.toNat_add,hrest]
    exact Nat.mod_eq_of_lt h

theorem pool_eq_fee {feePool : Amount} (h : 0 < stakeOf ds) :
    pool (stakeOf ds) feePool ds = feePool.toNat := by
  have hne : ((stakeOf ds : ℕ) : ℚ) ≠ 0 := by exact_mod_cast h.ne'
  unfold pool
  rw [← stakeOf,Nat.cast_mul,mul_div_cancel_left₀ _ hne]

variable (digest) in
theorem applyRewards_exact (hs : s.Dusty) {delegates : List (Delegate H)}
    (hrewarded : rewarded s.gov block = some delegates) (hpos : 0 < stakeOf delegates)
    (hlt : stakeOf delegates < 2 ^ 128)
    (hroom : ∀ d ∈ delegates,s.Room (stakeOf delegates) block.transactionFeePool.toNat d.account) :
    s.applyRewards cfg digest block hash ≠ .error .division ∧
      ∀ s',s.applyRewards cfg digest block hash = .ok s' → s'.Dusty ∧
        ∑ a ∈ (delegates.map (·.account)).toFinset,s'.worth a =
          ∑ a ∈ (delegates.map (·.account)).toFinset,s.worth a + block.transactionFeePool.toNat := by
  let sorted := delegates.insertionSort fun d1 d2 => !stakeGreater digest d2 d1
  have hperm : sorted.Perm delegates := List.perm_insertionSort _ _
  have hstake : stakeOf sorted = stakeOf delegates := stakeOf_perm hperm
  let total : Amount := (sorted.map Delegate.rawStake).sum
  have htotal : total.toNat = stakeOf delegates := (toNat_sum_rawStake (hstake ▸ hlt)).trans hstake
  have hpool : pool total.toNat block.transactionFeePool sorted =
      block.transactionFeePool.toNat := by
    rw [htotal,← hstake]
    exact pool_eq_fee (hstake ▸ hpos)
  have hfee : Rational.ofNat block.transactionFeePool.toNat =
      ofRat (pool total.toNat block.transactionFeePool sorted) := by
    rw [hpool]
    exact ofNat_eq_ofRat (block.transactionFeePool.isLt.trans (by norm_num))
  have hroom' : ∀ d ∈ sorted,
      s.Room total.toNat (pool total.toNat block.transactionFeePool sorted) d.account := by
    intro d hd
    rw [hpool,htotal]
    exact hroom d (hperm.mem_iff.mp hd)
  obtain ⟨hdivision,hpaid⟩ : payDelegates cfg block hash total 0
        (ofRat (pool total.toNat block.transactionFeePool sorted)) sorted s ≠ .error .division ∧ _ :=
    payDelegates_exact 0 (htotal ▸ hpos) (htotal ▸ hstake.le) hs hroom'
  have happly : s.applyRewards cfg digest block hash =
      (payDelegates cfg block hash total 0 (ofRat (pool total.toNat block.transactionFeePool sorted))
        sorted s).map fun r => { r.2 with feePools := r.2.feePools.erase block.epochNumber } := by
    unfold applyRewards
    rw [hrewarded,← hfee]
  rw [happly]
  cases hrun : payDelegates cfg block hash total 0
      (ofRat (pool total.toNat block.transactionFeePool sorted)) sorted s with
  | error fault =>
    rw [hrun] at hdivision
    refine ⟨fun h => hdivision ?_,fun s' h => by cases h⟩
    cases h
    rfl
  | ok r =>
    obtain ⟨hdusty,hworth⟩ := hpaid r hrun
    refine ⟨fun h => (by cases h),fun s' h => ?_⟩
    cases h
    refine ⟨hdusty,?_⟩
    rw [← hpool]
    refine hworth _ fun d hd => ?_
    exact List.mem_toFinset.mpr (List.mem_map_of_mem (hperm.mem_iff.mp hd))

theorem worth_congr (h : s'.accounts = s.accounts) (a : H) : s'.worth a = s.worth a := by
  simp only [worth,h]

theorem Dusty.congr (hs : s.Dusty) (h : s'.accounts = s.accounts) : s'.Dusty := by
  intro a u hu
  rw [h] at hu
  exact hs a u hu

theorem Room.congr {total : ℕ} {fee : ℚ} (hroom : s.Room total fee account)
    (h : s'.accounts = s.accounts) : s'.Room total fee account := by
  refine ⟨fun u hu => hroom.dust u (h ▸ hu),?_⟩
  rw [worth_congr h]
  exact hroom.balance

theorem runEpoch_eq_ok {x : Gov H Unit} (h : s.runEpoch x = .ok s') :
    x.run s.gov = .ok ((),s'.gov) ∧ s'.accounts = s.accounts := by
  unfold runEpoch at h
  split at h
  · cases h
  · next r hrun =>
    cases h
    obtain ⟨g,hg,hs'⟩ := runGov_eq_some.mp hrun
    rw [hs']
    exact ⟨hg,rfl⟩

theorem runEpoch_ne_division {x : Gov H Unit} : s.runEpoch x ≠ .error .division := by
  unfold runEpoch
  split <;> simp

theorem bind_ne_division {x : Except EpochFault (Store H)} {f : Store H → Except EpochFault (Store H)}
    (hx : x ≠ .error .division) (hf : ∀ s,x = .ok s → f s ≠ .error .division) :
    x >>= f ≠ .error .division := by
  cases x with
  | error fault => exact hx
  | ok s => exact hf s rfl

theorem rewarded_moveToNextEpoch {s1 : Store H}
    (h : s.runEpoch (moveToNextEpoch cfg hash block) = .ok s1) :
    rewarded s1.gov block = s.rewardedBy hash block := by
  have hepochs := (blocks_moveToNextEpoch (runEpoch_eq_ok h).1).1
  simp only [rewardedBy,rewarded,GovernanceStore.epochGet,hepochs]

/-- What a delegate earns and what remains of the pool is exact wherever the stakes are fit. -/
theorem feesExact_of_paid {delegates : List (Delegate H)} (hstakes : 0 < block.transactionFeePool →
      0 < stakeOf delegates ∧ stakeOf delegates < 2 ^ 128)
    (hpaid : ∑ a ∈ (delegates.map (·.account)).toFinset,s'.worth a =
      ∑ a ∈ (delegates.map (·.account)).toFinset,s.worth a + block.transactionFeePool.toNat) :
    FeesExact s s' block delegates := by
  refine ⟨hpaid,fun hfee d hd => ?_,fun hfee paid rest hperm => ?_⟩
  · obtain ⟨hpos,hlt⟩ := hstakes hfee
    have htotal := toNat_sum_rawStake hlt
    rw [← htotal]
    exact earnings_eq (htotal ▸ hpos) d
  · obtain ⟨hpos,hlt⟩ := hstakes hfee
    have hstake := stakeOf_perm hperm
    have hpool : pool (stakeOf delegates) block.transactionFeePool (paid ++ rest) =
        block.transactionFeePool.toNat := by
      rw [← hstake]
      exact pool_eq_fee (hstake ▸ hpos)
    have hremaining := remaining_exact block.transactionFeePool hpos hlt hstake.le
    rwa [hpool,← ofNat_eq_ofRat (block.transactionFeePool.isLt.trans (by norm_num))] at hremaining

variable (cfg digest hash) in
theorem distributeFees_exact (hs : s.Dusty)
    (hstakes : 0 < block.transactionFeePool → ∀ delegates,rewarded s.gov block = some delegates →
      0 < stakeOf delegates ∧ stakeOf delegates < 2 ^ 128 ∧
        ∀ d ∈ delegates,s.Room (stakeOf delegates) block.transactionFeePool.toNat d.account) :
    s.distributeFees cfg digest block hash ≠ .error .division ∧
      ∀ s',s.distributeFees cfg digest block hash = .ok s' → s'.Dusty ∧
        ∀ delegates,rewarded s.gov block = some delegates →
          ∑ a ∈ (delegates.map (·.account)).toFinset,s'.worth a =
            ∑ a ∈ (delegates.map (·.account)).toFinset,s.worth a + block.transactionFeePool.toNat := by
  unfold distributeFees
  by_cases hfee : 0 < block.transactionFeePool
  · rw [if_pos hfee]
    cases hrewarded : rewarded s.gov block with
    | none =>
      have hhalt : s.applyRewards cfg digest block hash = .error .halt := by
        unfold applyRewards
        rw [hrewarded]
      rw [hhalt]
      exact ⟨by simp,fun s' h => by cases h⟩
    | some delegates =>
      obtain ⟨hpos,hlt,hroom⟩ := hstakes hfee delegates hrewarded
      obtain ⟨hdivision,hpaid⟩ := applyRewards_exact digest hs hrewarded hpos hlt hroom
      refine ⟨hdivision,fun s' h => ⟨(hpaid s' h).1,fun delegates' h' => ?_⟩⟩
      cases h'
      exact (hpaid s' h).2
  · rw [if_neg hfee]
    have hzero : block.transactionFeePool.toNat = 0 := by
      by_contra hne
      exact hfee (by bv_omega)
    refine ⟨by simp,fun s' h => ?_⟩
    cases h
    refine ⟨hs,fun delegates _ => ?_⟩
    rw [hzero,Nat.cast_zero,add_zero]

variable (cfg digest) in
/-- An epoch block that can be paid distributes its fees exactly. -/
theorem applyEpoch_exact (hs : s.Dusty) (hpay : s.Payable hash block) :
    applyEpoch cfg digest s hash block ≠ .error .division ∧
      ∀ s',applyEpoch cfg digest s hash block = .ok s' → s'.Dusty ∧
        ∀ delegates,s.rewardedBy hash block = some delegates → FeesExact s s' block delegates := by
  have hlate : ¬block.epochNumber ≤ genesisEpoch := BitVec.not_le.mpr hpay.late
  unfold applyEpoch
  simp only [if_neg hpay.fresh,if_neg hlate]
  cases hmove : s.runEpoch (moveToNextEpoch cfg hash block) with
  | error fault =>
    exact ⟨fun h => runEpoch_ne_division (hmove.trans h),fun s' h => by cases h⟩
  | ok s1 =>
    have haccounts := (runEpoch_eq_ok hmove).2
    have hrewarded := rewarded_moveToNextEpoch hmove
    obtain ⟨hdivision,hpaid⟩ := distributeFees_exact cfg hash digest (hs.congr haccounts)
      fun hfee delegates h => by
        rw [hrewarded] at h
        obtain ⟨hpos,hlt,hroom⟩ := hpay.stakes hfee delegates h
        exact ⟨hpos,hlt,fun d hd => (hroom d hd).congr haccounts⟩
    have hrest : (s1.distributeFees cfg digest block hash >>= fun s =>
        s.runEpoch (updateGlobalRewards block)) ≠ .error .division :=
      bind_ne_division hdivision fun _ _ => runEpoch_ne_division
    refine ⟨hrest,fun s' h => ?_⟩
    cases hfees : s1.distributeFees cfg digest block hash with
    | error fault =>
      replace h : (s1.distributeFees cfg digest block hash >>= fun s =>
        s.runEpoch (updateGlobalRewards block)) = .ok s' := h
      rw [hfees] at h
      cases h
    | ok s2 =>
      replace h : (s1.distributeFees cfg digest block hash >>= fun s =>
        s.runEpoch (updateGlobalRewards block)) = .ok s' := h
      rw [hfees] at h
      have hlast := (runEpoch_eq_ok h).2
      obtain ⟨hdusty,hworth⟩ := hpaid s2 hfees
      refine ⟨hdusty.congr hlast,fun delegates hd => feesExact_of_paid (fun hfee => ?_) ?_⟩
      · obtain ⟨hpos,hlt,-⟩ := hpay.stakes hfee delegates hd
        exact ⟨hpos,hlt⟩
      · have hsum := hworth delegates (hrewarded.trans hd)
        simp only [worth_congr haccounts] at hsum
        simp only [worth_congr hlast]
        exact hsum

variable (cfg digest) in
def epochStep (s : Store H) (e : H × EpochBlock H) : Option (Store H × List Unit) :=
  (applyEpoch cfg digest s e.1 e.2).toOption.map fun s => (s,[])

theorem epochStep_eq_some {e : H × EpochBlock H} {o : List Unit}
    (h : epochStep cfg digest s e = some (s',o)) : applyEpoch cfg digest s e.1 e.2 = .ok s' := by
  unfold epochStep at h
  cases happly : applyEpoch cfg digest s e.1 e.2 with
  | error fault =>
    rw [happly] at h
    cases h
  | ok s1 =>
    rw [happly] at h
    cases h
    rfl

variable (cfg digest) in
/-- After epochs that can be paid all dust is below a unit, and the next one is paid exactly. -/
theorem exec_fees_exact {epochs : List (H × EpochBlock H)} {o : List Unit} (hs : s.Dusty)
    (hpayable : Machine.Along (epochStep cfg digest) (fun s e => s.Payable e.1 e.2) s epochs)
    (hrun : Machine.exec (epochStep cfg digest) s epochs = some (s',o)) :
    s'.Dusty ∧ ∀ hash block,s'.Payable hash block →
      applyEpoch cfg digest s' hash block ≠ .error .division ∧
      ∀ s'',applyEpoch cfg digest s' hash block = .ok s'' → s''.Dusty ∧
        ∀ delegates,s'.rewardedBy hash block = some delegates → FeesExact s' s'' block delegates := by
  have hdusty : s'.Dusty := Machine.exec_preserves (I := fun _ s => s.Dusty)
    (fun _ _ _ _ _ hs hpay hstep =>
      ((applyEpoch_exact cfg digest hs hpay).2 _ (epochStep_eq_some hstep)).1) hs hpayable hrun
  exact ⟨hdusty,fun hash block hpay => applyEpoch_exact cfg digest hdusty hpay⟩

section Sample

def sampleDelegates (stake1 stake2 : Amount) : List (Delegate ℕ) :=
  ⟨1,0,1,stake1,1,stake1,false⟩::⟨2,0,1,stake2,1,stake2,false⟩::
    (List.range 30).map fun i => ⟨i + 3,0,1,0,1,0,false⟩

def sampleEpoch (epoch : ℕ) (delegates : List (Delegate ℕ)) (fee : Amount) : ℕ × EpochBlock ℕ :=
  (epoch,⟨BitVec.ofNat 32 epoch,epoch - 1,BitVec.ofNat 64 epoch,delegates,false,fee,0⟩)

def epochSample (delegates : List (Delegate ℕ)) : Store ℕ :=
  let account : Account ℕ := .user { AccountInfo.default with
    balance := 100
    availableBalance := 100 }
  { (Store.empty.accountPut 1 account).accountPut 2 account with
    gov := { GovernanceStore.empty with
      epochs := AList.insert 1 (sampleEpoch 1 delegates 0).2
        (AList.insert 2 (sampleEpoch 2 delegates 0).2 ∅)
      epochTip := some (2,2) } }

theorem dusty_epochSample (delegates : List (Delegate ℕ)) : (epochSample delegates).Dusty := by
  intro a u hu
  unfold epochSample accountPut at hu
  simp only [Table.lookup_insert_ite] at hu
  split at hu
  · cases hu
    exact ⟨0,rfl,le_rfl,one_pos⟩
  · split at hu
    · cases hu
      exact ⟨0,rfl,le_rfl,one_pos⟩
    · cases hu

/-- Two epochs with a pool of 7 units and stakes 1 and 2. -/
theorem exec_fees_exact_sample : ∃ s' o s'',
    Machine.exec (epochStep Config.sample (·.account)) (epochSample (sampleDelegates 1 2))
      [sampleEpoch 3 (sampleDelegates 1 2) 7] = some (s',o) ∧
    applyEpoch Config.sample (·.account) s' 4 (sampleEpoch 4 (sampleDelegates 1 2) 7).2 = .ok s'' ∧
    FeesExact s' s'' (sampleEpoch 4 (sampleDelegates 1 2) 7).2 (sampleDelegates 1 2) := by
  have hpay : (Machine.exec (epochStep Config.sample (·.account))
      (epochSample (sampleDelegates 1 2)) [sampleEpoch 3 (sampleDelegates 1 2) 7]).any fun r =>
        decide (r.1.Payable 4 (sampleEpoch 4 (sampleDelegates 1 2) 7).2) &&
        decide (r.1.rewardedBy 4 (sampleEpoch 4 (sampleDelegates 1 2) 7).2 =
          some (sampleDelegates 1 2)) &&
        (applyEpoch Config.sample (·.account) r.1 4
          (sampleEpoch 4 (sampleDelegates 1 2) 7).2).toOption.isSome := by
    decide +kernel
  have hchecks : Machine.checks (epochStep Config.sample (·.account))
      (fun s e => decide (s.Payable e.1 e.2)) (epochSample (sampleDelegates 1 2))
      [sampleEpoch 3 (sampleDelegates 1 2) 7] = true := by
    decide +kernel
  cases hrun : Machine.exec (epochStep Config.sample (·.account))
      (epochSample (sampleDelegates 1 2)) [sampleEpoch 3 (sampleDelegates 1 2) 7] with
  | none =>
    rw [hrun] at hpay
    cases hpay
  | some r =>
    rw [hrun] at hpay
    simp only [any_some,Bool.and_eq_true,decide_eq_true_eq] at hpay
    obtain ⟨⟨hpayable,hrewarded⟩,hsome⟩ := hpay
    have halong := Machine.along_of_decide hchecks
    cases happly : applyEpoch Config.sample (·.account) r.1 4
        (sampleEpoch 4 (sampleDelegates 1 2) 7).2 with
    | error fault =>
      rw [happly] at hsome
      cases hsome
    | ok s'' =>
      have hexact := ((exec_fees_exact Config.sample (·.account) (dusty_epochSample _) halong
        hrun).2 4 _ hpayable).2 s'' happly
      exact ⟨r.1,r.2,s'',rfl,happly,hexact.2 _ hrewarded⟩

/-- Without stake the code divides by zero. After three pools of one unit whose stakes have no
common factor the dust does not fit: three units are not there. -/
theorem fees_inexact :
    (applyEpoch Config.sample (·.account) (epochSample (sampleDelegates 0 0)) 3
      (sampleEpoch 3 (sampleDelegates 0 0) 7).2).map (fun _ => ()) = .error .division ∧
    (Machine.exec (epochStep Config.sample (·.account))
      (epochSample (sampleDelegates 1 (2 ^ 127 - 2)))
      [sampleEpoch 3 (sampleDelegates 1 (2 ^ 127 - 1)) 1,sampleEpoch 4 (sampleDelegates 1 (2 ^ 127)) 0,
        sampleEpoch 5 [] 1,sampleEpoch 6 [] 1]).map
      (fun r => decide (r.1.worth 1 + r.1.worth 2 = 203)) = some false := by
  decide +kernel

end Sample

end Epochs

end Store

end LogosCore.Ledger

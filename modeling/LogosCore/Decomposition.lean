import LogosCore.StakingLaws

/-! # The decomposition of a balance

The balance of an account is what is available, what is staked and what is thawing. Each
operation moves Logos between the three, provided that the thawing funds it stores are
consolidated with those of the same expiration and target: if the search for them is given
up too early, equal funds become one record and their amount is lost. -/
namespace LogosCore.Ledger

variable {H : Type} [DecidableEq H] [Zero H] (cfg : Config H)

open Program StakingManager LiabilityManager ThawingFunds

namespace StakingManager

variable {g0 g : GovernanceStore H} {origin : H} {staked : Option (StakedFunds H)}
  {ts : List (ThawingFunds H)} {info : AccountInfo H} {epoch : Epoch}

/-- Taking part of a record out of a list and putting the rest back. -/
theorem draw {t : ThawingFunds H} (hdistinct : Distinct ts) (ht : t ∈ ts)
    (hfit : totalAmount ts < 2 ^ 128) {taken : Amount} (hle : taken ≤ t.amount) :
    Distinct (if 0 < t.amount - taken then
      deposit cfg { t with amount := t.amount - taken } (ts.erase t) else ts.erase t) ∧
    totalAmount (if 0 < t.amount - taken then
      deposit cfg { t with amount := t.amount - taken } (ts.erase t) else ts.erase t) +
      taken.toNat = totalAmount ts := by
  have herase := totalAmount_erase ht
  have hsub : (t.amount - taken).toNat + taken.toNat = t.amount.toNat := by bv_omega
  split
  · have hsearch : Searchable t.key (ts.erase t) := .of_notMem (hdistinct.key_notMem_erase ht)
    refine ⟨(hdistinct.erase t).deposit cfg hsearch,?_⟩
    have hdeposit : totalAmount (deposit cfg { t with amount := t.amount - taken } (ts.erase t)) =
        totalAmount (ts.erase t) + (t.amount - taken).toNat :=
      totalAmount_deposit cfg hsearch (by show _ + (t.amount - taken).toNat < _; omega)
    omega
  · exact ⟨hdistinct.erase t,by bv_omega⟩

/-- What is available, staked, in hand and thawing makes up a balance. -/
def makesUp (balance : Amount) : Acting H := fun info st ts _ n _ => Distinct ts ∧
  info.balance = balance ∧
  info.availableBalance.toNat + stakedAmount st + n + totalAmount ts = balance.toNat

variable (balance : Amount)

theorem makesUp_laws (expiration : Epoch) :
    Acting.Laws cfg g0 origin anyHalt False True expiration (makesUp balance) where
  other := trivial
  wellFormed h := h.elim
  distinct _ := fun h => h.1
  storeThawing := by
    rintro info st ts ks n g t ⟨⟨hdistinct,hbalance,hsum⟩,_⟩ _ _ hs
    have htotal := totalAmount_deposit cfg (hs trivial) (by omega)
    exact wp_const _ ⟨hdistinct.deposit cfg (hs trivial),hbalance,by omega⟩

theorem makesUp_stakeLaws (target : H) :
    Acting.StakeLaws cfg g0 origin anyHalt False True epoch target (makesUp balance) where
  toLaws := makesUp_laws cfg balance _
  votingPower := trivial
  balance := trivial
  power h _ := h.1
  spend := by
    rintro info st ts ks n g info' x ⟨hdistinct,hbalance,hsum⟩ hle heq
    refine ⟨hdistinct,by rw [heq]; exact hbalance,?_⟩
    rw [heq]
    bv_omega
  createStaked h _ := h.1
  createThawing h _ := h.1
  secondary h _ _ _ := by
    refine (onlyLiabilities_createSecondaryLiability cfg trivial trivial ..).imp
      fun r g' hr => ⟨h.1.1,?_,?_⟩
    · rw [hr.2]
      exact h.1.2.1
    · rw [hr.2]
      exact h.1.2.2
  updateStaked := by
    rintro info f ts ks n g x ⟨⟨hdistinct,hbalance,hsum⟩,_⟩ hle
    refine wp_const _ ⟨hdistinct,hbalance,?_⟩
    rw [stakedAmount_some] at hsum
    rw [stakedAmount_remaining]
    bv_omega
  storeStaked := by
    rintro info st ts ks n g f ⟨⟨hdistinct,hbalance,hsum⟩,_⟩ _ _ hamount _ _ _
    refine wp_const _ ⟨hdistinct,hbalance,?_⟩
    rw [stakedAmount_some]
    omega
  dropStake := by
    rintro info st ts ks g ⟨⟨hdistinct,hbalance,hsum⟩,_⟩ hzero
    refine ⟨hdistinct,hbalance,?_⟩
    cases st with
    | none => exact hsum
    | some f =>
      rw [stakedAmount_some,hzero f rfl] at hsum
      exact hsum
  updateThawing := by
    rintro info st ts ks n g t x ⟨⟨hdistinct,hbalance,hsum⟩,_⟩ _ _ ht hle
    obtain ⟨hdistinct',htotal⟩ := draw cfg hdistinct (ht trivial) (by omega) hle
    exact wp_const _ ⟨hdistinct',hbalance,by omega⟩
  empty h _ := ⟨h.1.1,h.1.2.1,by have := h.1.2.2; omega⟩

theorem makesUp_redateLaws (expiration : Epoch) : Acting.RedateLaws cfg g0 origin anyHalt False
    True expiration (fun _ => True) (makesUp balance) where
  toLaws := makesUp_laws cfg balance expiration
  perm h _ := h
  redate := by
    rintro info st ts ks n g t ⟨⟨hdistinct,hbalance,hsum⟩,_⟩ _ _ ht
    have htotal := totalAmount_erase (ht trivial).1
    exact wp_const _ ⟨hdistinct.erase t,hbalance,by omega⟩

variable {balance}

/-- The amount is staked, and with what is available and thawing it makes up the balance. -/
def Restaked (g0 : GovernanceStore H) (origin : H) (info : AccountInfo H) (amount : Amount)
    (info' : AccountInfo H) (g' : GovernanceStore H) : Prop :=
  info'.balance = info.balance ∧ ∃ staked ts,g0.Holds origin staked ts g' ∧ Distinct ts ∧
    stakedAmount staked = amount.toNat ∧
    info'.availableBalance.toNat + amount.toNat + totalAmount ts = info.balance.toNat

theorem holds_stake {amount : Amount} {target : H}
    (hdistinct : Distinct (g.thawing.duplicates origin))
    (hfunds : info.availableBalance.toNat + stakedAmount (g.stakes.lookup origin) +
      totalAmount (g.thawing.duplicates origin) = info.balance.toNat)
    (hsearch : ∀ f,g.stakes.lookup origin = some f →
      Searchable (epoch + thawingPeriod,f.target) (g.thawing.duplicates origin)) :
    (stake cfg origin info amount target epoch).wp anyHalt
      (Restaked g origin info amount) g := by
  refine (Acting.on_stake (makesUp_stakeLaws cfg info.balance target)
    ⟨⟨hdistinct,rfl,hfunds⟩,.self g origin⟩ fun _ => hsearch).imp fun info' g' h => ?_
  obtain ⟨staked,ts,ks,⟨⟨hdistinct',hbalance,hsum⟩,hholds⟩,-,hamount,-⟩ := h
  exact ⟨hbalance,staked,ts,hholds,hdistinct',hamount,by omega⟩

/-- Pruning makes the thawed funds available. -/
theorem holds_pruneThawing (hdistinct : Distinct (g.thawing.duplicates origin))
    (hfunds : info.availableBalance.toNat + stakedAmount (g.stakes.lookup origin) +
      totalAmount (g.thawing.duplicates origin) = info.balance.toNat) :
    (pruneThawing origin info epoch).wp anyHalt (fun info' g' => info'.balance = info.balance ∧
      ∃ ts,g.Holds origin (g.stakes.lookup origin) ts g' ∧ Distinct ts ∧
        info'.availableBalance.toNat + stakedAmount (g.stakes.lookup origin) + totalAmount ts =
          info.balance.toNat) g := by
  have hself := GovernanceStore.Holds.self g origin
  refine wp_ite (fun _ => ⟨rfl,_,hself,hdistinct,hfunds⟩) fun _ => ?_
  simp only [wp_bind,wp_get,wp_set]
  refine (AccountInfo.wp_setAvailableBalance trivial _ _ _ (.inr trivial) _).imp
    fun info' g' h => ?_
  obtain ⟨hpower,hinfo,-⟩ := h
  have hfilter : g.Holds origin (g.stakes.lookup origin)
      ((g.thawing.duplicates origin).filter fun t => ¬t.Pruneable epoch) g' :=
    (hself.setThawing fun c => Table.duplicates_insert ..).power hpower
  have hpruned := toNat_pruneableAmount (g.thawing.duplicates origin) epoch (by omega)
  refine ⟨by rw [hinfo],_,hfilter,?_,?_⟩
  · exact hdistinct.sublist (List.filter_sublist.map _)
  · rw [hinfo]
    bv_omega

/-- The outcome of another expiration: as much is thawing as before. -/
def Redated (g : GovernanceStore H) (origin : H) (g' : GovernanceStore H) : Prop :=
  ∃ ts,g.Holds origin (g.stakes.lookup origin) ts g' ∧ Distinct ts ∧
    totalAmount ts = totalAmount (g.thawing.duplicates origin)

theorem redated_of_on {info : AccountInfo H} {g' : GovernanceStore H}
    (hfunds : makesUp balance info (g.stakes.lookup origin) (g.thawing.duplicates origin) [] 0 g)
    (h : ∃ ts,(makesUp balance).On g origin info (g.stakes.lookup origin) ts [] 0 g') :
    Redated g origin g' := by
  obtain ⟨ts,⟨hdistinct,-,hsum⟩,hholds⟩ := h
  have hsum' := hfunds.2.2
  exact ⟨ts,hholds,hdistinct,by omega⟩

end StakingManager

namespace Holdings

/-- The balance of every account is what is available, staked and thawing. -/
def Decomposed (s : Holdings H) : Prop :=
  ∀ account,(s.info account).balance.toNat = (s.info account).availableBalance.toNat +
    stakedAmount (s.gov.stakes.lookup account) + totalAmount (s.gov.thawing.duplicates account)

/-- In no account two thawing funds have the same expiration and target. -/
def Consolidated (s : Holdings H) : Prop :=
  ∀ account,Distinct (s.gov.thawing.duplicates account)

end Holdings

/-- The search for funds to consolidate with is not given up early: for those of the stake that may
begin to thaw, or those with the expiration frozen funds get. -/
def FundsAction.Searchable (s : Holdings H) (origin : H) (epoch : Epoch) : FundsAction H → Prop
  | .stake _ _ => ∀ f ∈ s.gov.stakes.lookup origin,
    ThawingFunds.Searchable (epoch + thawingPeriod,f.target) (s.gov.thawing.duplicates origin)
  | .setExpirationOfFrozen epochUnfrozen => ∀ t ∈ s.gov.thawing.duplicates origin,
    t.expirationEpoch = 0 → ThawingFunds.Searchable (epochUnfrozen + thawingPeriod,t.target)
      ((s.gov.thawing.duplicates origin).filter fun t => t.expirationEpoch ≠ 0)
  | _ => True

instance (s : Holdings H) (origin : H) (epoch : Epoch) (action : FundsAction H) :
    Decidable (action.Searchable s origin epoch) :=
  match action with
  | .stake _ _ => inferInstanceAs (Decidable (∀ f ∈ _,_))
  | .setBalance _ => .isTrue trivial
  | .pruneThawing => .isTrue trivial
  | .markThawingAsFrozen _ => .isTrue trivial
  | .setExpirationOfFrozen _ => inferInstanceAs (Decidable (∀ t ∈ _,_))

def FundsEvent.Searchable (e : FundsEvent H) (s : Holdings H) : Prop :=
  e.action.Searchable s e.origin e.epoch

instance (e : FundsEvent H) (s : Holdings H) : Decidable (e.Searchable s) :=
  inferInstanceAs (Decidable (FundsAction.Searchable ..))

theorem FundsEvent.holds_perform {s : Holdings H} {e : FundsEvent H} (hs : s.Decomposed)
    (hc : s.Consolidated) (hsearch : e.Searchable s) :
    (e.perform cfg (s.info e.origin)).wp anyHalt (fun info' g' => ∃ staked ts,
      s.gov.Holds e.origin staked ts g' ∧ Distinct ts ∧ info'.balance.toNat =
        info'.availableBalance.toNat + stakedAmount staked + totalAmount ts) s.gov := by
  have hfunds := (hs e.origin).symm
  have hdistinct := hc e.origin
  have hmakesUp : makesUp (s.info e.origin).balance (s.info e.origin)
      (s.gov.stakes.lookup e.origin) (s.gov.thawing.duplicates e.origin) [] 0 s.gov :=
    ⟨hdistinct,rfl,hfunds⟩
  have hredated : ∀ g',Redated s.gov e.origin g' → ∃ staked ts,
      s.gov.Holds e.origin staked ts g' ∧ Distinct ts ∧ (s.info e.origin).balance.toNat =
        (s.info e.origin).availableBalance.toNat + stakedAmount staked + totalAmount ts := by
    rintro g' ⟨ts,hholds,hdistinct',htotal⟩
    exact ⟨_,ts,hholds,hdistinct',by omega⟩
  unfold perform
  unfold Searchable FundsAction.Searchable at hsearch
  split
  · next amount target haction =>
    simp only [haction] at hsearch
    refine (holds_stake cfg hdistinct hfunds hsearch).imp fun info' g' h => ?_
    obtain ⟨hbalance,staked,ts,hholds,hdistinct',hamount,hsum⟩ := h
    exact ⟨staked,ts,hholds,hdistinct',by rw [hbalance]; omega⟩
  · next newBalance haction =>
    refine ((s.info e.origin).wp_setBalance trivial _ _ (.inr trivial) _).imp fun info' g' h => ?_
    obtain ⟨hpower,hinfo,hle⟩ := h
    refine ⟨_,_,(GovernanceStore.Holds.self s.gov e.origin).power hpower,hdistinct,?_⟩
    rw [hinfo]
    by_cases hgrows : newBalance ≤ (s.info e.origin).balance
    · bv_omega
    · bv_omega
  · refine (holds_pruneThawing hdistinct hfunds).imp fun info' g' h => ?_
    obtain ⟨hbalance,ts,hholds,hdistinct',hsum⟩ := h
    exact ⟨_,ts,hholds,hdistinct',by rw [hbalance]; omega⟩
  · exact (Acting.on_markThawingAsFrozen (makesUp_redateLaws cfg _ 0) ⟨hmakesUp,.self ..⟩
      fun _ _ _ _ => trivial).bind fun _ g' h => hredated g' (redated_of_on hmakesUp h)
  · next epochUnfrozen haction =>
    simp only [haction] at hsearch
    exact (Acting.on_setExpirationOfFrozen (makesUp_redateLaws cfg _ _) ⟨hmakesUp,.self ..⟩
      (fun _ _ _ => trivial) fun _ => hsearch).bind
        fun _ g' h => hredated g' (redated_of_on hmakesUp h)

namespace Holdings

theorem step_decomposed {s s' : Holdings H} {e : FundsEvent H} {o : List Empty}
    (hs : s.Decomposed) (hc : s.Consolidated) (hsearch : e.Searchable s)
    (h : s.step cfg e = some (s',o)) : s'.Decomposed ∧ s'.Consolidated := by
  obtain ⟨info',g',hrun,rfl⟩ := step_eq_some cfg h
  obtain ⟨staked,ts,hholds,hdistinct,hsum⟩ := (e.holds_perform cfg hs hc hsearch).run hrun
  refine ⟨fun c => ?_,fun c => ?_⟩
  · simp only [info_insert,hholds.staked c,hholds.thawing c]
    split
    · exact hsum
    · exact hs c
  · simp only [hholds.thawing c]
    split
    · exact hdistinct
    · exact hc c

/-- Where no search is given up early, every balance is what is available, staked and thawing. -/
theorem exec_decomposed {s s' : Holdings H} {es : List (FundsEvent H)} {o : List Empty}
    (hs : s.Decomposed) (hc : s.Consolidated)
    (hrun : Machine.Along (step cfg) (fun s e => e.Searchable s) s es)
    (h : Machine.exec (step cfg) s es = some (s',o)) : s'.Decomposed :=
  (Machine.exec_preserves (I := fun _ s => s.Decomposed ∧ s.Consolidated)
    (fun _ _ _ _ _ hs hsearch h => step_decomposed cfg hs.1 hs.2 hsearch h) ⟨hs,hc⟩ hrun h).1

theorem sample_decomposed : sample.Decomposed := by
  intro account
  by_cases h : account = 1
  · subst h
    rfl
  · have hinfo : sample.info account = .default := by
      unfold info sample
      rw [AList.lookup_insert_ne h]
      rfl
    rw [hinfo]
    rfl

theorem sample_consolidated : sample.Consolidated := fun _ => List.nodup_nil

def sampleRun : List (FundsEvent ℕ) :=
  [sampleEvent 213 (.stake 100 1),sampleEvent 213 (.stake 90 1),sampleEvent 213 (.stake 80 1),
    sampleEvent 214 (.setBalance 500),sampleEvent 255 .pruneThawing]

theorem exec_decomposed_sampleRun :
    ∃ s' o,Machine.exec (step Config.sample) sample sampleRun = some (s',o) ∧ s'.Decomposed := by
  have hrun : (Machine.exec (step Config.sample) sample sampleRun).isSome := by decide +kernel
  obtain ⟨⟨s',o⟩,h⟩ := Option.isSome_iff_exists.mp hrun
  have hsearch : Machine.checks (step Config.sample) (fun s e => decide (e.Searchable s)) sample
      sampleRun = true := by decide +kernel
  refine ⟨s',o,h,exec_decomposed Config.sample sample_decomposed sample_consolidated ?_ h⟩
  simpa using Machine.along_of_checks hsearch

def lossRun : List (FundsEvent ℕ) :=
  [sampleEvent 213 (.stake 100 1),sampleEvent 213 (.stake 90 1),sampleEvent 214 (.stake 80 1),
    sampleEvent 214 (.stake 70 1)]

/-- Funds that expire in epoch 255 come before those of epoch 256 and end the search for them. A
second and equal record for epoch 256 is not stored: of 1000 only 990 are accounted for. -/
theorem exec_loses_thawing :
    sample.Decomposed ∧ sample.Consolidated ∧
    Machine.Along (step Config.sample) (fun s e => s.accepts Config.sample e = true) sample lossRun ∧
    ∃ s' o,Machine.exec (step Config.sample) sample lossRun = some (s',o) ∧ ¬s'.Decomposed := by
  have hrun : (Machine.exec (step Config.sample) sample lossRun).map (fun r =>
      ((r.1.info 1).balance.toNat,(r.1.info 1).availableBalance.toNat,
        stakedAmount (r.1.gov.stakes.lookup 1),totalAmount (r.1.gov.thawing.duplicates 1))) =
      some (1000,900,70,20) := by decide +kernel
  obtain ⟨⟨s',o⟩,h,heq⟩ := Option.map_eq_some_iff.mp hrun
  refine ⟨sample_decomposed,sample_consolidated,Machine.along_of_checks (by decide +kernel),
    s',o,h,fun hdecomposed => ?_⟩
  have hsum := hdecomposed 1
  simp only [Prod.mk.injEq] at heq
  omega

end Holdings

end LogosCore.Ledger

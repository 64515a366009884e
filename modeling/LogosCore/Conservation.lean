import LogosCore.Effects

/-! # Conservation of Logos

Logos are on accounts and in fee pools. While a request is applied, the account it belongs to
is in hand and every other account is in the ledger; what leaves the one has to arrive in the
others. -/
namespace LogosCore.Ledger

open Option Program StakingManager

variable {H : Type} [DecidableEq H] [Zero H] {cfg : Config H} {r : Request H}
  {ts : List (Transaction H)} {info' : Account H}

variable {s s' : Store H}

variable {timestamp : BitVec 64}

namespace Store

def logos (s : Store H) : ℕ :=
  s.accounts.total (fun _ a => a.balance.toNat) + s.feePools.total fun _ fee => fee.toNat

def logosApart (s : Store H) (k : H) : ℕ :=
  Table.total (fun _ a => a.balance.toNat) (s.accounts.erase k) +
    s.feePools.total fun _ fee => fee.toNat

def Sound (s : Store H) : Prop := ∀ k a,s.accounts.lookup k = some a → a.Sound

theorem logos_eq_logosApart {s : Store H} {k : H} {a : Account H}
    (h : s.accounts.lookup k = some a) : s.logos = s.logosApart k + a.balance.toNat := by
  have herase := Table.total_erase (fun _ a => a.balance.toNat) s.accounts k
  rw [Table.amountAt_of_lookup h] at herase
  simp only [logos,logosApart]
  omega

theorem logos_accountPut (s : Store H) (k : H) (a : Account H) :
    (s.accountPut k a).logos = s.logosApart k + a.balance.toNat := by
  simp only [logos,logosApart,accountPut,Table.total_insert]
  omega

theorem SameMoney.logos (h : s.SameMoney s') : s'.logos = s.logos := by
  simp only [Store.logos,h.accounts,h.feePools]

theorem SameMoney.logosApart (h : s.SameMoney s') (k : H) : s'.logosApart k = s.logosApart k := by
  simp only [Store.logosApart,h.accounts,h.feePools]

theorem SameMoney.sound (h : s.SameMoney s') : s.Sound ↔ s'.Sound := by
  unfold Sound
  rw [h.accounts]

theorem Sound.accountPut {s : Store H} (hs : s.Sound) {k : H} {a : Account H} (ha : a.Sound) :
    (s.accountPut k a).Sound := by
  intro k' a' h
  by_cases hk : k' = k
  · subst hk
    cases (AList.lookup_insert s.accounts).symm.trans h
    exact ha
  · exact hs k' a' ((AList.lookup_insert_ne hk).symm.trans h)

/-- The ledger apart from `k` gains `n`, as long as it has room for it. -/
structure Credits (k : H) (s s' : Store H) (n : ℕ) : Prop where
  logos : s.logosApart k + n < 2 ^ 128 → s'.logosApart k = s.logosApart k + n
  sound : s.Sound → s'.Sound

theorem SameMoney.credits (h : s.SameMoney s') (k : H) : Credits k s s' 0 :=
  ⟨fun _ => h.logosApart k,h.sound.mp⟩

theorem Credits.trans {k : H} {a b c : Store H} {m n : ℕ} (hab : Credits k a b m)
    (hbc : Credits k b c n) : Credits k a c (m + n) := by
  refine ⟨fun hfit => ?_,fun hs => hbc.sound (hab.sound hs)⟩
  have hb := hab.logos (by omega)
  have hc := hbc.logos (by omega)
  omega

/-- Writing an account whose balance is the stored one plus `n`. -/
theorem credits_accountPut {s : Store H} {k j : H} {a : Account H} {n : ℕ}
    (hbalance : a.balance = ((s.accounts.lookup j).map Account.balance).getD 0 + BitVec.ofNat 128 n)
    (hsound : s.Sound → a.Sound) : Credits k s (s.accountPut j a) (if j = k then 0 else n) := by
  refine ⟨fun hfit => ?_,fun hs => hs.accountPut (hsound hs)⟩
  by_cases hj : j = k
  · subst hj
    simp only [logosApart,Store.accountPut,Table.total_erase_insert_self,if_true,Nat.add_zero]
  · rw [if_neg hj] at hfit ⊢
    have hput := Table.total_erase_insert_ne (fun _ a => a.balance.toNat) s.accounts a hj
    have hle := Table.amountAt_le_total (fun _ a => a.balance.toNat) (s.accounts.erase k) j
    rw [Table.amountAt_erase_ne _ _ hj] at hle
    have hold : (((s.accounts.lookup j).map Account.balance).getD 0).toNat =
        Table.amountAt (fun _ a => a.balance.toNat) s.accounts j := by
      unfold Table.amountAt
      cases s.accounts.lookup j <;> rfl
    have hnew : a.balance.toNat = Table.amountAt (fun _ a => a.balance.toNat) s.accounts j + n := by
      simp only [logosApart] at hfit
      rw [hbalance,BitVec.toNat_add,hold,BitVec.toNat_ofNat,Nat.add_mod_mod,Nat.mod_eq_of_lt]
      omega
    simp only [logosApart,Store.accountPut]
    omega

section Send

variable {s s' : Store H} {timestamp : BitVec 64} {requestHash tokenId origin : H} {epoch : Epoch}
  {send : Transaction H} {index : BitVec 16}

def sendLogos (tokenId k : H) (send : Transaction H) : ℕ :=
  if tokenId = 0 ∧ send.destination ≠ k then send.amount.toNat else 0

theorem applySend_credits (k : H)
    (h : s.applySend cfg timestamp requestHash tokenId origin epoch send index = some s') :
    Credits k s s' (sendLogos tokenId k send) := by
  obtain ⟨⟨info,s1⟩,hto,h⟩ := bind_eq_some_iff.mp h
  cases h
  have hstored : s.Sound → ∀ a ∈ s.accounts.lookup send.destination,a.Sound :=
    fun hs a ha => hs _ a ha
  by_cases htoken : tokenId = 0
  · subst htoken
    obtain ⟨hsame,hbalance,-,hsound⟩ := applySendTo_logos hto
    have hput := credits_accountPut (s := s1) (k := k) (j := send.destination) (a := info)
      (n := send.amount.toNat)
      (by rw [hsame.accounts,hbalance,BitVec.ofNat_toNat,BitVec.setWidth_eq])
      (fun hs => hsound (hstored ((hsame.sound).mpr hs)))
    have hall := (hsame.credits k).trans hput
    simpa [sendLogos] using hall
  · obtain ⟨hsame,hbalance,-,hsound⟩ := applySendTo_token htoken hto
    have hput := credits_accountPut (s := s1) (k := k) (j := send.destination) (a := info) (n := 0)
      (by rw [hsame.accounts,hbalance]; exact (BitVec.add_zero _).symm)
      (fun hs => hsound (hstored ((hsame.sound).mpr hs)))
    have hall := (hsame.credits k).trans hput
    simpa [sendLogos,htoken] using hall

theorem applySend_credits_token (k : H) (htoken : tokenId ≠ 0)
    (h : s.applySend cfg timestamp requestHash tokenId origin epoch send index = some s') :
    Credits k s s' 0 := by
  have hcredits := applySend_credits k h
  rwa [sendLogos,if_neg fun hzero => htoken hzero.1] at hcredits

theorem applySends_credits (k : H) (sends : List (Transaction H))
    (h : applySends cfg timestamp requestHash tokenId origin epoch sends index s = some s') :
    Credits k s s' (sends.map (sendLogos tokenId k)).sum := by
  induction sends generalizing s index with
  | nil =>
    cases h
    exact (SameMoney.refl _).credits k
  | cons send sends ih =>
    obtain ⟨s1,hsend,h⟩ := bind_eq_some_iff.mp h
    exact (applySend_credits k hsend).trans (ih h)

end Send

theorem issue_credits {i : Issuance H} {k : H}
    (hfresh : i.tokenId ∉ s.accounts) (hk : k ∈ s.accounts)
    (h : s.issue cfg r i timestamp = some s') :
    Credits k s s' (r.fee - r.body.minTransactionFee).toNat := by
  have hne : i.tokenId ≠ k := fun heq => hfresh (heq ▸ hk)
  have habsent : s.accounts.lookup i.tokenId = none := AList.lookup_eq_none.mpr hfresh
  have hplaced := sameMoney_placeReceive h
  have hput := credits_accountPut (s := s) (k := k) (j := i.tokenId)
    (a := .token { TokenAccount.ofIssuance i with
      balance := r.fee - r.body.minTransactionFee
      receiveHead := (⟨0,cfg.requestHash r,0⟩ : ReceiveBlock H).hash cfg
      receiveCount := 1
      issuanceRequest := (⟨0,cfg.requestHash r,0⟩ : ReceiveBlock H).hash cfg })
    (n := (r.fee - r.body.minTransactionFee).toNat)
    (by
      rw [habsent,BitVec.ofNat_toNat,BitVec.setWidth_eq]
      exact (BitVec.zero_add _).symm)
    (fun _ => Account.sound_token _)
  rw [if_neg hne] at hput
  exact hput.trans (hplaced.credits k)

theorem credits_accountPut_of_lookup {s : Store H} {j : H} {a a' : Account H} (k : H)
    (hlookup : s.accounts.lookup j = some a) (hbalance : a'.balance = a.balance)
    (hsound : a.Sound → a'.Sound) : Credits k s (s.accountPut j a') 0 := by
  have hput := credits_accountPut (s := s) (k := k) (j := j) (a := a') (n := 0)
    (by
      rw [hlookup,hbalance]
      exact (BitVec.add_zero _).symm)
    (fun hs => hsound (hs j a hlookup))
  rwa [ite_self] at hput

theorem revokeFrom_credits {tokenId source hash : H} {amount : Amount} (k : H)
    (h : s.revokeFrom cfg tokenId source amount hash timestamp = some s') : Credits k s s' 0 := by
  obtain ⟨user,e,receives,head,hlookup,-,rfl⟩ := revokeFrom_steps h
  have hplaced : s.SameMoney { s with receives := receives } := ⟨rfl,rfl⟩
  refine (hplaced.credits k).trans (credits_accountPut_of_lookup k hlookup ?_ fun hs => ?_)
  · rfl
  · exact hs

theorem adjustUserStatus_credits {tokenId account : H} {status : UserStatus}
    (k : H) (h : s.adjustUserStatus cfg tokenId account status = some s') : Credits k s s' 0 := by
  rcases adjustUserStatus_steps h with ⟨statuses,rfl⟩ | ⟨user,e,hlookup,-,rfl⟩
  · have hsame : s.SameMoney { s with tokenUserStatus := statuses } := ⟨rfl,rfl⟩
    exact hsame.credits k
  · refine credits_accountPut_of_lookup k hlookup ?_ fun hs => ?_
    · rfl
    · exact hs

theorem sendTokens_credits {tokenId : H} {tokenFee : Amount} {epoch : Epoch} {source : AccountInfo H} (k : H)
    (htoken : tokenId ≠ 0)
    (h : s.sendTokens cfg r tokenId ts tokenFee timestamp epoch source = some (info',s')) :
    Credits k s s' 0 ∧ info'.balance = source.balance ∧
      ((Account.user source).Sound → info'.Sound) := by
  obtain ⟨t,e,haccount,-,hsends,rfl⟩ := sendTokens_steps h
  have hfee : Credits k s (s.accountPut tokenId
      (.token { t with tokenFeeBalance := t.tokenFeeBalance + tokenFee })) 0 :=
    credits_accountPut_of_lookup k haccount rfl fun _ => Account.sound_token _
  have hcredits := applySends_credits k ts hsends
  have hnone : sendLogos tokenId k = fun _ => 0 := by
    funext t
    simp [sendLogos,htoken]
  simp only [hnone,List.map_const',List.sum_replicate,smul_zero] at hcredits
  exact ⟨hfee.trans hcredits,rfl,id⟩

/-- The claimed reward is added to the account in hand. -/
theorem claim_effect {epochNumber : Epoch}
    {epoch : Epoch} {user : AccountInfo H} {deposits : List Amount}
    (h : s.claim cfg r epochNumber timestamp epoch user = some (info',deposits,s')) :
    s.SameMoney s' ∧ info'.balance = user.balance + deposits.sum ∧
      ((Account.user user).Sound → info'.Sound) ∧ info'.tokens = (Account.user user).tokens ∧
      ∃ user1 s1,s.runGov (collectReward r.origin epochNumber user) =
        some ((deposits.sum,user1),s1) := by
  obtain ⟨deposit,user1,s1,hcollect,h⟩ := claim_steps h
  have hsame := sameMoney_runGov hcollect
  have hrestaked := result_runGov (restaked_collectReward r.origin epochNumber user) hcollect
  have hreb := Account.rebalanced_of_restaked hrestaked
  rcases h with ⟨rfl,hsend⟩ | ⟨rfl,rfl,rfl,rfl⟩
  · obtain ⟨hsame2,hbalance,htokens,hsound⟩ := applySendTo_logos hsend
    refine ⟨hsame.trans hsame2,?_,fun hs => ?_,htokens.trans hreb.tokens,
      user1,s1,by rw [List.sum_singleton]; exact hcollect⟩
    · rw [hbalance,map_some,getD_some,hreb.balance,List.sum_singleton]
    · refine hsound fun a ha => ?_
      cases ha
      exact hreb.sound hs
  · refine ⟨hsame,?_,hreb.sound,hreb.tokens,user1,s',hcollect⟩
    rw [hreb.balance]
    exact (BitVec.add_zero _).symm

end Store

/-- The Logos the outputs of a send bring to others. -/
def outputLogos (origin : H) (ts : List (Transaction H)) : ℕ :=
  ((ts.filter (·.destination ≠ origin)).map (·.amount.toNat)).sum

/-- What a request takes from its account besides the fee. -/
def Request.spent (r : Request H) : Amount :=
  match r.body with
  | .send _ => r.getLogosTotal - r.fee
  | .withdrawLogos _ t => t.amount
  | _ => 0

def Request.delivered (r : Request H) : ℕ :=
  match r.body with
  | .send ts => outputLogos r.origin ts
  | .issuance _ => (r.fee - r.body.minTransactionFee).toNat
  | .withdrawLogos tokenId t => if t.destination = tokenId then 0 else t.amount.toNat
  | _ => 0

def Body.isClaim : Body H → Bool
  | .claim _ _ => true
  | _ => false

namespace Store

/-- An account in hand that keeps its balance while others are credited with tokens only. -/
theorem effect_of_credits {info : Account H} (hspent : r.spent = 0)
    (hdelivered : r.delivered = 0) (hcredits : Credits r.getAccount s s' 0)
    (hbalance : info'.balance = info.balance) (hsound : info.Sound → info'.Sound) :
    Credits r.getAccount s s' r.delivered ∧ (info.Sound → info'.Sound) ∧
      info'.balance = info.balance - r.spent + ([] : List Amount).sum ∧
      (¬r.body.isClaim → ([] : List Amount) = []) := by
  rw [hspent,hdelivered,hbalance]
  refine ⟨hcredits,hsound,?_,fun _ => rfl⟩
  rw [List.sum_nil,add_zero]
  exact (BitVec.sub_zero _).symm

theorem sum_sendLogos_of_ne {origin : H} :
    ((ts.filter (·.destination ≠ origin)).map (sendLogos 0 origin)).sum =
      outputLogos origin ts := by
  refine congrArg List.sum (List.map_congr_left fun t ht => ?_)
  have hne : t.destination ≠ origin := by simpa using (List.mem_filter.mp ht).2
  exact if_pos ⟨rfl,hne⟩

end Store

theorem TokenAccount.balance_of_update {t t' : TokenAccount H} {body : Body H}
    (h : t.update body = some t') (hbody : ∀ tokenId transaction,body ≠ .withdrawLogos tokenId transaction) :
    t'.balance = t.balance := by
  cases body with
  | withdrawLogos tokenId transaction => exact absurd rfl (hbody tokenId transaction)
  | immuteSetting tokenId setting =>
    obtain ⟨m,-,rfl⟩ := map_eq_some_iff.mp h
    rfl
  | updateController tokenId action controller =>
    simp only [update,updateController] at h
    split at h <;> cases h <;> rfl
  | _ =>
    cases h
    rfl

namespace Store

/-- The effect of the part of a request that depends on its kind. -/
theorem applyBody_effect {epoch : Epoch}
    {info : Account H} {deposits : List Amount} (htoken : ∀ t ∈ r.body.tokenId,t ≠ 0)
    (hfresh : ∀ i,r.body = .issuance i → i.tokenId ∉ s.accounts) (hmem : r.getAccount ∈ s.accounts)
    (h : s.applyBody cfg r timestamp epoch info = some (info',deposits,s')) :
    Credits r.getAccount s s' r.delivered ∧ (info.Sound → info'.Sound) ∧
      info'.balance = info.balance - r.spent + deposits.sum ∧
      (¬r.body.isClaim → deposits = []) := by
  have hplain : r.body.updatesToken = true ∨ r.body.governs = true →
      r.spent = 0 ∧ r.delivered = 0 := by
    cases hbody : r.body <;>
      simp [Request.spent,Request.delivered,hbody,Body.updatesToken,Body.governs]
  cases applied_of_applyBody h with
  | @send ts source _ s1 _ hbody hset hsends =>
    -- the fee has been taken before, so that only the outputs are left
    obtain ⟨hsame,hreb⟩ := setBalance_rebalances hset
    have haccount : r.getAccount = r.origin := by simp [Request.getAccount,hbody,Body.administered]
    have hcredits := (hsame.credits r.origin).trans (applySends_credits r.origin _ hsends)
    rw [sum_sendLogos_of_ne,Nat.zero_add] at hcredits
    have hbalance : source.balance - r.getLogosTotal + r.fee =
        source.balance - (r.getLogosTotal - r.fee) := by bv_omega
    simp only [Request.delivered,Request.spent,hbody,haccount]
    refine ⟨hcredits,hreb.sound,?_,by simp⟩
    rw [hreb.balance,hbalance,List.sum_nil,add_zero]
    rfl
  | issuance hbody hissued =>
    have hcredits := issue_credits (hfresh _ hbody) hmem hissued
    simp only [Request.delivered,Request.spent,hbody] at hcredits ⊢
    refine ⟨hcredits,id,?_,by simp⟩
    rw [List.sum_nil,add_zero]
    exact (BitVec.sub_zero _).symm
  | revoke hbody hrevoke hsend =>
    exact effect_of_credits (by simp only [Request.spent,hbody])
      (by simp only [Request.delivered,hbody]) ((revokeFrom_credits _ hrevoke).trans
        (applySend_credits_token _ (htoken _ (by rw [hbody]; rfl)) hsend)) rfl id
  | adjustUserStatus hbody hadjust =>
    exact effect_of_credits (by simp only [Request.spent,hbody])
      (by simp only [Request.delivered,hbody]) (adjustUserStatus_credits _ hadjust) rfl id
  | payout hbody hupdate hsend =>
    rcases hbody with hbody | hbody
    all_goals
      exact effect_of_credits (by simp only [Request.spent,hbody])
        (by simp only [Request.delivered,hbody])
        (applySend_credits_token _ (htoken _ (by rw [hbody]; rfl)) hsend)
        (TokenAccount.balance_of_update hupdate (by simp [hbody])) fun _ => Account.sound_token _
  | @withdrawLogos tokenId t _ _ hbody hsend =>
    have haccount : r.getAccount = tokenId := by simp [Request.getAccount,hbody,Body.administered]
    have hcredits := applySend_credits tokenId hsend
    have hsent : sendLogos 0 tokenId t = if t.destination = tokenId then 0 else t.amount.toNat := by
      by_cases hdest : t.destination = tokenId <;> simp [sendLogos,hdest]
    simp only [Request.delivered,Request.spent,hbody,haccount]
    rw [hsent] at hcredits
    refine ⟨hcredits,fun _ => Account.sound_token _,?_,by simp⟩
    rw [List.sum_nil,add_zero]
    rfl
  | tokenSend hbody hsend =>
    obtain ⟨hcredits,hbalance,hsound⟩ :=
      sendTokens_credits r.getAccount (htoken _ (by rw [hbody]; rfl)) hsend
    exact effect_of_credits (by simp only [Request.spent,hbody])
      (by simp only [Request.delivered,hbody]) hcredits hbalance hsound
  | claim hbody hclaim =>
    obtain ⟨hsame,hbalance,hsound,-,-⟩ := claim_effect hclaim
    simp only [Request.delivered,Request.spent,hbody]
    refine ⟨hsame.credits _,hsound,?_,fun hother => absurd rfl hother⟩
    rw [hbalance]
    exact congrArg (· + deposits.sum) (BitVec.sub_zero _).symm
  | unknown hbody =>
    exact effect_of_credits (by simp only [Request.spent,hbody])
      (by simp only [Request.delivered,hbody]) ((SameMoney.refl _).credits _) rfl id
  | update hkind hupdate =>
    obtain ⟨hspent,hdelivered⟩ := hplain (.inl hkind)
    refine effect_of_credits hspent hdelivered ((SameMoney.refl _).credits _)
      (TokenAccount.balance_of_update hupdate ?_) fun _ => Account.sound_token _
    intro tokenId transaction hwithdraw
    rw [hwithdraw] at hkind
    cases hkind
  | govern hkind hrun =>
    obtain ⟨hspent,hdelivered⟩ := hplain (.inr hkind)
    have hreb := Account.rebalanced_of_restaked (result_runGov (restaked_applyGovernance ..) hrun)
    exact effect_of_credits hspent hdelivered ((sameMoney_runGov hrun).credits _) hreb.balance
      hreb.sound

end Store

namespace Store

/-- The reward that a claim is about to collect once the fee has been taken. -/
def reward (cfg : Config H) (s : Store H) (i : Submission H) : Amount :=
  match i.request.body with
  | .claim _ epochNumber => (do
      let info ← s.accounts.lookup i.request.getAccount
      let (info,s) ← (s.storeRequest cfg i.request i.timestamp).beginRequest cfg i.request i.epoch info
      let user ← info.asUser
      let (collected,_) ← s.runGov (collectReward i.request.origin epochNumber user)
      some collected.1).getD 0
  | _ => 0

/-- Sums stay within 128 bits, and withdrawals are covered with the fee and leave the account. -/
structure Exact (cfg : Config H) (s : Store H) (i : Submission H) : Prop where
  fits : s.logos + (s.reward cfg i).toNat < 2 ^ 128
  send : ∀ ts,i.request.body = .send ts →
    outputLogos i.request.origin ts + i.request.fee.toNat < 2 ^ 128
  withdraw : ∀ tokenId t,i.request.body = .withdrawLogos tokenId t →
    t.destination ≠ tokenId ∧ ∀ a,s.accounts.lookup tokenId = some a →
      i.request.fee.toNat + t.amount.toNat ≤ a.balance.toNat

end Store

theorem foldl_outputs (origin : H) (ts : List (Transaction H)) (acc : Amount) :
    ts.foldl (fun a t => if t.destination = origin then a else a + t.amount) acc =
      acc + BitVec.ofNat 128 (outputLogos origin ts) := by
  induction ts generalizing acc with
  | nil => exact (BitVec.add_zero _).symm
  | cons t ts ih =>
    rw [List.foldl_cons,ih]
    by_cases h : t.destination = origin
    · simp [outputLogos,h]
    · have hcons : outputLogos origin (t::ts) = t.amount.toNat + outputLogos origin ts := by
        simp [outputLogos,h]
      rw [hcons,if_neg h,BitVec.ofNat_add,BitVec.ofNat_toNat,BitVec.setWidth_eq,BitVec.add_assoc]

/-- The total of a send is the wrapped sum of its outputs to others and the fee. -/
theorem Request.getLogosTotal_of_send (h : r.body = .send ts) :
    r.getLogosTotal = BitVec.ofNat 128 (outputLogos r.origin ts) + r.fee := by
  simp only [getLogosTotal,h,foldl_outputs]
  rw [zero_add]

/-- A request that is valid in itself names no zero token. -/
theorem Request.tokenId_ne_zero (r : Request H) {t : H} (hvalid : (r.validate cfg).Accepts ())
    (ht : t ∈ r.body.tokenId) : t ≠ 0 := by
  obtain ⟨_,hheader,-⟩ := Check.accepts_bind.mp hvalid
  have htoken := (Check.accepts_require_bind.mp (Check.accepts_require_bind.mp hheader).2).2
  rw [mem_def.mp ht] at htoken
  exact Check.accepts_require.mp htoken

namespace Store

section Step

variable {s s' : Store H} {i : Submission H} {info : Account H} {deposits : List Amount}

/-- What the pool and the other accounts get is what the account pays, and the account can pay
it. -/
theorem Exact.balanced (h : s.Exact cfg i) (hvalid : (i.request.validate cfg).Accepts ())
    (hlookup : s.accounts.lookup i.request.getAccount = some info)
    (htotal : i.request.getLogosTotal ≤ info.balance) :
    i.request.collectedFee.toNat + i.request.delivered =
      i.request.fee.toNat + i.request.spent.toNat ∧
    i.request.fee.toNat + i.request.spent.toNat ≤ info.balance.toNat := by
  have htotal : i.request.getLogosTotal.toNat ≤ info.balance.toNat := htotal
  cases hbody : i.request.body with
  | send ts =>
    have hfit := h.send ts hbody
    rw [Request.getLogosTotal_of_send hbody,BitVec.toNat_add,BitVec.toNat_ofNat,Nat.mod_add_mod,
      Nat.mod_eq_of_lt hfit] at htotal
    have hspent : i.request.spent = BitVec.ofNat 128 (outputLogos i.request.origin ts) := by
      simp only [Request.spent,hbody,Request.getLogosTotal_of_send hbody]
      exact add_sub_cancel_right _ _
    have hspentNat : i.request.spent.toNat = outputLogos i.request.origin ts := by
      rw [hspent,BitVec.toNat_ofNat,Nat.mod_eq_of_lt (by omega)]
    have hcollected : i.request.collectedFee = i.request.fee := by
      simp [Request.collectedFee,hbody,Body.isIssuance]
    have hdelivered : i.request.delivered = outputLogos i.request.origin ts := by
      simp only [Request.delivered,hbody]
    rw [hspentNat,hcollected,hdelivered]
    omega
  | issuance token =>
    have hmin : i.request.body.minTransactionFee ≤ i.request.fee := by
      obtain ⟨_,hheader,-⟩ := Check.accepts_bind.mp hvalid
      exact (Check.accepts_require_bind.mp (Check.accepts_require_bind.mp hheader).2).1
    have hmin : i.request.body.minTransactionFee.toNat ≤ i.request.fee.toNat := hmin
    have hspent : i.request.spent.toNat = 0 := by simp [Request.spent,hbody]
    have hcollected : i.request.collectedFee = i.request.body.minTransactionFee := by
      simp [Request.collectedFee,hbody,Body.isIssuance]
    have hdelivered : i.request.delivered =
        i.request.fee.toNat - i.request.body.minTransactionFee.toNat := by
      rw [Request.delivered,hbody]
      simp only [← hbody]
      exact BitVec.toNat_sub_of_le hmin
    have hlogos : i.request.getLogosTotal = i.request.fee := by
      simp [Request.getLogosTotal,hbody]
    rw [hlogos] at htotal
    rw [hspent,hcollected,hdelivered]
    omega
  | withdrawLogos tokenId t =>
    obtain ⟨hdest,hcovered⟩ := h.withdraw tokenId t hbody
    have haccount : i.request.getAccount = tokenId := by
      simp [Request.getAccount,hbody,Body.administered]
    have hpays := hcovered info (haccount ▸ hlookup)
    have hcollected : i.request.collectedFee = i.request.fee := by
      simp [Request.collectedFee,hbody,Body.isIssuance]
    have hspent : i.request.spent = t.amount := by simp only [Request.spent,hbody]
    have hdelivered : i.request.delivered = t.amount.toNat := by
      simp only [Request.delivered,hbody,if_neg hdest]
    rw [hcollected,hspent,hdelivered]
    omega
  | _ =>
    have hcollected : i.request.collectedFee = i.request.fee := by
      simp [Request.collectedFee,hbody,Body.isIssuance]
    have hlogos : i.request.getLogosTotal = i.request.fee := by
      simp [Request.getLogosTotal,hbody]
    rw [hlogos] at htotal
    have hspent : i.request.spent.toNat = 0 := by simp [Request.spent,hbody]
    have hdelivered : i.request.delivered = 0 := by simp only [Request.delivered,hbody]
    rw [hcollected,hspent,hdelivered]
    omega

/-- The pool of the epoch gets the collected fee. -/
theorem logosApart_onFeeCollected (s : Store H) (k : H) (epoch : Epoch) (fee : Amount)
    (hfit : s.logosApart k + fee.toNat < 2 ^ 128) :
    (s.onFeeCollected epoch fee).logosApart k = s.logosApart k + fee.toNat := by
  have herase := Table.total_erase (fun _ fee => fee.toNat) s.feePools epoch
  have hold : ((s.feePools.lookup epoch).getD 0).toNat =
      Table.amountAt (fun _ fee => fee.toNat) s.feePools epoch := by
    unfold Table.amountAt
    cases s.feePools.lookup epoch <;> rfl
  simp only [logosApart,onFeeCollected,Table.total_insert,BitVec.toNat_add,hold] at hfit ⊢
  omega

theorem applyBody_effect_of_accepted {info1 info2 : Account H} {s1 s2 : Store H}
    (hvalid : (i.request.validate cfg).Accepts ())
    (hlookup : s.accounts.lookup i.request.getAccount = some info)
    (hbody : (s.validateBody cfg i.request info i.epoch).Accepts ())
    (haccounts : s1.accounts = s.accounts)
    (h : s1.applyBody cfg i.request i.timestamp i.epoch info1 = some (info2,deposits,s2)) :
    Credits i.request.getAccount s1 s2 i.request.delivered ∧ (info1.Sound → info2.Sound) ∧
      info2.balance = info1.balance - i.request.spent + deposits.sum ∧
      (¬i.request.body.isClaim → deposits = []) := by
  refine applyBody_effect (fun t ht => i.request.tokenId_ne_zero hvalid ht) (fun token htoken => ?_)
    ?_ h
  · simp only [validateBody,htoken,Check.accepts_require] at hbody
    rwa [haccounts]
  · rw [haccounts]
    exact Table.mem_of_lookup hlookup

theorem process_sound (hs : s.Sound) (h : s.process cfg i = some (s',deposits)) : s'.Sound := by
  rcases process_split h with
    ⟨-,hpassed,-⟩ | ⟨info,info1,info2,s1,s2,-,hvalid,hlookup,hcovers,hbody,hbegin,happly,rfl⟩
  · exact (sameMoney_of_passed hpassed).sound.mp hs
  · obtain ⟨haccounts,hreb,-⟩ := beginRequest_effect hbegin
    obtain ⟨hcredits,hsound,-,-⟩ :=
      applyBody_effect_of_accepted hvalid hlookup hbody haccounts happly
    have hs1 : s1.Sound := by
      unfold Sound
      rw [haccounts]
      exact hs
    exact (hcredits.sound hs1).accountPut (hsound (hreb.sound (hs _ _ hlookup)))

theorem reward_eq_sum_deposits {info1 info2 : Account H} {s1 s2 : Store H}
    (hlookup : s.accounts.lookup i.request.getAccount = some info)
    (hbegin : (s.storeRequest cfg i.request i.timestamp).beginRequest cfg i.request i.epoch info =
      some (info1,s1))
    (h : s1.applyBody cfg i.request i.timestamp i.epoch info1 = some (info2,deposits,s2))
    (hnone : ¬i.request.body.isClaim → deposits = []) : s.reward cfg i = deposits.sum := by
  by_cases hclaim : i.request.body.isClaim
  · cases hbody : i.request.body with
    | claim epochHash epochNumber =>
      simp only [applyBody,hbody] at h
      obtain ⟨user,huser,h⟩ := bind_eq_some_iff.mp h
      obtain ⟨-,-,-,-,user1,s3,hcollect⟩ := claim_effect h
      simp [reward,hbody,hlookup,hbegin,huser,hcollect]
    | _ => simp [hbody,Body.isClaim] at hclaim
  · rw [hnone hclaim,List.sum_nil]
    unfold reward
    split
    · next hbody => simp [hbody,Body.isClaim] at hclaim
    · rfl

/-- One exact step keeps all Logos but for the deposited reward. -/
theorem process_logos (hs : s.Sound) (hexact : s.Exact cfg i)
    (h : s.process cfg i = some (s',deposits)) :
    s'.logos = s.logos + deposits.sum.toNat ∧ (¬i.request.body.isClaim → deposits = []) := by
  rcases process_split h with
    ⟨-,hpassed,rfl⟩ | ⟨info,info1,info2,s1,s2,-,hvalid,hlookup,hcovers,hbody,hbegin,happly,rfl⟩
  · exact ⟨by rw [(sameMoney_of_passed hpassed).logos]; rfl,fun _ => rfl⟩
  · obtain ⟨haccounts,hreb,hpools⟩ := beginRequest_effect hbegin
    obtain ⟨hcredits,-,hbalance2,hnone⟩ :=
      applyBody_effect_of_accepted hvalid hlookup hbody haccounts happly
    refine ⟨?_,hnone⟩
    have hreward := reward_eq_sum_deposits hlookup hbegin happly hnone
    have hfits := hexact.fits
    rw [hreward,logos_eq_logosApart hlookup] at hfits
    have htotal := logosTotal_le_balance (hs _ _ hlookup) hcovers hbegin
    obtain ⟨hpaid,hcovered⟩ := hexact.balanced hvalid hlookup htotal
    have hbalance1 := hreb.balance
    have happart := (sameMoney_storeRequest cfg s i.request i.timestamp).logosApart
      i.request.getAccount
    rw [logos_accountPut,logos_eq_logosApart hlookup]
    by_cases hvote : i.request.body.isElectionVote
    · -- a vote is free and moves nothing
      rw [if_pos hvote] at hbalance1 hpools
      have hzero : i.request.spent = 0 ∧ i.request.delivered = 0 := by
        cases hkind : i.request.body with
        | electionVote gov votes => simp [Request.spent,Request.delivered,hkind]
        | _ => simp [hkind,Body.isElectionVote] at hvote
      have hsame : (s.storeRequest cfg i.request i.timestamp).SameMoney s1 := ⟨haccounts,hpools⟩
      have happart1 := hsame.logosApart i.request.getAccount
      have happart2 := hcredits.logos (by omega)
      have hbalanceNat : info2.balance.toNat = info.balance.toNat + deposits.sum.toNat := by
        bv_omega
      omega
    · rw [if_neg hvote] at hbalance1 hpools
      have hsame : ((s.storeRequest cfg i.request i.timestamp).onFeeCollected i.epoch
          i.request.collectedFee).SameMoney s1 := ⟨haccounts,hpools⟩
      have happart1 := hsame.logosApart i.request.getAccount
      rw [logosApart_onFeeCollected _ _ _ _ (by omega)] at happart1
      have happart2 := hcredits.logos (by omega)
      have hbalanceNat : info2.balance.toNat + (i.request.fee.toNat + i.request.spent.toNat) =
          info.balance.toNat + deposits.sum.toNat := by
        bv_omega
      omega

end Step

section TokenAccount

variable {s s' : Store H} {i : Submission H} {token : TokenAccount H} {deposits : List Amount}

/-- The Logos balance an administrative request leaves on its token account, in 128 bits. -/
theorem process_token_balance (hadmin : i.request.body.administered.isSome)
    (hlookup : s.accounts.lookup i.request.getAccount = some (.token token))
    (hhead : i.request.previous = token.head) (hvalid : (s.validateRequest cfg i false).Accepts ())
    (h : s.process cfg i = some (s',deposits)) :
    i.request.fee ≤ token.balance ∧
    ∃ info,s'.accounts.lookup i.request.getAccount = some info ∧
      info.balance = token.balance - i.request.fee - i.request.spent := by
  have hrun : (s.validateRequest cfg i false).run = some (.ok ()) := hvalid
  simp only [process,hrun] at h
  have hkind : i.request.getLogosTotal = i.request.fee ∧ i.request.body.isElectionVote = false ∧
      i.request.body.isClaim = false := by
    cases hbody : i.request.body <;>
      simp_all [Body.administered,Request.getLogosTotal,Body.isElectionVote,Body.isClaim]
  obtain ⟨htotal,hvote,hclaim⟩ := hkind
  obtain ⟨hself,hcovers,hbody⟩ := accepted_at_head hvalid hlookup hhead
  have hstored : (s.storeRequest cfg i.request i.timestamp).accounts.lookup i.request.getAccount =
      some (.token token) := hlookup
  obtain ⟨info1,info2,s1,s2,hbegin,happly,rfl⟩ := applyRequest_at_head hstored hhead h
  obtain ⟨haccounts,hreb,-⟩ := beginRequest_effect hbegin
  obtain ⟨-,-,hbalance,hnone⟩ := applyBody_effect_of_accepted hself hlookup hbody haccounts happly
  have hfee := logosTotal_le_balance (Account.sound_token token) hcovers hbegin
  refine ⟨htotal ▸ hfee,info2,AList.lookup_insert _,?_⟩
  have hbalance1 := hreb.balance
  simp only [hvote,Bool.false_eq_true,if_false] at hbalance1
  rw [hbalance,hbalance1,hnone (by simp [hclaim]),List.sum_nil,add_zero]
  rfl

/-- An accepted administrative request leaves exactly what is left after the fee and the amount
withdrawn, unless these exceed the balance: it is compared with each, never with their sum. -/
theorem process_token_balance_exact (hadmin : i.request.body.administered.isSome)
    (hlookup : s.accounts.lookup i.request.getAccount = some (.token token))
    (hhead : i.request.previous = token.head) (hvalid : (s.validateRequest cfg i false).Accepts ())
    (h : s.process cfg i = some (s',deposits)) :
    (i.request.fee.toNat + i.request.spent.toNat ≤ token.balance.toNat ∧
      ∃ info,s'.accounts.lookup i.request.getAccount = some info ∧
        info.balance.toNat = token.balance.toNat - i.request.fee.toNat - i.request.spent.toNat) ↔
    ∀ tokenId t,i.request.body = .withdrawLogos tokenId t →
      i.request.fee.toNat + t.amount.toNat ≤ token.balance.toNat := by
  obtain ⟨hfee,info,hinfo,hbalance⟩ := process_token_balance hadmin hlookup hhead hvalid h
  have hfee : i.request.fee.toNat ≤ token.balance.toNat := hfee
  constructor
  · intro hexact tokenId t hbody
    have hspent : i.request.spent = t.amount := by simp only [Request.spent,hbody]
    rw [← hspent]
    exact hexact.1
  · intro hcovered
    have hcovered : i.request.fee.toNat + i.request.spent.toNat ≤ token.balance.toNat := by
      cases hbody : i.request.body with
      | withdrawLogos tokenId t =>
        have hspent : i.request.spent = t.amount := by simp only [Request.spent,hbody]
        rw [hspent]
        exact hcovered tokenId t hbody
      | _ => simp_all [Request.spent,Body.administered]
    refine ⟨hcovered,info,hinfo,?_⟩
    bv_omega

end TokenAccount

theorem exec_sound {steps : List (Submission H)} {deposits : List Amount}
    (hs : s.Sound) (h : Machine.exec (process cfg) s steps = some (s',deposits)) : s'.Sound :=
  Machine.exec_preserves (I := fun _ s => s.Sound) (P := fun _ _ => True)
    (fun _ _ _ _ _ hs _ hstep => process_sound hs hstep) hs (Machine.along_true s steps) h

/-- Exact steps keep the sum of balances and fee pools; only a claim adds its reward. -/
theorem exec_conserves_logos {s s1 s2 : Store H} {steps : List (Submission H)}
    {i : Submission H} {earlier deposits : List Amount} (hs : s.Sound)
    (hrun : Machine.exec (process cfg) s steps = some (s1,earlier)) (hexact : s1.Exact cfg i)
    (h : s1.process cfg i = some (s2,deposits)) :
    s2.logos = s1.logos + deposits.sum.toNat ∧ (¬i.request.body.isClaim → deposits = []) :=
  process_logos (exec_sound hs hrun) hexact h

end Store

section Sample

def AccountInfo.holding (balance : Amount) : AccountInfo ℕ :=
  { AccountInfo.default with
    toAccountBase := { AccountBase.default with balance := balance }
    availableBalance := balance }

def Store.sample : Store ℕ :=
  Store.empty.accountPut 1 (.user (AccountInfo.holding (2 ^ 100)))

def Submission.sampleSend (ts : List (Transaction ℕ)) : Submission ℕ where
  request := ⟨1,0,0x21e19e0c9bab2400000,0,0,7,.send ts⟩
  epoch := 5
  timestamp := 9
  canAcquire _ _ := true
  allowDuplicates := true

theorem Store.sound_sample : Store.sample.Sound := by
  intro k a h
  by_cases hk : k = 1
  · subst hk
    cases h
    exact BitVec.le_refl _
  · rw [Store.sample,Store.accountPut,AList.lookup_insert_ne hk] at h
    cases h

/-- A payment of 2 ^ 90 to account 2, from the ledger as it is. -/
theorem Store.exec_conserves_logos_sample : ∃ s2 deposits,
    Store.sample.process Config.sample (.sampleSend [⟨2,2 ^ 90⟩]) = some (s2,deposits) ∧
    s2.logos = Store.sample.logos + deposits.sum.toNat := by
  have hsome : (Store.sample.process Config.sample (.sampleSend [⟨2,2 ^ 90⟩])).isSome := by
    decide +kernel
  obtain ⟨⟨s2,deposits⟩,h⟩ := isSome_iff_exists.mp hsome
  have hrun : Machine.exec (Store.process Config.sample) Store.sample [] = some (Store.sample,[]) :=
    rfl
  refine ⟨s2,deposits,h,(Store.exec_conserves_logos Store.sound_sample hrun
    ⟨by decide +kernel,?_,?_⟩ h).1⟩
  · intro ts hts
    cases hts
    decide +kernel
  · intro tokenId t ht
    cases ht

/-- Two outputs of 2 ^ 127 add up to zero: the send is accepted and creates 2 ^ 128 Logos. -/
theorem Store.process_creates_logos :
    ¬∀ (s s' : Store ℕ) (i : Submission ℕ) (deposits : List Amount),s.Sound → s.logos < 2 ^ 128 →
      s.process Config.sample i = some (s',deposits) →
      s'.logos = s.logos + deposits.sum.toNat := by
  intro hall
  have hsome : ((Store.sample.process Config.sample
      (.sampleSend [⟨2,2 ^ 127⟩,⟨3,2 ^ 127⟩])).map fun r => (r.1.logos,r.2)) =
        some (2 ^ 100 + 2 ^ 128,[]) := by
    decide +kernel
  obtain ⟨⟨s',deposits⟩,h,heq⟩ := map_eq_some_iff.mp hsome
  obtain ⟨hlogos,rfl⟩ := Prod.mk.inj heq
  have hbefore : Store.sample.logos = 2 ^ 100 := by decide +kernel
  have hafter := hall _ _ _ _ Store.sound_sample (by rw [hbefore]; decide) h
  rw [hlogos,hbefore] at hafter
  exact absurd hafter (by decide)

/-- A token account with Logos that account 1 controls. -/
def TokenAccount.sample : TokenAccount ℕ :=
  { TokenAccount.ofIssuance ⟨9,[],[],100,.flat,0,0,[⟨1,BitVec.allOnes 32⟩],[]⟩ with
    balance := 2 ^ 100 }

def Store.withdrawSample : Store ℕ :=
  Store.sample.accountPut 9 (.token .sample)

def Submission.sampleWithdraw (amount : Amount) : Submission ℕ where
  request := ⟨1,0,0x21e19e0c9bab2400000,0,0,7,.withdrawLogos 9 ⟨1,amount⟩⟩
  epoch := 5
  timestamp := 9
  canAcquire _ _ := true
  allowDuplicates := true

/-- A withdrawal of 2 ^ 90 out of 2 ^ 100. -/
theorem Store.process_token_balance_exact_sample : ∃ s' deposits,
    Store.withdrawSample.process Config.sample (.sampleWithdraw (2 ^ 90)) = some (s',deposits) ∧
    ∃ info,s'.accounts.lookup 9 = some info ∧
      info.balance.toNat = 2 ^ 100 - 0x21e19e0c9bab2400000 - 2 ^ 90 := by
  have hsome : (Store.withdrawSample.process Config.sample (.sampleWithdraw (2 ^ 90))).isSome := by
    decide +kernel
  obtain ⟨⟨s',deposits⟩,h⟩ := isSome_iff_exists.mp hsome
  have hvalid : (Store.withdrawSample.validateRequest Config.sample
      (.sampleWithdraw (2 ^ 90)) false).Accepts () := by
    decide +kernel
  have hcovered : ∀ tokenId t,(Submission.sampleWithdraw (2 ^ 90)).request.body =
      .withdrawLogos tokenId t → (Submission.sampleWithdraw (2 ^ 90)).request.fee.toNat +
        t.amount.toNat ≤ TokenAccount.sample.balance.toNat := by
    intro tokenId t hbody
    cases hbody
    decide +kernel
  obtain ⟨-,info,hinfo,hbalance⟩ :=
    (Store.process_token_balance_exact (by decide) rfl rfl hvalid h).mpr hcovered
  exact ⟨s',deposits,h,info,hinfo,hbalance.trans (by decide +kernel)⟩

/-- Fee and amount are both within the balance, their sum is not, and the balance wraps. -/
theorem Store.process_wraps_token_balance :
    (Store.withdrawSample.validateRequest Config.sample (.sampleWithdraw (2 ^ 100)) false).Accepts () ∧
    (Store.withdrawSample.process Config.sample (.sampleWithdraw (2 ^ 100))).map
      (fun r => (r.1.accounts.lookup 9).map fun info => info.balance.toNat) =
        some (some (2 ^ 128 - 0x21e19e0c9bab2400000)) ∧
    (Store.withdrawSample.accounts.lookup 9).map (fun info => info.balance.toNat) =
      some (2 ^ 100) := by
  decide +kernel

end Sample
end LogosCore.Ledger

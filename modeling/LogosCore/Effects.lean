import LogosCore.Application

/-! # What applying a request changes

For each part of the application of a request: which tables it leaves alone, what it does to
the balance of the account in hand, and what it does to the tokens there. -/
namespace LogosCore.Ledger

open Option Program StakingManager

variable {H : Type} [DecidableEq H] [Zero H] {cfg : Config H}

/-- The administrative requests that write no account but that of the token. -/
def Body.updatesToken : Body H → Bool
  | issueAdditional _ _ => true
  | changeSetting _ _ _ => true
  | immuteSetting _ _ => true
  | adjustFee _ _ _ => true
  | updateIssuerInfo _ _ => true
  | updateController _ _ _ => true
  | burn _ _ => true
  | _ => false

def Body.governs : Body H → Bool
  | .proxy _ _ _ => true
  | .electionVote _ _ => true
  | .announceCandidacy _ _ _ => true
  | .renounceCandidacy _ _ => true
  | .startRepresenting _ _ _ => true
  | .stopRepresenting _ _ => true
  | .stake _ _ => true
  | .unstake _ => true
  | _ => false

namespace Account

/-- What an account says about tokens: entries, or supply, balance and fees. -/
def tokens : Account H → List (TokenEntry H) ⊕ (Amount × Amount × Amount)
  | user info => .inl info.entries
  | token info => .inr (info.totalSupply,info.tokenBalance,info.tokenFeeBalance)

def Sound (a : Account H) : Prop := a.availableBalance ≤ a.balance

@[simp] theorem tokens_withBase (b : AccountBase H) (a : Account H) :
    (a.withBase b).tokens = a.tokens := by
  cases a <;> rfl

theorem sound_token (t : TokenAccount H) : (Account.token t).Sound := BitVec.le_refl _

theorem Sound.withBase {a : Account H} (h : a.Sound) {b : AccountBase H}
    (hb : b.balance = a.balance) : (a.withBase b).Sound := by
  cases a with
  | user info =>
    have hle : info.availableBalance ≤ info.balance := h
    show info.availableBalance ≤ b.balance
    rw [hb]
    exact hle
  | token info => exact sound_token _

/-- The second account is the first with another balance; its chains may have grown. -/
structure Rebalanced (a : Account H) (newBalance : Amount) (a' : Account H) : Prop where
  balance : a'.balance = newBalance
  tokens : a'.tokens = a.tokens
  sound : a.Sound → a'.Sound

theorem Rebalanced.trans {a b c : Account H} {x y : Amount} (hab : a.Rebalanced x b)
    (hbc : b.Rebalanced y c) : a.Rebalanced y c :=
  ⟨hbc.balance,hbc.tokens.trans hab.tokens,fun h => hbc.sound (hab.sound h)⟩

theorem rebalanced_withBase (a : Account H) (b : AccountBase H) (hb : b.balance = a.balance) :
    a.Rebalanced a.balance (a.withBase b) := by
  refine ⟨?_,tokens_withBase b a,fun h => h.withBase hb⟩
  rw [Account.balance,base_withBase,hb]

theorem rebalanced_of_restaked {u u' : AccountInfo H} (h : u.Restaked u') :
    (Account.user u).Rebalanced u.balance (.user u') := by
  refine ⟨congrArg AccountBase.balance h.base,congrArg Sum.inl h.entries,fun hs => ?_⟩
  exact h.available hs

end Account

namespace Store

structure SameMoney (s s' : Store H) : Prop where
  accounts : s'.accounts = s.accounts
  feePools : s'.feePools = s.feePools

theorem SameMoney.refl (s : Store H) : s.SameMoney s := ⟨rfl,rfl⟩

theorem SameMoney.trans {a b c : Store H} (hab : a.SameMoney b) (hbc : b.SameMoney c) :
    a.SameMoney c :=
  ⟨hbc.accounts.trans hab.accounts,hbc.feePools.trans hab.feePools⟩

variable {s s' : Store H}

theorem sameMoney_runGov {α : Type} {x : Gov H α} {a : α}
    (h : s.runGov x = some (a,s')) : s.SameMoney s' := by
  obtain ⟨g,-,rfl⟩ := runGov_eq_some.mp h
  exact ⟨rfl,rfl⟩

theorem result_runGov {α : Type} {x : Gov H α} {a : α} {P : α → Prop}
    (hx : x.Ensures P) (h : s.runGov x = some (a,s')) : P a := by
  obtain ⟨g,hrun,-⟩ := runGov_eq_some.mp h
  exact hx.result hrun

theorem sameMoney_storeRequest (cfg : Config H) (s : Store H) (r : Request H) (timestamp : BitVec 64) :
    s.SameMoney (s.storeRequest cfg r timestamp) :=
  ⟨rfl,rfl⟩

variable {timestamp : BitVec 64}

theorem placeReceive_receives {receive : ReceiveBlock H}
    (h : s.placeReceive cfg receive timestamp = some s') :
    ∃ receives,s' = { s with receives := receives } := by
  unfold placeReceive at h
  cases hprev : s.receives.lookup receive.previous with
  | none =>
    simp only [hprev] at h
    split at h
    · cases h
      exact ⟨_,rfl⟩
    · cases h
  | some cur =>
    simp only [hprev] at h
    obtain ⟨slot,-,hslot⟩ := bind_eq_some_iff.mp h
    cases slot with
    | none =>
      cases hslot
      exact ⟨_,rfl⟩
    | some slot =>
      simp only at hslot
      split_ifs at hslot
      · cases hslot
        exact ⟨_,rfl⟩
      · cases hslot
        exact ⟨_,rfl⟩

theorem sameMoney_placeReceive {receive : ReceiveBlock H} (h : s.placeReceive cfg receive timestamp = some s') :
    s.SameMoney s' := by
  obtain ⟨receives,rfl⟩ := placeReceive_receives h
  exact ⟨rfl,rfl⟩

theorem setBalance_rebalances {info info' : Account H} {newBalance : Amount}
    {epoch : Epoch} (h : s.setBalance info newBalance epoch = some (info',s')) :
    s.SameMoney s' ∧ info.Rebalanced newBalance info' := by
  cases info with
  | token t =>
    cases h
    exact ⟨.refl s,⟨rfl,rfl,fun _ => Account.sound_token _⟩⟩
  | user u =>
    obtain ⟨⟨u',s1⟩,hrun,heq⟩ := map_eq_some_iff.mp h
    cases heq
    obtain ⟨hu,hle⟩ := result_runGov (u.ensures_setBalance newBalance epoch) hrun
    refine ⟨sameMoney_runGov hrun,⟨by rw [hu]; rfl,by rw [hu]; rfl,fun hs => ?_⟩⟩
    -- growing or shrinking, balance and available part change by the same difference
    have hs : u.availableBalance ≤ u.balance := hs
    have hav : u.availableBalance + (newBalance - u.balance) ≤ newBalance := by
      by_cases hlt : newBalance ≤ u.balance
      · bv_omega
      · bv_omega
    rw [hu]
    exact hav

theorem receiver_rebalanced {s : Store H} {origin hash : H} {info : Option (Account H)}
    {info' : Account H} (h : s.receiver origin info hash = some info') :
    info'.balance = (info.map Account.balance).getD 0 ∧
    info'.tokens = (info.map Account.tokens).getD (.inl []) ∧
    ((∀ a ∈ info,a.Sound) → info'.Sound) := by
  unfold receiver at h
  cases info with
  | some a =>
    obtain ⟨b,hb,rfl⟩ := map_eq_some_iff.mp h
    cases hb
    have hbase := a.rebalanced_withBase { a.base with
      receiveCount := a.base.receiveCount + 1
      receiveHead := hash } rfl
    exact ⟨hbase.balance,hbase.tokens,fun hs => hbase.sound (hs a rfl)⟩
  | none =>
    obtain ⟨b,hb,rfl⟩ := map_eq_some_iff.mp h
    simp only at hb
    split at hb
    · cases hb
      exact ⟨rfl,rfl,fun _ => BitVec.le_refl _⟩
    · cases hb

section Send

variable {s s' : Store H} {timestamp : BitVec 64} {requestHash tokenId origin : H} {epoch : Epoch}
  {send : Transaction H} {info : Option (Account H)} {index : BitVec 16} {info' : Account H}

/-- A credit opens the account or moves its receive chain on, adds to it, and places the receive. -/
theorem applySendTo_steps
    (h : s.applySendTo cfg timestamp requestHash tokenId origin epoch send info index =
      some (info',s')) :
    ∃ info1 s1 receives,s.receiver origin info (ReceiveBlock.hash cfg
        ⟨(info.map (·.base.receiveHead)).getD 0,requestHash,index⟩) = some info1 ∧
      (if tokenId = 0 then s.setBalance info1 (info1.balance + send.amount) epoch
        else s.addTokens cfg info1 tokenId send) = some (info',s1) ∧
      s' = { s1 with receives := receives } := by
  obtain ⟨info1,hinfo1,h⟩ := bind_eq_some_iff.mp h
  -- the receive is placed in the same way in both branches
  by_cases htoken : tokenId = 0
  all_goals
    simp only [htoken,if_true,if_false] at h ⊢
    obtain ⟨⟨info2,s1⟩,hadd,h⟩ := bind_eq_some_iff.mp h
    obtain ⟨s2,hplace,h⟩ := bind_eq_some_iff.mp h
    cases h
    obtain ⟨receives,rfl⟩ := placeReceive_receives hplace
    exact ⟨info1,s1,receives,hinfo1,hadd,rfl⟩

/-- The amount a Logos credit leaves on the account. -/
theorem applySendTo_logos
    (h : s.applySendTo cfg timestamp requestHash 0 origin epoch send info index = some (info',s')) :
    s.SameMoney s' ∧
    info'.balance = (info.map Account.balance).getD 0 + send.amount ∧
    info'.tokens = (info.map Account.tokens).getD (.inl []) ∧
    ((∀ a ∈ info,a.Sound) → info'.Sound) := by
  obtain ⟨info1,s1,receives,hinfo1,hset,rfl⟩ := applySendTo_steps h
  rw [if_pos rfl] at hset
  obtain ⟨hbal,htok,hsound⟩ := receiver_rebalanced hinfo1
  obtain ⟨hsame,hreb⟩ := setBalance_rebalances hset
  refine ⟨⟨hsame.accounts,hsame.feePools⟩,?_,hreb.tokens.trans htok,fun hs => hreb.sound (hsound hs)⟩
  rw [hreb.balance,hbal]

/-- The entries of a user after a credit of a token. -/
def creditedEntries (cfg : Config H) (s : Store H) (entries : List (TokenEntry H)) (tokenId : H)
    (send : Transaction H) : List (TokenEntry H) :=
  let user := { AccountInfo.default with entries := entries }
  ((s.tether cfg user tokenId send.destination).1.updateEntry tokenId fun e =>
    { e with balance := e.balance + send.amount }).entries

theorem applySendTo_token (htoken : tokenId ≠ 0)
    (h : s.applySendTo cfg timestamp requestHash tokenId origin epoch send info index =
      some (info',s')) :
    s.SameMoney s' ∧
    info'.balance = (info.map Account.balance).getD 0 ∧
    (∃ entries,(info.map Account.tokens).getD (.inl []) = .inl entries ∧
      info'.tokens = .inl (creditedEntries cfg s entries tokenId send)) ∧
    ((∀ a ∈ info,a.Sound) → info'.Sound) := by
  obtain ⟨info1,s1,receives,hinfo1,hadd,rfl⟩ := applySendTo_steps h
  rw [if_neg htoken] at hadd
  obtain ⟨hbal,htok,hsound⟩ := receiver_rebalanced hinfo1
  obtain ⟨u,hu,heq⟩ := map_eq_some_iff.mp hadd
  cases Account.asUser_eq_some.mp hu
  have hfind : ({ AccountInfo.default with entries := u.entries } : AccountInfo H).findEntry tokenId =
      u.findEntry tokenId := rfl
  by_cases hentry : (u.findEntry tokenId).isSome
  · simp only [tether,hentry,if_true] at heq
    cases heq
    refine ⟨⟨rfl,rfl⟩,hbal,⟨u.entries,htok.symm,?_⟩,fun hs => hsound hs⟩
    simp only [creditedEntries,tether,hfind,hentry,if_true]
    rfl
  · simp only [tether,hentry,Bool.false_eq_true,if_false] at heq
    cases heq
    refine ⟨⟨rfl,rfl⟩,hbal,⟨u.entries,htok.symm,?_⟩,fun hs => hsound hs⟩
    simp only [creditedEntries,tether,hfind,hentry,Bool.false_eq_true,if_false]
    rfl

end Send

section Begin

variable {s s' : Store H} {r : Request H} {epoch : Epoch} {info info' : Account H}

theorem beginRequest_effect (h : s.beginRequest cfg r epoch info = some (info',s')) :
    s'.accounts = s.accounts ∧
    info.Rebalanced (if r.body.isElectionVote then info.balance else info.balance - r.fee) info' ∧
    s'.feePools = if r.body.isElectionVote then s.feePools
      else (s.onFeeCollected epoch r.collectedFee).feePools := by
  obtain ⟨⟨info1,s1⟩,hprune,h⟩ := bind_eq_some_iff.mp h
  have hmoved := info.rebalanced_withBase { info.base with
    blockCount := info.base.blockCount + 1
    head := cfg.requestHash r } rfl
  have hpruned : s.SameMoney s1 ∧ info.Rebalanced info.balance info1 := by
    cases info with
    | token t =>
      cases hprune
      exact ⟨.refl s,hmoved⟩
    | user u =>
      obtain ⟨⟨u',s2⟩,hrun,heq⟩ := map_eq_some_iff.mp hprune
      cases heq
      obtain ⟨g,hg,-⟩ := runGov_eq_some.mp hrun
      have hrestaked := (ensures_pruneThawing hg).1
      exact ⟨sameMoney_runGov hrun,hmoved.trans (Account.rebalanced_of_restaked hrestaked)⟩
  obtain ⟨hsame,hreb⟩ := hpruned
  by_cases hvote : r.body.isElectionVote
  · simp only [if_pos hvote] at h ⊢
    cases h
    exact ⟨hsame.accounts,hreb,hsame.feePools⟩
  · simp only [if_neg hvote] at h ⊢
    obtain ⟨⟨info2,s2⟩,hset,h⟩ := bind_eq_some_iff.mp h
    cases h
    obtain ⟨hsame2,hreb2⟩ := setBalance_rebalances hset
    refine ⟨hsame2.accounts.trans hsame.accounts,?_,?_⟩
    · rw [hreb.balance] at hreb2
      exact hreb.trans hreb2
    · simp only [onFeeCollected,hsame2.feePools,hsame.feePools]

/-- What validation counted as available is within the balance once thawing funds are pruned. -/
theorem logosTotal_le_balance (hsound : info.Sound) (hcovers : s.covers r info epoch)
    (h : (s.storeRequest cfg r timestamp).beginRequest cfg r epoch info = some (info',s')) :
    r.getLogosTotal ≤ info.balance := by
  rcases hcovers with hcovers | ⟨u,hu,hcovers⟩
  · exact BitVec.le_trans hcovers hsound
  · cases Account.asUser_eq_some.mp hu
    obtain ⟨⟨info1,s1⟩,hprune,-⟩ := bind_eq_some_iff.mp h
    obtain ⟨⟨u',s2⟩,hrun,-⟩ := map_eq_some_iff.mp hprune
    obtain ⟨g,hg,-⟩ := runGov_eq_some.mp hrun
    obtain ⟨hrestaked,havailable⟩ := ensures_pruneThawing hg
    have hle : u'.availableBalance ≤ u'.balance := hrestaked.available hsound
    have hbalance := congrArg AccountBase.balance hrestaked.base
    rw [havailable,hbalance] at hle
    exact BitVec.le_trans hcovers hle

end Begin

section Parts

variable {s s' : Store H} {r : Request H} {timestamp : BitVec 64} {epoch : Epoch}
  {info info' : Account H} {deposits : List Amount} {tokenId : H}

theorem revokeFrom_steps {source hash : H} {amount : Amount}
    (h : s.revokeFrom cfg tokenId source amount hash timestamp = some s') :
    ∃ user e receives receiveHead,s.accounts.lookup source = some (.user user) ∧
      user.findEntry tokenId = some e ∧
      s' = { s with receives := receives }.accountPut source (.user
        { user.updateEntry tokenId (fun e => { e with balance := e.balance - amount }) with
          receiveHead := receiveHead }) := by
  obtain ⟨account,haccount,h⟩ := bind_eq_some_iff.mp h
  obtain ⟨user,huser,h⟩ := bind_eq_some_iff.mp h
  obtain ⟨e,he,h⟩ := bind_eq_some_iff.mp h
  obtain ⟨s1,hplace,h⟩ := bind_eq_some_iff.mp h
  cases h
  cases Account.asUser_eq_some.mp huser
  obtain ⟨receives,rfl⟩ := placeReceive_receives hplace
  exact ⟨user,e,receives,_,haccount,he,rfl⟩

theorem adjustUserStatus_steps {account : H} {status : UserStatus}
    (h : s.adjustUserStatus cfg tokenId account status = some s') :
    (∃ statuses,s' = { s with tokenUserStatus := statuses }) ∨
      ∃ user e,s.accounts.lookup account = some (.user user) ∧ user.findEntry tokenId = some e ∧
        s' = s.accountPut account (.user
          (user.updateEntry tokenId fun e => { e with status := e.status.adjust status })) := by
  unfold adjustUserStatus at h
  split at h
  · cases h
    exact .inl ⟨_,rfl⟩
  · next hlookup =>
    obtain ⟨user,huser,rfl⟩ := map_eq_some_iff.mp h
    cases Account.asUser_eq_some.mp huser
    split
    · next hsome =>
      obtain ⟨e,he⟩ := isSome_iff_exists.mp hsome
      exact .inr ⟨user,e,hlookup,he,rfl⟩
    · exact .inl ⟨_,rfl⟩

theorem sendTokens_steps {ts : List (Transaction H)} {tokenFee : Amount} {source : AccountInfo H}
    (h : s.sendTokens cfg r tokenId ts tokenFee timestamp epoch source = some (info',s')) :
    ∃ token e,s.accounts.lookup tokenId = some (.token token) ∧ source.findEntry tokenId = some e ∧
      applySends cfg timestamp (cfg.requestHash r) tokenId r.origin epoch ts 0 (s.accountPut tokenId
        (.token { token with tokenFeeBalance := token.tokenFeeBalance + tokenFee })) = some s' ∧
      info' = .user (source.updateEntry tokenId fun e =>
        { e with balance := e.balance - r.body.getTokenTotal }) := by
  obtain ⟨account,haccount,h⟩ := bind_eq_some_iff.mp h
  obtain ⟨token,htoken,h⟩ := bind_eq_some_iff.mp h
  obtain ⟨e,he,h⟩ := bind_eq_some_iff.mp h
  obtain ⟨s1,hsends,h⟩ := bind_eq_some_iff.mp h
  cases h
  cases Account.asToken_eq_some.mp htoken
  exact ⟨token,e,haccount,he,hsends,rfl⟩

/-- What a claim collects is credited to the account in hand, unless it is nothing. -/
theorem claim_steps {epochNumber : Epoch} {user : AccountInfo H}
    (h : s.claim cfg r epochNumber timestamp epoch user = some (info',deposits,s')) :
    ∃ deposit user1 s1,s.runGov (collectReward r.origin epochNumber user) =
        some ((deposit,user1),s1) ∧
      (deposits = [deposit] ∧ s1.applySendTo cfg timestamp (cfg.requestHash r) 0 r.origin epoch
          ⟨r.origin,deposit⟩ (some (.user user1)) 0 = some (info',s') ∨
        deposit = 0 ∧ deposits = [] ∧ info' = .user user1 ∧ s' = s1) := by
  obtain ⟨⟨⟨deposit,user1⟩,s1⟩,hcollect,h⟩ := bind_eq_some_iff.mp h
  refine ⟨deposit,user1,s1,hcollect,?_⟩
  by_cases hpos : 0 < deposit
  · simp only [if_pos hpos] at h
    obtain ⟨⟨info1,s2⟩,hsend,h⟩ := bind_eq_some_iff.mp h
    cases h
    exact .inl ⟨rfl,hsend⟩
  · simp only [if_neg hpos] at h
    cases h
    exact .inr ⟨by bv_omega,rfl,rfl,rfl⟩

/-- How the part that depends on the kind comes about, with the account before and after. -/
inductive Applied (cfg : Config H) (s : Store H) (r : Request H) (timestamp : BitVec 64)
    (epoch : Epoch) : Account H → Account H → List Amount → Store H → Prop
  | send {ts source info' s1 s'} (hbody : r.body = .send ts)
      (hset : s.setBalance (.user source) (source.balance - r.getLogosTotal + r.fee) epoch =
        some (info',s1))
      (hsends : applySends cfg timestamp (cfg.requestHash r) 0 r.origin epoch
        (ts.filter (·.destination ≠ r.origin)) 0 s1 = some s') :
      Applied cfg s r timestamp epoch (.user source) info' [] s'
  | issuance {i info s'} (hbody : r.body = .issuance i)
      (hissue : s.issue cfg r i timestamp = some s') : Applied cfg s r timestamp epoch info info [] s'
  | revoke {tokenId source t info s1 s'} (hbody : r.body = .revoke tokenId source t)
      (hrevoke : s.revokeFrom cfg tokenId source t.amount (cfg.requestHash r) timestamp = some s1)
      (hsend : s1.applySend cfg timestamp (cfg.requestHash r) tokenId r.origin epoch t 0 = some s') :
      Applied cfg s r timestamp epoch info info [] s'
  | adjustUserStatus {tokenId account status info s'}
      (hbody : r.body = .adjustUserStatus tokenId account status)
      (hadjust : s.adjustUserStatus cfg tokenId account status = some s') :
      Applied cfg s r timestamp epoch info info [] s'
  | payout {tokenId t token token' s'}
      (hbody : r.body = .distribute tokenId t ∨ r.body = .withdrawFee tokenId t)
      (hupdate : token.update r.body = some token')
      (hsend : s.applySend cfg timestamp (cfg.requestHash r) tokenId r.origin epoch t 0 = some s') :
      Applied cfg s r timestamp epoch (.token token) (.token token') [] s'
  | withdrawLogos {tokenId t token s'} (hbody : r.body = .withdrawLogos tokenId t)
      (hsend : s.applySend cfg timestamp (cfg.requestHash r) 0 r.origin epoch t 0 = some s') :
      Applied cfg s r timestamp epoch (.token token)
        (.token { token with balance := token.balance - t.amount }) [] s'
  | tokenSend {tokenId ts tokenFee source info' s'}
      (hbody : r.body = .tokenSend tokenId ts tokenFee)
      (hsend : s.sendTokens cfg r tokenId ts tokenFee timestamp epoch source = some (info',s')) :
      Applied cfg s r timestamp epoch (.user source) info' [] s'
  | claim {epochHash epochNumber user info' deposits s'}
      (hbody : r.body = .claim epochHash epochNumber)
      (hclaim : s.claim cfg r epochNumber timestamp epoch user = some (info',deposits,s')) :
      Applied cfg s r timestamp epoch (.user user) info' deposits s'
  | unknown {info : Account H} (hbody : r.body = .unknown) :
      Applied cfg s r timestamp epoch info info [] s
  | update {token token'} (hkind : r.body.updatesToken = true)
      (hupdate : token.update r.body = some token') :
      Applied cfg s r timestamp epoch (.token token) (.token token') [] s
  | govern {user user' s'} (hkind : r.body.governs = true)
      (hrun : s.runGov (applyGovernance cfg r user) = some (user',s')) :
      Applied cfg s r timestamp epoch (.user user) (.user user') [] s'

theorem applied_of_applyBody
    (h : s.applyBody cfg r timestamp epoch info = some (info',deposits,s')) :
    s.Applied cfg r timestamp epoch info info' deposits s' := by
  have hpay : ∀ {coin : H} {t : Transaction H},(do
      let token ← info.asToken.bind (·.update r.body)
      let s ← s.applySend cfg timestamp (cfg.requestHash r) coin r.origin epoch t 0
      some (Account.token token,([] : List Amount),s)) = some (info',deposits,s') →
      ∃ token token',info = .token token ∧ token.update r.body = some token' ∧
        info' = .token token' ∧ deposits = [] ∧
        s.applySend cfg timestamp (cfg.requestHash r) coin r.origin epoch t 0 = some s' := by
    intro coin t h
    obtain ⟨token',htoken',h⟩ := bind_eq_some_iff.mp h
    obtain ⟨token,htoken,hupdate⟩ := bind_eq_some_iff.mp htoken'
    obtain ⟨s1,hsend,h⟩ := bind_eq_some_iff.mp h
    cases h
    exact ⟨token,token',Account.asToken_eq_some.mp htoken,hupdate,rfl,rfl,hsend⟩
  unfold applyBody at h
  split at h
  · next hbody =>
    obtain ⟨source,hsource,h⟩ := bind_eq_some_iff.mp h
    obtain ⟨⟨info1,s1⟩,hset,h⟩ := bind_eq_some_iff.mp h
    obtain ⟨s2,hsends,h⟩ := bind_eq_some_iff.mp h
    cases h
    cases Account.asUser_eq_some.mp hsource
    exact .send hbody hset hsends
  · next hbody =>
    obtain ⟨s1,hissue,h⟩ := bind_eq_some_iff.mp h
    cases h
    exact .issuance hbody hissue
  · next hbody =>
    obtain ⟨s1,hrevoke,h⟩ := bind_eq_some_iff.mp h
    obtain ⟨s2,hsend,h⟩ := bind_eq_some_iff.mp h
    cases h
    exact .revoke hbody hrevoke hsend
  · next hbody =>
    obtain ⟨s1,hadjust,h⟩ := bind_eq_some_iff.mp h
    cases h
    exact .adjustUserStatus hbody hadjust
  · next hbody =>
    obtain ⟨token,token',rfl,hupdate,rfl,rfl,hsend⟩ := hpay h
    exact .payout (.inl hbody) hupdate hsend
  · next hbody =>
    obtain ⟨token,token',rfl,hupdate,rfl,rfl,hsend⟩ := hpay h
    exact .payout (.inr hbody) hupdate hsend
  · next hbody =>
    obtain ⟨token,token',rfl,hupdate,rfl,rfl,hsend⟩ := hpay h
    rw [hbody] at hupdate
    cases hupdate
    exact .withdrawLogos hbody hsend
  · next hbody =>
    obtain ⟨source,hsource,h⟩ := bind_eq_some_iff.mp h
    obtain ⟨⟨info1,s1⟩,hsend,h⟩ := bind_eq_some_iff.mp h
    cases h
    cases Account.asUser_eq_some.mp hsource
    exact .tokenSend hbody hsend
  · next hbody =>
    obtain ⟨user,huser,h⟩ := bind_eq_some_iff.mp h
    cases Account.asUser_eq_some.mp huser
    exact .claim hbody h
  · next hbody =>
    cases h
    exact .unknown hbody
  · split at h
    · obtain ⟨token',htoken',h⟩ := bind_eq_some_iff.mp h
      obtain ⟨token,htoken,hupdate⟩ := bind_eq_some_iff.mp htoken'
      cases h
      cases Account.asToken_eq_some.mp htoken
      refine .update ?_ hupdate
      cases hbody : r.body <;> simp_all [Body.updatesToken,Body.administered]
    · obtain ⟨user,huser,h⟩ := bind_eq_some_iff.mp h
      obtain ⟨⟨user1,s1⟩,hrun,h⟩ := bind_eq_some_iff.mp h
      cases h
      cases Account.asUser_eq_some.mp huser
      refine .govern ?_ hrun
      cases hbody : r.body <;> simp_all [Body.governs,Body.administered]

/-- A request that governs does so on the governance tables. -/
theorem governance_of_applyBody (hkind : r.body.governs = true)
    (h : s.applyBody cfg r timestamp epoch info = some (info',deposits,s')) :
    ∃ user user',(applyGovernance cfg r user).run s.gov = .ok (user',s'.gov) := by
  cases applied_of_applyBody h with
  | @govern user user' _ _ hrun =>
    obtain ⟨g,hg,rfl⟩ := runGov_eq_some.mp hrun
    exact ⟨user,user',hg⟩
  | payout hbody _ _ => rcases hbody with hbody | hbody <;> rw [hbody] at hkind <;> cases hkind
  | update hupdates _ => cases hbody : r.body <;> rw [hbody] at hkind hupdates <;> cases hkind <;>
      cases hupdates
  | _ => simp_all [Body.governs]

end Parts

section Accepted

variable {s : Store H} {i : Submission H} {info : Account H}

theorem accepted_at_head (hvalid : (s.validateRequest cfg i false).Accepts ())
    (hlookup : s.accounts.lookup i.request.getAccount = some info)
    (hhead : i.request.previous = info.base.head) :
    (i.request.validate cfg).Accepts () ∧ s.covers i.request info i.epoch ∧
      (s.validateBody cfg i.request info i.epoch).Accepts () := by
  obtain ⟨-,hvalid⟩ := Check.accepts_require_bind.mp hvalid
  obtain ⟨-,hvalid⟩ := Check.accepts_require_bind.mp hvalid
  obtain ⟨_,hself,hvalid⟩ := Check.accepts_bind.mp hvalid
  obtain ⟨-,hvalid⟩ := Check.accepts_require_bind.mp hvalid
  obtain ⟨found,hfound,hvalid⟩ := Check.accepts_found_bind.mp hvalid
  obtain ⟨_,-,haccount⟩ := Check.accepts_bind.mp hvalid
  cases hlookup.symm.trans hfound
  simp only [Bool.false_eq_true,if_false,validateAccount,hhead,ne_eq,not_true,
    Check.accepts_require_bind] at haccount
  exact ⟨hself,haccount.2⟩

/-- An accepted request has an account. -/
theorem accepted_lookup (hvalid : (s.validateRequest cfg i false).Accepts ()) :
    ∃ info,s.accounts.lookup i.request.getAccount = some info := by
  obtain ⟨-,hvalid⟩ := Check.accepts_require_bind.mp hvalid
  obtain ⟨-,hvalid⟩ := Check.accepts_require_bind.mp hvalid
  obtain ⟨_,-,hvalid⟩ := Check.accepts_bind.mp hvalid
  obtain ⟨-,hvalid⟩ := Check.accepts_require_bind.mp hvalid
  obtain ⟨info,hinfo,-⟩ := Check.accepts_found_bind.mp hvalid
  exact ⟨info,hinfo⟩

theorem applyRequest_at_head {s' : Store H} {committed : H → Bool} {r : Request H} {epoch : Epoch} {deposits : List Amount}
    (hlookup : s.accounts.lookup r.getAccount = some info) (hhead : r.previous = info.base.head)
    (h : s.applyRequest cfg committed r timestamp epoch = some (s',deposits)) :
    ∃ (info1 info2 : Account H) (s1 s2 : Store H),
      s.beginRequest cfg r epoch info = some (info1,s1) ∧
      s1.applyBody cfg r timestamp epoch info1 = some (info2,deposits,s2) ∧
      s' = s2.accountPut r.getAccount info2 := by
  simp only [applyRequest,hlookup] at h
  rw [if_neg (not_not.mpr hhead)] at h
  obtain ⟨⟨info1,s1⟩,hbegin,h⟩ := bind_eq_some_iff.mp h
  obtain ⟨⟨info2,deposits2,s2⟩,hbody,h⟩ := bind_eq_some_iff.mp h
  cases h
  exact ⟨info1,info2,s1,s2,hbegin,hbody,rfl⟩

end Accepted

/-- Accepted at the head of its chain; such a request is applied, any other one is passed over. -/
def Adopts (cfg : Config H) (s : Store H) (i : Submission H) : Prop :=
  (s.validateRequest cfg i false).Accepts () ∧
    ∃ info ∈ s.accounts.lookup i.request.getAccount,i.request.previous = info.base.head

instance (s : Store H) (i : Submission H) : Decidable (s.Adopts cfg i) :=
  inferInstanceAs (Decidable (_ ∧ _))

/-- A request was passed over, or accepted with its fee taken and its account written last. -/
theorem process_split {i : Submission H} {deposits : List Amount}
    (h : s.process cfg i = some (s',deposits)) :
    (¬s.Adopts cfg i ∧ (s' = s ∨ s' = s.storeRequest cfg i.request i.timestamp) ∧ deposits = []) ∨
    ∃ (info info1 info2 : Account H) (s1 s2 : Store H),s.Adopts cfg i ∧
      (i.request.validate cfg).Accepts () ∧
      s.accounts.lookup i.request.getAccount = some info ∧
      s.covers i.request info i.epoch ∧
      (s.validateBody cfg i.request info i.epoch).Accepts () ∧
      (s.storeRequest cfg i.request i.timestamp).beginRequest cfg i.request i.epoch info =
        some (info1,s1) ∧
      s1.applyBody cfg i.request i.timestamp i.epoch info1 = some (info2,deposits,s2) ∧
      s' = s2.accountPut i.request.getAccount info2 := by
  unfold process at h
  split at h
  · cases h
  · next hrejected =>
    cases h
    refine .inl ⟨fun hadopts => ?_,.inl rfl,rfl⟩
    cases hrejected.symm.trans hadopts.1
  · next hvalid =>
    have haccepts : (s.validateRequest cfg i false).Accepts () := hvalid
    obtain ⟨info,hinfo⟩ := accepted_lookup haccepts
    have hlookup : (s.storeRequest cfg i.request i.timestamp).accounts.lookup i.request.getAccount =
        some info := hinfo
    by_cases hhead : i.request.previous = info.base.head
    · right
      obtain ⟨hself,hcovers,hbody⟩ := accepted_at_head haccepts hinfo hhead
      obtain ⟨info1,info2,s1,s2,hbegin,happly,hs'⟩ := applyRequest_at_head hlookup hhead h
      exact ⟨info,info1,info2,s1,s2,⟨haccepts,info,hinfo,hhead⟩,hself,hinfo,hcovers,hbody,hbegin,
        happly,hs'⟩
    · left
      have hnot : ¬s.Adopts cfg i := by
        rintro ⟨-,info',hinfo',hhead'⟩
        cases hinfo.symm.trans hinfo'
        exact hhead hhead'
      simp only [applyRequest,hlookup] at h
      rw [if_pos hhead] at h
      split at h
      · cases h
        exact ⟨hnot,.inr rfl,rfl⟩
      · cases h

/-- A request that was passed over moves no money. -/
theorem sameMoney_of_passed {r : Request H}
    (h : s' = s ∨ s' = s.storeRequest cfg r timestamp) : s.SameMoney s' := by
  rcases h with rfl | rfl
  · exact .refl s'
  · exact sameMoney_storeRequest cfg s r timestamp

end Store
end LogosCore.Ledger

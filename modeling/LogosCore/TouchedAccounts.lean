import LogosCore.Effects

/-! # The accounts that a request touches

Applying a request writes the account of the request and the accounts that its body names; every
other account keeps its record. -/
namespace LogosCore.Ledger

variable {H : Type} [DecidableEq H] [Zero H] {cfg : Config H}

/-- The accounts beside its own that a request can write. -/
def Body.named : Body H → List H
  | .send ts => ts.map (·.destination)
  | .issuance i => [i.tokenId]
  | .revoke _ source t => [source,t.destination]
  | .adjustUserStatus _ account _ => [account]
  | .distribute _ t => [t.destination]
  | .withdrawFee _ t => [t.destination]
  | .withdrawLogos _ t => [t.destination]
  | .tokenSend tokenId ts _ => tokenId::ts.map (·.destination)
  | _ => []

def Request.touched (r : Request H) : List H := r.getAccount::r.body.named

namespace Store

variable {s s' : Store H} {a : H}

def Keeps (a : H) (s s' : Store H) : Prop := s'.accounts.lookup a = s.accounts.lookup a

theorem Keeps.refl (a : H) (s : Store H) : Keeps a s s := rfl

theorem Keeps.trans {s'' : Store H} (h : Keeps a s s') (h' : Keeps a s' s'') : Keeps a s s'' :=
  Eq.trans h' h

theorem SameMoney.keeps (h : s.SameMoney s') (a : H) : Keeps a s s' := by
  rw [Keeps,h.accounts]

theorem keeps_accountPut {address : H} (hne : a ≠ address) (info : Account H) :
    Keeps a s (s.accountPut address info) :=
  AList.lookup_insert_ne hne

section Send

variable {timestamp : BitVec 64} {requestHash tokenId origin : H} {epoch : Epoch}
  {send : Transaction H} {info : Option (Account H)} {index : BitVec 16} {info' : Account H}

theorem sameMoney_applySendTo
    (h : s.applySendTo cfg timestamp requestHash tokenId origin epoch send info index =
      some (info',s')) : s.SameMoney s' := by
  by_cases htoken : tokenId = 0
  · subst htoken
    exact (applySendTo_logos h).1
  · exact (applySendTo_token htoken h).1

theorem keeps_applySend (hne : a ≠ send.destination)
    (h : s.applySend cfg timestamp requestHash tokenId origin epoch send index = some s') :
    Keeps a s s' := by
  obtain ⟨⟨info,s1⟩,hsend,heq⟩ := Option.bind_eq_some_iff.mp h
  cases heq
  exact ((sameMoney_applySendTo hsend).keeps a).trans (keeps_accountPut hne info)

theorem keeps_applySends {sends : List (Transaction H)} (hne : ∀ send ∈ sends,a ≠ send.destination)
    (h : applySends cfg timestamp requestHash tokenId origin epoch sends index s = some s') :
    Keeps a s s' := by
  induction sends generalizing s index with
  | nil =>
    cases h
    exact .refl a _
  | cons send sends ih =>
    obtain ⟨s1,hsend,hrest⟩ := Option.bind_eq_some_iff.mp h
    have hthis := keeps_applySend (hne send List.mem_cons_self) hsend
    exact hthis.trans (ih (fun send' hmem => hne send' (List.mem_cons_of_mem _ hmem)) hrest)

end Send

theorem keeps_issue {r : Request H} {i : Issuance H} {timestamp : BitVec 64} (hne : a ≠ i.tokenId)
    (h : s.issue cfg r i timestamp = some s') : Keeps a s s' :=
  (keeps_accountPut hne _).trans ((sameMoney_placeReceive h).keeps a)

theorem keeps_revokeFrom {tokenId source hash : H} {amount : Amount} {timestamp : BitVec 64}
    (hne : a ≠ source) (h : s.revokeFrom cfg tokenId source amount hash timestamp = some s') :
    Keeps a s s' := by
  obtain ⟨user,e,receives,head,-,-,rfl⟩ := revokeFrom_steps h
  exact keeps_accountPut hne _

theorem keeps_adjustUserStatus {tokenId account : H} {status : UserStatus} (hne : a ≠ account)
    (h : s.adjustUserStatus cfg tokenId account status = some s') : Keeps a s s' := by
  rcases adjustUserStatus_steps h with ⟨statuses,rfl⟩ | ⟨user,e,-,-,rfl⟩
  · rfl
  · exact keeps_accountPut hne _

theorem keeps_sendTokens {r : Request H} {tokenId : H} {ts : List (Transaction H)}
    {tokenFee : Amount} {timestamp : BitVec 64} {epoch : Epoch} {source : AccountInfo H}
    {info : Account H} (htoken : a ≠ tokenId) (hne : ∀ t ∈ ts,a ≠ t.destination)
    (h : s.sendTokens cfg r tokenId ts tokenFee timestamp epoch source = some (info,s')) :
    Keeps a s s' := by
  obtain ⟨token,e,-,-,hsends,-⟩ := sendTokens_steps h
  exact (keeps_accountPut htoken _).trans (keeps_applySends hne hsends)

section Requests

variable {r : Request H} {timestamp : BitVec 64} {epoch : Epoch} {info info' : Account H}
  {deposits : List Amount}

theorem keeps_applyBody (ha : a ∉ r.body.named)
    (h : s.applyBody cfg r timestamp epoch info = some (info',deposits,s')) : Keeps a s s' := by
  cases applied_of_applyBody h with
  | send hbody hset hsends =>
    rw [hbody] at ha
    refine ((setBalance_rebalances hset).1.keeps a).trans (keeps_applySends ?_ hsends)
    intro t ht heq
    exact ha (List.mem_map.mpr ⟨t,List.mem_of_mem_filter ht,heq.symm⟩)
  | issuance hbody hissue =>
    rw [hbody] at ha
    exact keeps_issue (fun heq => ha (List.mem_singleton.mpr heq)) hissue
  | revoke hbody hrevoke hsend =>
    simp only [hbody,Body.named,List.mem_cons,List.not_mem_nil,or_false,not_or] at ha
    exact (keeps_revokeFrom ha.1 hrevoke).trans (keeps_applySend ha.2 hsend)
  | adjustUserStatus hbody hadjust =>
    rw [hbody] at ha
    exact keeps_adjustUserStatus (fun heq => ha (List.mem_singleton.mpr heq)) hadjust
  | payout hbody _ hsend =>
    rcases hbody with hbody | hbody
    all_goals
      rw [hbody] at ha
      exact keeps_applySend (fun heq => ha (List.mem_singleton.mpr heq)) hsend
  | withdrawLogos hbody hsend =>
    rw [hbody] at ha
    exact keeps_applySend (fun heq => ha (List.mem_singleton.mpr heq)) hsend
  | tokenSend hbody hsend =>
    simp only [hbody,Body.named,List.mem_cons,not_or] at ha
    refine keeps_sendTokens ha.1 (fun t ht heq => ?_) hsend
    exact ha.2 (List.mem_map.mpr ⟨t,ht,heq.symm⟩)
  | claim _ hclaim =>
    obtain ⟨deposit,user1,s1,hcollect,hclaim⟩ := claim_steps hclaim
    have hcollected := (sameMoney_runGov hcollect).keeps a
    rcases hclaim with ⟨-,hsend⟩ | ⟨-,-,-,rfl⟩
    · exact hcollected.trans ((sameMoney_applySendTo hsend).keeps a)
    · exact hcollected
  | unknown => exact .refl a _
  | update => exact .refl a _
  | govern _ hrun => exact (sameMoney_runGov hrun).keeps a

theorem keeps_applyRequest {committed : H → Bool} (ha : a ∉ r.touched)
    (h : s.applyRequest cfg committed r timestamp epoch = some (s',deposits)) : Keeps a s s' := by
  obtain ⟨hown,hnamed⟩ := not_or.mp (fun h => ha (List.mem_cons.mpr h))
  unfold applyRequest at h
  split at h
  · cases h
    exact .refl a _
  · split at h
    · split at h
      · cases h
        exact .refl a _
      · cases h
    · obtain ⟨⟨info1,s1⟩,hbegin,h⟩ := Option.bind_eq_some_iff.mp h
      obtain ⟨⟨info2,deposits2,s2⟩,hbody,h⟩ := Option.bind_eq_some_iff.mp h
      cases h
      have haccounts : Keeps a s s1 := by
        rw [Keeps,(beginRequest_effect hbegin).1]
      exact (haccounts.trans (keeps_applyBody hnamed hbody)).trans (keeps_accountPut hown _)

end Requests

def applyRequestBlock (cfg : Config H) (committed : H → Bool) (timestamp : BitVec 64)
    (epoch : Epoch) : List (Request H) → Store H → Option (Store H)
  | [],s => some s
  | r::rs,s => do
    let (s,_) ← s.applyRequest cfg committed r timestamp epoch
    applyRequestBlock cfg committed timestamp epoch rs s

omit [Zero H] in
def storeRequests (cfg : Config H) (timestamp : BitVec 64) (requests : List (Request H))
    (s : Store H) : Store H :=
  requests.foldl (fun s r => s.storeRequest cfg r timestamp) s

theorem keeps_storeRequests (timestamp : BitVec 64) (requests : List (Request H)) :
    Keeps a s (s.storeRequests cfg timestamp requests) := by
  induction requests generalizing s with
  | nil => exact .refl a s
  | cons r rs ih => exact ((sameMoney_storeRequest cfg s r timestamp).keeps a).trans ih

theorem keeps_applyRequestBlock {committed : H → Bool} {timestamp : BitVec 64} {epoch : Epoch}
    {requests : List (Request H)} (ha : ∀ r ∈ requests,a ∉ r.touched)
    (h : applyRequestBlock cfg committed timestamp epoch requests s = some s') : Keeps a s s' := by
  induction requests generalizing s with
  | nil =>
    cases h
    exact .refl a _
  | cons r rs ih =>
    obtain ⟨⟨s1,deposits⟩,happly,hrest⟩ := Option.bind_eq_some_iff.mp h
    have hthis := keeps_applyRequest (ha r List.mem_cons_self) happly
    exact hthis.trans (ih (fun r' hmem => ha r' (List.mem_cons_of_mem _ hmem)) hrest)

end Store
end LogosCore.Ledger

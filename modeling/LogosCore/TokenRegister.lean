import LogosCore.Conservation
import LogosCore.TokenAdmin

/-! # The register of token users and settings

What the ledger says about tokens besides amounts: the status of a user in the entry of a token, or
in the central list as long as there is no entry, and the settings of the token accounts. The
requests act on this register by four small operations. -/
namespace LogosCore.Ledger

open Option Program StakingManager
open Function (update update_eq_self)

variable {H : Type} [DecidableEq H] [Zero H] {cfg : Config H}

theorem AccountInfo.findEntry_updateEntry (info : AccountInfo H) (tokenId : H)
    {f : TokenEntry H → TokenEntry H} (hf : ∀ e,(f e).tokenId = e.tokenId) (t : H) :
    (info.updateEntry tokenId f).findEntry t =
      if t = tokenId then (info.findEntry tokenId).map f else info.findEntry t := by
  simp only [findEntry,updateEntry]
  induction info.entries with
  | nil => simp
  | cons e entries ih =>
    by_cases he : e.tokenId = tokenId
    · have hidx : (e::entries).findIdx? (·.tokenId = tokenId) = some 0 := by
        simp [List.findIdx?_cons,he]
      by_cases ht : t = tokenId
      · simp [hidx,hf,he,ht]
      · simp [hidx,hf,he,ht,Ne.symm ht]
    · cases hidx : entries.findIdx? (·.tokenId = tokenId) with
      | none =>
        have hidx' : (e::entries).findIdx? (·.tokenId = tokenId) = none := by
          simp [List.findIdx?_cons,he,hidx]
        have hnone : entries.find? (·.tokenId = tokenId) = none := by
          simpa [List.findIdx?_eq_none_iff] using hidx
        by_cases ht : t = tokenId
        · simp [hidx',ht,he,hnone]
        · simp [hidx',ht]
      | some i =>
        have hidx' : (e::entries).findIdx? (·.tokenId = tokenId) = some (i + 1) := by
          simp [List.findIdx?_cons,he,hidx]
        simp only [hidx] at ih
        simp only [hidx',List.modify_succ_cons,List.find?_cons,ih]
        by_cases ht : t = tokenId
        · simp [ht,he]
        · simp [ht]

/-- The statuses in the entries of an account, and the settings of a token account. -/
abbrev TokenStanding (H : Type) := (H → Option TokenUserStatus) × Option BitField

variable {t t' : TokenAccount H}

namespace Account

def standing : Account H → TokenStanding H
  | user info => (fun t => (info.findEntry t).map (·.status),none)
  | token info => (fun _ => none,some info.settings)

@[simp] theorem standing_withBase (b : AccountBase H) (a : Account H) :
    (a.withBase b).standing = a.standing := by
  cases a <;> rfl

theorem eq_token_of_standing {a : Account H} (h : a.standing = (token t).standing) :
    ∃ t',a = token t' := by
  cases a with
  | user info => cases congrArg Prod.snd h
  | token t' => exact ⟨t',rfl⟩

theorem standing_user_of_entries {u u' : AccountInfo H} (h : u'.entries = u.entries) :
    (user u').standing = (user u).standing := by
  simp only [standing,AccountInfo.findEntry,h]

/-- Rewriting an entry without its status. -/
theorem standing_updateEntry (u : AccountInfo H) (tokenId : H) {f : TokenEntry H → TokenEntry H}
    (hf : ∀ e,(f e).tokenId = e.tokenId) (hstatus : ∀ e,(f e).status = e.status) :
    (user (u.updateEntry tokenId f)).standing = (user u).standing := by
  simp only [standing,u.findEntry_updateEntry tokenId hf]
  congr 1
  funext t
  split
  · next ht => simp [ht,Function.comp_def,hstatus]
  · rfl

theorem standing_adjustEntry (u : AccountInfo H) {tokenId : H} {e : TokenEntry H}
    (he : u.findEntry tokenId = some e) (status : UserStatus) :
    (user (u.updateEntry tokenId fun e => { e with status := e.status.adjust status })).standing =
      (update (user u).standing.1 tokenId (some (e.status.adjust status)),none) := by
  simp only [standing,u.findEntry_updateEntry tokenId
    (f := fun e => { e with status := e.status.adjust status }) (fun _ => rfl)]
  congr 1
  funext t
  by_cases ht : t = tokenId <;> simp [ht,he]

/-- A new entry behind the others is found if there was none. -/
theorem standing_append_entry (u : AccountInfo H) {tokenId : H} (status : TokenUserStatus)
    (balance : Amount) (habsent : u.findEntry tokenId = none) :
    (user { u with entries := u.entries ++ [⟨tokenId,status,balance⟩] }).standing =
      (update (user u).standing.1 tokenId (some status),none) := by
  simp only [AccountInfo.findEntry] at habsent
  simp only [standing,AccountInfo.findEntry,List.find?_append]
  congr 1
  funext t
  by_cases ht : t = tokenId
  · subst ht
    simp [habsent]
  · simp [ht,Ne.symm ht]

end Account

/-- What the ledger says about the users and settings of tokens. -/
structure Register (H : Type) where
  standing : H → TokenStanding H
  central : Table H TokenUserStatus

namespace Register

def status (cfg : Config H) (g : Register H) (tokenId a : H) : TokenUserStatus :=
  ((g.standing a).1 tokenId).getD ((g.central.lookup (cfg.tokenUserId tokenId a)).getD .default)

def setStatus (g : Register H) (tokenId a : H) (status : TokenUserStatus) : Register H :=
  let entries := Function.update (g.standing a).1 tokenId (some status)
  { g with standing := Function.update g.standing a (entries,(g.standing a).2) }

def tether (cfg : Config H) (tokenId a : H) (g : Register H) : Register H :=
  if ((g.standing a).1 tokenId).isSome = true then g
  else
    { g.setStatus tokenId a (g.status cfg tokenId a) with
      central := g.central.erase (cfg.tokenUserId tokenId a) }

def adjust (cfg : Config H) (tokenId a : H) (status : UserStatus) (g : Register H) : Register H :=
  let adjusted := (g.status cfg tokenId a).adjust status
  if ((g.standing a).1 tokenId).isSome = true then g.setStatus tokenId a adjusted
  else { g with central := g.central.insert (cfg.tokenUserId tokenId a) adjusted }

def setSetting (tokenId : H) (setting : TokenSetting) (value : Bool) (g : Register H) :
    Register H :=
  let settings := (g.standing tokenId).2.map (BitField.set · setting.ctorIdx value)
  { g with standing := Function.update g.standing tokenId ((g.standing tokenId).1,settings) }

def issue (tokenId : H) (settings : BitField) (g : Register H) : Register H :=
  { g with standing := Function.update g.standing tokenId (fun _ => none,some settings) }

end Register

/-- What a request does to the register. -/
def Body.record (cfg : Config H) : Body H → Register H → Register H
  | issuance i,g => g.issue i.tokenId i.settings
  | changeSetting tokenId setting value,g => g.setSetting tokenId setting (value = .enabled)
  | immuteSetting tokenId setting,g =>
    (setting.getMutabilitySetting.map fun m => g.setSetting tokenId m false).getD g
  | revoke tokenId _ t,g => g.tether cfg tokenId t.destination
  | adjustUserStatus tokenId a status,g => g.adjust cfg tokenId a status
  | distribute tokenId t,g => g.tether cfg tokenId t.destination
  | withdrawFee tokenId t,g => g.tether cfg tokenId t.destination
  | tokenSend tokenId ts _,g => ts.foldl (fun g t => g.tether cfg tokenId t.destination) g
  | _,g => g

namespace Store

def standing (s : Store H) (a : H) : TokenStanding H :=
  ((s.accounts.lookup a).map Account.standing).getD (fun _ => none,none)

def register (s : Store H) : Register H := ⟨s.standing,s.tokenUserStatus⟩

theorem standing_of_lookup {s : Store H} {a : H} {info : Account H}
    (h : s.accounts.lookup a = some info) : s.standing a = info.standing := by
  simp [standing,h]

theorem standing_accountPut (s : Store H) (a : H) (info : Account H) :
    (s.accountPut a info).standing = update s.standing a info.standing := by
  funext b
  by_cases h : b = a
  · subst h
    simp [standing,accountPut]
  · simp [standing,accountPut,AList.lookup_insert_ne h,h]

theorem register_accountPut (s : Store H) (a : H) (info : Account H) :
    (s.accountPut a info).register = ⟨update s.standing a info.standing,s.tokenUserStatus⟩ := by
  rw [register,standing_accountPut]
  rfl

/-- An account is written that says the same. -/
theorem register_accountPut_same {s : Store H} {a : H} {info : Account H}
    (h : info.standing = s.standing a) : (s.accountPut a info).register = s.register := by
  rw [register_accountPut,h,update_eq_self]
  rfl

variable {s s' : Store H} {info info' : Account H} {epoch : Epoch} {timestamp : BitVec 64}

theorem register_runGov {α : Type} {x : Gov H α} {a : α} (h : s.runGov x = some (a,s')) :
    s'.register = s.register := by
  obtain ⟨g,-,rfl⟩ := runGov_eq_some.mp h
  rfl

theorem register_placeReceive {receive : ReceiveBlock H}
    (h : s.placeReceive cfg receive timestamp = some s') : s'.register = s.register := by
  obtain ⟨receives,rfl⟩ := placeReceive_receives h
  rfl

theorem setBalance_register {newBalance : Amount}
    (h : s.setBalance info newBalance epoch = some (info',s')) :
    s'.register = s.register ∧ info'.standing = info.standing := by
  cases info with
  | token t =>
    cases h
    exact ⟨rfl,rfl⟩
  | user u =>
    obtain ⟨⟨u',s1⟩,hrun,heq⟩ := map_eq_some_iff.mp h
    cases heq
    obtain ⟨rfl,-⟩ := result_runGov (u.ensures_setBalance newBalance epoch) hrun
    exact ⟨register_runGov hrun,rfl⟩

theorem receiver_standing {origin hash : H} {info : Option (Account H)}
    (h : s.receiver origin info hash = some info') :
    info'.standing = (info.map Account.standing).getD (fun _ => none,none) := by
  obtain ⟨b,hb,rfl⟩ := map_eq_some_iff.mp h
  cases info with
  | some a =>
    cases hb
    simp
  | none =>
    simp only at hb
    split at hb
    · cases hb
      rfl
    · cases hb

variable {r : Request H}

theorem beginRequest_register (h : s.beginRequest cfg r epoch info = some (info',s')) :
    s'.register = s.register ∧ info'.standing = info.standing := by
  obtain ⟨⟨info1,s1⟩,hprune,h⟩ := bind_eq_some_iff.mp h
  have hpruned : s1.register = s.register ∧ info1.standing = info.standing := by
    cases info with
    | token t =>
      cases hprune
      exact ⟨rfl,rfl⟩
    | user u =>
      obtain ⟨⟨u',s2⟩,hrun,heq⟩ := map_eq_some_iff.mp hprune
      cases heq
      obtain ⟨g,hg,-⟩ := runGov_eq_some.mp hrun
      exact ⟨register_runGov hrun,
        Account.standing_user_of_entries (ensures_pruneThawing hg).1.entries⟩
  by_cases hvote : r.body.isElectionVote
  · simp only [if_pos hvote] at h
    cases h
    exact hpruned
  · simp only [if_neg hvote] at h
    obtain ⟨⟨info2,s2⟩,hset,h⟩ := bind_eq_some_iff.mp h
    cases h
    obtain ⟨hregister,hstanding⟩ := setBalance_register hset
    exact ⟨hregister.trans hpruned.1,hstanding.trans hpruned.2⟩

section Send

variable {requestHash tokenId origin : H} {send : Transaction H} {index : BitVec 16}

theorem applySendTo_logos_register {info : Option (Account H)}
    (h : s.applySendTo cfg timestamp requestHash 0 origin epoch send info index = some (info',s')) :
    s'.register = s.register ∧
      info'.standing = (info.map Account.standing).getD (fun _ => none,none) := by
  obtain ⟨info1,s1,receives,hinfo1,hset,rfl⟩ := applySendTo_steps h
  rw [if_pos rfl] at hset
  obtain ⟨hregister,hstanding⟩ := setBalance_register hset
  exact ⟨hregister,hstanding.trans (receiver_standing hinfo1)⟩

/-- The entry that a token is added to may be made for it. -/
theorem addTokens_register (h : s.addTokens cfg info tokenId send = some (info',s'))
    (hstanding : info.standing = s.standing send.destination) :
    (s.standing send.destination).2 = none ∧ (s'.accountPut send.destination info').register =
        s.register.tether cfg tokenId send.destination := by
  obtain ⟨u,hu,heq⟩ := map_eq_some_iff.mp h
  cases Account.asUser_eq_some.mp hu
  have hcredited := fun u : AccountInfo H => Account.standing_updateEntry u tokenId
    (f := fun e => { e with balance := e.balance + send.amount }) (fun _ => rfl) fun _ => rfl
  refine ⟨by rw [← hstanding]; rfl,?_⟩
  have hentry : ((s.register.standing send.destination).1 tokenId).isSome =
      (u.findEntry tokenId).isSome := by
    show ((s.standing send.destination).1 tokenId).isSome = _
    rw [← hstanding]
    simp [Account.standing]
  by_cases hsome : (u.findEntry tokenId).isSome = true
  · simp only [Store.tether,hsome,if_true] at heq
    cases heq
    rw [Register.tether,hentry,if_pos hsome]
    exact register_accountPut_same ((hcredited u).trans hstanding)
  · simp only [Store.tether,hsome,Bool.false_eq_true,if_false] at heq
    cases heq
    have habsent : u.findEntry tokenId = none := by simpa using hsome
    have hnone : (s.standing send.destination).1 tokenId = none := by
      rw [← hstanding]
      simp [Account.standing,habsent]
    rw [Register.tether,hentry,if_neg hsome,register_accountPut,hcredited,
      Account.standing_append_entry u _ _ habsent,hstanding]
    simp only [Register.setStatus,Register.status,register,hnone,getD_none]
    rw [← hstanding]
    rfl

/-- A credit of a token tethers its receiver. -/
theorem applySend_token_register (htoken : tokenId ≠ 0)
    (h : s.applySend cfg timestamp requestHash tokenId origin epoch send index = some s') :
    (s.standing send.destination).2 = none ∧
      s'.register = s.register.tether cfg tokenId send.destination := by
  obtain ⟨⟨info,s1⟩,hto,heq⟩ := bind_eq_some_iff.mp h
  cases heq
  obtain ⟨info1,s2,receives,hinfo1,hadd,rfl⟩ := applySendTo_steps hto
  rw [if_neg htoken] at hadd
  obtain ⟨hnone,hregister⟩ := addTokens_register hadd (receiver_standing hinfo1)
  exact ⟨hnone,hregister⟩

theorem applySend_logos_register
    (h : s.applySend cfg timestamp requestHash 0 origin epoch send index = some s') :
    s'.register = s.register := by
  obtain ⟨⟨info,s1⟩,hto,heq⟩ := bind_eq_some_iff.mp h
  cases heq
  obtain ⟨hregister,hstanding⟩ := applySendTo_logos_register hto
  have hsame : s1.standing = s.standing := congrArg Register.standing hregister
  rw [register_accountPut_same,hregister]
  rw [hstanding,hsame]
  rfl

theorem applySends_logos_register {sends : List (Transaction H)}
    (h : applySends cfg timestamp requestHash 0 origin epoch sends index s = some s') :
    s'.register = s.register := by
  induction sends generalizing s index with
  | nil =>
    cases h
    rfl
  | cons send sends ih =>
    obtain ⟨s1,hsend,hrest⟩ := bind_eq_some_iff.mp h
    exact (ih hrest).trans (applySend_logos_register hsend)

theorem applySends_token_register (htoken : tokenId ≠ 0) {sends : List (Transaction H)}
    (h : applySends cfg timestamp requestHash tokenId origin epoch sends index s = some s') :
    s'.register = sends.foldl (fun g t => g.tether cfg tokenId t.destination) s.register := by
  induction sends generalizing s index with
  | nil =>
    cases h
    rfl
  | cons send sends ih =>
    obtain ⟨s1,hsend,hrest⟩ := bind_eq_some_iff.mp h
    rw [ih hrest,(applySend_token_register htoken hsend).2]
    rfl

end Send

theorem issue_register {i : Issuance H} (h : s.issue cfg r i timestamp = some s') :
    s'.register = s.register.issue i.tokenId i.settings := by
  rw [register_placeReceive h,register_accountPut]
  rfl

theorem revokeFrom_register {tokenId source hash : H} {amount : Amount}
    (h : s.revokeFrom cfg tokenId source amount hash timestamp = some s') :
    s'.register = s.register := by
  obtain ⟨user,e,receives,head,hlookup,-,rfl⟩ := revokeFrom_steps h
  apply register_accountPut_same (s := { s with receives := receives })
  refine Eq.trans ?_ (standing_of_lookup hlookup).symm
  exact Account.standing_updateEntry user tokenId
    (f := fun e => { e with balance := e.balance - amount }) (fun _ => rfl) fun _ => rfl

theorem adjustUserStatus_register {tokenId account : H} {status : UserStatus}
    (h : s.adjustUserStatus cfg tokenId account status = some s') :
    s'.register = s.register.adjust cfg tokenId account status := by
  unfold adjustUserStatus at h
  split at h
  · next hlookup =>
    cases h
    have hnone : s.standing account = (fun _ => none,none) := by simp [standing,hlookup]
    simp only [Register.adjust,Register.status,register,hnone]
    rfl
  · next info hlookup =>
    obtain ⟨user,huser,heq⟩ := map_eq_some_iff.mp h
    cases Account.asUser_eq_some.mp huser
    have hstanding : s.standing account = (Account.user user).standing := standing_of_lookup hlookup
    cases hentry : user.findEntry tokenId with
    | none =>
      rw [← heq]
      simp only [Register.adjust,Register.status,register,hstanding,Account.standing,hentry,
        map_none,isSome_none,Bool.false_eq_true,if_false,getD_none]
      rfl
    | some e =>
      simp only [hentry,isSome_some,if_true] at heq
      rw [← heq,register_accountPut,Account.standing_adjustEntry user hentry]
      simp only [Register.adjust,Register.status,Register.setStatus,register,hstanding,
        Account.standing,hentry,map_some,isSome_some,if_true,getD_some]

theorem claim_register {epochNumber : Epoch} {user : AccountInfo H} {deposits : List Amount}
    (h : s.claim cfg r epochNumber timestamp epoch user = some (info,deposits,s')) :
    s'.register = s.register ∧ info.standing = (Account.user user).standing := by
  obtain ⟨deposit,user1,s1,hcollect,h⟩ := claim_steps h
  have hregister := register_runGov hcollect
  have hentries := Account.standing_user_of_entries
    (result_runGov (restaked_collectReward r.origin epochNumber user) hcollect).entries
  rcases h with ⟨-,hsend⟩ | ⟨-,-,rfl,rfl⟩
  · obtain ⟨hregister2,hstanding⟩ := applySendTo_logos_register hsend
    exact ⟨hregister2.trans hregister,hstanding.trans hentries⟩
  · exact ⟨hregister,hentries⟩

theorem sendTokens_register {tokenId : H} (htoken : tokenId ≠ 0) {ts : List (Transaction H)}
    {tokenFee : Amount} {source : AccountInfo H}
    (h : s.sendTokens cfg r tokenId ts tokenFee timestamp epoch source = some (info,s')) :
    s'.register = ts.foldl (fun g t => g.tether cfg tokenId t.destination) s.register ∧
      info.standing = (Account.user source).standing ∧
      ((Account.user source).standing.1 tokenId).isSome = true := by
  obtain ⟨t,e,haccount,he,hsends,rfl⟩ := sendTokens_steps h
  have hfee : (s.accountPut tokenId (.token
      { t with tokenFeeBalance := t.tokenFeeBalance + tokenFee })).register = s.register := by
    apply register_accountPut_same
    rw [standing_of_lookup haccount]
    rfl
  refine ⟨?_,?_,?_⟩
  · rw [applySends_token_register htoken hsends,hfee]
  · exact Account.standing_updateEntry source tokenId
      (f := fun e => { e with balance := e.balance - r.body.getTokenTotal }) (fun _ => rfl)
      fun _ => rfl
  · simp [Account.standing,he]

end Store

/-! ## What the operations leave alone -/

namespace Register

variable {g : Register H} {tokenId a b : H}

theorem standing_tether_of_ne (h : b ≠ a) : (g.tether cfg tokenId a).standing b = g.standing b := by
  unfold tether
  split
  · rfl
  · simp [setStatus,h]

/-- A user that has an entry for the token is not tethered again. -/
theorem standing_tether_of_isSome (h : ((g.standing b).1 tokenId).isSome = true) :
    (g.tether cfg tokenId a).standing b = g.standing b := by
  by_cases hb : b = a
  · subst hb
    rw [tether,if_pos h]
  · exact standing_tether_of_ne hb

theorem standing_tethers_of_isSome (ts : List (Transaction H))
    (h : ((g.standing b).1 tokenId).isSome = true) :
    (ts.foldl (fun g t => g.tether cfg tokenId t.destination) g).standing b = g.standing b := by
  induction ts generalizing g with
  | nil => rfl
  | cons t ts ih =>
    have hthis : (g.tether cfg tokenId t.destination).standing b = g.standing b :=
      standing_tether_of_isSome h
    rw [List.foldl_cons,ih (by rw [hthis]; exact h),hthis]

/-- A token account has no entries. -/
theorem standing_adjust_of_token {status : UserStatus} (h : (g.standing b).1 = fun _ => none) :
    (g.adjust cfg tokenId a status).standing b = g.standing b := by
  unfold adjust
  by_cases hb : b = a
  · subst hb
    simp [h]
  · split
    · simp [setStatus,hb]
    · rfl

end Register

def TokenAccount.settingsAfter (t : TokenAccount H) : Body H → BitField
  | .changeSetting _ setting value => BitField.set t.settings setting.ctorIdx (value = .enabled)
  | .immuteSetting _ setting => (setting.getMutabilitySetting.map fun m =>
      BitField.set t.settings m.ctorIdx false).getD t.settings
  | _ => t.settings

theorem TokenAccount.settings_of_update {b : Body H} (h : t.update b = some t') :
    t'.settings = t.settingsAfter b := by
  cases b with
  | immuteSetting tokenId setting =>
    obtain ⟨m,hm,rfl⟩ := map_eq_some_iff.mp h
    simp [settingsAfter,hm,setSetting]
  | updateController tokenId action controller =>
    simp only [update,updateController] at h
    cases action <;> cases hidx : t.controllers.findIdx? (·.account = controller.account) <;>
      simp only [hidx] at h <;> cases h <;> rfl
  | _ =>
    cases h
    rfl

namespace Store

section Accepted

variable {s : Store H} {r : Request H} {info : Account H} {epoch : Epoch}

/-- An accepted administrative request is made on a token account, by one of its controllers. -/
theorem accepted_authorizes (h : (s.validateBody cfg r info epoch).Accepts ())
    (hadmin : r.body.administered.isSome) : ∃ t,info = .token t ∧ t.isAllowed r.body = true := by
  have hbody : s.validateBody cfg r info epoch =
      (do validateTokenAdminRequest cfg r info; s.validateTokenTransfer cfg r info) := by
    unfold validateBody
    cases hkind : r.body <;> simp_all [Body.administered]
  rw [hbody] at h
  obtain ⟨h,-⟩ := Check.accepts_unit_bind.mp h
  obtain ⟨t,ht,h⟩ := Check.accepts_found_bind.mp h
  obtain ⟨controller,-,h⟩ := Check.accepts_found_bind.mp h
  obtain ⟨authorized,-,h⟩ := Check.accepts_attempt_bind.mp h
  obtain ⟨-,h⟩ := Check.accepts_require_bind.mp h
  exact ⟨t,Account.asToken_eq_some.mp ht,(Check.accepts_require_bind.mp h).1⟩

end Accepted


section Process

variable {s s' : Store H} {r : Request H} {info info' : Account H} {epoch : Epoch}
  {timestamp : BitVec 64} {deposits : List Amount} {g : Register H} {k : H}

theorem register_finish (hs : s.register = g) (hinfo : info.standing = g.standing k) :
    (s.accountPut k info).register = g := by
  subst hs
  exact register_accountPut_same hinfo

theorem record_of_update {b : Body H} (hadmin : b.administered = some k)
    (hplain : b.updatesToken = true) (hstanding : g.standing k = (fun _ => none,some t.settings)) :
    b.record cfg g = ⟨update g.standing k (fun _ => none,some (t.settingsAfter b)),g.central⟩ := by
  have hsame : (⟨update g.standing k (fun _ => none,some t.settings),g.central⟩ :
      Register H) = g := by
    rw [← hstanding,update_eq_self]
  cases b with
  | changeSetting tokenId setting value =>
    cases hadmin
    simp [Body.record,Register.setSetting,TokenAccount.settingsAfter,hstanding]
  | immuteSetting tokenId setting =>
    cases hadmin
    cases hm : setting.getMutabilitySetting with
    | none =>
      simp only [Body.record,TokenAccount.settingsAfter,hm,map_none,getD_none,hsame]
    | some m =>
      simp [Body.record,Register.setSetting,TokenAccount.settingsAfter,hm,hstanding]
  | _ =>
    first
    | exact hsame.symm
    | cases hplain

theorem register_update {b : Body H} (hstanding : (Account.token t).standing = s.standing k)
    (hadmin : b.administered = some k) (hplain : b.updatesToken = true)
    (hupdate : t.update b = some t') :
    (s.accountPut k (.token t')).register = b.record cfg s.register := by
  rw [register_accountPut,record_of_update hadmin hplain hstanding.symm,
    ← t.settings_of_update hupdate]
  rfl

/-- Tokens are paid to an account that is not the token account itself. -/
theorem register_payout {s1 : Store H} {requestHash tokenId origin : H} {send : Transaction H}
    {index : BitVec 16} (htoken : tokenId ≠ 0)
    (hstanding : (Account.token t).standing = s.standing k) (hs : s1.register = s.register)
    (hsettings : t'.settings = t.settings)
    (h : s1.applySend cfg timestamp requestHash tokenId origin epoch send index = some s') :
    (s'.accountPut k (.token t')).register = s.register.tether cfg tokenId send.destination := by
  obtain ⟨hnone,hregister⟩ := applySend_token_register htoken h
  have hsame : s1.standing = s.standing := congrArg Register.standing hs
  have hne : k ≠ send.destination := by
    rintro rfl
    rw [hsame,← hstanding] at hnone
    cases hnone
  rw [hs] at hregister
  refine register_finish hregister ?_
  rw [Register.standing_tether_of_ne hne]
  exact Eq.trans (by rw [Account.standing,hsettings]; rfl) hstanding

theorem applyBody_register (hself : (r.validate cfg).Accepts ())
    (hstanding : info.standing = s.standing r.getAccount)
    (htoken : r.body.administered.isSome = true → ∃ t,info = .token t)
    (hissue : ∀ i,r.body = .issuance i → r.origin ≠ i.tokenId)
    (h : s.applyBody cfg r timestamp epoch info = some (info',deposits,s')) :
    (s'.accountPut r.getAccount info').register = r.body.record cfg s.register := by
  have hne : ∀ tokenId ∈ r.body.tokenId,tokenId ≠ 0 := fun _ => r.tokenId_ne_zero hself
  cases applied_of_applyBody h with
  | send hbody hset hsends =>
    rw [hbody]
    obtain ⟨hregister,hsame⟩ := setBalance_register hset
    exact register_finish ((applySends_logos_register hsends).trans hregister)
      (hsame.trans hstanding)
  | issuance hbody hissued =>
    rw [hbody]
    refine register_finish (issue_register hissued) ?_
    have haccount : r.getAccount = r.origin := by
      simp [Request.getAccount,hbody,Body.administered]
    rw [hstanding,haccount]
    simp [Body.record,Register.issue,hissue _ hbody]
    rfl
  | revoke hbody hrevoke hsend =>
    rw [hbody]
    obtain ⟨t0,rfl⟩ := htoken (by rw [hbody]; rfl)
    exact register_payout (hne _ (by rw [hbody]; rfl)) hstanding (revokeFrom_register hrevoke) rfl
      hsend
  | adjustUserStatus hbody hadjust =>
    rw [hbody]
    obtain ⟨t,rfl⟩ := htoken (by rw [hbody]; rfl)
    refine register_finish (adjustUserStatus_register hadjust) ?_
    rw [hstanding]
    symm
    apply Register.standing_adjust_of_token
    show (s.standing r.getAccount).1 = _
    rw [← hstanding]
    rfl
  | payout hbody hupdate hsend =>
    rcases hbody with hbody | hbody
    all_goals
      rw [hbody] at hupdate ⊢
      cases hupdate
      exact register_payout (hne _ (by rw [hbody]; rfl)) hstanding rfl rfl hsend
  | withdrawLogos hbody hsend =>
    rw [hbody]
    exact register_finish (applySend_logos_register hsend) hstanding
  | tokenSend hbody hsend =>
    rw [hbody]
    obtain ⟨hregister,hsame,hentry⟩ := sendTokens_register (hne _ (by rw [hbody]; rfl)) hsend
    refine register_finish hregister ?_
    rw [hsame,hstanding]
    symm
    apply Register.standing_tethers_of_isSome
    rw [hstanding] at hentry
    exact hentry
  | claim hbody hclaim =>
    rw [hbody]
    obtain ⟨hregister,hsame⟩ := claim_register hclaim
    exact register_finish hregister (hsame.trans hstanding)
  | unknown hbody =>
    rw [hbody]
    exact register_finish rfl hstanding
  | update hkind hupdate =>
    refine register_update hstanding ?_ hkind hupdate
    cases hbody : r.body <;> simp_all [Request.getAccount,Body.administered,Body.updatesToken]
  | govern hkind hrun =>
    have hsame : r.body.record cfg s.register = s.register := by
      cases hbody : r.body <;> rw [hbody] at hkind <;> cases hkind <;> rfl
    rw [hsame]
    have hentries := (result_runGov (restaked_applyGovernance ..) hrun).entries
    exact register_finish (register_runGov hrun)
      ((Account.standing_user_of_entries hentries).trans hstanding)

/-- A processed request was passed over, or the register changed as the request records it. -/
theorem process_register {i : Submission H} (h : s.process cfg i = some (s',deposits)) :
    (¬s.Adopts cfg i ∧ s'.register = s.register) ∨ ∃ info,s.Adopts cfg i ∧
      s.accounts.lookup i.request.getAccount = some info ∧
      (i.request.validate cfg).Accepts () ∧
      (s.validateBody cfg i.request info i.epoch).Accepts () ∧
      s'.register = i.request.body.record cfg s.register := by
  rcases process_split h with ⟨hnot,rfl | rfl,-⟩ | ⟨info,info1,info2,s1,s2,hadopts,hself,hlookup,-,
    hbody,hbegin,happly,rfl⟩
  · exact .inl ⟨hnot,rfl⟩
  · exact .inl ⟨hnot,rfl⟩
  · refine .inr ⟨info,hadopts,hlookup,hself,hbody,?_⟩
    obtain ⟨hregister,hsame⟩ := beginRequest_register hbegin
    have hstanding : s1.standing = s.standing := congrArg Register.standing hregister
    have hinfo : info1.standing = s1.standing i.request.getAccount := by
      rw [hsame,hstanding,standing_of_lookup hlookup]
    rw [applyBody_register hself hinfo ?_ ?_ happly,hregister]
    · rfl
    · intro hadmin
      obtain ⟨t,rfl,-⟩ := accepted_authorizes hbody hadmin
      exact Account.eq_token_of_standing hsame
    · intro issuance hissuance heq
      rw [validateBody,hissuance] at hbody
      have habsent : issuance.tokenId ∉ s.accounts := Check.accepts_require.mp hbody
      have haccount : i.request.getAccount = issuance.tokenId := by
        simp [Request.getAccount,hissuance,Body.administered,heq]
      rw [haccount] at hlookup
      exact habsent (AList.lookup_isSome.mp (by simp [hlookup]))

end Process

end Store
end LogosCore.Ledger

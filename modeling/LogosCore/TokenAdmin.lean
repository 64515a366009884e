import LogosCore.Effects

/-! # The authority over a token

An administrative request is made by a controller of the token account. Which privilege it takes and
which settings have to be on is said here once for all kinds of requests, and the checks of the code
are compared with it. -/
namespace LogosCore.Ledger

open Check
open TokenAccount (getController)

variable {H : Type} [DecidableEq H] [Zero H]

def TokenSetting.privilege : TokenSetting → Option ControllerPrivilege
  | issuance => some .changeIssuance
  | modifyIssuance => some .changeModifyIssuance
  | revoke => some .changeRevoke
  | modifyRevoke => some .changeModifyRevoke
  | freeze => some .changeFreeze
  | modifyFreeze => some .changeModifyFreeze
  | adjustFee => some .changeAdjustFee
  | modifyAdjustFee => some .changeModifyAdjustFee
  | whitelist => some .changeWhitelist
  | modifyWhitelist => some .changeModifyWhitelist
  | unknown => none

/-- The privilege to set a status, and the setting that makes it matter. -/
def UserStatus.authority : UserStatus → Option (ControllerPrivilege × TokenSetting)
  | frozen => some (.freeze,.freeze)
  | unfrozen => some (.freeze,.freeze)
  | whitelisted => some (.whitelist,.whitelist)
  | notWhitelisted => some (.whitelist,.whitelist)
  | unknown => none

namespace Body

/-- The privilege that an administrative request takes. -/
def privilege : Body H → Option ControllerPrivilege
  | issueAdditional _ _ => some .issuance
  | changeSetting _ setting _ => setting.privilege
  | immuteSetting _ setting => setting.getMutabilitySetting.bind (·.privilege)
  | revoke _ _ _ => some .revoke
  | adjustUserStatus _ _ status => status.authority.map Prod.fst
  | adjustFee _ _ _ => some .adjustFee
  | updateIssuerInfo _ _ => some .updateIssuerInfo
  | updateController _ _ _ => some .updateController
  | burn _ _ => some .burn
  | distribute _ _ => some .distribute
  | withdrawFee _ _ => some .withdrawFee
  | withdrawLogos _ _ => some .withdrawLogos
  | _ => none

/-- The setting that an administrative request needs. -/
def needs : Body H → Option TokenSetting
  | issueAdditional _ _ => some .issuance
  | changeSetting _ setting value => setting.getMutabilitySetting.or
      (if value = .disabled then none else some setting)
  | revoke _ _ _ => some .revoke
  | adjustUserStatus _ _ status => status.authority.map Prod.snd
  | adjustFee _ _ _ => some .adjustFee
  | _ => none

end Body

theorem ControllerInfo.isAuthorizedSetting_iff (c : ControllerInfo H) (s : TokenSetting) :
    c.isAuthorizedSetting s = true ↔ ∃ p ∈ s.privilege,c.has p = true := by
  cases s <;> simp [isAuthorizedSetting,TokenSetting.privilege]

theorem ControllerInfo.isAuthorized_iff (c : ControllerInfo H) (b : Body H) :
    c.isAuthorized b = some true ↔ ∃ p ∈ b.privilege,c.has p = true := by
  cases b with
  | changeSetting tokenId setting value =>
    simp [isAuthorized,Body.privilege,isAuthorizedSetting_iff]
  | immuteSetting tokenId setting =>
    cases hm : setting.getMutabilitySetting <;>
      simp [isAuthorized,Body.privilege,isAuthorizedSetting_iff,hm]
  | adjustUserStatus tokenId account status =>
    cases status <;> simp [isAuthorized,Body.privilege,isAuthorizedStatus,UserStatus.authority]
  | _ => simp [isAuthorized,Body.privilege]

theorem TokenAccount.allowed_of_isAllowed {t : TokenAccount H} {b : Body H}
    (h : t.isAllowed b = true) : ∀ s ∈ b.needs,t.allowed s = true := by
  cases b with
  | changeSetting tokenId setting value =>
    cases setting <;> cases value <;>
      simp_all [isAllowed,isAllowedChange,Body.needs,TokenSetting.getMutabilitySetting]
  | adjustUserStatus tokenId account status =>
    cases status <;> simp_all [isAllowed,isAllowedStatus,Body.needs,UserStatus.authority]
  | _ => simp_all [isAllowed,Body.needs]

/-- The sender is a controller with the privilege for the request, and the settings permit it. -/
structure TokenAccount.Authorizes (t : TokenAccount H) (r : Request H) : Prop where
  controller : ∃ c ∈ t.controllers,c.account = r.origin ∧ ∃ p ∈ r.body.privilege,c.has p = true
  settings : ∀ s ∈ r.body.needs,t.allowed s = true

variable {cfg : Config H} {t : TokenAccount H} {r : Request H}

theorem not_isAuthorized_default (b : Body H) :
    (⟨0,0⟩ : ControllerInfo H).isAuthorized b ≠ some true := by
  rw [Ne,ControllerInfo.isAuthorized_iff]
  rintro ⟨p,-,hp⟩
  simp [ControllerInfo.has,BitField.get] at hp

/-- An account without controllers authorizes nothing, whatever the flag of the search was. -/
theorem authorizes_of_accepts
    (h : (Store.validateTokenAdminRequest cfg r (.token t)).Accepts ()) : t.Authorizes r := by
  obtain ⟨token,htoken,h⟩ := accepts_found_bind.mp h
  cases htoken
  obtain ⟨c,hc,h⟩ := accepts_found_bind.mp h
  obtain ⟨authorized,hauthorized,h⟩ := accepts_attempt_bind.mp h
  obtain ⟨hyes,h⟩ := accepts_require_bind.mp h
  obtain ⟨hallowed,-⟩ := accepts_require_bind.mp h
  subst hyes
  refine ⟨⟨c,?_,?_,(c.isAuthorized_iff r.body).mp hauthorized⟩,t.allowed_of_isAllowed hallowed⟩
  all_goals
    unfold getController at hc
    split_ifs at hc
    · cases hc
      exact absurd hauthorized (not_isAuthorized_default r.body)
  · exact List.mem_of_find?_eq_some hc
  · simpa using List.find?_some hc

/-- The request is to fix a setting that no mutability setting belongs to. -/
def Body.fixesNothing : Body H → Bool
  | immuteSetting _ setting => setting.getMutabilitySetting.isNone
  | _ => false

theorem ControllerInfo.isAuthorized_eq_none_iff (c : ControllerInfo H) (b : Body H) :
    c.isAuthorized b = none ↔ b.fixesNothing = true := by
  cases b <;> simp [isAuthorized,Body.fixesNothing]

/-- What is checked once the controller was found to have the privilege. -/
def remainingCheck (cfg : Config H) (r : Request H) (t : TokenAccount H) : Validation Unit := do
  require (t.isAllowed r.body) .prohibittedRequest
  match r.body with
  | .revoke _ _ _ => pure ()
  | _ => r.validateAgainst cfg (.token t)

theorem ends_remainingCheck (hadmin : r.body.administered.isSome = true) :
    (remainingCheck cfg r t).Ends := by
  refine ends_bind ends_require fun _ _ => ?_
  cases hbody : r.body with
  | updateController tokenId action controller =>
    simp only [Request.validateAgainst,hbody]
    refine ends_bind (ends_attempt.mpr rfl) fun _ _ => ?_
    cases action <;> simp
  | withdrawLogos tokenId transaction =>
    simp only [Request.validateAgainst,hbody]
    refine ends_bind ?_ fun _ _ => ends_bind (ends_attempt.mpr rfl) fun _ _ => ends_require
    refine ends_bind ends_require fun _ _ => ends_bind ends_require fun _ _ => ?_
    cases r.body.tokenId <;> simp
  | tokenSend tokenId transactions tokenFee => simp [hbody,Body.administered] at hadmin
  | revoke tokenId source transaction => simp
  | _ =>
    simp only [Request.validateAgainst,hbody]
    first
    | exact ends_pure
    | exact ends_bind (ends_attempt.mpr rfl) fun _ _ => ends_require

/-- The search of a list that is not empty assigns its flag. -/
theorem remainingCheck_flag (hadmin : r.body.administered.isSome = true)
    (hne : t.controllers ≠ []) (flag : Bool) :
    remainingCheck { cfg with uninitialized := flag } r t = remainingCheck cfg r t := by
  unfold remainingCheck
  cases hbody : r.body with
  | updateController tokenId action controller =>
    simp [Request.validateAgainst,hbody,Account.asToken,getController,hne]
  | tokenSend tokenId transactions tokenFee => simp [hbody,Body.administered] at hadmin
  | _ => simp [Request.validateAgainst,hbody]

/-- The outcome is the same whatever the flag of the search was before it was assigned. -/
def Determined (cfg : Config H) (r : Request H) (t : TokenAccount H) : Prop :=
  ∃ outcome,∀ flag,
    (Store.validateTokenAdminRequest { cfg with uninitialized := flag } r (.token t)).run =
      some outcome

/-- The code may come to check the privilege for a mutability setting that does not exist. -/
def TokenAccount.Misses (t : TokenAccount H) (r : Request H) : Prop :=
  r.body.fixesNothing = true ∧ (t.controllers = [] ∨ (t.findController r.origin).isSome = true)

theorem run_admin_none (hc : t.getController cfg.uninitialized r.origin = none) :
    (Store.validateTokenAdminRequest cfg r (.token t)).run =
      some (.error .unauthorizedRequest) := by
  simp only [Store.validateTokenAdminRequest,Account.asToken,found_some_bind,hc,run_found_none_bind]

theorem admin_found {c : ControllerInfo H}
    (hc : t.getController cfg.uninitialized r.origin = some c) {authorized : Bool}
    (hauthorized : c.isAuthorized r.body = some authorized) :
    Store.validateTokenAdminRequest cfg r (.token t) = (do
      require authorized .unauthorizedRequest
      remainingCheck cfg r t) := by
  simp only [Store.validateTokenAdminRequest,Account.asToken,hc,hauthorized,found_some_bind,
    attempt_some_bind]
  rfl

theorem run_admin_unauthorized {c : ControllerInfo H}
    (hc : t.getController cfg.uninitialized r.origin = some c)
    (hauthorized : c.isAuthorized r.body = some false) :
    (Store.validateTokenAdminRequest cfg r (.token t)).run =
      some (.error .unauthorizedRequest) := by
  rw [admin_found hc hauthorized]
  rfl

theorem isAuthorized_default {b : Body H} (h : b.fixesNothing ≠ true) :
    (⟨0,0⟩ : ControllerInfo H).isAuthorized b = some false := by
  have hyes := not_isAuthorized_default b
  have hnone := mt (ControllerInfo.isAuthorized_eq_none_iff ⟨0,0⟩ b).mp h
  cases hb : (⟨0,0⟩ : ControllerInfo H).isAuthorized b with
  | none => exact absurd hb hnone
  | some authorized => cases authorized <;> simp_all

theorem determined_of_empty (hnil : t.controllers = []) (h : r.body.fixesNothing ≠ true) :
    Determined cfg r t := by
  refine ⟨.error .unauthorizedRequest,fun flag => ?_⟩
  cases flag with
  | false =>
    apply run_admin_none
    simp [getController,hnil]
  | true =>
    apply run_admin_unauthorized (c := ⟨0,0⟩) _ (isAuthorized_default h)
    simp [getController,hnil]

theorem determined_of_controller (hadmin : r.body.administered.isSome = true)
    (hne : t.controllers ≠ []) {c : ControllerInfo H} (hc : t.findController r.origin = some c)
    (h : r.body.fixesNothing ≠ true) : Determined cfg r t := by
  obtain ⟨authorized,hauthorized⟩ := Option.ne_none_iff_exists'.mp
    (mt (c.isAuthorized_eq_none_iff r.body).mp h)
  have hends : (do
      require authorized ProcessResult.unauthorizedRequest
      remainingCheck cfg r t : Validation Unit).Ends :=
    ends_bind ends_require fun _ _ => ends_remainingCheck hadmin
  obtain ⟨outcome,houtcome⟩ := Option.isSome_iff_exists.mp hends
  refine ⟨outcome,fun flag => ?_⟩
  rw [admin_found (by simpa [getController,hne] using hc) hauthorized,
    remainingCheck_flag hadmin hne]
  exact houtcome

theorem determined_iff (hadmin : r.body.administered.isSome = true) :
    Determined cfg r t ↔ ¬t.Misses r := by
  constructor
  · rintro ⟨outcome,houtcome⟩ ⟨hnothing,hreached⟩
    -- with the flag set the search finds a controller in both cases
    obtain ⟨c,hc⟩ : ∃ c,t.getController true r.origin = some c := by
      by_cases hnil : t.controllers = []
      · simp [getController,hnil]
      · simpa [getController,hnil] using
          Option.isSome_iff_exists.mp (hreached.resolve_left hnil)
    have hrun := houtcome true
    have hnone := (c.isAuthorized_eq_none_iff r.body).mpr hnothing
    simp only [Store.validateTokenAdminRequest,Account.asToken,found_some_bind,hc,hnone,
      run_attempt_none_bind] at hrun
    cases hrun
  · intro hmisses
    by_cases hnil : t.controllers = []
    · exact determined_of_empty hnil fun h => hmisses ⟨h,.inl hnil⟩
    · cases hc : t.findController r.origin with
      | none =>
        refine ⟨.error .unauthorizedRequest,fun flag => run_admin_none ?_⟩
        simpa [getController,hnil] using hc
      | some c =>
        exact determined_of_controller hadmin hnil hc fun h => hmisses ⟨h,.inr (by simp [hc])⟩

section Sample

def controlledSample (privileges : BitField) : TokenAccount ℕ :=
  TokenAccount.ofIssuance ⟨9,[],[],100,.flat,0,0x3ff,[⟨1,privileges⟩],[]⟩

def fixSample (setting : TokenSetting) : Request ℕ :=
  ⟨1,0,0x21e19e0c9bab2400000,0,0,7,.immuteSetting 9 setting⟩

end Sample
end LogosCore.Ledger

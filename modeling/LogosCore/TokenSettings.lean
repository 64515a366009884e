import LogosCore.TokenRegister

/-! # Settings that cannot change any more

Every basic setting of a token account has a mutability setting. Once this is off it stays off, and
the basic setting stays as it is, whatever requests are processed. -/
namespace LogosCore.Ledger

open Body (administered record)

variable {H : Type} [DecidableEq H] [Zero H] {cfg : Config H}

theorem BitField.get_set (b : BitField) {pos : ℕ} (hpos : pos < 32) (value : Bool) (i : ℕ) :
    BitField.get (BitField.set b pos value) i = if i = pos then value else BitField.get b i := by
  have hone : (1#32 <<< pos).getLsbD i = decide (i = pos) := by
    by_cases hi : i < pos
    · simp [hi,Nat.ne_of_lt hi]
    · by_cases heq : i = pos
      · simp [heq,hpos]
      · have hsub : i - pos ≠ 0 := by omega
        simp [heq,hsub]
  cases value with
  | true =>
    simp only [get,set,if_true,BitVec.getLsbD_or,hone]
    by_cases hi : i = pos <;> simp [hi]
  | false =>
    simp only [get,set,Bool.false_eq_true,if_false,BitVec.getLsbD_and,BitVec.getLsbD_not,hone]
    by_cases hi : i = pos
    · simp [hi]
    · by_cases hlt : i < 32
      · simp [hi,hlt]
      · simp [hi,hlt,BitVec.getLsbD_of_ge b i (by omega)]

theorem TokenSetting.ctorIdx_lt (s : TokenSetting) : s.ctorIdx < 32 := by
  cases s <;> decide

theorem TokenSetting.ctorIdx_inj {s s' : TokenSetting} : s.ctorIdx = s'.ctorIdx ↔ s = s' := by
  cases s <;> cases s' <;> decide

/-- Where a mutability setting was off it still is, and the setting that it governs is the same. -/
def Fixes (b b' : BitField) : Prop :=
  ∀ s m : TokenSetting,s.getMutabilitySetting = some m → BitField.get b m.ctorIdx = false →
    BitField.get b' m.ctorIdx = false ∧ BitField.get b' s.ctorIdx = BitField.get b s.ctorIdx

theorem Fixes.refl (b : BitField) : Fixes b b := fun _ _ _ hm => ⟨hm,rfl⟩

theorem Fixes.trans {b b' b'' : BitField} (h : Fixes b b') (h' : Fixes b' b'') : Fixes b b'' := by
  intro s m hsm hm
  obtain ⟨hm',hs⟩ := h s m hsm hm
  obtain ⟨hm'',hs'⟩ := h' s m hsm hm'
  exact ⟨hm'',hs'.trans hs⟩

/-- Switching off a mutability setting. -/
theorem fixes_set_false (b : BitField) {s m : TokenSetting} (hm : s.getMutabilitySetting = some m) :
    Fixes b (BitField.set b m.ctorIdx false) := by
  intro s' m' hm' hoff
  have hne : s' ≠ m := by
    rintro rfl
    cases s <;> cases hm <;> cases hm'
  simp only [BitField.get_set b m.ctorIdx_lt,TokenSetting.ctorIdx_inj,hne,if_false,and_true]
  split <;> simp_all

namespace TokenAccount

variable {t t' : TokenAccount H} {b : Body H}

/-- A basic setting changes only while its mutability setting is on, for good. -/
theorem fixes_change {setting : TokenSetting} {value : SettingValue}
    (h : t.isAllowedChange setting value = true) :
    Fixes t.settings (BitField.set t.settings setting.ctorIdx (value = .enabled)) := by
  intro s m hm hoff
  have hallowed : t.allowed m = false := hoff
  simp only [BitField.get_set t.settings setting.ctorIdx_lt,TokenSetting.ctorIdx_inj]
  by_cases hs : s = setting
  · subst hs
    cases s <;> cases hm <;> simp_all [isAllowedChange]
  · by_cases hmutability : m = setting
    · subst hmutability
      have hdisabled : value = .disabled := by
        cases s <;> cases hm <;> simp_all [isAllowedChange]
      simp [hs,hdisabled]
    · simp [hs,hmutability,hoff]

theorem fixes_settingsAfter (h : t.isAllowed b = true) : Fixes t.settings (t.settingsAfter b) := by
  cases b with
  | changeSetting tokenId setting value => exact fixes_change h
  | immuteSetting tokenId setting =>
    cases hm : setting.getMutabilitySetting with
    | none => simpa [settingsAfter,hm] using Fixes.refl t.settings
    | some m => simpa [settingsAfter,hm] using fixes_set_false t.settings hm
  | _ => exact .refl _

end TokenAccount

namespace Register

variable {g : Register H} {tokenId a b : H}

/-- Statuses are no settings. -/
theorem settings_tether : ((g.tether cfg tokenId a).standing b).2 = (g.standing b).2 := by
  unfold tether
  split
  · rfl
  · by_cases hb : b = a <;> simp [setStatus,hb]

theorem settings_tethers (ts : List (Transaction H)) :
    ((ts.foldl (fun g t => g.tether cfg tokenId t.destination) g).standing b).2 =
      (g.standing b).2 := by
  induction ts generalizing g with
  | nil => rfl
  | cons t ts ih => exact ih.trans settings_tether

theorem settings_adjust {status : UserStatus} :
    ((g.adjust cfg tokenId a status).standing b).2 = (g.standing b).2 := by
  unfold adjust
  split
  · by_cases hb : b = a <;> simp [setStatus,hb]
  · rfl

end Register

theorem settings_record {body : Body H} {g : Register H} {tokenId : H} {t : TokenAccount H}
    (hsettings : (g.standing tokenId).2 = some t.settings)
    (hissue : ∀ i,body = .issuance i → i.tokenId ≠ tokenId) :
    ((body.record cfg g).standing tokenId).2 =
      some (if body.administered = some tokenId then t.settingsAfter body else t.settings) := by
  cases body with
  | issuance i =>
    have hne := Ne.symm (hissue i rfl)
    simp [record,Register.issue,administered,hne,hsettings]
  | changeSetting tokenId' setting value =>
    by_cases h : tokenId' = tokenId
    · subst h
      simp [record,Register.setSetting,administered,TokenAccount.settingsAfter,hsettings]
    · simp [record,Register.setSetting,administered,h,Ne.symm h,hsettings]
  | immuteSetting tokenId' setting =>
    cases hm : setting.getMutabilitySetting with
    | none => simp [record,TokenAccount.settingsAfter,hm,hsettings]
    | some m =>
      by_cases h : tokenId' = tokenId
      · subst h
        simp [record,Register.setSetting,administered,TokenAccount.settingsAfter,hm,hsettings]
      · simp [record,Register.setSetting,administered,hm,h,Ne.symm h,hsettings]
  | revoke tokenId' source t' =>
    simp [record,TokenAccount.settingsAfter,Register.settings_tether,hsettings]
  | adjustUserStatus tokenId' a status =>
    simp [record,TokenAccount.settingsAfter,Register.settings_adjust,hsettings]
  | distribute tokenId' t' =>
    simp [record,TokenAccount.settingsAfter,Register.settings_tether,hsettings]
  | withdrawFee tokenId' t' =>
    simp [record,TokenAccount.settingsAfter,Register.settings_tether,hsettings]
  | tokenSend tokenId' ts tokenFee =>
    simp [record,TokenAccount.settingsAfter,Register.settings_tethers,hsettings]
  | _ => simp [record,TokenAccount.settingsAfter,hsettings]

namespace Store

variable {s s' : Store H} {tokenId : H} {t : TokenAccount H} {deposits : List Amount}

theorem settings_of_lookup (h : s.accounts.lookup tokenId = some (.token t)) :
    (s.standing tokenId).2 = some t.settings := by
  rw [standing_of_lookup h]
  rfl

theorem lookup_of_settings {b : BitField} (h : (s.standing tokenId).2 = some b) :
    ∃ t,s.accounts.lookup tokenId = some (.token t) ∧ t.settings = b := by
  unfold standing at h
  cases hlookup : s.accounts.lookup tokenId with
  | none => simp [hlookup] at h
  | some a =>
    cases a with
    | user u => simp [hlookup,Account.standing] at h
    | token t => exact ⟨t,rfl,by simpa [hlookup,Account.standing] using h⟩

/-- One request. -/
theorem process_fixes {i : Submission H} (ht : s.accounts.lookup tokenId = some (.token t))
    (h : s.process cfg i = some (s',deposits)) :
    ∃ t',s'.accounts.lookup tokenId = some (.token t') ∧ Fixes t.settings t'.settings := by
  have hsettings := settings_of_lookup ht
  rcases process_register h with ⟨-,hsame⟩ | ⟨info,-,hlookup,-,hbody,hrecord⟩
  · have hstanding : s'.standing = s.standing := congrArg Register.standing hsame
    rw [← hstanding] at hsettings
    obtain ⟨t',ht',heq⟩ := lookup_of_settings hsettings
    exact ⟨t',ht',heq ▸ .refl _⟩
  · have hissue : ∀ issuance,i.request.body = .issuance issuance → issuance.tokenId ≠ tokenId := by
      rintro issuance hissuance rfl
      rw [validateBody,hissuance] at hbody
      exact Check.accepts_require.mp hbody (AList.lookup_isSome.mp (by simp [ht]))
    have hstanding : s'.standing = (i.request.body.record cfg s.register).standing :=
      congrArg Register.standing hrecord
    have hafter : ((i.request.body.record cfg s.register).standing tokenId).2 = _ :=
      settings_record hsettings hissue
    rw [← hstanding] at hafter
    obtain ⟨t',ht',heq⟩ := lookup_of_settings hafter
    refine ⟨t',ht',?_⟩
    rw [heq]
    split
    · next hadmin =>
      obtain ⟨t0,rfl,hallowed⟩ := accepted_authorizes hbody (by simp [hadmin])
      have haccount : i.request.getAccount = tokenId := by simp [Request.getAccount,hadmin]
      rw [haccount] at hlookup
      cases ht.symm.trans hlookup
      exact TokenAccount.fixes_settingsAfter hallowed
    · exact .refl _

theorem exec_fixes {steps : List (Submission H)} (ht : s.accounts.lookup tokenId = some (.token t))
    (h : Machine.exec (process cfg) s steps = some (s',deposits)) :
    ∃ t',s'.accounts.lookup tokenId = some (.token t') ∧ Fixes t.settings t'.settings :=
  Machine.exec_preserves (P := fun _ _ => True)
    (I := fun _ s => ∃ t',s.accounts.lookup tokenId = some (.token t') ∧
      Fixes t.settings t'.settings)
    (fun _ _ _ _ _ hbefore _ hstep => by
      obtain ⟨t1,ht1,hfixes⟩ := hbefore
      obtain ⟨t2,ht2,hfixes'⟩ := process_fixes ht1 hstep
      exact ⟨t2,ht2,hfixes.trans hfixes'⟩)
    ⟨t,ht,.refl _⟩ (Machine.along_true s steps) h

/-- What would change a fixed setting is turned down. -/
theorem rejects_of_not_fixes {i : Submission H} {t' : TokenAccount H}
    (ht : s.accounts.lookup i.request.getAccount = some (.token t))
    (hhead : i.request.previous = t.head) (hadmin : i.request.body.administered.isSome)
    (hupdate : t.update i.request.body = some t') (h : ¬Fixes t.settings t'.settings) :
    ¬(s.validateRequest cfg i false).Accepts () := by
  intro hvalid
  apply h
  obtain ⟨t0,heq,hallowed⟩ := accepted_authorizes (accepted_at_head hvalid ht hhead).2.2 hadmin
  cases heq
  rw [TokenAccount.settings_of_update hupdate]
  exact TokenAccount.fixes_settingsAfter hallowed

/-- What was fixed in a token account stays fixed, and a request to change it is turned down. -/
theorem exec_immutable {steps : List (Submission H)}
    (ht : s.accounts.lookup tokenId = some (.token t))
    (h : Machine.exec (process cfg) s steps = some (s',deposits)) :
    ∃ t',s'.accounts.lookup tokenId = some (.token t') ∧ Fixes t.settings t'.settings ∧
      ∀ (i : Submission H) (t'' : TokenAccount H),i.request.body.administered = some tokenId →
        i.request.previous = t'.head → t'.update i.request.body = some t'' →
        ¬Fixes t'.settings t''.settings → ¬(s'.validateRequest cfg i false).Accepts () := by
  obtain ⟨t',ht',hfixes⟩ := exec_fixes ht h
  refine ⟨t',ht',hfixes,fun i t'' hadmin hhead hupdate hnot => ?_⟩
  apply rejects_of_not_fixes _ hhead (by simp [hadmin]) hupdate hnot
  rw [← ht',Request.getAccount,hadmin]
  rfl

section Sample

/-- A ledger with account 1 and the token account 9, whose tokens can be revoked for ever. -/
def settingsSample : Store ℕ :=
  Store.sample.accountPut 9 (.token
    { controlledSample (BitVec.allOnes 32) with balance := 2 ^ 100,settings := 0x3f7 })

def settingsRequest (sequence : BitVec 32) (previous : ℕ) (body : Body ℕ) : Submission ℕ where
  request := ⟨1,previous,0x21e19e0c9bab2400000,sequence,0,7,body⟩
  epoch := 5
  timestamp := 9
  canAcquire _ _ := true
  allowDuplicates := true

/-- Another setting is changed, then a change of the fixed one is turned down. -/
theorem exec_immutable_sample : ∃ s' deposits t',
    Machine.exec (process Config.sample) settingsSample
        [settingsRequest 0 0 (.changeSetting 9 .freeze .disabled)] = some (s',deposits) ∧
      s'.accounts.lookup 9 = some (.token t') ∧ t'.allowed .revoke = true ∧
      ¬(s'.validateRequest Config.sample
        (settingsRequest 1 t'.head (.changeSetting 9 .revoke .disabled)) false).Accepts () := by
  have hsome : (Machine.exec (process Config.sample) settingsSample
      [settingsRequest 0 0 (.changeSetting 9 .freeze .disabled)]).isSome := by
    decide +kernel
  obtain ⟨⟨s',deposits⟩,h⟩ := Option.isSome_iff_exists.mp hsome
  have hlookup : settingsSample.accounts.lookup 9 = some (.token
      { controlledSample (BitVec.allOnes 32) with balance := 2 ^ 100,settings := 0x3f7 }) := rfl
  obtain ⟨t',ht',hfixes,hrejects⟩ := exec_immutable hlookup h
  obtain ⟨hmutability,hrevoke⟩ := hfixes .revoke .modifyRevoke rfl (by decide)
  have hallowed : t'.allowed .revoke = true := hrevoke.trans (by decide)
  refine ⟨s',deposits,t',h,ht',hallowed,hrejects _ _ rfl rfl rfl ?_⟩
  intro hchange
  have hsame := (hchange .revoke .modifyRevoke rfl hmutability).2
  have hoff : BitField.get (BitField.set t'.settings TokenSetting.revoke.ctorIdx false)
      TokenSetting.revoke.ctorIdx = false := by
    simp [BitField.get_set t'.settings TokenSetting.revoke.ctorIdx_lt]
  exact absurd (hallowed.symm.trans (hsame.symm.trans hoff)) (by decide)

end Sample

end Store
end LogosCore.Ledger

import LogosCore.Rational

/-! # Accounts

The two kinds of account the ledger keeps under one key space: user accounts, which hold
Logos and entries of tokens, and token accounts, which hold Logos and the undistributed
part of one token. Addresses and hashes share the type `H`. -/
namespace LogosCore.Ledger

abbrev Amount := BitVec 128

abbrev Epoch := BitVec 32

inductive TokenSetting
  | issuance | modifyIssuance | revoke | modifyRevoke | freeze | modifyFreeze | adjustFee
  | modifyAdjustFee | whitelist | modifyWhitelist | unknown
deriving DecidableEq,Repr

inductive SettingValue
  | disabled | enabled
deriving DecidableEq,Repr

inductive TokenFeeType
  | percentage | flat | unknown
deriving DecidableEq,Repr

inductive ControllerAction
  | add | remove | unknown
deriving DecidableEq,Repr

inductive UserStatus
  | frozen | unfrozen | whitelisted | notWhitelisted | unknown
deriving DecidableEq,Repr

inductive ControllerPrivilege
  | changeIssuance | changeModifyIssuance | changeRevoke | changeModifyRevoke | changeFreeze
  | changeModifyFreeze | changeAdjustFee | changeModifyAdjustFee | changeWhitelist
  | changeModifyWhitelist | issuance | revoke | freeze | adjustFee | whitelist
  | updateIssuerInfo | updateController | burn | distribute | withdrawFee | withdrawLogos
  | unknown
deriving DecidableEq,Repr

/-- Settings and privileges are 32-bit fields indexed by the position of the enumerator. -/
abbrev BitField := BitVec 32

def BitField.get (b : BitField) (pos : ℕ) : Bool := b.getLsbD pos

def BitField.set (b : BitField) (pos : ℕ) (value : Bool) : BitField :=
  if value then b ||| (1#32 <<< pos) else b &&& ~~~(1#32 <<< pos)

namespace TokenSetting

/-- The setting that says whether the given one may still change, if any. -/
def getMutabilitySetting : TokenSetting → Option TokenSetting
  | issuance => some modifyIssuance
  | revoke => some modifyRevoke
  | freeze => some modifyFreeze
  | adjustFee => some modifyAdjustFee
  | whitelist => some modifyWhitelist
  | _ => none

def isMutabilitySetting (s : TokenSetting) : Bool := s.ctorIdx % 2 = 1

end TokenSetting

structure TokenUserStatus where
  whitelisted : Bool
  frozen : Bool
deriving DecidableEq,Repr

def TokenUserStatus.default : TokenUserStatus := ⟨false,false⟩

variable {H : Type}

structure TokenEntry (H : Type) where
  tokenId : H
  status : TokenUserStatus
  balance : Amount
deriving DecidableEq,Repr

structure ControllerInfo (H : Type) where
  account : H
  privileges : BitField
deriving DecidableEq,Repr

structure RepRecord (H : Type) where
  rep : H
  epochFirstActive : Epoch
deriving DecidableEq,Repr

/-- What every account has: its request chain, its receive chain and its Logos. -/
structure AccountBase (H : Type) where
  head : H
  blockCount : BitVec 32
  receiveHead : H
  receiveCount : BitVec 32
  balance : Amount
deriving DecidableEq,Repr

structure AccountInfo (H : Type) extends AccountBase H where
  availableBalance : Amount
  governanceSubchainHead : H
  oldRep : RepRecord H
  newRep : RepRecord H
  openBlock : H
  entries : List (TokenEntry H)
  epochThawingUpdated : Epoch
  epochSecondaryLiabilitiesUpdated : Epoch
  claimEpoch : Epoch
  dust : Rational
deriving DecidableEq,Repr

structure TokenAccount (H : Type) extends AccountBase H where
  totalSupply : Amount
  tokenBalance : Amount
  tokenFeeBalance : Amount
  feeType : TokenFeeType
  feeRate : Amount
  symbol : List UInt8
  name : List UInt8
  issuerInfo : List UInt8
  controllers : List (ControllerInfo H)
  settings : BitField
  issuanceRequest : H
deriving DecidableEq,Repr

inductive Account (H : Type)
  | user (info : AccountInfo H)
  | token (info : TokenAccount H)
deriving DecidableEq,Repr

namespace Account

def base : Account H → AccountBase H
  | user info => info.toAccountBase
  | token info => info.toAccountBase

def withBase (b : AccountBase H) : Account H → Account H
  | user info => user { info with toAccountBase := b }
  | token info => token { info with toAccountBase := b }

def balance (a : Account H) : Amount := a.base.balance

/-- A token account may spend its whole balance, a user account what is not staked. -/
def availableBalance : Account H → Amount
  | user info => info.availableBalance
  | token info => info.balance

def asUser : Account H → Option (AccountInfo H)
  | user info => some info
  | token _ => none

def asToken : Account H → Option (TokenAccount H)
  | user _ => none
  | token info => some info

@[simp] theorem base_withBase (b : AccountBase H) (a : Account H) : (a.withBase b).base = b := by
  cases a <;> rfl

theorem asUser_eq_some {a : Account H} {info : AccountInfo H} :
    a.asUser = some info ↔ a = user info := by
  cases a <;> simp [asUser]

theorem asToken_eq_some {a : Account H} {info : TokenAccount H} :
    a.asToken = some info ↔ a = token info := by
  cases a <;> simp [asToken]

end Account

section Zero
variable [Zero H]

def AccountBase.default : AccountBase H := ⟨0,0,0,0,0⟩

def AccountInfo.default : AccountInfo H where
  toAccountBase := .default
  availableBalance := 0
  governanceSubchainHead := 0
  oldRep := ⟨0,0⟩
  newRep := ⟨0,0⟩
  openBlock := 0
  entries := []
  epochThawingUpdated := 0
  epochSecondaryLiabilitiesUpdated := 0
  claimEpoch := 0
  dust := .zero

def TokenEntry.default : TokenEntry H := ⟨0,.default,0⟩

end Zero

section Lookup
variable [DecidableEq H]

namespace AccountInfo

def findEntry (info : AccountInfo H) (tokenId : H) : Option (TokenEntry H) :=
  info.entries.find? (·.tokenId = tokenId)

/-- `GetEntry` reports through a flag that only the search assigns: with no entry at all it keeps
the value `uninitialized`, and the entry is the default one. -/
def getEntry [Zero H] (uninitialized : Bool) (info : AccountInfo H) (tokenId : H) :
    Option (TokenEntry H) :=
  if info.entries = [] then if uninitialized then some .default else none
  else info.findEntry tokenId

def updateEntry (info : AccountInfo H) (tokenId : H) (f : TokenEntry H → TokenEntry H) :
    AccountInfo H :=
  { info with
    entries := match info.entries.findIdx? (·.tokenId = tokenId) with
      | some i => info.entries.modify i f
      | none => info.entries }

/-- The representative of an epoch. The code asserts that the older record is active. -/
def getRepForEpoch [Zero H] (info : AccountInfo H) (epoch : Epoch) : Option H :=
  if info.newRep.rep ≠ 0 ∧ info.newRep.epochFirstActive ≤ epoch then some info.newRep.rep
  else if info.oldRep.epochFirstActive ≤ epoch then some info.oldRep.rep
  else none

end AccountInfo

namespace TokenAccount

def findController (t : TokenAccount H) (account : H) : Option (ControllerInfo H) :=
  t.controllers.find? (·.account = account)

/-- The counterpart of `AccountInfo.getEntry`, with the same unassigned flag. -/
def getController [Zero H] (uninitialized : Bool) (t : TokenAccount H) (account : H) :
    Option (ControllerInfo H) :=
  if t.controllers = [] then if uninitialized then some ⟨0,0⟩ else none
  else t.findController account

end TokenAccount
end Lookup

namespace TokenAccount

def maxControllers : ℕ := 10

def allowed (t : TokenAccount H) (s : TokenSetting) : Bool := BitField.get t.settings s.ctorIdx

def setSetting (t : TokenAccount H) (s : TokenSetting) (value : Bool) : TokenAccount H :=
  { t with settings := BitField.set t.settings s.ctorIdx value }

/-- The fee a transfer of `tokenTotal`, fee included, has to carry. -/
def minFee (t : TokenAccount H) (tokenTotal tokenFee : Amount) : Amount :=
  match t.feeType with
  | .flat => t.feeRate
  | .percentage => t.feeRate * (tokenTotal - tokenFee) / 100
  | .unknown => 0

def feeSufficient (t : TokenAccount H) (tokenTotal tokenFee : Amount) : Bool :=
  t.minFee tokenTotal tokenFee ≤ tokenFee

def isAllowedStatus (t : TokenAccount H) : UserStatus → Bool
  | .frozen | .unfrozen => t.allowed .freeze
  | .whitelisted | .notWhitelisted => t.allowed .whitelist
  | .unknown => false

/-- A basic setting may change while its mutability setting is on, which may be switched off. -/
def isAllowedChange (t : TokenAccount H) (s : TokenSetting) (v : SettingValue) : Bool :=
  match s with
  | .issuance => t.allowed .modifyIssuance
  | .revoke => t.allowed .modifyRevoke
  | .freeze => t.allowed .modifyFreeze
  | .adjustFee => t.allowed .modifyAdjustFee
  | .whitelist => t.allowed .modifyWhitelist
  | .unknown => false
  | modify => t.allowed modify || v = .disabled

end TokenAccount

namespace ControllerInfo

def has (c : ControllerInfo H) (p : ControllerPrivilege) : Bool :=
  BitField.get c.privileges p.ctorIdx

def isAuthorizedStatus (c : ControllerInfo H) : UserStatus → Bool
  | .frozen | .unfrozen => c.has .freeze
  | .whitelisted | .notWhitelisted => c.has .whitelist
  | .unknown => false

/-- The privileges to change a setting are numbered as the settings are. -/
def isAuthorizedSetting (c : ControllerInfo H) : TokenSetting → Bool
  | .issuance => c.has .changeIssuance
  | .modifyIssuance => c.has .changeModifyIssuance
  | .revoke => c.has .changeRevoke
  | .modifyRevoke => c.has .changeModifyRevoke
  | .freeze => c.has .changeFreeze
  | .modifyFreeze => c.has .changeModifyFreeze
  | .adjustFee => c.has .changeAdjustFee
  | .modifyAdjustFee => c.has .changeModifyAdjustFee
  | .whitelist => c.has .changeWhitelist
  | .modifyWhitelist => c.has .changeModifyWhitelist
  | .unknown => false

end ControllerInfo
end LogosCore.Ledger

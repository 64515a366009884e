import LogosCore.Accounts
import LogosCore.Checks

/-! # Requests

Every request of the ledger with the fields its code reads, the totals it announces and
the checks it makes of itself, alone and against an account. -/
namespace LogosCore.Ledger

inductive ProcessResult
  | progress | propagate | noPropagate | badSignature | old | negativeSpend | fork
  | unreceivable | gapPrevious | gapSource | stateBlockDisabled | notReceiveFromSend
  | accountMismatch | openedBurnAccount | balanceMismatch | blockPosition | invalidBlockType
  | unknownSourceAccount | unknownOrigin | buffered | bufferingDone | pending | alreadyReserved
  | initializing | insufficientFee | insufficientBalance | notDelegate | clockDrift
  | wrongSequenceNumber | invalidRequest | invalidTip | invalidNumberBlocks
  | revertImmutability | immutable | redundant | insufficientTokenBalance | invalidTokenId
  | untetheredAccount | invalidController | controllerCapacity | invalidControllerAction
  | unauthorizedRequest | prohibittedRequest | notWhitelisted | frozen | insufficientTokenFee
  | invalidTokenSymbol | invalidTokenName | invalidTokenAmount | totalSupplyOverflow
  | keyCollision | invalidFee | invalidIssuerInfo | tooManyTokenEntries | electionsDeadPeriod
  | notARep | alreadyVoted | invalidCandidate | notEnoughStake | neverAnnouncedCandidacy
  | alreadyRenouncedCandidacy | alreadyAnnouncedCandidacy | isRep | isCandidate | isDelegate
  | wrongEpochNumber | noElections | pendingRepAction | pendingCandidacyAction
  | invalidGovernanceSubchain | insufficientFundsForStake | invalidAccountType | proxyToSelf
  | invalidEpochHash
deriving DecidableEq,Repr

abbrev Validation := Check ProcessResult

structure Transaction (H : Type) where
  destination : H
  amount : Amount
deriving DecidableEq,Repr

/-- The fields every governance request starts with. -/
structure Governance (H : Type) where
  epochNum : Epoch
  governanceSubchainPrev : H
deriving DecidableEq,Repr

structure CandidateVotePair (H : Type) where
  account : H
  numVotes : BitVec 8
deriving DecidableEq,Repr

/-- The self stake a governance request sets, `none` where `set_stake` is false. -/
abbrev SetStake := Option Amount

structure Issuance (H : Type) where
  tokenId : H
  symbol : List UInt8
  name : List UInt8
  totalSupply : Amount
  feeType : TokenFeeType
  feeRate : Amount
  settings : BitField
  controllers : List (ControllerInfo H)
  issuerInfo : List UInt8
deriving DecidableEq,Repr

inductive Body (H : Type)
  | send (transactions : List (Transaction H))
  | proxy (gov : Governance H) (lockProxy : Amount) (rep : H)
  | issuance (token : Issuance H)
  | issueAdditional (tokenId : H) (amount : Amount)
  | changeSetting (tokenId : H) (setting : TokenSetting) (value : SettingValue)
  | immuteSetting (tokenId : H) (setting : TokenSetting)
  | revoke (tokenId : H) (source : H) (transaction : Transaction H)
  | adjustUserStatus (tokenId : H) (account : H) (status : UserStatus)
  | adjustFee (tokenId : H) (feeType : TokenFeeType) (feeRate : Amount)
  | updateIssuerInfo (tokenId : H) (newInfo : List UInt8)
  | updateController (tokenId : H) (action : ControllerAction) (controller : ControllerInfo H)
  | burn (tokenId : H) (amount : Amount)
  | distribute (tokenId : H) (transaction : Transaction H)
  | withdrawFee (tokenId : H) (transaction : Transaction H)
  | withdrawLogos (tokenId : H) (transaction : Transaction H)
  | tokenSend (tokenId : H) (transactions : List (Transaction H)) (tokenFee : Amount)
  | electionVote (gov : Governance H) (votes : List (CandidateVotePair H))
  | announceCandidacy (gov : Governance H) (setStake : SetStake) (levyPercentage : BitVec 8)
  | renounceCandidacy (gov : Governance H) (setStake : SetStake)
  | startRepresenting (gov : Governance H) (setStake : SetStake) (levyPercentage : BitVec 8)
  | stopRepresenting (gov : Governance H) (setStake : SetStake)
  | stake (gov : Governance H) (stake : Amount)
  | unstake (gov : Governance H)
  | claim (epochHash : H) (epochNumber : Epoch)
  | unknown
deriving DecidableEq,Repr

/-- A request; `locator` is the hash of the request block that carries it. -/
structure Request (H : Type) where
  origin : H
  previous : H
  fee : Amount
  sequence : BitVec 32
  signature : H
  locator : H
  body : Body H
deriving DecidableEq,Repr

/-- What the ledger takes from its surroundings: hash functions, the number that a hash spells, the
signature check, switches, and the values of a flag and a result code before they are assigned. -/
structure Config (H : Type) where
  requestHash : Request H → H
  receiveHash : H → BitVec 16 → H
  tokenHash : List UInt8 → H → H → H
  tokenUserId : H → H → H
  liabilityHash : H → H → Epoch → Bool → H
  delegateHash : H → Amount → Amount → ℕ
  rank : H → ℕ
  verifySignature : Request H → Bool
  validateSigConfig : Bool
  enableElections : Bool
  uninitialized : Bool
  unassignedCode : ProcessResult

/-- A surrounding in which addresses and hashes are numbers and every signature is good. -/
def Config.sample : Config ℕ where
  requestHash r := Nat.pair r.origin r.sequence.toNat + 2 ^ 10
  receiveHash source index := Nat.pair source index.toNat + 2 ^ 20
  tokenHash _ origin previous := Nat.pair origin previous + 2 ^ 30
  tokenUserId := Nat.pair
  liabilityHash target source expiration secondary :=
    Nat.pair (Nat.pair target source) (Nat.pair expiration.toNat secondary.toNat)
  delegateHash _ _ _ := 0
  rank := id
  verifySignature _ := true
  validateSigConfig := true
  enableElections := true
  uninitialized := false
  unassignedCode := .progress

variable {H : Type}

namespace Body

/-- The token an administrative request is about, to whose chain it belongs. -/
def administered : Body H → Option H
  | issueAdditional t _ => some t
  | changeSetting t _ _ => some t
  | immuteSetting t _ => some t
  | revoke t _ _ => some t
  | adjustUserStatus t _ _ => some t
  | adjustFee t _ _ => some t
  | updateIssuerInfo t _ => some t
  | updateController t _ _ => some t
  | burn t _ => some t
  | distribute t _ => some t
  | withdrawFee t _ => some t
  | withdrawLogos t _ => some t
  | _ => none

def tokenId : Body H → Option H
  | issuance i => some i.tokenId
  | tokenSend t _ _ => some t
  | b => b.administered

def governance : Body H → Option (Governance H)
  | proxy gov _ _ => some gov
  | electionVote gov _ => some gov
  | announceCandidacy gov _ _ => some gov
  | renounceCandidacy gov _ => some gov
  | startRepresenting gov _ _ => some gov
  | stopRepresenting gov _ => some gov
  | stake gov _ => some gov
  | unstake gov => some gov
  | _ => none

/-- The epoch of a governance request; asked of any other request the code halts. -/
def getEpochNum (b : Body H) : Option Epoch := b.governance.map (·.epochNum)

def minTransactionFee : Body H → Amount
  | electionVote _ _ => 0
  | unknown => 0
  | _ => 0x21e19e0c9bab2400000

/-- The tokens a request moves, summed in 128 bits. -/
def getTokenTotal : Body H → Amount
  | revoke _ _ t => t.amount
  | burn _ amount => amount
  | distribute _ t => t.amount
  | withdrawFee _ t => t.amount
  | withdrawLogos _ t => t.amount
  | tokenSend _ ts tokenFee => ts.foldl (fun a t => a + t.amount) 0 + tokenFee
  | _ => 0

end Body

namespace Request

def getAccount (r : Request H) : H := r.body.administered.getD r.origin

def getSource (r : Request H) : H :=
  match r.body with
  | .revoke _ source _ => source
  | .issueAdditional _ _ => r.origin
  | _ => r.getAccount

/-- The Logos a request spends, summed in 128 bits. A send to its own origin is not counted. -/
def getLogosTotal [DecidableEq H] (r : Request H) : Amount :=
  match r.body with
  | .send ts => ts.foldl (fun a t => if t.destination = r.origin then a else a + t.amount) 0 + r.fee
  | _ => r.fee

end Request

def validateFee (feeType : TokenFeeType) (feeRate : Amount) : Bool :=
  match feeType with
  | .percentage => feeRate ≤ 100
  | .flat => true
  | .unknown => false

def isAlphanumeric (c : UInt8) : Bool :=
  (48 ≤ c && c ≤ 57) || (65 ≤ c && c ≤ 90) || (97 ≤ c && c ≤ 122)

/-- Names may moreover contain white space, hyphens and underscores. -/
def isNameCharacter (c : UInt8) : Bool :=
  isAlphanumeric c || c = 32 || (9 ≤ c && c ≤ 13) || c = 45 || c = 95

def symbolMaxSize : ℕ := 8

def nameMaxSize : ℕ := 32

def infoMaxSize : ℕ := 512

def maxVotes : ℕ := 8

open Check

section Checks
variable [DecidableEq H] [Zero H] (cfg : Config H)

def validateTokenAmount (amount : Amount) : Validation Unit :=
  require (amount ≠ 0) .invalidTokenAmount

def Issuance.validate (origin previous : H) (i : Issuance H) : Validation Unit := do
  require (i.tokenId = cfg.tokenHash (i.symbol ++ i.name) origin previous) .invalidTokenId
  require (i.symbol ≠ [] ∧ i.symbol.all isAlphanumeric ∧ i.symbol.length ≤ symbolMaxSize)
    .invalidTokenSymbol
  require (i.name ≠ [] ∧ i.name.all isNameCharacter ∧ i.name.length ≤ nameMaxSize)
    .invalidTokenName
  validateTokenAmount i.totalSupply
  require (validateFee i.feeType i.feeRate) .invalidFee
  require (i.controllers.length ≤ TokenAccount.maxControllers) .controllerCapacity
  require (i.issuerInfo.length ≤ infoMaxSize) .invalidIssuerInfo

/-- The check every request makes of its sender and fee, and a token request of its token. -/
def Request.validateHeader (r : Request H) : Validation Unit := do
  require (r.origin ≠ 0) .openedBurnAccount
  require (r.body.minTransactionFee ≤ r.fee) .insufficientFee
  match r.body.tokenId with
  | some t => require (t ≠ 0) .invalidTokenId
  | none => pure ()

def Request.validate (r : Request H) : Validation Unit := do
  r.validateHeader
  match r.body with
  | .issuance i => i.validate cfg r.origin r.previous
  | .issueAdditional _ amount => validateTokenAmount amount
  | .immuteSetting _ setting => require (!setting.isMutabilitySetting) .prohibittedRequest
  | .revoke _ _ t => validateTokenAmount t.amount
  | .adjustFee _ feeType feeRate => require (validateFee feeType feeRate) .invalidFee
  | .updateIssuerInfo _ newInfo => require (newInfo.length ≤ infoMaxSize) .invalidIssuerInfo
  | .updateController _ action _ => require (action ≠ .unknown) .invalidControllerAction
  | .burn _ amount => validateTokenAmount amount
  | .distribute _ t => validateTokenAmount t.amount
  | .withdrawFee _ t => validateTokenAmount t.amount
  | .tokenSend _ ts _ => ts.forM fun t => validateTokenAmount t.amount
  | _ => pure ()

/-- The entry of a token in a user account covers the amount. -/
def validateEntry (info : Account H) (tokenId : H) (amount : Amount) : Validation Unit := do
  let user ← attempt info.asUser
  let entry ← found (user.getEntry cfg.uninitialized tokenId) .untetheredAccount
  require (amount ≤ entry.balance) .insufficientTokenBalance

/-- The check against an account; the wrong kind has no defined outcome. -/
def Request.validateAgainst (r : Request H) (info : Account H) : Validation Unit :=
  match r.body with
  | .issueAdditional _ amount => do
    let t ← attempt info.asToken
    require (t.totalSupply ≤ t.totalSupply + amount) .totalSupplyOverflow
  | .revoke tokenId _ t => validateEntry cfg info tokenId t.amount
  | .updateController _ action controller => do
    let t ← attempt info.asToken
    let controllerFound := (t.getController cfg.uninitialized controller.account).isSome
    match action with
    | .add =>
      require (controllerFound ∨ t.controllers.length ≠ TokenAccount.maxControllers)
        .controllerCapacity
    | .remove => require controllerFound .invalidController
    | .unknown => pure ()
  | .burn _ amount => do
    let t ← attempt info.asToken
    require (amount ≤ t.tokenBalance) .insufficientTokenBalance
  | .distribute _ transaction => do
    let t ← attempt info.asToken
    require (transaction.amount ≤ t.tokenBalance) .insufficientTokenBalance
  | .withdrawFee _ transaction => do
    let t ← attempt info.asToken
    require (transaction.amount ≤ t.tokenFeeBalance) .insufficientTokenBalance
  | .withdrawLogos _ transaction => do
    r.validateHeader
    let t ← attempt info.asToken
    require (transaction.amount ≤ t.balance) .insufficientBalance
  | .tokenSend tokenId _ _ => validateEntry cfg info tokenId r.body.getTokenTotal
  | _ => pure ()

end Checks

/-- Whether a controller has the privilege a request needs. -/
def ControllerInfo.isAuthorized (c : ControllerInfo H) : Body H → Option Bool
  | .issueAdditional _ _ => some (c.has .issuance)
  | .changeSetting _ setting _ => some (c.isAuthorizedSetting setting)
  | .immuteSetting _ setting => setting.getMutabilitySetting.map c.isAuthorizedSetting
  | .revoke _ _ _ => some (c.has .revoke)
  | .adjustUserStatus _ _ status => some (c.isAuthorizedStatus status)
  | .adjustFee _ _ _ => some (c.has .adjustFee)
  | .updateIssuerInfo _ _ => some (c.has .updateIssuerInfo)
  | .updateController _ _ _ => some (c.has .updateController)
  | .burn _ _ => some (c.has .burn)
  | .distribute _ _ => some (c.has .distribute)
  | .withdrawFee _ _ => some (c.has .withdrawFee)
  | .withdrawLogos _ _ => some (c.has .withdrawLogos)
  | _ => some false

/-- Whether the settings of the token account permit a request. -/
def TokenAccount.isAllowed (t : TokenAccount H) : Body H → Bool
  | .issueAdditional _ _ => t.allowed .issuance
  | .changeSetting _ setting value => t.isAllowedChange setting value
  | .immuteSetting _ setting => !setting.isMutabilitySetting
  | .revoke _ _ _ => t.allowed .revoke
  | .adjustUserStatus _ _ status => t.isAllowedStatus status
  | .adjustFee _ _ _ => t.allowed .adjustFee
  | .updateIssuerInfo _ _ => true
  | .updateController _ _ _ => true
  | .burn _ _ => true
  | .distribute _ _ => true
  | .withdrawFee _ _ => true
  | .withdrawLogos _ _ => true
  | .tokenSend _ _ _ => true
  | _ => false

/-- Whether a user with the given status may send or receive the token. -/
def TokenAccount.sendAllowed (t : TokenAccount H) (status : TokenUserStatus) : Validation Unit := do
  require (t.allowed .whitelist → status.whitelisted) .notWhitelisted
  require (t.allowed .freeze → !status.frozen) .frozen

end LogosCore.Ledger

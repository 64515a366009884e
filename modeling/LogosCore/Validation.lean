import LogosCore.Elections

/-! # Validation of requests

The decision whether a request may be applied to the ledger: the request itself, the account
it belongs to, the funds it needs, and what its kind asks for. -/
namespace LogosCore.Ledger

open Check StakingManager

variable {H : Type} [DecidableEq H] [Zero H] (cfg : Config H)

def maxTokenEntries : ℕ := 65535

/-- A request with what its validation and application are given besides the ledger. -/
structure Submission (H : Type) where
  request : Request H
  epoch : Epoch
  timestamp : BitVec 64
  canAcquire : H → H → Bool
  allowDuplicates : Bool

namespace Store

variable (s : Store H)

/-- Only a user account that is not full and whose status permits it can receive a token. -/
def validateDestination (tokenId destination : H) (t : TokenAccount H) : Validation Unit := do
  let account ← found (s.accounts.lookup destination) .invalidRequest
  let user ← found account.asUser .invalidRequest
  match user.getEntry cfg.uninitialized tokenId with
  | some entry => t.sendAllowed entry.status
  | none => do
    require (user.entries.length ≠ maxTokenEntries) .tooManyTokenEntries
    t.sendAllowed ((s.tokenUserStatus.lookup (cfg.tokenUserId tokenId destination)).getD .default)

def validatePayout (r : Request H) (info : Account H) (tokenId : H) (t : Transaction H) :
    Validation Unit := do
  let token ← found info.asToken .invalidRequest
  require (t.destination ≠ 0) .invalidRequest
  s.validateDestination cfg tokenId t.destination token
  r.validateAgainst cfg info

/-- The check of a request that moves tokens; a total of zero is let through. -/
def validateTokenTransfer (r : Request H) (info : Account H) : Validation Unit :=
  if r.body.getTokenTotal = 0 then pure ()
  else match r.body with
    | .revoke tokenId source t => do
      let token ← found info.asToken .invalidRequest
      let sourceInfo ← found (s.accounts.lookup source) .unknownSourceAccount
      s.validateDestination cfg tokenId t.destination token
      r.validateAgainst cfg sourceInfo
    | .tokenSend tokenId ts tokenFee => do
      let account ← found (s.accounts.lookup tokenId) .invalidTokenId
      let token ← attempt account.asToken
      let user ← found info.asUser .invalidRequest
      let entry ← found (user.getEntry cfg.uninitialized tokenId) .untetheredAccount
      token.sendAllowed entry.status
      ts.forM fun t => do
        s.validateDestination cfg tokenId t.destination token
        require (token.feeSufficient r.body.getTokenTotal tokenFee) .insufficientTokenFee
      r.validateAgainst cfg info
    | .distribute tokenId t => s.validatePayout cfg r info tokenId t
    | .withdrawFee tokenId t => s.validatePayout cfg r info tokenId t
    | _ => pure ()

omit s in
/-- The check of a request of a controller; a revocation is checked against its source later. -/
def validateTokenAdminRequest (r : Request H) (info : Account H) : Validation Unit := do
  let token ← found info.asToken .invalidRequest
  let controller ← found (token.getController cfg.uninitialized r.origin) .unauthorizedRequest
  let authorized ← attempt (controller.isAuthorized r.body)
  require authorized .unauthorizedRequest
  require (token.isAllowed r.body) .prohibittedRequest
  match r.body with
  | .revoke _ _ _ => pure ()
  | _ => r.validateAgainst cfg info

/-- The part of validation that depends on the kind of the request. -/
def validateBody (r : Request H) (info : Account H) (epoch : Epoch) : Validation Unit :=
  match r.body with
  | .send _ => pure ()
  | .issuance i => require (i.tokenId ∉ s.accounts) .keyCollision
  | .tokenSend _ _ _ => s.validateTokenTransfer cfg r info
  | .claim epochHash epochNumber => validateClaim s.gov epochHash epochNumber info
  | .unknown => throw .invalidRequest
  | body =>
    if body.administered.isSome then do
      validateTokenAdminRequest cfg r info
      s.validateTokenTransfer cfg r info
    else validateGovernance cfg s.gov r info epoch

/-- Enough Logos: a user account may also spend what thaws when the request is applied. -/
def covers (r : Request H) (info : Account H) (epoch : Epoch) : Prop :=
  r.getLogosTotal ≤ info.availableBalance ∨ ∃ u ∈ info.asUser,r.getLogosTotal ≤
      u.availableBalance + getPruneableThawingAmount s.gov r.origin u epoch

instance (r : Request H) (info : Account H) (epoch : Epoch) : Decidable (s.covers r info epoch) :=
  inferInstanceAs (Decidable (_ ∨ _))

/-- Validation against the account: a request off the head of its chain is a duplicate or a
fork. -/
def validateAccount (i : Submission H) (info : Account H) : Validation Unit :=
  let r := i.request
  if r.previous ≠ info.base.head then do
    require (cfg.requestHash r = info.base.head ∨ s.gov.requestExists (cfg.requestHash r)) .fork
    require i.allowDuplicates .old
  else do
    require (info.base.blockCount = r.sequence) .wrongSequenceNumber
    require (s.covers r info i.epoch) .insufficientBalance
    s.validateBody cfg r info i.epoch

omit s in
/-- Revocations and token sends reserve the account whose tokens they move. -/
def validateReservations (i : Submission H) : Validation Unit := do
  let r := i.request
  let hash := cfg.requestHash r
  require (i.canAcquire r.getAccount hash) .alreadyReserved
  match r.body with
  | .revoke tokenId _ _ =>
    require (i.canAcquire (cfg.tokenUserId tokenId r.getSource) hash) .alreadyReserved
  | .tokenSend tokenId _ _ =>
    require (i.canAcquire (cfg.tokenUserId tokenId r.getSource) hash) .alreadyReserved
  | _ => pure ()

/-- Whether a request may be applied. A preliminary validation does not look at the account. -/
def validateRequest (i : Submission H) (prelim : Bool) : Validation Unit := do
  let r := i.request
  require (prelim ∨ r.previous = 0 ∨ s.gov.requestExists r.previous) .gapPrevious
  require (cfg.validateSigConfig → cfg.verifySignature r) .badSignature
  r.validate cfg
  require (r.origin ∈ s.accounts) .unknownOrigin
  let info ← found (s.accounts.lookup r.getAccount) .invalidTokenId
  validateReservations cfg i
  if prelim then pure () else s.validateAccount cfg i info

end Store
end LogosCore.Ledger

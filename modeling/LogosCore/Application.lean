import LogosCore.Validation

/-! # Application of requests

What an accepted request does to the ledger. The account of the request is read at the start
and written at the end, and every account that receives something is read and written in
between. -/
namespace LogosCore.Ledger

open StakingManager

variable {H : Type} [DecidableEq H] [Zero H] (cfg : Config H)

omit [DecidableEq H] [Zero H] in
/-- The hash of a receive does not depend on its place in the chain. -/
def ReceiveBlock.hash (b : ReceiveBlock H) : H := cfg.receiveHash b.sourceHash b.index

namespace TokenAccount

omit [DecidableEq H] in
def ofIssuance (i : Issuance H) : TokenAccount H where
  toAccountBase := .default
  totalSupply := i.totalSupply
  tokenBalance := i.totalSupply
  tokenFeeBalance := 0
  feeType := i.feeType
  feeRate := i.feeRate
  symbol := i.symbol
  name := i.name
  issuerInfo := i.issuerInfo
  controllers := i.controllers
  settings := i.settings
  issuanceRequest := 0

/-- Add a controller or privileges, or take them away; with no privilege named, the controller. -/
def updateController (t : TokenAccount H) (action : ControllerAction) (c : ControllerInfo H) :
    Option (TokenAccount H) :=
  match action,t.controllers.findIdx? (·.account = c.account) with
  | .add,some i => some { t with
      controllers := t.controllers.modify i fun old =>
        { old with privileges := old.privileges ||| c.privileges } }
  | .add,none => some { t with controllers := t.controllers ++ [c] }
  | .remove,some i => some { t with
      controllers := if c.privileges = 0 then t.controllers.eraseIdx i
        else t.controllers.modify i fun old =>
          { old with privileges := old.privileges &&& ~~~c.privileges } }
  | .remove,none => none
  | .unknown,_ => some t

def update (t : TokenAccount H) : Body H → Option (TokenAccount H)
  | .issueAdditional _ amount =>
    some { t with
      tokenBalance := t.tokenBalance + amount
      totalSupply := t.totalSupply + amount }
  | .changeSetting _ setting value => some (t.setSetting setting (value = .enabled))
  | .immuteSetting _ setting => setting.getMutabilitySetting.map fun m => t.setSetting m false
  | .adjustFee _ feeType feeRate => some { t with feeType := feeType,feeRate := feeRate }
  | .updateIssuerInfo _ newInfo => some { t with issuerInfo := newInfo }
  | .updateController _ action controller => t.updateController action controller
  | .burn _ amount =>
    some { t with
      totalSupply := t.totalSupply - amount
      tokenBalance := t.tokenBalance - amount }
  | .distribute _ transaction =>
    some { t with tokenBalance := t.tokenBalance - transaction.amount }
  | .withdrawFee _ transaction =>
    some { t with tokenFeeBalance := t.tokenFeeBalance - transaction.amount }
  | .withdrawLogos _ transaction => some { t with balance := t.balance - transaction.amount }
  | _ => some t

end TokenAccount

def Body.isElectionVote : Body H → Bool
  | .electionVote _ _ => true
  | _ => false

def Body.isIssuance : Body H → Bool
  | .issuance _ => true
  | _ => false

def Request.collectedFee (r : Request H) : Amount :=
  if r.body.isIssuance then r.body.minTransactionFee else r.fee

/-- The effect of a status request on a token user. -/
def TokenUserStatus.adjust (status : TokenUserStatus) : UserStatus → TokenUserStatus
  | .frozen => { status with frozen := true }
  | .unfrozen => { status with frozen := false }
  | .whitelisted => { status with whitelisted := true }
  | .notWhitelisted => { status with whitelisted := false }
  | .unknown => status

namespace Store

section Receives

/-- When the source of a receive was approved, and whether it is a request. -/
def receiveTimestamp (s : Store H) (b : ReceiveBlock H) : Option (BitVec 64 × Bool) :=
  match s.gov.requests.lookup b.sourceHash with
  | some request => some ((s.requestBlocks.lookup request.locator).getD 0,true)
  | none => (s.gov.epochGet b.sourceHash).map fun eb => (eb.timestamp,false)

/-- Walk down a receive chain to the receive right after the new one, comparing with the timestamp
of the receive before. A chain longer than the number of receives is a circle, on which the code
does not end. -/
def receiveSlot (s : Store H) (hash : H) :
    ℕ → BitVec 64 → Option (ReceiveBlock H × Bool) → ReceiveBlock H →
      Option (Option (ReceiveBlock H × Bool))
  | 0,_,_,_ => none
  | fuel+1,timestamp,prev,cur => do
    let (t,isRequest) ← s.receiveTimestamp cur
    if if timestamp ≠ t then timestamp < t else cfg.rank hash < cfg.rank (cur.hash cfg) then
      match s.receives.lookup cur.previous with
      | some next => receiveSlot s hash fuel t (some (cur,isRequest)) next
      | none => if cur.previous = 0 then some (some (cur,isRequest)) else none
    else some prev

omit [Zero H] in
def receivePut (s : Store H) (b : ReceiveBlock H) : Store H :=
  { s with receives := s.receives.insert (b.hash cfg) b }

def placeReceive (s : Store H) (receive : ReceiveBlock H) (timestamp : BitVec 64) :
    Option (Store H) :=
  match s.receives.lookup receive.previous with
  | none => if receive.previous = 0 then some (s.receivePut cfg receive) else none
  | some cur => do
    let slot ← s.receiveSlot cfg (receive.hash cfg) (s.receives.entries.length + 1) timestamp none cur
    match slot with
    | none => some (s.receivePut cfg receive)
    | some (prev,isRequest) =>
      if prev.sourceHash = 0 then some (s.receivePut cfg receive)
      else if isRequest ∧ ((s.gov.requests.lookup prev.sourceHash).map (·.origin)).getD 0 = 0 then none
      else some ((s.receivePut cfg { prev with previous := receive.hash cfg }).receivePut cfg
        { receive with previous := prev.previous })

end Receives

omit [Zero H] in
def accountPut (s : Store H) (address : H) (info : Account H) : Store H :=
  { s with accounts := s.accounts.insert address info }

def setBalance (s : Store H) (info : Account H) (newBalance : Amount) (epoch : Epoch) :
    Option (Account H × Store H) :=
  match info with
  | .user u => (s.runGov (u.setBalance newBalance epoch)).map fun r => (.user r.1,r.2)
  | .token t => some (.token { t with balance := newBalance },s)

omit [Zero H] in
/-- A first receive of a token makes an entry and moves the user's status into it. -/
def tether (s : Store H) (user : AccountInfo H) (tokenId address : H) : AccountInfo H × Store H :=
  let id := cfg.tokenUserId tokenId address
  if (user.findEntry tokenId).isSome then (user,s)
  else
    ({ user with
        entries := user.entries ++ [⟨tokenId,(s.tokenUserStatus.lookup id).getD .default,0⟩] },
      { s with tokenUserStatus := s.tokenUserStatus.erase id })

omit [Zero H] in
def addTokens (s : Store H) (info : Account H) (tokenId : H) (send : Transaction H) :
    Option (Account H × Store H) :=
  info.asUser.map fun user =>
    let (user,s) := s.tether cfg user tokenId send.destination
    (.user (user.updateEntry tokenId fun e => { e with balance := e.balance + send.amount }),s)

section Send

variable (s : Store H) (timestamp : BitVec 64) (requestHash tokenId origin : H) (epoch : Epoch)

def receiver (info : Option (Account H)) (hash : H) : Option (Account H) :=
  let opened := match info with
    | some info => some info
    | none => if origin ∈ s.accounts then some (.user { AccountInfo.default with openBlock := hash })
      else none
  opened.map fun info => info.withBase { info.base with
    receiveCount := info.base.receiveCount + 1
    receiveHead := hash }

/-- Credit an account with Logos, or with a token if `tokenId` is not zero. -/
def applySendTo (send : Transaction H) (info : Option (Account H)) (index : BitVec 16) :
    Option (Account H × Store H) := do
  let receive : ReceiveBlock H := ⟨(info.map (·.base.receiveHead)).getD 0,requestHash,index⟩
  let info ← s.receiver origin info (receive.hash cfg)
  let (info,s) ←
    if tokenId = 0 then s.setBalance info (info.balance + send.amount) epoch
    else s.addTokens cfg info tokenId send
  let s ← s.placeReceive cfg receive timestamp
  some (info,s)

def applySend (send : Transaction H) (index : BitVec 16) : Option (Store H) := do
  let (info,s) ← s.applySendTo cfg timestamp requestHash tokenId origin epoch send
    (s.accounts.lookup send.destination) index
  some (s.accountPut send.destination info)

omit s in
def applySends : List (Transaction H) → BitVec 16 → Store H → Option (Store H)
  | [],_,s => some s
  | send::sends,index,s => do
    let s ← s.applySend cfg timestamp requestHash tokenId origin epoch send index
    applySends sends (index + 1) s

end Send

/-- The status of a user is kept in its entry, or in a table of its own before it has one. -/
def adjustUserStatus (s : Store H) (tokenId account : H) (status : UserStatus) : Option (Store H) :=
  let id := cfg.tokenUserId tokenId account
  let central := { s with
    tokenUserStatus := s.tokenUserStatus.insert id
      (((s.tokenUserStatus.lookup id).getD .default).adjust status) }
  match s.accounts.lookup account with
  | none => some central
  | some info => info.asUser.map fun user =>
    if (user.findEntry tokenId).isSome then
      s.accountPut account
        (.user (user.updateEntry tokenId fun e => { e with status := e.status.adjust status }))
    else central

def revokeOffset : BitVec 16 := 0x80

/-- Take revoked tokens from their holder, who gets a receive for it. -/
def revokeFrom (s : Store H) (tokenId source : H) (amount : Amount) (hash : H)
    (timestamp : BitVec 64) : Option (Store H) := do
  let account ← s.accounts.lookup source
  let user ← account.asUser
  let _ ← user.findEntry tokenId
  let user := user.updateEntry tokenId fun e => { e with balance := e.balance - amount }
  let receive : ReceiveBlock H := ⟨user.receiveHead,hash,revokeOffset⟩
  let s ← s.placeReceive cfg receive timestamp
  some (s.accountPut source (.user { user with receiveHead := receive.hash cfg }))

omit [Zero H] in
def onFeeCollected (s : Store H) (epoch : Epoch) (fee : Amount) : Store H :=
  { s with feePools := s.feePools.insert epoch ((s.feePools.lookup epoch).getD 0 + fee) }

def pruneThawing (s : Store H) (origin : H) (info : Account H) (epoch : Epoch) :
    Option (Account H × Store H) :=
  match info with
  | .user u => (s.runGov (StakingManager.pruneThawing origin u epoch)).map fun r => (.user r.1,r.2)
  | .token t => some (.token t,s)

/-- The part all requests share: the account moves to the request, thawed funds become available,
and the fee goes to the pool of the epoch, or what an issuance pays above the minimum to the
token. -/
def beginRequest (s : Store H) (r : Request H) (epoch : Epoch) (info : Account H) :
    Option (Account H × Store H) := do
  let info := info.withBase { info.base with
    blockCount := info.base.blockCount + 1
    head := cfg.requestHash r }
  let (info,s) ← s.pruneThawing r.origin info epoch
  if r.body.isElectionVote then some (info,s)
  else do
    let (info,s) ← s.setBalance info (info.balance - r.fee) epoch
    some (info,s.onFeeCollected epoch r.collectedFee)

/-- The token account an issuance opens, with the issuance as its first receive. -/
def issue (s : Store H) (r : Request H) (i : Issuance H) (timestamp : BitVec 64) :
    Option (Store H) :=
  let receive : ReceiveBlock H := ⟨0,cfg.requestHash r,0⟩
  let t := { TokenAccount.ofIssuance i with
    balance := r.fee - r.body.minTransactionFee
    receiveHead := receive.hash cfg
    receiveCount := 1
    issuanceRequest := receive.hash cfg }
  (s.accountPut i.tokenId (.token t)).placeReceive cfg receive timestamp

/-- A claim puts its reward into the claiming account itself. -/
def claim (s : Store H) (r : Request H) (epochNumber : Epoch) (timestamp : BitVec 64)
    (epoch : Epoch) (user : AccountInfo H) : Option (Account H × List Amount × Store H) := do
  let ((deposit,user),s) ← s.runGov (collectReward r.origin epochNumber user)
  if 0 < deposit then do
    let (info,s) ← s.applySendTo cfg timestamp (cfg.requestHash r) 0 r.origin epoch
      ⟨r.origin,deposit⟩ (some (.user user)) 0
    some (info,[deposit],s)
  else some (.user user,[],s)

/-- Send tokens out of the account of the request; the token account gets the token fee. -/
def sendTokens (s : Store H) (r : Request H) (tokenId : H) (ts : List (Transaction H))
    (tokenFee : Amount) (timestamp : BitVec 64) (epoch : Epoch) (source : AccountInfo H) :
    Option (Account H × Store H) := do
  let account ← s.accounts.lookup tokenId
  let t ← account.asToken
  let s := s.accountPut tokenId (.token { t with tokenFeeBalance := t.tokenFeeBalance + tokenFee })
  let _ ← source.findEntry tokenId
  let s ← applySends cfg timestamp (cfg.requestHash r) tokenId r.origin epoch ts 0 s
  some (.user (source.updateEntry tokenId fun e =>
    { e with balance := e.balance - r.body.getTokenTotal }),s)

/-- The part that depends on the kind: the account of the request, its rewards, and the ledger. -/
def applyBody (s : Store H) (r : Request H) (timestamp : BitVec 64) (epoch : Epoch)
    (info : Account H) : Option (Account H × List Amount × Store H) :=
  let hash := cfg.requestHash r
  match r.body with
  | .send ts => do
    let source ← info.asUser
    let (info,s) ← s.setBalance (.user source) (source.balance - r.getLogosTotal + r.fee) epoch
    let s ← applySends cfg timestamp hash 0 r.origin epoch
      (ts.filter (·.destination ≠ r.origin)) 0 s
    some (info,[],s)
  | .issuance i => do
    let s ← s.issue cfg r i timestamp
    some (info,[],s)
  | .revoke tokenId source t => do
    let s ← s.revokeFrom cfg tokenId source t.amount hash timestamp
    let s ← s.applySend cfg timestamp hash tokenId r.origin epoch t 0
    some (info,[],s)
  | .adjustUserStatus tokenId account status => do
    let s ← s.adjustUserStatus cfg tokenId account status
    some (info,[],s)
  | .distribute tokenId t => do
    let token ← info.asToken.bind (·.update r.body)
    let s ← s.applySend cfg timestamp hash tokenId r.origin epoch t 0
    some (.token token,[],s)
  | .withdrawFee tokenId t => do
    let token ← info.asToken.bind (·.update r.body)
    let s ← s.applySend cfg timestamp hash tokenId r.origin epoch t 0
    some (.token token,[],s)
  | .withdrawLogos _ t => do
    let token ← info.asToken.bind (·.update r.body)
    let s ← s.applySend cfg timestamp hash 0 r.origin epoch t 0
    some (.token token,[],s)
  | .tokenSend tokenId ts tokenFee => do
    let source ← info.asUser
    let (info,s) ← s.sendTokens cfg r tokenId ts tokenFee timestamp epoch source
    some (info,[],s)
  | .claim _ epochNumber => do
    let user ← info.asUser
    s.claim cfg r epochNumber timestamp epoch user
  | .unknown => some (info,[],s)
  | body =>
    if body.administered.isSome then do
      let token ← info.asToken.bind (·.update body)
      some (.token token,[],s)
    else do
      let user ← info.asUser
      let (user,s) ← s.runGov (applyGovernance cfg r user)
      some (.user user,[],s)

/-- Apply a request; off the head of its chain it is passed over if known, and halts otherwise. -/
def applyRequest (s : Store H) (committed : H → Bool) (r : Request H) (timestamp : BitVec 64)
    (epoch : Epoch) : Option (Store H × List Amount) :=
  match s.accounts.lookup r.getAccount with
  | none => some (s,[])
  | some info =>
    if r.previous ≠ info.base.head then
      if cfg.requestHash r = info.base.head ∨ committed (cfg.requestHash r) then some (s,[]) else none
    else do
      let (info,s) ← s.beginRequest cfg r epoch info
      let (info,deposits,s) ← s.applyBody cfg r timestamp epoch info
      some (s.accountPut r.getAccount info,deposits)

omit [Zero H] in
def storeRequest (s : Store H) (r : Request H) (timestamp : BitVec 64) : Store H :=
  { s with
    requestBlocks := s.requestBlocks.insert r.locator timestamp
    gov := { s.gov with requests := s.gov.requests.insert (cfg.requestHash r) r } }

/-- Validate a request and apply it if it is accepted; the output is the reward deposited. -/
def process (s : Store H) (i : Submission H) : Option (Store H × List Amount) :=
  match (s.validateRequest cfg i false).run with
  | none => none
  | some (.error _) => some (s,[])
  | some (.ok _) => (s.storeRequest cfg i.request i.timestamp).applyRequest cfg
      s.gov.requestExists i.request i.timestamp i.epoch

end Store
end LogosCore.Ledger

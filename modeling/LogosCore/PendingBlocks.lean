import LogosCore.Archive

/-! # Blocks that wait for their validation

Blocks that arrive by p2p, by bootstrap or from consensus are kept by epoch and chain until their
contents can be validated. A block whose validation asks for something that is missing waits for
the hash of it, and is taken up again when a block that was written releases this hash. -/
namespace LogosCore.Cache

open Ledger (ProcessResult Request Epoch)
open Archive (numDelegates)

/-- What the validation of a block is missing. -/
inductive ProcessResultDependency
  | progress | notApplied | badBlock | generalErrorCode | previousBlock | senderAccount
  | lastMicroblock | previousEpoch
deriving DecidableEq,Repr

def processResultToDependency : ProcessResult → ProcessResultDependency
  | .progress => .progress
  | .badSignature => .notApplied
  | .gapPrevious => .previousBlock
  | .gapSource => .previousBlock
  | .unknownSourceAccount => .senderAccount
  | .unknownOrigin => .senderAccount
  | .insufficientBalance => .senderAccount
  | .invalidRequest => .generalErrorCode
  | .invalidTip => .lastMicroblock
  | .insufficientTokenBalance => .senderAccount
  | .untetheredAccount => .senderAccount
  | .notWhitelisted => .senderAccount
  | .frozen => .senderAccount
  | .electionsDeadPeriod => .previousEpoch
  | .insufficientFundsForStake => .senderAccount
  | .invalidAccountType => .senderAccount
  | _ => .badBlock

structure RequestBlock (H : Type) where
  hash : H
  epochNumber : Epoch
  primaryDelegate : Fin numDelegates
  sequence : BitVec 32
  previous : H
  requests : List (Request H)
deriving DecidableEq

/-- A micro block as the cache sees it, with the hashes that its tips name. -/
structure MicroBlock (H : Type) where
  hash : H
  epochNumber : Epoch
  sequence : BitVec 32
  previous : H
  lastMicroBlock : Bool
  tips : Fin numDelegates → H
deriving DecidableEq

structure EpochBlock (H : Type) where
  hash : H
  epochNumber : Epoch
  previous : H
  microBlockTip : H
deriving DecidableEq

inductive Block (H : Type)
  | request (b : RequestBlock H)
  | micro (b : MicroBlock H)
  | epoch (b : EpochBlock H)
deriving DecidableEq

inductive Lane
  | request (d : Fin numDelegates)
  | micro
  | epoch
deriving DecidableEq,Repr

namespace Block

variable {H : Type}

def hash : Block H → H
  | request b => b.hash
  | micro b => b.hash
  | epoch b => b.hash

def epochNumber : Block H → Epoch
  | request b => b.epochNumber
  | micro b => b.epochNumber
  | epoch b => b.epochNumber

/-- There is one epoch block in an epoch. -/
def sequence : Block H → BitVec 32
  | request b => b.sequence
  | micro b => b.sequence
  | epoch _ => 0

def lane : Block H → Lane
  | request b => .request b.primaryDelegate
  | micro _ => .micro
  | epoch _ => .epoch

def isEpoch : Block H → Bool
  | epoch _ => true
  | _ => false

/-- The hashes a block waits for after it failed; `none` where the node halts. -/
def dependencies (reason : ProcessResult) (requests : ℕ → ProcessResult) :
    Block H → Option (List H)
  | request b =>
    match processResultToDependency reason with
    | .previousBlock => some [b.previous]
    | .generalErrorCode => (b.requests.zipIdx.mapM fun (p : Request H × ℕ) =>
        match processResultToDependency (requests p.2) with
        | .progress => some []
        | .previousBlock => some [p.1.previous]
        | .senderAccount => some [p.1.getAccount]
        | _ => none).map List.flatten
    | _ => none
  | micro b =>
    match processResultToDependency reason with
    | .previousBlock => some [b.previous]
    | .generalErrorCode => some (((List.finRange numDelegates).filter fun i =>
        processResultToDependency (requests i.val) = .previousBlock).map b.tips)
    | _ => none
  | epoch b =>
    match processResultToDependency reason with
    | .previousBlock => some [b.previous]
    | .lastMicroblock => some [b.microBlockTip]
    | _ => none

end Block

/-- The blocks of an epoch that are not written yet, each chain with its first block in front. -/
structure EpochPeriod (H : Type) where
  epochNum : Epoch
  eb : Option (EpochBlock H)
  mbs : List (MicroBlock H)
  rbs : Fin numDelegates → List (RequestBlock H)

/-- What changes of a block while it waits, by hash. -/
structure Pending (H : Type) where
  reliances : Finset H
  lock : Bool
  directWrite : Bool

def Pending.default {H : Type} : Pending H := ⟨∅,false,false⟩

/-- The pending blocks, the write queue with its history, and the stored hashes. -/
structure Container (H : Type) where
  pending : H → Pending H
  epochs : List (EpochPeriod H)
  cachedBlocks : Finset H
  hashDependencyTable : List (H × H)
  recentDBWrites : List H
  queue : List (Block H)
  handed : List (Block H)
  database : Finset H

section Operations

variable {H : Type} [DecidableEq H]

namespace EpochPeriod

def empty (epochNum : Epoch) : EpochPeriod H := ⟨epochNum,none,[],fun _ => []⟩

def isEmpty (e : EpochPeriod H) : Bool :=
  e.eb.isNone && e.mbs.isEmpty && (List.finRange numDelegates).all fun d => (e.rbs d).isEmpty

def lane (e : EpochPeriod H) : Lane → List (Block H)
  | .request d => (e.rbs d).map .request
  | .micro => e.mbs.map .micro
  | .epoch => e.eb.toList.map .epoch

end EpochPeriod

/-- Look for the place of a new element from the back of a list, given in reverse; an equal key is a
duplicate. The flag says that it is in front of all. -/
def insertBack {α : Type} (key : α → BitVec 32) (x : α) : List α → Option (List α × Bool)
  | [] => some ([x],true)
  | y::ys =>
    if key y = key x then none
    else if key y < key x then some (x::y::ys,false)
    else (insertBack key x ys).map fun r => (y::r.1,r.2)

def insertChain {α : Type} (key : α → BitVec 32) (x : α) (l : List α) : List α × Bool :=
  match insertBack key x l.reverse with
  | some (l',front) => (l'.reverse,front)
  | none => (l,false)

/-- Look for the period of an epoch from the back; the flag asks for a validation. -/
def addPeriod (fresh : EpochPeriod H) (between : Bool)
    (change : EpochPeriod H → Bool → EpochPeriod H × Bool) :
    List (EpochPeriod H) → List (EpochPeriod H) × Bool
  | [] => ([fresh],true)
  | e::es =>
    if e.epochNum = fresh.epochNum then
      let (e',validate) := change e es.isEmpty
      (e'::es,validate)
    else if e.epochNum < fresh.epochNum then (fresh::e::es,between)
    else
      let (es',validate) := addPeriod fresh between change es
      (e::es',validate)

namespace Container

def maxRecentDBWrites : ℕ := 512

def empty (database : Finset H) : Container H := ⟨fun _ => .default,[],∅,[],[],[],[],database⟩

def setPending (c : Container H) (hash : H) (p : Pending H) : Container H :=
  { c with pending := Function.update c.pending hash p }

def setLock (c : Container H) (hash : H) (lock : Bool) : Container H :=
  c.setPending hash { c.pending hash with lock := lock }

def blockExistsAdd (c : Container H) (b : Block H) : Bool × Container H :=
  if b.hash ∈ c.cachedBlocks ∨ b.hash ∈ c.queue.map Block.hash ∨ b.hash ∈ c.database then
    (true,c)
  else (false,{ c with cachedBlocks := insert b.hash c.cachedBlocks })

def storeBlock (c : Container H) (b : Block H) : Container H :=
  { c with queue := c.queue ++ [b],handed := c.handed ++ [b] }

/-- The write thread takes up the next block of the queue. -/
def writeBlock (c : Container H) : Option (Container H × Block H) :=
  match c.queue with
  | b::queue => some ({ c with queue := queue,database := insert b.hash c.database },b)
  | [] => none

def blockDelete (c : Container H) (hash : H) : Container H :=
  { c with cachedBlocks := c.cachedBlocks.erase hash }

def addToPeriod (b : Block H) (e : EpochPeriod H) (first : Bool) : EpochPeriod H × Bool :=
  match b with
  | .epoch b =>
    if e.eb.isNone then ({ e with eb := some b },e.isEmpty && first) else (e,false)
  | .micro b =>
    let (mbs,front) := insertChain MicroBlock.sequence b e.mbs
    ({ e with mbs := mbs },front && first)
  | .request b =>
    let (rbs,front) := insertChain RequestBlock.sequence b (e.rbs b.primaryDelegate)
    ({ e with rbs := Function.update e.rbs b.primaryDelegate rbs },front)

/-- Whether a new period that is not the first one asks for a validation. -/
def betweenPeriods : Block H → Bool
  | .request _ => true
  | _ => false

/-- Take a block into its chain; the flag asks for a validation. -/
def addBlock (c : Container H) (b : Block H) (verified : Bool) : Container H × Bool :=
  let fresh := (addToPeriod b (.empty b.epochNumber) true).1
  let (epochs,validate) := addPeriod fresh (betweenPeriods b) (addToPeriod b) c.epochs.reverse
  ({ c with
      epochs := epochs.reverse
      pending := Function.update c.pending b.hash ⟨∅,false,verified⟩ },
    validate)

/-- The first part of `AddHashDependency`, under the mutex of the table. -/
def addDependency (c : Container H) (hash : H) (b : H) : Container H × Bool :=
  if hash ∈ c.recentDBWrites then (c,false)
  else ({ c with hashDependencyTable := c.hashDependencyTable ++ [(hash,b)] },true)

/-- The second part, under the mutex of the chains. -/
def addReliance (c : Container H) (hash : H) (b : H) : Container H :=
  c.setPending b { c.pending b with reliances := insert hash (c.pending b).reliances }

def addHashDependency (c : Container H) (hash : H) (b : H) : Container H :=
  match c.addDependency hash b with
  | (c,true) => c.addReliance hash b
  | (c,false) => c

/-- A hash that is in the history already keeps its place there. -/
def recordWrite (recent : List H) (hash : H) : List H :=
  let recent := if hash ∈ recent then recent else recent ++ [hash]
  if maxRecentDBWrites < recent.length then recent.tail else recent

/-- Take all that wait for a hash out of the table. -/
def deleteHashDependencies (c : Container H) (hash : H) : Container H × List H :=
  ({ c with
      recentDBWrites := recordWrite c.recentDBWrites hash
      hashDependencyTable := c.hashDependencyTable.filter fun p => p.1 ≠ hash },
    (c.hashDependencyTable.filter fun p => p.1 = hash).map Prod.snd)

def markForRevalidation (c : Container H) (hash : H) (chains : List H) : Container H :=
  chains.foldl (fun c b =>
    c.setPending b { c.pending b with reliances := (c.pending b).reliances.erase hash }) c

/-- A block that waits for nothing and that no thread validates. -/
def ready (c : Container H) (hash : H) : Bool :=
  decide ((c.pending hash).reliances = ∅) && !(c.pending hash).lock

/-- The first of the request chains from an index on whose front is ready. -/
def readyRequest (c : Container H) (rbs : Fin numDelegates → List (RequestBlock H)) :
    ℕ → Fin numDelegates → Option (RequestBlock H × Fin numDelegates)
  | 0,_ => none
  | n+1,idx =>
    match (rbs idx).head? with
    | some b => if c.ready b.hash then some (b,idx) else readyRequest c rbs n (idx + 1)
    | none => readyRequest c rbs n (idx + 1)

/-- Take the block off the front of its chain that the thread was given and found to be good. -/
def settle (e : EpochPeriod H) (ptr : Option (Block H)) (idx : Fin numDelegates) (success : Bool) :
    EpochPeriod H :=
  if success then
    match ptr with
    | some (.request _) => { e with rbs := Function.update e.rbs idx (e.rbs idx).tail }
    | some (.micro _) => { e with mbs := e.mbs.tail }
    | _ => e
  else e

/-- The thread has just settled the last micro block of the epoch. -/
def lastSettled (ptr : Option (Block H)) (success : Bool) : Bool :=
  match ptr with
  | some (.micro m) => success && m.lastMicroBlock
  | _ => false

/-- The block a period offers: from its request chains unless the thread comes from a micro or epoch
block, then from its micro blocks unless from the epoch block, then its epoch block if no micro
block is left. -/
def offer (c : Container H) (e : EpochPeriod H) (ptr : Option (Block H)) (idx : Fin numDelegates)
    (epochDue : Bool) : Option (Block H × Fin numDelegates) :=
  let fromRequests : Option (Block H × Fin numDelegates) := match ptr with
    | some (.micro _) => none
    | some (.epoch _) => none
    | _ => (c.readyRequest e.rbs numDelegates idx).map fun p => (.request p.1,p.2)
  let fromMicro : Option (Block H × Fin numDelegates) := match ptr with
    | some (.epoch _) => none
    | _ => (e.mbs.head?.filter fun m => c.ready m.hash).map fun m => (.micro m,idx)
  let fromEpoch : Option (Block H × Fin numDelegates) :=
    (e.eb.filter fun b => epochDue && c.ready b.hash).map fun b => (.epoch b,idx)
  (fromRequests.or fromMicro).or fromEpoch

def noEpoch : Epoch := -1

/-- The search goes on to a second and last period in the first minutes of a new epoch. -/
def movesOn (count : ℕ) (e : EpochPeriod H) (rest : List (EpochPeriod H)) : Bool :=
  count = 2 && e.eb.isNone && e.mbs.isEmpty && (rest.head?.any fun e' => e'.mbs.isEmpty)

/-- The loop of `GetNextBlock` over the periods, `before` being those passed. It starts at the
period of the thread's block, which the thread then gives back. -/
def search (c : Container H) (success : Bool) : List (EpochPeriod H) → List (EpochPeriod H) →
    Option (Block H) → Epoch → Fin numDelegates →
    Option (Container H × Option (Block H × Fin numDelegates))
  | before,[],_,_,_ => some ({ c with epochs := before },none)
  | before,e::rest,ptr,wanted,idx =>
    if wanted ≠ noEpoch ∧ e.epochNum ≠ wanted then
      search c success (before ++ [e]) rest ptr wanted idx
    else
      let e' := settle e ptr idx success
      if lastSettled ptr success ∧ e'.mbs ≠ [] then none
      else if ptr.any Block.isEpoch ∧ success then search c success before rest none noEpoch idx
      else match c.offer e' ptr idx (lastSettled ptr success || e.mbs.isEmpty) with
        | some (b,idx') =>
          some ({ c.setLock b.hash true with epochs := before ++ e'::rest },some (b,idx'))
        | none =>
          if movesOn (before.length + rest.length + 1) e' rest then
            search c success (before ++ [e']) rest none noEpoch idx
          else some ({ c with epochs := before ++ e'::rest },none)

def startIndex (idx : Fin numDelegates) : Block H → Fin numDelegates
  | .request b => b.primaryDelegate
  | _ => idx

/-- `GetNextBlock`: the thread gives back its block, says whether it was good, and may get another.
An assertion fails where a micro block follows the last of its epoch. -/
def getNextBlock (c : Container H) (ptr : Option (Block H)) (idx : Fin numDelegates)
    (success : Bool) : Option (Container H × Option (Block H × Fin numDelegates)) :=
  match ptr with
  | some b =>
    search (c.setLock b.hash false) success [] c.epochs ptr b.epochNumber (startIndex idx b)
  | none => search c success [] c.epochs none noEpoch idx

end Container

end Operations

end LogosCore.Cache

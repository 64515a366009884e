import LogosCore.CacheValidation
import LogosCore.Worklist
import LogosCore.Machine

/-! # The threads of the block cache

The threads that add blocks and validate them, the write thread, and those that release what waits
for a written block interleave at the grain of the mutexes: each step of a thread is one critical
section. -/
namespace LogosCore.Cache

open Ledger (Request Config Body)
open Archive (numDelegates)

def Block.released {H : Type} (requestHash : Request H → H) : Block H → List H
  | .request b => b.hash :: b.requests.flatMap fun r => requestHash r :: r.getSource ::
      match r.body with
      | .send transactions => transactions.map (·.destination)
      | .revoke _ _ transaction => [transaction.destination]
      | .distribute _ transaction => [transaction.destination]
      | .withdrawFee _ transaction => [transaction.destination]
      | .withdrawLogos _ transaction => [transaction.destination]
      | .tokenSend _ transactions _ => transactions.map (·.destination)
      | _ => []
  | .micro b => [b.hash]
  | .epoch b => [b.hash]

/-- Where a thread stands between two critical sections, with the hashes released so far. -/
inductive Phase (H : Type)
  | idle
  | adding (b : Block H) (verified : Bool)
  | asking (ptr : Option (Block H)) (idx : Fin numDelegates) (success : Bool)
  | holding (b : Block H) (idx : Fin numDelegates)
  | storing (b : Block H) (idx : Fin numDelegates)
  | waiting (b : Block H) (idx : Fin numDelegates) (seen : ℕ) (hashes : List H)
  | relying (b : Block H) (idx : Fin numDelegates) (seen : ℕ) (hash : H) (hashes : List H)
  | marking (hashes : List H) (marked : Bool)
  | revalidating (hash : H) (chains : List H) (hashes : List H)

def Phase.given {H : Type} : Option (Block H × Fin numDelegates) → Phase H
  | some (b,idx) => .holding b idx
  | none => .idle

/-- The container, the threads, the written blocks still to be processed, and two histories: the
released hashes, and how many there were when a block was last found to wait for a hash. -/
structure Node (H ω : Type) where
  container : Container H
  threads : ω → Phase H
  posted : List (Block H)
  releases : List H
  asked : H → H → ℕ

inductive Event (H ω : Type)
  | arrive (thread : ω) (b : Block H) (verified : Bool)
  | advance (thread : ω) (verdict : Option Refusal)
  | write
  | process (thread : ω) (b : Block H)

namespace Node

variable {H ω : Type} [DecidableEq H] [DecidableEq ω]

def start (database : Finset H) : Node H ω :=
  ⟨.empty database,fun _ => .idle,[],[],fun _ _ => 0⟩

def setPhase (s : Node H ω) (thread : ω) (phase : Phase H) : Node H ω :=
  { s with threads := Function.update s.threads thread phase }

def after (s : Node H ω) (c : Container H) (thread : ω) (phase : Phase H) : Node H ω :=
  { s with container := c }.setPhase thread phase

/-- The next critical section of a thread, after a validation with outcome `verdict`. -/
def advance (s : Node H ω) (thread : ω) (verdict : Option Refusal) : Option (Node H ω) :=
  match s.threads thread with
  | .idle => some s
  | .adding b verified =>
    let (c,validate) := s.container.addBlock b verified
    some (s.after c thread
      (if validate then .asking none (Container.startIndex 0 b) false else .idle))
  | .asking ptr idx success =>
    (s.container.getNextBlock ptr idx success).map fun r => s.after r.1 thread (.given r.2)
  | .holding b idx =>
    match s.container.verdict (fun _ => verdict) b with
    | none => some (s.after (s.container.storeBlock b) thread (.storing b idx))
    | some refusal => (b.dependencies refusal.reason refusal.requests).map fun hashes =>
        s.setPhase thread (.waiting b idx s.releases.length hashes)
  | .storing b idx =>
    some (s.after (s.container.blockDelete b.hash) thread (.asking (some b) idx true))
  | .waiting b idx _ [] => some (s.setPhase thread (.asking (some b) idx false))
  | .waiting b idx seen (hash::hashes) =>
    match s.container.addDependency hash b.hash with
    | (_,false) => some (s.setPhase thread (.waiting b idx seen hashes))
    | (c,true) =>
      let asked := Function.update s.asked hash (Function.update (s.asked hash) b.hash seen)
      some ({ s with asked := asked }.after c thread (.relying b idx seen hash hashes))
  | .relying b idx seen hash hashes =>
    some (s.after (s.container.addReliance hash b.hash) thread (.waiting b idx seen hashes))
  | .marking [] marked =>
    some (s.setPhase thread (if marked then .asking none 0 false else .idle))
  | .marking (hash::hashes) marked =>
    let (c,chains) := s.container.deleteHashDependencies hash
    some ({ s with releases := s.releases ++ [hash] }.after c thread
      (if chains.isEmpty then .marking hashes marked else .revalidating hash chains hashes))
  | .revalidating hash chains hashes =>
    some (s.after (s.container.markForRevalidation hash chains) thread (.marking hashes true))

/-- What happens in the node. Only an idle thread takes up a new block or a written one. -/
def step (requestHash : Request H → H) (s : Node H ω) : Event H ω → Option (Node H ω × List Empty)
  | .arrive thread b verified =>
    match s.threads thread,s.container.blockExistsAdd b with
    | .idle,(false,c) => some (s.after c thread (.adding b verified),[])
    | _,_ => some (s,[])
  | .advance thread verdict => (s.advance thread verdict).map (·,[])
  | .write =>
    match s.container.writeBlock with
    | some (c,b) => some ({ s with container := c,posted := s.posted ++ [b] },[])
    | none => some (s,[])
  | .process thread b =>
    match s.threads thread with
    | .idle =>
      if b ∈ s.posted then
        some ({ s with posted := s.posted.erase b }.setPhase thread
          (.marking (b.released requestHash) false),[])
      else some (s,[])
    | _ => some (s,[])

end Node

/-! ## What the threads do to the chains -/

def Phase.role {H : Type} : Phase H → Worklist.Role (Block H)
  | .adding b _ => .adding b
  | .asking (some b) _ true => .settled b
  | .asking (some b) _ false => .holding b
  | .holding b _ => .holding b
  | .storing b _ => .storing b
  | .waiting b _ _ _ => .holding b
  | .relying b _ _ _ _ => .holding b
  | _ => .free

def Lane.isRequest : Lane → Bool
  | .request _ => true
  | _ => false

/-- Blocks are told apart by their hashes, and stand in the chains of their epochs. -/
def keys {H : Type} : Worklist.Keys (Block H) H (Ledger.Epoch × Lane) :=
  ⟨Block.hash,fun b => (b.epochNumber,b.lane),fun b => b.sequence.toNat⟩

/-- The chains whose blocks have to leave in order. -/
def requestChains : Set (Ledger.Epoch × Lane) := {k | k.2.isRequest = true}

section Shelf

variable {H ω : Type} [DecidableEq H] [DecidableEq ω]

namespace Container

/-- A block has a place of its own behind those being validated or queued. -/
def Fits (c : Container H) (b : Block H) : Prop :=
  b.epochNumber ≠ noEpoch ∧
  (∀ b' ∈ c.blocks,SameChain b' b → b'.sequence ≠ b.sequence ∧
    ((c.pending b'.hash).lock = true → b'.sequence < b.sequence)) ∧
  (b.lane.isRequest = true → ∀ b' ∈ c.handed,SameChain b' b → b'.sequence < b.sequence)

instance (c : Container H) (b : Block H) : Decidable (c.Fits b) :=
  inferInstanceAs (Decidable (_ ∧ _ ∧ _))

def Alone (c : Container H) (b : Block H) : Prop :=
  ∀ b' ∈ c.blocks,b'.epochNumber = b.epochNumber → b' = b

instance (c : Container H) (b : Block H) : Decidable (c.Alone b) :=
  inferInstanceAs (Decidable (∀ _ ∈ _,_))

end Container

namespace Node

/-- A block put into its chain has a place there; an epoch block that leaves ends its epoch. -/
def meets (s : Node H ω) : Event H ω → Bool
  | .advance thread _ =>
    match s.threads thread with
    | .adding b _ => s.container.Fits b
    | .asking (some b) _ true => b.isEpoch = true → s.container.Alone b
    | _ => true
  | _ => true

def shelf (s : Node H ω) : Worklist.Shelf (Block H) H ω where
  items := {b | Chained s.container.epochs b}
  cached := {hash | hash ∈ s.container.cachedBlocks}
  present := {hash | hash ∈ s.container.queue.map Block.hash ∨ hash ∈ s.container.database}
  handed := s.container.handed
  locked := {hash | (s.container.pending hash).lock = true}
  roles := Phase.role ∘ s.threads

end Node

structure SameShelf (c c' : Container H) : Prop where
  epochs : c'.epochs = c.epochs
  cached : c'.cachedBlocks = c.cachedBlocks
  present : ∀ hash,(hash ∈ c'.queue.map Block.hash ∨ hash ∈ c'.database) ↔
    (hash ∈ c.queue.map Block.hash ∨ hash ∈ c.database)
  handed : c'.handed = c.handed
  locks : ∀ hash,(c'.pending hash).lock = (c.pending hash).lock

namespace Node

variable {s s' : Node H ω} {c : Container H} {thread : ω} {phase : Phase H}

theorem roles_setPhase (s : Node H ω) (thread : ω) (phase : Phase H) :
    Phase.role ∘ (s.setPhase thread phase).threads =
      Function.update (Phase.role ∘ s.threads) thread phase.role :=
  Function.comp_update _ _ _ _

/-- A step that leaves what stands on the shelf and the role of its thread leaves the shelf. -/
theorem shelf_eq (hc : SameShelf s.container s'.container)
    (hroles : Phase.role ∘ s'.threads = Phase.role ∘ s.threads) : s'.shelf = s.shelf := by
  simp only [shelf,hc.epochs,hc.cached,hc.present,hc.handed,hc.locks,hroles]

end Node

end Shelf

end LogosCore.Cache

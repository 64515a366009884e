import LogosCore.WakeUps
import LogosCore.TouchedAccounts
import LogosCore.EpochBlocks

/-! # Waiting for an account

A request block whose validation failed for the state of an account waits for the address of this
account. Every written block releases a list of addresses, which is not the list of the accounts
that the block changes. -/
namespace LogosCore.Cache

open Ledger (Request Config Body Store Delegate Submission TokenAccount AccountInfo)

variable {H : Type} [DecidableEq H]

namespace Container

variable {c : Container H} {hash b : H}

def deleteAndMark (c : Container H) (hash : H) : Container H :=
  (c.deleteHashDependencies hash).1.markForRevalidation hash (c.deleteHashDependencies hash).2

/-- A written block wakes those that wait for what it releases. -/
def markAsValidated (requestHash : Request H → H) (c : Container H) (block : Block H) :
    Container H :=
  (block.released requestHash).foldl deleteAndMark c

/-- A block waits for a hash and is registered for it. -/
def Awaits (c : Container H) (b hash : H) : Prop :=
  (hash,b) ∈ c.hashDependencyTable ∧ hash ∈ (c.pending b).reliances

theorem mem_released_chains : b ∈ (c.deleteHashDependencies hash).2 ↔
    (hash,b) ∈ c.hashDependencyTable := by
  simp [deleteHashDependencies]

theorem reliances_deleteAndMark_self (h : c.Awaits b hash) :
    hash ∉ ((c.deleteAndMark hash).pending b).reliances := by
  rw [deleteAndMark,reliances_markForRevalidation,if_pos (mem_released_chains.mpr h.1)]
  exact Finset.notMem_erase hash _

theorem awaits_deleteAndMark_of_ne {other : H} (hne : hash ≠ other) (h : c.Awaits b hash) :
    (c.deleteAndMark other).Awaits b hash := by
  constructor
  · rw [deleteAndMark,table_markForRevalidation]
    simp [deleteHashDependencies,h.1,hne]
  · rw [deleteAndMark,reliances_markForRevalidation]
    split
    · exact Finset.mem_erase.mpr ⟨hne,h.2⟩
    · exact h.2

theorem notMem_deleteAndMark {other : H} (h : hash ∉ (c.pending b).reliances) :
    hash ∉ ((c.deleteAndMark other).pending b).reliances := by
  rw [deleteAndMark,reliances_markForRevalidation]
  split
  · exact fun hmem => h (Finset.mem_of_mem_erase hmem)
  · exact h

theorem notMem_foldl_deleteAndMark (hashes : List H) (h : hash ∉ (c.pending b).reliances) :
    hash ∉ ((hashes.foldl deleteAndMark c).pending b).reliances := by
  induction hashes generalizing c with
  | nil => exact h
  | cons other hashes ih => exact ih (notMem_deleteAndMark h)

/-- A block that waits for a hash is woken if and only if the hash is released. -/
theorem foldl_deleteAndMark_wakes_iff (hashes : List H) (h : c.Awaits b hash) :
    hash ∉ ((hashes.foldl deleteAndMark c).pending b).reliances ↔ hash ∈ hashes := by
  induction hashes generalizing c with
  | nil => simp [h.2]
  | cons other hashes ih =>
    by_cases hne : hash = other
    · subst hne
      simpa using notMem_foldl_deleteAndMark hashes (reliances_deleteAndMark_self h)
    · simpa [hne] using ih (awaits_deleteAndMark_of_ne hne h)

end Container

/-- The accounts that a request changes and that are not released with it. -/
def overlooked : Body H → List H
  | .issuance i => [i.tokenId]
  | .issueAdditional tokenId _ => [tokenId]
  | .revoke tokenId _ _ => [tokenId]
  | .adjustUserStatus _ account _ => [account]
  | .tokenSend tokenId _ _ => [tokenId]
  | _ => []

/-- The block may change an account without releasing it; an epoch block releases no account. -/
def Block.Overlooks (a : H) : Block H → Prop
  | .request b => ∃ r ∈ b.requests,a ∈ overlooked r.body
  | .micro _ => False
  | .epoch _ => True

section Accounts

variable [Zero H] {cfg : Config H} {digest : Delegate H → ℕ} {block : Block H} {s s' : Store H}
  {a : H}

/-- `ApplyUpdates` of a block that is not stored yet, as far as it concerns the accounts. -/
inductive Applied (cfg : Config H) (digest : Delegate H → ℕ) :
    Block H → Store H → Store H → Prop
  | request (b : RequestBlock H) (timestamp : BitVec 64) (s s' : Store H)
      (h : Store.applyRequestBlock cfg s.gov.requestExists timestamp b.epochNumber b.requests
        (s.storeRequests cfg timestamp b.requests) = some s') : Applied cfg digest (.request b) s s'
  | micro (b : MicroBlock H) (s : Store H) : Applied cfg digest (.micro b) s s
  | epoch (b : EpochBlock H) (contents : Ledger.EpochBlock H) (s s' : Store H)
      (h : Store.applyEpoch cfg digest s b.hash contents = .ok s') :
      Applied cfg digest (.epoch b) s s'

/-- An account that a request touches is released with it or overlooked. -/
theorem mem_released_of_touched {b : RequestBlock H} {r : Request H} (hr : r ∈ b.requests)
    (ha : a ∈ r.touched) (hover : a ∉ overlooked r.body) (requestHash : Request H → H) :
    a ∈ (Block.request b).released requestHash := by
  simp only [Block.released,List.mem_cons,List.mem_flatMap]
  refine .inr ⟨r,hr,.inr ?_⟩
  obtain ⟨origin,previous,fee,sequence,signature,locator,body⟩ := r
  cases body <;>
    simp_all [Request.touched,Body.named,overlooked,Request.getSource,Request.getAccount,
      Body.administered]

theorem mem_released_of_changed (happlied : Applied cfg digest block s s')
    (hchanged : s'.accounts.lookup a ≠ s.accounts.lookup a) (hover : ¬block.Overlooks a) :
    a ∈ block.released cfg.requestHash := by
  cases happlied with
  | request b timestamp s s' h =>
    by_contra hreleased
    have huntouched : ∀ r ∈ b.requests,a ∉ r.touched := by
      intro r hr htouched
      exact hreleased (mem_released_of_touched hr htouched (fun h => hover ⟨r,hr,h⟩) _)
    have hstored : Store.Keeps a s (s.storeRequests cfg timestamp b.requests) :=
      Store.keeps_storeRequests timestamp b.requests
    exact hchanged (hstored.trans (Store.keeps_applyRequestBlock huntouched h))
  | micro b s => exact absurd rfl hchanged
  | epoch b contents s s' h => exact absurd trivial hover

end Accounts

section Sample

/-- Account 1 holds 100 units of token 9 and is a controller of the token; nobody has paid a fee. -/
def feeSample : Store ℕ :=
  ((Store.empty.accountPut 2 (.user .default)).accountPut 9 (.token
    { TokenAccount.ofIssuance ⟨9,[],[],100,.flat,0,1,[⟨1,0xffffffff⟩],[]⟩ with
      tokenBalance := 0
      balance := 2 ^ 100 })).accountPut 1
    (.user { AccountInfo.default with
      balance := 2 ^ 100
      availableBalance := 2 ^ 100
      entries := [⟨9,.default,100⟩] })

/-- Account 1 sends 40 units of token 9 to account 2, for a fee of 5 units. -/
def feePayment : RequestBlock ℕ :=
  ⟨50,5,0,0,0,[⟨1,0,0x21e19e0c9bab2400000,0,0,7,.tokenSend 9 [⟨2,40⟩] 5⟩]⟩

def feeWithdrawal : Submission ℕ where
  request := ⟨1,0,0x21e19e0c9bab2400000,0,0,8,.withdrawFee 9 ⟨1,5⟩⟩
  epoch := 5
  timestamp := 9
  canAcquire _ _ := true
  allowDuplicates := true

def withdrawalBlock : Block ℕ := .request ⟨60,5,1,0,0,[feeWithdrawal.request]⟩

def Container.withdrawalAwaits (a : ℕ) : Container ℕ :=
  ((Container.empty ∅).addBlock withdrawalBlock false).1.addHashDependency a withdrawalBlock.hash

theorem Container.awaits_withdrawalAwaits (a : ℕ) :
    (withdrawalAwaits a).Awaits withdrawalBlock.hash a := by
  constructor
  · exact List.mem_singleton.mpr rfl
  · simp [withdrawalAwaits,addHashDependency,addDependency,addReliance,setPending,addBlock,empty]

end Sample
end LogosCore.Cache

import LogosCore.Chains
import LogosCore.ElectionFrames
import LogosCore.EpochBlocks

/-! # Receive chains

Every credit of an account is a receive. The receives of an account are linked to a chain, newest
first, whose head and length the account holds; those who place a receive keep head and length. -/
namespace LogosCore.Ledger

open Option

variable {H : Type} [DecidableEq H] [Zero H] (cfg : Config H)

namespace Store

def sourceTimestamp (s : Store H) (source : H) : Option (BitVec 64) :=
  (s.receiveTimestamp ⟨0,source,0⟩).map (·.1)

/-- The order of receives: by timestamp, then by hash. -/
def After (s : Store H) (b c : ReceiveBlock H) : Prop :=
  ∃ t ∈ s.sourceTimestamp b.sourceHash,∃ u ∈ s.sourceTimestamp c.sourceHash,
    u < t ∨ u = t ∧ cfg.rank (c.hash cfg) < cfg.rank (b.hash cfg)

instance (s : Store H) (b c : ReceiveBlock H) : Decidable (s.After cfg b c) :=
  -- not the instance that tries all timestamps
  have : DecidablePred fun t : BitVec 64 => ∃ u ∈ s.sourceTimestamp c.sourceHash,
      u < t ∨ u = t ∧ cfg.rank (c.hash cfg) < cfg.rank (b.hash cfg) :=
    fun _ => Option.decidableExistsMem ..
  Option.decidableExistsMem ..

/-- The head of the receive chain of an account and the number of its receives. -/
def receiveEnd (s : Store H) (account : H) : H × BitVec 32 :=
  ((s.accounts.lookup account).map fun info =>
    (info.base.receiveHead,info.base.receiveCount)).getD (0,0)

/-- The walk passes the placed receives, each once and in order, as many as are counted. -/
structure IsReceiveChain (s : Store H) (chainEnd : H × BitVec 32) (placed : List H)
    (chain : List (ReceiveBlock H)) : Prop where
  visits : s.receives.Visits ReceiveBlock.previous 0 chainEnd.1 chain
  descending : chain.Pairwise (s.After cfg)
  complete : (chain.map (·.hash cfg)).Perm placed
  count : chainEnd.2.toNat = chain.length

omit [Zero H] in
def placedFor (log : List (H × H)) (account : H) : List H :=
  (log.filter (·.1 = account)).map (·.2)

/-- Every account has its chain, and receives are stored under their hashes. -/
structure Chained (s : Store H) (log : List (H × H)) : Prop where
  chain : ∀ account,∃ chain,
    s.IsReceiveChain cfg (s.receiveEnd account) (placedFor log account) chain
  keyed : ∀ k b,s.receives.lookup k = some b → b.hash cfg = k ∧ k ≠ 0

/-- A receive that is new and comes after all others of its account, which has room for it. -/
structure Joins (s : Store H) (account source : H) (index : BitVec 16) : Prop where
  ne_zero : cfg.receiveHash source index ≠ 0
  fresh : cfg.receiveHash source index ∉ s.receives
  room : (s.receiveEnd account).2 ≠ BitVec.allOnes 32
  after : ∀ cur,s.receives.lookup (s.receiveEnd account).1 = some cur →
    s.After cfg ⟨(s.receiveEnd account).1,source,index⟩ cur

theorem joins_iff {s : Store H} {account source : H} {index : BitVec 16} :
    (cfg.receiveHash source index ≠ 0 ∧ cfg.receiveHash source index ∉ s.receives ∧
      (s.receiveEnd account).2 ≠ BitVec.allOnes 32 ∧
      ∀ cur ∈ s.receives.lookup (s.receiveEnd account).1,
        s.After cfg ⟨(s.receiveEnd account).1,source,index⟩ cur) ↔
      s.Joins cfg account source index :=
  ⟨fun h => ⟨h.1,h.2.1,h.2.2.1,h.2.2.2⟩,fun h => ⟨h.ne_zero,h.fresh,h.room,h.after⟩⟩

instance (s : Store H) (account source : H) (index : BitVec 16) :
    Decidable (s.Joins cfg account source index) :=
  decidable_of_iff _ (joins_iff cfg)

def sources (s : Store H) := (s.requestBlocks,s.gov.requests,s.gov.epochs)

variable {cfg} {s s' : Store H} {log : List (H × H)}

theorem sourceTimestamp_congr (h : s'.sources = s.sources) (source : H) :
    s'.sourceTimestamp source = s.sourceTimestamp source := by
  simp only [sources,Prod.mk.injEq] at h
  simp only [sourceTimestamp,receiveTimestamp,GovernanceStore.epochGet,h.1,h.2.1,h.2.2]

theorem after_congr {b c : ReceiveBlock H}
    (hb : s'.sourceTimestamp b.sourceHash = s.sourceTimestamp b.sourceHash)
    (hc : s'.sourceTimestamp c.sourceHash = s.sourceTimestamp c.sourceHash) :
    s'.After cfg b c ↔ s.After cfg b c := by
  simp only [After,hb,hc]

theorem After.trans {b c d : ReceiveBlock H} (hbc : s.After cfg b c) (hcd : s.After cfg c d) :
    s.After cfg b d := by
  obtain ⟨t,ht,u,hu,hbc⟩ := hbc
  obtain ⟨u',hu',v,hv,hcd⟩ := hcd
  cases mem_unique hu hu'
  refine ⟨t,ht,v,hv,?_⟩
  rcases hbc with hbc | ⟨rfl,hbc⟩
  · left
    rcases hcd with hcd | ⟨rfl,-⟩
    · exact BitVec.lt_trans hcd hbc
    · exact hbc
  · rcases hcd with hcd | ⟨rfl,hcd⟩
    · exact .inl hcd
    · exact .inr ⟨rfl,hcd.trans hbc⟩

theorem placeReceive_of_after {receive : ReceiveBlock H} {timestamp : BitVec 64}
    (hend : s.receives.lookup receive.previous = none → receive.previous = 0)
    (hsource : s.sourceTimestamp receive.sourceHash = some timestamp)
    (hafter : ∀ cur,s.receives.lookup receive.previous = some cur → s.After cfg receive cur) :
    s.placeReceive cfg receive timestamp = some (s.receivePut cfg receive) := by
  unfold placeReceive
  cases hcur : s.receives.lookup receive.previous with
  | none => exact if_pos (hend hcur)
  | some cur =>
    obtain ⟨t,ht,u,hu,hlt⟩ := hafter cur hcur
    cases mem_unique hsource ht
    obtain ⟨⟨u',isRequest⟩,hdated,rfl⟩ := map_eq_some_iff.mp hu
    have hdated' : s.receiveTimestamp cur = some (u',isRequest) := hdated
    have hnot : ¬if timestamp ≠ u' then timestamp < u'
        else cfg.rank (receive.hash cfg) < cfg.rank (cur.hash cfg) := by
      rcases hlt with hlt | ⟨rfl,hlt⟩
      · have hne : timestamp ≠ u' := by
          rintro rfl
          exact BitVec.lt_irrefl _ hlt
        rw [if_pos hne]
        exact BitVec.lt_asymm hlt
      · simp only [ne_eq,not_true,if_false]
        exact Nat.lt_asymm hlt
    have hslot : s.receiveSlot cfg (receive.hash cfg) (s.receives.entries.length + 1) timestamp none
        cur = some none := by
      simp only [receiveSlot,hdated',bind_eq_bind,bind_some]
      exact if_neg hnot
    simp only [hslot,bind_eq_bind,bind_some]

omit [Zero H] in
@[simp] theorem placedFor_append (log log' : List (H × H)) (account : H) :
    placedFor (log ++ log') account = placedFor log account ++ placedFor log' account := by
  simp [placedFor]

omit [Zero H] in
@[simp] theorem placedFor_singleton (account account' hash : H) :
    placedFor [(account,hash)] account' = if account = account' then [hash] else [] := by
  by_cases h : account = account' <;> simp [placedFor,h]

theorem IsReceiveChain.congr {chainEnd : H × BitVec 32} {placed : List H}
    {chain : List (ReceiveBlock H)} (h : s.IsReceiveChain cfg chainEnd placed chain)
    (hvisits : s'.receives.Visits ReceiveBlock.previous 0 chainEnd.1 chain)
    (hdates : ∀ b ∈ chain,s'.sourceTimestamp b.sourceHash = s.sourceTimestamp b.sourceHash) :
    s'.IsReceiveChain cfg chainEnd placed chain := by
  refine ⟨hvisits,?_,h.complete,h.count⟩
  refine h.descending.imp_of_mem fun hb hc hafter => ?_
  exact (after_congr (hdates _ hb) (hdates _ hc)).mpr hafter

theorem IsReceiveChain.cons {chainEnd : H × BitVec 32} {placed : List H}
    {chain : List (ReceiveBlock H)} {receive : ReceiveBlock H}
    (h : s.IsReceiveChain cfg chainEnd placed chain) (hprevious : receive.previous = chainEnd.1)
    (hne : receive.hash cfg ≠ 0) (hfresh : receive.hash cfg ∉ s.receives)
    (hroom : chainEnd.2 ≠ BitVec.allOnes 32)
    (hafter : ∀ cur,s.receives.lookup chainEnd.1 = some cur → s.After cfg receive cur)
    (hsources : s'.sources = s.sources)
    (hreceives : s'.receives = s.receives.insert (receive.hash cfg) receive) :
    s'.IsReceiveChain cfg (receive.hash cfg,chainEnd.2 + 1) (placed ++ [receive.hash cfg])
      (receive::chain) := by
  have hdates := sourceTimestamp_congr hsources
  have hall : ∀ b ∈ chain,s.After cfg receive b := by
    intro b hb
    cases chain with
    | nil => cases hb
    | cons c cs =>
      have hhead := hafter c h.visits.2.1
      rcases List.mem_cons.mp hb with rfl | hb
      · exact hhead
      · exact hhead.trans (List.rel_of_pairwise_cons h.descending hb)
  refine ⟨?_,?_,?_,?_⟩
  · rw [hreceives]
    exact Table.Visits.cons (hprevious ▸ h.visits) hfresh hne
  · refine List.pairwise_cons.mpr ⟨fun b hb => ?_,h.descending.imp fun hbc => ?_⟩
    · exact (after_congr (hdates _) (hdates _)).mpr (hall b hb)
    · exact (after_congr (hdates _) (hdates _)).mpr hbc
  · exact (h.complete.cons _).trans (List.perm_append_singleton _ _).symm
  · have hcount := h.count
    have hones : (BitVec.allOnes 32).toNat = 2 ^ 32 - 1 := rfl
    simp only [List.length_cons]
    bv_omega

/-- Head and count of the account of a new receive, and of all others. -/
def Extends (s s' : Store H) (account hash : H) : Prop :=
  ∀ a,s'.receiveEnd a = if a = account then (hash,(s.receiveEnd account).2 + 1) else s.receiveEnd a

theorem Chained.joins (h : s.Chained cfg log) {account source : H} {index : BitVec 16}
    (hjoins : s.Joins cfg account source index) (hsources : s'.sources = s.sources)
    (hreceives : s'.receives = s.receives.insert (cfg.receiveHash source index)
      ⟨(s.receiveEnd account).1,source,index⟩)
    (hend : s.Extends s' account (cfg.receiveHash source index)) :
    s'.Chained cfg (log ++ [(account,cfg.receiveHash source index)]) := by
  constructor
  · intro a
    rw [hend a,placedFor_append,placedFor_singleton]
    by_cases ha : a = account
    · subst ha
      obtain ⟨chain,hchain⟩ := h.chain a
      rw [if_pos rfl,if_pos rfl]
      let receive : ReceiveBlock H := ⟨(s.receiveEnd a).1,source,index⟩
      have hjoined : s'.IsReceiveChain cfg (receive.hash cfg,(s.receiveEnd a).2 + 1)
          (placedFor log a ++ [receive.hash cfg]) (receive::chain) :=
        hchain.cons rfl hjoins.ne_zero hjoins.fresh hjoins.room hjoins.after hsources hreceives
      exact ⟨_,hjoined⟩
    · obtain ⟨chain,hchain⟩ := h.chain a
      rw [if_neg ha,if_neg (Ne.symm ha),List.append_nil]
      refine ⟨chain,hchain.congr ?_ fun b _ => sourceTimestamp_congr hsources _⟩
      rw [hreceives]
      exact hchain.visits.insert hjoins.fresh _
  · intro k b hb
    rw [hreceives,Table.lookup_insert_ite] at hb
    split at hb
    · next hk =>
      cases hb
      exact ⟨hk.symm,hk ▸ hjoins.ne_zero⟩
    · exact h.keyed k b hb

theorem Chained.congr (h : s.Chained cfg log) (hreceives : s'.receives = s.receives)
    (hend : ∀ a,s'.receiveEnd a = s.receiveEnd a) (hdates : ∀ k b,s.receives.lookup k = some b →
      s'.sourceTimestamp b.sourceHash = s.sourceTimestamp b.sourceHash) : s'.Chained cfg log := by
  constructor
  · intro a
    obtain ⟨chain,hchain⟩ := h.chain a
    rw [hend]
    refine ⟨chain,hchain.congr (hreceives ▸ hchain.visits) fun b hb => ?_⟩
    obtain ⟨k,hk⟩ := hchain.visits.stored hb
    exact hdates k b hk
  · rw [hreceives]
    exact h.keyed

/-- What the walks along receive chains read besides the accounts. -/
structure SameTrail (s s' : Store H) : Prop where
  receives : s'.receives = s.receives
  sources : s'.sources = s.sources
  accounts : s'.accounts = s.accounts

def chainEnd (info : Account H) : H × BitVec 32 := (info.base.receiveHead,info.base.receiveCount)

theorem leaves_setBalance_trail (info : AccountInfo H) (newBalance : Amount) (epoch : Epoch) :
    (info.setBalance newBalance epoch).Leaves fun g => (g.requests,g.epochs) := by
  refine ⟨fun g => (info.wp_setBalance trivial newBalance epoch (.inr trivial) g).imp
    fun _ g' h => ?_⟩
  rw [h.1]

theorem sameTrail_runGov {α : Type} {x : Gov H α} {a : α}
    (hx : x.Leaves fun g => (g.requests,g.epochs)) (h : s.runGov x = some (a,s')) :
    s.SameTrail s' := by
  obtain ⟨g',hrun,rfl⟩ := runGov_eq_some.mp h
  have hsame := hx.run hrun
  simp only [Prod.mk.injEq] at hsame
  refine ⟨rfl,?_,rfl⟩
  simp only [sources,hsame.1,hsame.2]

variable {info' : Account H}

theorem setBalance_trail {info : Account H} {newBalance : Amount} {epoch : Epoch}
    (h : s.setBalance info newBalance epoch = some (info',s')) :
    s.SameTrail s' ∧ chainEnd info' = chainEnd info := by
  cases info with
  | token t =>
    cases h
    exact ⟨⟨rfl,rfl,rfl⟩,rfl⟩
  | user u =>
    obtain ⟨⟨u',s1⟩,hrun,heq⟩ := map_eq_some_iff.mp h
    cases heq
    have hu := (result_runGov (u.ensures_setBalance newBalance epoch) hrun).1
    refine ⟨sameTrail_runGov (leaves_setBalance_trail ..) hrun,?_⟩
    rw [hu]
    rfl

theorem addTokens_trail {info : Account H} {tokenId : H} {send : Transaction H}
    (h : s.addTokens cfg info tokenId send = some (info',s')) :
    s.SameTrail s' ∧ chainEnd info' = chainEnd info := by
  obtain ⟨u,hu,heq⟩ := map_eq_some_iff.mp h
  cases Account.asUser_eq_some.mp hu
  unfold tether at heq
  dsimp only at heq
  split at heq
  · cases heq
    exact ⟨⟨rfl,rfl,rfl⟩,rfl⟩
  · cases heq
    exact ⟨⟨rfl,rfl,rfl⟩,rfl⟩

theorem receiver_chainEnd {origin hash : H} {info : Option (Account H)}
    (h : s.receiver origin info hash = some info') :
    chainEnd info' = (hash,((info.map chainEnd).getD (0,0)).2 + 1) := by
  obtain ⟨a,ha,rfl⟩ := map_eq_some_iff.mp h
  have hopened : chainEnd a = (info.map chainEnd).getD (0,0) := by
    cases info with
    | some b =>
      cases ha
      rfl
    | none =>
      dsimp only at ha
      split at ha
      · cases ha
        rfl
      · cases ha
  have hcount : a.base.receiveCount = ((info.map chainEnd).getD (0,0)).2 := by rw [← hopened]; rfl
  cases a <;> rw [← hcount] <;> rfl

theorem receiveEnd_accountPut (s : Store H) (account : H) (info : Account H) (a : H) :
    (s.accountPut account info).receiveEnd a =
      if a = account then chainEnd info else s.receiveEnd a := by
  unfold receiveEnd accountPut
  rw [Table.lookup_insert_ite]
  split <;> rfl

theorem receiveEnd_congr (h : s'.accounts = s.accounts) (a : H) : s'.receiveEnd a = s.receiveEnd a := by
  simp only [receiveEnd,h]

/-- The receive that joins a chain is put in front of it. -/
theorem Chained.placeReceive (h : s.Chained cfg log) {account source : H} {index : BitVec 16}
    {timestamp : BitVec 64} (hjoins : s.Joins cfg account source index)
    (hsource : s.sourceTimestamp source = some timestamp) {s1 : Store H}
    (hreceives : s1.receives = s.receives) (hsources : s1.sources = s.sources) :
    s1.placeReceive cfg ⟨(s.receiveEnd account).1,source,index⟩ timestamp =
      some (s1.receivePut cfg ⟨(s.receiveEnd account).1,source,index⟩) := by
  have hdates := sourceTimestamp_congr hsources
  refine placeReceive_of_after (fun hnone => ?_) ((hdates source).trans hsource) fun cur hcur => ?_
  · obtain ⟨chain,hchain⟩ := h.chain account
    cases chain with
    | nil => exact hchain.visits
    | cons c cs =>
      rw [hreceives] at hnone
      cases hnone.symm.trans hchain.visits.2.1
  · rw [hreceives] at hcur
    exact (after_congr (hdates _) (hdates _)).mpr (hjoins.after cur hcur)

/-- A credit of an account places the receive of its source. -/
theorem Chained.applySendTo (h : s.Chained cfg log) {account requestHash tokenId origin : H}
    {index : BitVec 16} {timestamp : BitVec 64} {epoch : Epoch} {send : Transaction H}
    {info : Option (Account H)} {info' : Account H}
    (hinfo : (info.map chainEnd).getD (0,0) = s.receiveEnd account)
    (hjoins : s.Joins cfg account requestHash index)
    (hsource : s.sourceTimestamp requestHash = some timestamp)
    (hsend : s.applySendTo cfg timestamp requestHash tokenId origin epoch send info index =
      some (info',s')) :
    s'.receives = s.receives.insert (cfg.receiveHash requestHash index)
        ⟨(s.receiveEnd account).1,requestHash,index⟩ ∧
      s'.sources = s.sources ∧ s'.accounts = s.accounts ∧
      chainEnd info' = (cfg.receiveHash requestHash index,(s.receiveEnd account).2 + 1) := by
  have hhead : (info.map (·.base.receiveHead)).getD 0 = (s.receiveEnd account).1 := by
    rw [← hinfo]
    cases info <;> rfl
  unfold Store.applySendTo at hsend
  rw [hhead] at hsend
  obtain ⟨info1,hinfo1,hsend⟩ := bind_eq_some_iff.mp hsend
  obtain ⟨s1,⟨hreceives,hsources,haccounts⟩,hend,hplace⟩ : ∃ s1,s.SameTrail s1 ∧
      chainEnd info' = chainEnd info1 ∧ s1.placeReceive cfg
        ⟨(s.receiveEnd account).1,requestHash,index⟩ timestamp = some s' := by
    by_cases htoken : tokenId = 0
    · simp only [if_pos htoken] at hsend
      obtain ⟨⟨info2,s1⟩,hcredit,hsend⟩ := bind_eq_some_iff.mp hsend
      obtain ⟨s2,hplace,hsend⟩ := bind_eq_some_iff.mp hsend
      cases hsend
      obtain ⟨htrail,hend⟩ := setBalance_trail hcredit
      exact ⟨s1,htrail,hend,hplace⟩
    · simp only [if_neg htoken] at hsend
      obtain ⟨⟨info2,s1⟩,hcredit,hsend⟩ := bind_eq_some_iff.mp hsend
      obtain ⟨s2,hplace,hsend⟩ := bind_eq_some_iff.mp hsend
      cases hsend
      obtain ⟨htrail,hend⟩ := addTokens_trail hcredit
      exact ⟨s1,htrail,hend,hplace⟩
  cases hplace.symm.trans (h.placeReceive hjoins hsource hreceives hsources)
  refine ⟨?_,hsources,haccounts,?_⟩
  · rw [← hreceives]
    rfl
  · rw [hend,receiver_chainEnd hinfo1,hinfo]
    rfl

end Store

/-- A source is stored, an account is credited, or the account in hand is written back. -/
inductive ReceiveEvent (H : Type)
  | record (r : Request H) (timestamp : BitVec 64)
  | recordEpoch (hash : H) (block : EpochBlock H)
  | send (requestHash tokenId origin : H) (epoch : Epoch) (transaction : Transaction H)
    (index : BitVec 16)
  | claim (requestHash origin : H) (epoch : Epoch) (user : AccountInfo H) (deposit : Amount)
  | revoke (tokenId source : H) (amount : Amount) (requestHash : H)
  | issue (r : Request H) (issuance : Issuance H)
  | reward (hash : H) (index : BitVec 16) (account : H) (dust : Rational) (deposit : Amount)
  | write (address : H) (info : Account H)

namespace ReceiveEvent

open Store

/-- The source of a receive is stored before; the output is the account and its hash. -/
def step (s : Store H) : ReceiveEvent H → Option (Store H × List (H × H))
  | record r timestamp => some (s.storeRequest cfg r timestamp,[])
  | recordEpoch hash block => (s.runGov (epochPut hash block)).map fun r => (r.2,[])
  | send requestHash tokenId origin epoch transaction index => do
    let timestamp ← s.sourceTimestamp requestHash
    let s ← s.applySend cfg timestamp requestHash tokenId origin epoch transaction index
    some (s,[(transaction.destination,cfg.receiveHash requestHash index)])
  | claim requestHash origin epoch user deposit => do
    let timestamp ← s.sourceTimestamp requestHash
    let (info,s) ← s.applySendTo cfg timestamp requestHash 0 origin epoch ⟨origin,deposit⟩
      (some (.user user)) 0
    some (s.accountPut origin info,[(origin,cfg.receiveHash requestHash 0)])
  | revoke tokenId source amount requestHash => do
    let timestamp ← s.sourceTimestamp requestHash
    let s ← s.revokeFrom cfg tokenId source amount requestHash timestamp
    some (s,[(source,cfg.receiveHash requestHash revokeOffset)])
  | issue r issuance => do
    let timestamp ← s.sourceTimestamp (cfg.requestHash r)
    let s ← s.issue cfg r issuance timestamp
    some (s,[(issuance.tokenId,cfg.receiveHash (cfg.requestHash r) 0)])
  | reward hash index account dust deposit => do
    let block ← s.gov.epochGet hash
    let info ← (s.accounts.lookup account).bind (·.asUser)
    let s ← s.depositReward cfg block hash index account { info with dust := dust } deposit
    some (s,[(account,cfg.receiveHash hash index)])
  | write address info => some (s.accountPut address info,[])

/-- Receives arrive in order, and accounts are written back with their chain. -/
def InOrder (s : Store H) : ReceiveEvent H → Prop
  | record r timestamp => ∀ k b,s.receives.lookup k = some b → b.sourceHash ≠ cfg.requestHash r ∧
    (s.requestBlocks.lookup r.locator ≠ some timestamp →
      ∀ request,s.gov.requests.lookup b.sourceHash = some request → request.locator ≠ r.locator)
  | recordEpoch hash _ => ∀ k b,s.receives.lookup k = some b → b.sourceHash ≠ hash
  | send requestHash _ _ _ transaction index =>
    s.Joins cfg transaction.destination requestHash index
  | claim requestHash origin _ user _ =>
    s.receiveEnd origin = chainEnd (.user user) ∧ s.Joins cfg origin requestHash 0
  | revoke _ _ _ _ => False
  | issue r issuance =>
    issuance.tokenId ∉ s.accounts ∧ s.Joins cfg issuance.tokenId (cfg.requestHash r) 0
  | reward hash index account _ _ =>
    hash ∉ s.gov.requests ∧ s.Joins cfg account hash index
  | write address info => s.receiveEnd address = chainEnd info

instance (s : Store H) (e : ReceiveEvent H) : Decidable (e.InOrder cfg s) :=
  match e with
  | record r timestamp => decidable_of_iff _ (Table.forall_entries_iff (P := fun _ (b : ReceiveBlock H) =>
    b.sourceHash ≠ cfg.requestHash r ∧ (s.requestBlocks.lookup r.locator ≠ some timestamp →
      ∀ request ∈ s.gov.requests.lookup b.sourceHash,request.locator ≠ r.locator)))
  | recordEpoch hash _ => decidable_of_iff _ (Table.forall_entries_iff (P := fun _ (b : ReceiveBlock H) =>
    b.sourceHash ≠ hash))
  | send requestHash _ _ _ transaction index =>
    inferInstanceAs (Decidable (s.Joins cfg transaction.destination requestHash index))
  | claim requestHash origin _ user _ => inferInstanceAs (Decidable
    (s.receiveEnd origin = chainEnd (.user user) ∧ s.Joins cfg origin requestHash 0))
  | revoke _ _ _ _ => inferInstanceAs (Decidable False)
  | issue r issuance => inferInstanceAs (Decidable
    (issuance.tokenId ∉ s.accounts ∧ s.Joins cfg issuance.tokenId (cfg.requestHash r) 0))
  | reward hash index account _ _ => inferInstanceAs (Decidable
    (hash ∉ s.gov.requests ∧ s.Joins cfg account hash index))
  | write address info => inferInstanceAs (Decidable (s.receiveEnd address = chainEnd info))

variable {cfg} {s s' : Store H} {log o : List (H × H)} {e : ReceiveEvent H}

theorem sourceTimestamp_record {r : Request H} {timestamp : BitVec 64} {b : ReceiveBlock H}
    (hne : b.sourceHash ≠ cfg.requestHash r)
    (hlocator : s.requestBlocks.lookup r.locator ≠ some timestamp →
      ∀ request,s.gov.requests.lookup b.sourceHash = some request → request.locator ≠ r.locator) :
    (s.storeRequest cfg r timestamp).sourceTimestamp b.sourceHash =
      s.sourceTimestamp b.sourceHash := by
  have hrequest : (s.storeRequest cfg r timestamp).gov.requests.lookup b.sourceHash =
      s.gov.requests.lookup b.sourceHash := AList.lookup_insert_ne hne
  have hblock : ∀ request,s.gov.requests.lookup b.sourceHash = some request →
      (s.storeRequest cfg r timestamp).requestBlocks.lookup request.locator =
        s.requestBlocks.lookup request.locator := by
    intro request hlookup
    unfold storeRequest
    rw [Table.lookup_insert_ite]
    split
    · next heq =>
      by_contra hne
      refine hlocator (fun hsame => hne ?_) request hlookup heq
      rw [heq,hsame]
    · rfl
  unfold sourceTimestamp receiveTimestamp
  rw [hrequest]
  cases hlookup : s.gov.requests.lookup b.sourceHash with
  | none => rfl
  | some request =>
    simp only [hblock request hlookup]

theorem step_chained (h : s.Chained cfg log) (horder : e.InOrder cfg s)
    (hstep : e.step cfg s = some (s',o)) : s'.Chained cfg (log ++ o) := by
  cases e with
  | record r timestamp =>
    cases hstep
    rw [List.append_nil]
    exact h.congr rfl (fun _ => rfl) fun k b hb =>
      sourceTimestamp_record (horder k b hb).1 (horder k b hb).2
  | recordEpoch hash block =>
    cases hstep
    rw [List.append_nil]
    refine h.congr rfl (fun _ => rfl) fun k b hb => ?_
    have hepoch : (s.gov.epochs.insert hash block).lookup b.sourceHash =
        s.gov.epochs.lookup b.sourceHash := AList.lookup_insert_ne (horder k b hb)
    unfold sourceTimestamp receiveTimestamp GovernanceStore.epochGet
    rw [hepoch]
  | send requestHash tokenId origin epoch transaction index =>
    obtain ⟨timestamp,hsource,hstep⟩ := bind_eq_some_iff.mp hstep
    obtain ⟨s1,hsend,hstep⟩ := bind_eq_some_iff.mp hstep
    cases hstep
    obtain ⟨⟨info,s2⟩,hto,hsend⟩ := bind_eq_some_iff.mp hsend
    cases hsend
    obtain ⟨hreceives,hsources,haccounts,hend⟩ := h.applySendTo rfl horder hsource hto
    refine h.joins horder hsources hreceives fun a => ?_
    rw [receiveEnd_accountPut,hend,receiveEnd_congr haccounts]
  | claim requestHash origin epoch user deposit =>
    obtain ⟨timestamp,hsource,hstep⟩ := bind_eq_some_iff.mp hstep
    obtain ⟨⟨info,s1⟩,hto,hstep⟩ := bind_eq_some_iff.mp hstep
    cases hstep
    have hinfo : ((some (Account.user user)).map chainEnd).getD (0,0) = s.receiveEnd origin :=
      horder.1.symm
    obtain ⟨hreceives,hsources,haccounts,hend⟩ := h.applySendTo hinfo horder.2 hsource hto
    refine h.joins horder.2 hsources hreceives fun a => ?_
    rw [receiveEnd_accountPut,hend,receiveEnd_congr haccounts]
  | revoke tokenId source amount requestHash => exact horder.elim
  | issue r issuance =>
    obtain ⟨hnew,hjoins⟩ := horder
    obtain ⟨timestamp,hsource,hstep⟩ := bind_eq_some_iff.mp hstep
    obtain ⟨s1,hissue,hstep⟩ := bind_eq_some_iff.mp hstep
    cases hstep
    have hend : s.receiveEnd issuance.tokenId = (0,0) := by
      simp [receiveEnd,AList.lookup_eq_none.mpr hnew]
    unfold Store.issue at hissue
    dsimp only at hissue
    generalize htoken : Account.token _ = token at hissue
    have hopened : chainEnd token = (cfg.receiveHash (cfg.requestHash r) 0,1) := by
      rw [← htoken]
      rfl
    have hplace : (s.accountPut issuance.tokenId token).placeReceive cfg
        ⟨(s.receiveEnd issuance.tokenId).1,cfg.requestHash r,0⟩ timestamp = _ :=
      h.placeReceive hjoins hsource rfl rfl
    rw [hend] at hplace
    cases hissue.symm.trans hplace
    refine h.joins hjoins rfl ?_ fun a => ?_
    · rw [hend]
      rfl
    · rw [hend]
      refine (receiveEnd_accountPut s issuance.tokenId token a).trans ?_
      rw [hopened]
      rfl
  | reward hash index account dust deposit =>
    obtain ⟨hnot,hjoins⟩ := horder
    obtain ⟨block,hblock,hstep⟩ := bind_eq_some_iff.mp hstep
    obtain ⟨info,hinfo,hstep⟩ := bind_eq_some_iff.mp hstep
    obtain ⟨s1,hdeposit,hstep⟩ := bind_eq_some_iff.mp hstep
    cases hstep
    obtain ⟨stored,hstored,huser⟩ := bind_eq_some_iff.mp hinfo
    cases Account.asUser_eq_some.mp huser
    have hend : s.receiveEnd account = (info.receiveHead,info.receiveCount) := by
      simp only [receiveEnd,hstored]
      rfl
    have hsource : s.sourceTimestamp hash = some block.timestamp := by
      simp only [sourceTimestamp,receiveTimestamp,AList.lookup_eq_none.mpr hnot,hblock,map_some]
    obtain ⟨⟨info1,s2⟩,hrun,hplace⟩ := bind_eq_some_iff.mp hdeposit
    obtain ⟨hreceives,hsources,haccounts⟩ := sameTrail_runGov (leaves_setBalance_trail ..) hrun
    have hinfo1 := (result_runGov (AccountInfo.ensures_setBalance _ _ _) hrun).1
    have hhead : info1.receiveHead = info.receiveHead := by rw [hinfo1]
    have hcount : info1.receiveCount = info.receiveCount := by rw [hinfo1]
    dsimp only at hplace
    generalize hpaid : Account.user _ = paid at hplace
    have hextended : chainEnd paid = (cfg.receiveHash hash index,info.receiveCount + 1) := by
      rw [← hpaid,← hcount]
      rfl
    have hplaced : (s2.accountPut account paid).placeReceive cfg
        ⟨(s.receiveEnd account).1,hash,index⟩ block.timestamp = _ :=
      h.placeReceive hjoins hsource hreceives hsources
    rw [hend,← hhead] at hplaced
    cases hplace.symm.trans hplaced
    refine h.joins hjoins hsources ?_ fun a => ?_
    · rw [hend,← hhead,← hreceives]
      rfl
    · refine (receiveEnd_accountPut s2 account paid a).trans ?_
      rw [receiveEnd_congr haccounts,hend,hextended]
  | write address info =>
    cases hstep
    rw [List.append_nil]
    refine h.congr rfl (fun a => ?_) fun _ _ _ => rfl
    rw [receiveEnd_accountPut,← (show s.receiveEnd address = chainEnd info from horder)]
    split
    · next heq => rw [heq]
    · rfl

section Sample

def samplePayments (first second : BitVec 64) : List (ReceiveEvent ℕ) :=
  [record ⟨1,0,0,1,0,7,.send [⟨2,5⟩]⟩ first,record ⟨1,0,0,2,0,8,.send [⟨2,6⟩]⟩ second,
    send (Config.sample.requestHash ⟨1,0,0,1,0,7,.send [⟨2,5⟩]⟩) 0 1 5 ⟨2,5⟩ 0,
    send (Config.sample.requestHash ⟨1,0,0,2,0,8,.send [⟨2,6⟩]⟩) 0 1 5 ⟨2,6⟩ 0]

def sampleStart : Store ℕ := Store.empty.accountPut 1 (.user .default)

theorem chained_sampleStart : sampleStart.Chained Config.sample [] := by
  have hend : ∀ a,sampleStart.receiveEnd a = (0,0) := by
    intro a
    refine (receiveEnd_accountPut Store.empty 1 _ a).trans ?_
    split <;> rfl
  refine ⟨fun a => ⟨[],?_⟩,fun k b hb => by cases hb⟩
  rw [hend]
  exact ⟨rfl,.nil,.nil,rfl⟩

end Sample

end ReceiveEvent

end LogosCore.Ledger

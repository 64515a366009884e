import LogosCore.Validator
import LogosCore.Machine

/-! # The cache of validators over a run

Calls of `GetValidator` for the epoch numbers of messages, between which the epoch chain grows. -/

namespace LogosCore.Validator

open Option

variable {H σ π κ : Type}

/-- The epoch blocks from a hash down to genesis, which is number 0. -/
inductive Chained (store : EpochStore H π) : H → ℕ → Prop
  | genesis {hash block} : store.epochGet hash = some block → block.epochNumber = 0 →
    Chained store hash 0
  | next {hash block top} : store.epochGet hash = some block →
    block.epochNumber.toNat = top + 1 → Chained store block.previous top →
    Chained store hash (top + 1)

def EpochStore.Sound (store : EpochStore H π) : Prop :=
  ∃ tip,store.epochTipGet = some tip ∧ Chained store tip.digest tip.epoch.toNat

/-- One more epoch block on top of the tip; what is stored stays. -/
structure EpochStore.Grows (store store' : EpochStore H π) : Prop where
  kept : ∀ h b,store.epochGet h = some b → store'.epochGet h = some b
  tip : ∃ tip tip' block,store.epochTipGet = some tip ∧ store'.epochTipGet = some tip' ∧
    store'.epochGet tip'.digest = some block ∧ block.epochNumber = tip'.epoch ∧
    block.previous = tip.digest ∧ tip'.epoch.toNat = tip.epoch.toNat + 1

structure CacheState (H π κ : Type) where
  store : EpochStore H π
  builder : ValidatorBuilder κ

inductive CacheEvent (H π : Type)
  | getValidator (epochNumber : BitVec 32)
  | grow (store : EpochStore H π)

structure Answer (H π κ : Type) where
  store : EpochStore H π
  epochNumber : BitVec 32
  validator : Option (MessageValidator κ)

def cacheStep (bls : Bls H σ π κ) (s : CacheState H π κ) :
    CacheEvent H π → Option (CacheState H π κ × List (Answer H π κ))
  | .getValidator e => (getValidator bls s.store s.builder e).map fun r =>
      (⟨s.store,r.2⟩,[⟨s.store,e,r.1⟩])
  | .grow store => some (⟨store,s.builder⟩,[])

/-- The minimum has 16 bits. -/
def CacheState.Fits (s : CacheState H π κ) : CacheEvent H π → Prop
  | .getValidator e => epochBlockOf s.store (e - 2) = none ∨ e - 2 ≤ 65535
  | .grow store => s.store.Grows store

def Answer.Exact (bls : Bls H σ π κ) (a : Answer H π κ) : Prop :=
  a.validator = (epochBlockOf a.store (a.epochNumber - 2)).map fun block =>
    .ofDelegates bls block.delegates

variable {store store' : EpochStore H π} {hash : H} {block : EpochBlock H π} {n : BitVec 32}
  {top : ℕ} {bls : Bls H σ π κ} {b : ValidatorBuilder κ} {v : MessageValidator κ}

theorem Chained.find (hc : Chained store hash top) (hle : n.toNat ≤ top) :
    ∃ block,block.epochNumber = n ∧
      ∀ store',(∀ h b,store.epochGet h = some b → store'.epochGet h = some b) →
        ∀ fuel,top < fuel → findEpoch store' n fuel hash = some block := by
  induction hc with
  | @genesis _ block hget hzero =>
    refine ⟨block,by bv_omega,fun store' hkept fuel hfuel => ?_⟩
    obtain ⟨fuel,rfl⟩ := Nat.exists_eq_add_of_lt hfuel
    rw [Nat.zero_add,findEpoch,hkept _ _ hget]
    simp [hzero]
  | @next _ block top hget hnumber hprevious ih =>
    by_cases htop : n.toNat = top + 1
    · refine ⟨block,by bv_omega,fun store' hkept fuel hfuel => ?_⟩
      obtain ⟨fuel,rfl⟩ := Nat.exists_eq_add_of_lt hfuel
      rw [findEpoch,hkept _ _ hget]
      exact if_neg (by bv_omega)
    · obtain ⟨found,hfound,hfind⟩ := ih (by omega)
      refine ⟨found,hfound,fun store' hkept fuel hfuel => ?_⟩
      obtain ⟨fuel,rfl⟩ := Nat.exists_eq_add_of_lt hfuel
      rw [findEpoch,hkept _ _ hget]
      exact (if_pos (by bv_omega)).trans (hfind store' hkept _ (by omega))

theorem Chained.kept (hc : Chained store hash top)
    (hkept : ∀ h b,store.epochGet h = some b → store'.epochGet h = some b) :
    Chained store' hash top := by
  induction hc with
  | genesis hget hzero => exact .genesis (hkept _ _ hget) hzero
  | next hget hnumber _ ih => exact .next (hkept _ _ hget) hnumber ih

/-- On a sound store every block up to the tip is found. -/
theorem EpochStore.Sound.epochBlockOf (hs : store.Sound) {tip : EpochTip H}
    (htip : store.epochTipGet = some tip) (hle : n ≤ tip.epoch) :
    ∃ block,epochBlockOf store n = some block ∧ block.epochNumber = n ∧
      ∀ store',(∀ h b,store.epochGet h = some b → store'.epochGet h = some b) →
        ∀ fuel,tip.epoch.toNat < fuel → findEpoch store' n fuel tip.digest = some block := by
  obtain ⟨tip',htip',hc⟩ := hs
  cases htip.symm.trans htip'
  obtain ⟨block,hnumber,hfind⟩ := hc.find (n := n) hle
  refine ⟨block,?_,hnumber,hfind⟩
  unfold Validator.epochBlockOf
  rw [htip]
  dsimp only
  rw [if_neg (by bv_omega),hfind store (fun _ _ => id) tip.rounds (Nat.lt_succ_self _)]
  simp [Option.filter,hnumber]

theorem epochBlockOf_le {tip : EpochTip H} (htip : store.epochTipGet = some tip)
    (h : epochBlockOf store n = some block) : n ≤ tip.epoch := by
  unfold epochBlockOf at h
  rw [htip] at h
  dsimp only at h
  split_ifs at h with hlt
  bv_omega

/-- The minimum is the number of an entry unless all entries are above it. -/
theorem foldl_min_mem (l : List (BitVec 32 × MessageValidator κ)) (m : BitVec 32) :
    (∀ e ∈ l,m ≤ e.1) ∧ l.foldl (fun min e => if e.1 < min then e.1 else min) m = m ∨
      ∃ e ∈ l,e.1 = l.foldl (fun min e => if e.1 < min then e.1 else min) m := by
  induction l generalizing m with
  | nil => simp
  | cons a l ih =>
    simp only [List.foldl_cons]
    by_cases hlt : a.1 < m
    · rw [if_pos hlt]
      rcases ih a.1 with ⟨-,h⟩ | ⟨e,he,h⟩
      · exact .inr ⟨a,by simp,h.symm⟩
      · exact .inr ⟨e,by simp [he],h⟩
    · rw [if_neg hlt]
      rcases ih m with ⟨hall,h⟩ | ⟨e,he,h⟩
      · refine .inl ⟨fun e he => ?_,h⟩
        rcases List.mem_cons.mp he with rfl | he
        · bv_omega
        · exact hall e he
      · exact .inr ⟨e,by simp [he],h⟩

/-- At most `MAX_CACHED` entries, all of which the minimum can reach. -/
structure ValidatorBuilder.Bounded (b : ValidatorBuilder κ) : Prop where
  length : b.epochPki.length ≤ maxCached
  reach : ∀ e ∈ b.epochPki,e.1 ≤ 65535

theorem ValidatorBuilder.Bounded.remember (hb : b.Bounded) (hn : n ≤ 65535) :
    (b.remember n v).Bounded := by
  refine ⟨?_,fun e he => ?_⟩
  · have hlength := hb.length
    unfold ValidatorBuilder.remember
    dsimp only
    split_ifs with hfull
    · have hmin : ∃ e ∈ b.epochPki ++ [(n,v)],e.1 = minCached (b.epochPki ++ [(n,v)]) := by
        rcases foldl_min_mem (b.epochPki ++ [(n,v)]) 65535 with ⟨hall,h⟩ | h
        · refine ⟨(n,v),by simp,?_⟩
          rw [minCached,h]
          exact BitVec.le_antisymm hn (hall (n,v) (by simp))
        · exact h
      obtain ⟨e,he,hemin⟩ := hmin
      have hlt : ((b.epochPki ++ [(n,v)]).filter fun e =>
          e.1 ≠ minCached (b.epochPki ++ [(n,v)])).length < (b.epochPki ++ [(n,v)]).length :=
        List.length_filter_lt_length_iff_exists.mpr ⟨e,he,by simpa using hemin⟩
      rw [List.length_append,List.length_singleton] at hlt
      exact (Nat.lt_succ_iff.mp hlt).trans hlength
    · exact not_lt.mp hfull
  · rcases ValidatorBuilder.mem_remember he with he | rfl
    · exact hb.reach e he
    · exact hn

theorem buildValidator_isSome (hs : store.Sound) (n : BitVec 32) :
    ∃ r,buildValidator bls store n = some r := by
  obtain ⟨tip,htip,-⟩ := id hs
  by_cases hlt : tip.epoch < n
  · refine ⟨none,?_⟩
    unfold buildValidator
    rw [htip]
    exact if_pos hlt
  · obtain ⟨block,hblock,-⟩ := hs.epochBlockOf htip (n := n) (by bv_omega)
    exact ⟨_,buildValidator_of_epochBlockOf hblock⟩

/-- A call on a sound store returns. -/
theorem getValidator_bounded (hs : store.Sound) (hb : b.Bounded) {e : BitVec 32}
    (hfits : epochBlockOf store (e - 2) = none ∨ e - 2 ≤ 65535) :
    ∃ r b',getValidator bls store b e = some (r,b') ∧ b'.Bounded := by
  unfold getValidator
  dsimp only
  split_ifs
  · exact ⟨_,_,rfl,hb⟩
  · split
    · exact ⟨_,_,rfl,hb.length,hb.reach⟩
    · obtain ⟨r,hr⟩ : ∃ r,buildValidator bls store (e - 2) = some r := buildValidator_isSome hs _
      have hfound := buildValidator_some hr
      rw [hr]
      cases r with
      | none => exact ⟨_,_,rfl,hb⟩
      | some v =>
        have hn : e - 2 ≤ 65535 := hfits.resolve_left fun hnone => by
          rw [hnone] at hfound
          cases hfound
        exact ⟨_,_,rfl,(hb.remember hn).length,(hb.remember hn).reach⟩

theorem EpochStore.Sound.grow (hs : store.Sound) (hg : store.Grows store') : store'.Sound := by
  obtain ⟨tip,htip,hc⟩ := hs
  obtain ⟨tip1,tip',block,htip1,htip',hblock,hnumber,hprevious,hepoch⟩ := hg.tip
  cases htip.symm.trans htip1
  refine ⟨tip',htip',?_⟩
  rw [hepoch]
  refine .next hblock (by rw [hnumber]; exact hepoch) ?_
  rw [hprevious]
  exact hc.kept hg.kept

/-- A block that is found stays the one found when the chain grows. -/
theorem epochBlockOf_grow (hs : store.Sound) (hg : store.Grows store')
    (h : epochBlockOf store n = some block) : epochBlockOf store' n = some block := by
  obtain ⟨tip,tip',top,htip,htip',htop,hnumber,hprevious,hepoch⟩ := hg.tip
  have hle := epochBlockOf_le htip h
  obtain ⟨block1,hblock1,hn,hfind⟩ := hs.epochBlockOf htip hle
  cases h.symm.trans hblock1
  have hwalk := hfind store' hg.kept tip'.epoch.toNat (by omega)
  unfold epochBlockOf
  rw [htip']
  dsimp only
  rw [if_neg (by bv_omega),EpochTip.rounds,findEpoch,htop]
  dsimp only
  rw [if_pos (by rw [hnumber]; bv_omega),hprevious,hwalk]
  simp [Option.filter,hn]

theorem ValidatorBuilder.Faithful.grow (hf : b.Faithful bls store) (hs : store.Sound)
    (hg : store.Grows store') : b.Faithful bls store' := by
  refine ⟨fun e he => ?_,fun v hv => ?_⟩
  · obtain ⟨found,hfound,hkeys⟩ := hf.pki e he
    exact ⟨found,epochBlockOf_grow hs hg hfound,hkeys⟩
  · obtain ⟨found,hfound,hkeys⟩ := hf.cached v hv
    exact ⟨found,epochBlockOf_grow hs hg hfound,hkeys⟩

structure CacheState.Transparent (bls : Bls H σ π κ) (log : List (Answer H π κ))
    (s : CacheState H π κ) : Prop where
  sound : s.store.Sound
  faithful : s.builder.Faithful bls s.store
  bounded : s.builder.Bounded
  exact : ∀ a ∈ log,a.Exact bls

theorem transparent_step {log : List (Answer H π κ)} {s : CacheState H π κ} {e : CacheEvent H π}
    (h : s.Transparent bls log) (hfits : s.Fits e) :
    ∃ s' o,cacheStep bls s e = some (s',o) ∧ s'.Transparent bls (log ++ o) := by
  cases e with
  | getValidator e =>
    obtain ⟨r,b',hget,hbounded⟩ : ∃ r b',getValidator bls s.store s.builder e = some (r,b') ∧
        b'.Bounded := getValidator_bounded h.sound h.bounded hfits
    obtain ⟨hr,hf⟩ := getValidator_spec h.faithful hget
    refine ⟨⟨s.store,b'⟩,[⟨s.store,e,r⟩],by simp [cacheStep,hget],h.sound,hf,hbounded,?_⟩
    intro a ha
    rcases List.mem_append.mp ha with ha | ha
    · exact h.exact a ha
    · cases List.mem_singleton.mp ha
      exact hr
  | grow store =>
    refine ⟨⟨store,s.builder⟩,[],rfl,h.sound.grow hfits,h.faithful.grow h.sound hfits,h.bounded,?_⟩
    simpa using h.exact

/-- While the numbers of the blocks asked for fit in 16 bits, calls return what the store holds at
their time, and the cache stays within its bound. -/
theorem getValidator_transparent (bls : Bls H σ π κ) (hs : store.Sound)
    {es : List (CacheEvent H π)}
    (hfits : Machine.Along (cacheStep bls) CacheState.Fits ⟨store,.empty⟩ es) :
    ∃ s' o,Machine.exec (cacheStep bls) ⟨store,.empty⟩ es = some (s',o) ∧
      (∀ a ∈ o,a.Exact bls) ∧ s'.builder.epochPki.length ≤ maxCached := by
  have hstart : CacheState.Transparent bls [] ⟨store,.empty⟩ :=
    ⟨hs,ValidatorBuilder.empty_faithful bls store,⟨Nat.zero_le _,by simp [ValidatorBuilder.empty]⟩,
      by simp⟩
  obtain ⟨s',o,hrun,h⟩ :=
    Machine.exec_invariant (fun _ _ _ h hfits => transparent_step h hfits) hstart hfits
  exact ⟨s',o,hrun,h.exact,h.bounded.length⟩

def longStore : EpochStore ℕ Unit :=
  ⟨some ⟨65540,65540⟩,fun hash =>
    if hash ≤ 65540 then some ⟨BitVec.ofNat 32 hash,hash - 1,fun _ => ⟨(),0,0⟩⟩ else none⟩

def unitBls : Bls ℕ Unit Unit Unit :=
  ⟨some,(),fun _ => (),fun _ _ _ => true⟩

theorem longStore_sound : longStore.Sound := by
  have hchained : ∀ n ≤ 65540,Chained longStore n n := by
    intro n hn
    induction n with
    | zero => exact .genesis rfl rfl
    | succ n ih =>
      refine .next (if_pos hn) ?_ (ih (by omega))
      simp only [BitVec.toNat_ofNat]
      omega
  exact ⟨_,rfl,hchained 65540 le_rfl⟩

theorem getValidator_transparent_twice :
    ∃ s' o,Machine.exec (cacheStep unitBls) ⟨longStore,.empty⟩
        [.getValidator 0,.getValidator 5,.getValidator 5] = some (s',o) ∧
      (∀ a ∈ o,a.Exact unitBls) ∧ s'.builder.epochPki.length ≤ maxCached := by
  refine getValidator_transparent unitBls longStore_sound ⟨.inl rfl,fun _ _ _ => ?_⟩
  exact ⟨.inr (by decide),fun _ _ _ => ⟨.inr (by decide),fun _ _ _ => trivial⟩⟩

theorem validators_pile_up :
    longStore.Sound ∧
    (Machine.exec (cacheStep unitBls) ⟨longStore,.empty⟩ [.getValidator 65542,.getValidator 65541,
      .getValidator 65540,.getValidator 65539]).map (fun r => r.1.builder.epochPki.length) =
        some 4 :=
  ⟨longStore_sound,by decide +kernel⟩

end LogosCore.Validator

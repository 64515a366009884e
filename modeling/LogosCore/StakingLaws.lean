import LogosCore.Funds

/-! # Laws for an acting account

While an account acts, its stake and its thawing funds are followed through the operation,
together with the liabilities that are ahead of their records and the funds that have left one
record and are not in another yet. What the small operations do to these is a list of laws. The
operations that set a stake or change expirations are walked through once, for every property
that obeys the laws. -/
namespace LogosCore.Ledger

variable {H : Type} [DecidableEq H] [Zero H] {cfg : Config H}

open Program StakingManager LiabilityManager ThawingFunds
open BitVec (le_zero_iff lt_irrefl not_lt)
open List (map_cons mem_cons_self mem_map nodup_cons)

/-- Staked funds refer to the primary liability with their target. -/
def StakedFunds.Formed (cfg : Config H) (origin : H) (f : StakedFunds H) : Prop :=
  f.liabilityHash = fundsHash cfg f.target origin 0

/-- Thawing funds refer to the primary liability with their target and expiration. -/
def ThawingFunds.Formed (cfg : Config H) (origin : H) (t : ThawingFunds H) : Prop :=
  t.liabilityHash = fundsHash cfg t.target origin t.expirationEpoch

theorem ThawingFunds.formed_mk (origin target : H) (expiration : Epoch) (amount : Amount) :
    ThawingFunds.Formed cfg origin
      ⟨expiration,target,amount,fundsHash cfg target origin expiration⟩ := rfl

theorem StakedFunds.Formed.withAmount {origin : H} {f : StakedFunds H} (h : f.Formed cfg origin)
    (amount : Amount) : StakedFunds.Formed cfg origin { f with amount := amount } := h

theorem ThawingFunds.Formed.withAmount {origin : H} {t : ThawingFunds H} (h : t.Formed cfg origin)
    (amount : Amount) : ThawingFunds.Formed cfg origin { t with amount := amount } := h

/-- The thawing funds that an amount taken from a stake becomes. -/
def StakedFunds.thawed (cfg : Config H) (f : StakedFunds H) (origin : H) (epoch : Epoch)
    (amount : Amount) : ThawingFunds H :=
  ⟨epoch + thawingPeriod,f.target,amount,fundsHash cfg f.target origin (epoch + thawingPeriod)⟩

/-- Funds with another expiration and the liability that belongs to it. -/
def StakingManager.redateTo (cfg : Config H) (origin : H) (expiration : Epoch)
    (t : ThawingFunds H) : ThawingFunds H :=
  { t with
    expirationEpoch := expiration
    liabilityHash := fundsHash cfg t.target origin expiration }

abbrev StakedFunds.remaining (f : StakedFunds H) (newAmount : Amount) : Option (StakedFunds H) :=
  if 0 < newAmount then some { f with amount := newAmount } else none

def stakedAmount (staked : Option (StakedFunds H)) : ℕ :=
  (staked.map fun f => f.amount.toNat).getD 0

@[simp] theorem stakedAmount_none : stakedAmount (none : Option (StakedFunds H)) = 0 := rfl

@[simp] theorem stakedAmount_some (f : StakedFunds H) : stakedAmount (some f) = f.amount.toNat :=
  rfl

theorem StakedFunds.target_of_mem_remaining (f : StakedFunds H) {newAmount : Amount}
    {f' : StakedFunds H} (h : f' ∈ f.remaining newAmount) : f'.target = f.target := by
  unfold remaining at h
  split at h <;> cases h
  rfl

theorem stakedAmount_remaining (f : StakedFunds H) (newAmount : Amount) :
    stakedAmount (f.remaining newAmount) = newAmount.toNat := by
  unfold StakedFunds.remaining
  split
  · rfl
  · next h => simp only [stakedAmount_none]; bv_omega

theorem subset_erase_of_distinct {t : ThawingFunds H} {ts rest : List (ThawingFunds H)}
    (hdistinct : Distinct (t::rest)) (hsub : t::rest ⊆ ts) : rest ⊆ ts.erase t := by
  intro u hu
  have hne : u ≠ t := fun heq => (nodup_cons.mp hdistinct).1 (heq ▸ List.mem_map_of_mem hu)
  exact (List.mem_erase_of_ne hne).mpr (hsub (List.mem_cons_of_mem _ hu))

/-- Funds that expire together have different targets. -/
theorem StakingManager.distinct_redateTo (cfg : Config H) {origin : H} {expiration : Epoch}
    {us : List (ThawingFunds H)} {previous : Epoch}
    (hexp : ∀ t ∈ us,t.expirationEpoch = previous) (hus : Distinct us) :
    Distinct (us.map (redateTo cfg origin expiration)) := by
  unfold Distinct
  rw [List.map_map]
  refine List.Nodup.map_on (fun t ht u hu heq => ?_) (List.Nodup.of_map _ hus)
  have htarget : t.target = u.target := congrArg Prod.snd heq
  have hkey : t.key = u.key := Prod.ext ((hexp t ht).trans (hexp u hu).symm) htarget
  exact List.inj_on_of_nodup_map hus ht hu hkey

/-- A property of an acting account, its funds in hand, and the tables. -/
abbrev Acting (H : Type) : Type :=
  AccountInfo H → Option (StakedFunds H) → List (ThawingFunds H) → List (Epoch × H) → ℕ →
    GovernanceStore H → Prop

namespace Acting

/-- The property holds, and the tables have the stake and the thawing funds. -/
def On (X : Acting H) (g0 : GovernanceStore H) (a : H) : Acting H := fun info st ts ks n g =>
  X info st ts ks n g ∧ g0.Holds a st ts g

/-- The laws of storing thawing funds, for a search that is not given up early. -/
structure Laws (cfg : Config H) (g0 : GovernanceStore H) (a : H) (E : Halt → Prop)
    (formed strict : Prop) (expiration : Epoch) (X : Acting H) : Prop where
  other : E .other
  wellFormed : formed → ∀ {info st ts ks n g},X.On g0 a info st ts ks n g →
    (∀ f ∈ st,f.Formed cfg a) ∧ ∀ t ∈ ts,t.Formed cfg a
  distinct : strict → ∀ {info st ts ks n g},X info st ts ks n g → Distinct ts
  storeThawing : ∀ {info st ts ks n g} {t : ThawingFunds H},
    X.On g0 a info st ts (t.key::ks) (n + t.amount.toNat) g → t.expirationEpoch = expiration →
    (formed → t.Formed cfg a) → (strict → Searchable t.key ts) →
    (storeThawing cfg t a).wp E (fun _ => X info st (deposit cfg t ts) ks n) g

structure StakeLaws (cfg : Config H) (g0 : GovernanceStore H) (a : H) (E : Halt → Prop)
    (formed strict : Prop) (epoch : Epoch) (target : H) (X : Acting H) : Prop extends
    Laws cfg g0 a E formed strict (epoch + thawingPeriod) X where
  votingPower : E .votingPower
  balance : E .balance
  power : ∀ {info st ts ks n g g'},X.On g0 a info st ts ks n g → g.OnlyPower g' →
    X info st ts ks n g'
  spend : ∀ {info st ts ks n g} info' x,X info st ts ks n g → x ≤ info.availableBalance →
    info' = { info with
      availableBalance := info.availableBalance - x
      oldRep := info'.oldRep
      newRep := info'.newRep } → X info' st ts ks (n + x.toNat) g
  createStaked : ∀ {info st ts n g},X.On g0 a info st ts [] n g → (∀ f ∈ st,f.target ≠ target) →
    X info st ts [(0,target)] n (g.putLiability cfg ⟨target,a,0,0,false⟩)
  createThawing : ∀ {info f ts ks n g},X.On g0 a info (some f) ts ks n g → ks ⊆ [(0,target)] →
    X info (some f) ts ((epoch + thawingPeriod,f.target)::ks) n
      (g.putLiability cfg ⟨f.target,a,0,epoch + thawingPeriod,false⟩)
  secondary : ∀ {info st ts ks n g},X.On g0 a info st ts ks n g → ∀ target amount expiration,
    (createSecondaryLiability cfg target a amount expiration info epoch).wp E
      (fun r => X r.2 st ts ks n) g
  updateStaked : ∀ {info f ts ks n g x},X.On g0 a info (some f) ts ks n g → x ≤ f.amount →
    (updateStaked f a (f.amount - x)).wp E
      (fun _ => X info (f.remaining (f.amount - x)) ts ks (n + x.toNat)) g
  storeStaked : ∀ {info st ts ks n g f},X.On g0 a info st ts ks n g → f.target = target →
    (formed → f.Formed cfg a) → f.amount.toNat = stakedAmount st + n → f.amount ≠ 0 →
    (∀ f' ∈ st,f'.target = target ∨ f'.amount = 0) →
    (ks = [(0,target)] ∨ ks = [] ∧ ∃ f' ∈ st,f'.target = target) →
    (storeStaked f a).wp E (fun _ => X info (some f) ts [] 0) g
  dropStake : ∀ {info st ts ks g},X.On g0 a info st ts ks 0 g → (∀ f ∈ st,f.amount = 0) →
    X info none ts ks 0 { g with stakes := g.stakes.erase a }
  updateThawing : ∀ {info st ts ks n g t x},X.On g0 a info st ts ks n g → ks ⊆ [(0,target)] →
    (formed → t.Formed cfg a) → (strict → t ∈ ts) → x ≤ t.amount →
    (updateThawing cfg t a (t.amount - x)).wp E (fun _ => X info st
      (if 0 < t.amount - x then deposit cfg { t with amount := t.amount - x } (ts.erase t)
        else ts.erase t) ks (n + x.toNat)) g
  empty : ∀ {info st ts ks n g},X.On g0 a info st ts ks n g → stakedAmount st + n = 0 →
    X info st ts ks 0 g

structure RedateLaws (cfg : Config H) (g0 : GovernanceStore H) (a : H) (E : Halt → Prop)
    (formed strict : Prop) (expiration : Epoch) (R : ThawingFunds H → Prop) (X : Acting H) :
    Prop extends Laws cfg g0 a E formed strict expiration X where
  perm : ∀ {info st ts ks ks' n g},X info st ts ks n g → ks.Perm ks' → X info st ts ks' n g
  redate : ∀ {info st ts ks n g t},X.On g0 a info st ts ks n g → R t →
    (formed → t.Formed cfg a) → (strict → t ∈ ts ∧ t.target ∉ ks.map Prod.snd) →
    (deleteLiability t.liabilityHash).wp E (fun _ g1 =>
      X info st (ts.erase t) ((expiration,t.target)::ks) (n + t.amount.toNat)
        { g1.putLiability cfg ⟨t.target,a,t.amount,expiration,false⟩ with
          thawing := (g1.putLiability cfg
            ⟨t.target,a,t.amount,expiration,false⟩).thawing.eraseDuplicate a t }) g

variable {g0 g g' : GovernanceStore H} {a : H} {E : Halt → Prop} {formed strict : Prop}
  {epoch : Epoch} {target : H} {X : Acting H} {info : AccountInfo H} {st : Option (StakedFunds H)}
  {ts : List (ThawingFunds H)} {ks : List (Epoch × H)} {n : ℕ} {x amountLeft : Amount}
  {f : StakedFunds H}

section Stake

variable (L : StakeLaws cfg g0 a E formed strict epoch target X)
include L

theorem on_power (h : X.On g0 a info st ts ks n g) (hp : g.OnlyPower g') :
    X.On g0 a info st ts ks n g' :=
  ⟨L.power h hp,h.2.power hp⟩

/-- An extraction creates at most a secondary liability before it reduces its input. -/
theorem on_extract {inputTarget : H} {inputAmount : Amount} {inputExpiration : Epoch}
    {update : Amount → Gov H Unit} {outputTarget : H} {amountToExtract : Amount}
    {Q : Amount × AccountInfo H → GovernanceStore H → Prop} (h : X.On g0 a info st ts ks n g)
    (htake : ∀ info' g',SecondaryUpdated info info' → X.On g0 a info' st ts ks n g' →
      (update (inputAmount - extractable inputAmount amountToExtract)).wp E
        (fun _ => Q (extractable inputAmount amountToExtract,info')) g')
    (hrefuse : inputTarget ≠ outputTarget → ∀ info' g',SecondaryUpdated info info' →
      X.On g0 a info' st ts ks n g' → Q (0,info') g') :
    (extract cfg inputTarget inputAmount inputExpiration update outputTarget amountToExtract
      a info epoch).wp E Q g := by
  refine wp_ite (fun _ => ?_) fun hne => wp_ite (fun _ => ?_) fun _ => ?_
  · exact (htake info g rfl h).bind fun _ _ h => h
  · exact hrefuse hne info g rfl h
  · have honly := onlyLiabilities_createSecondaryLiability (E := anyHalt) cfg trivial trivial
      inputTarget a (extractable inputAmount amountToExtract)
      (if inputExpiration = 0 then epoch + thawingPeriod else inputExpiration) info epoch g
    refine ((L.secondary h ..).and honly).bind fun r g1 h1 => ?_
    have hon : X.On g0 a r.2 st ts ks n g1 := ⟨h1.1,h.2.liabilities h1.2.1⟩
    refine wp_ite (fun _ => ?_) fun _ => hrefuse hne r.2 g1 h1.2.2 hon
    exact (htake r.2 g1 h1.2.2 hon).bind fun _ _ h => h

theorem on_updateStaked (h : X.On g0 a info (some f) ts ks n g) (hle : x ≤ f.amount) :
    (updateStaked f a (f.amount - x)).wp E
      (fun _ => X.On g0 a info (f.remaining (f.amount - x)) ts ks (n + x.toNat)) g :=
  (L.updateStaked h hle).and (holds_updateStaked h.2 f _)

theorem on_beginThawing (h : X.On g0 a info (some f) ts ks n g) (hks : ks ⊆ [(0,target)])
    (hs : strict → Searchable (epoch + thawingPeriod,f.target) ts) (hle : x ≤ f.amount) :
    (beginThawing cfg a info epoch f x).wp E (fun info' g' => SecondaryUpdated info info' ∧
      X.On g0 a info' (f.remaining (f.amount - x))
        (deposit cfg (f.thawed cfg a epoch x) ts) ks n g') g := by
  unfold beginThawing
  rw [wp_bind,wp_createThawingFunds,wp_bind]
  have htake : extractable f.amount x = x := if_neg (not_lt.mpr hle)
  have hcreated : X.On g0 a info (some f) ts ((epoch + thawingPeriod,f.target)::ks) n
      (g.putLiability cfg ⟨f.target,a,0,epoch + thawingPeriod,false⟩) :=
    ⟨L.createThawing h hks,h.2.liabilities (g.onlyLiabilities_putLiability cfg _)⟩
  refine on_extract L hcreated (fun info' g1 hinfo h1 => ?_) fun hne => absurd rfl hne
  rw [htake]
  refine (on_updateStaked L h1 hle).imp fun _ g2 h2 => ?_
  refine wp_ite (fun _ => ?_) fun hne => absurd rfl hne
  rw [zero_add]
  exact ((L.storeThawing (t := f.thawed cfg a epoch x) h2 rfl (fun _ => rfl) hs).and
    (holds_storeThawing cfg h2.2 _)).bind fun _ g3 h3 => ⟨hinfo,h3⟩

/-- Nothing stays staked, and what was staked thaws. -/
theorem on_thawRest (h : X.On g0 a info st ts ks n g) (hks : ks ⊆ [(0,target)])
    (hs : strict → Searchable (epoch + thawingPeriod,f.target) ts)
    (hcur : 0 < f.amount → st = some f) (hnone : ¬0 < f.amount → ∀ f' ∈ st,f'.amount = 0) :
    (thawRest cfg a info epoch f).wp E (fun info' g' => SecondaryUpdated info info' ∧
      ∃ st' ts',(∀ f' ∈ st',f'.amount = 0) ∧ X.On g0 a info' st' ts' ks n g') g := by
  refine wp_ite (fun hpos => ?_) fun hzero => ⟨rfl,st,ts,hnone hzero,h⟩
  rw [hcur hpos] at h
  refine (on_beginThawing L h hks hs (BitVec.le_refl _)).imp fun info' g' h' => ?_
  refine ⟨h'.1,_,_,?_,h'.2⟩
  simp

theorem on_changeTarget (h : X.On g0 a info (some f) ts [] n g) (hne : target ≠ f.target)
    (hs : strict → Searchable (epoch + thawingPeriod,f.target) ts) :
    (changeTarget cfg a info epoch f target amountLeft).wp E (fun r g' =>
      SecondaryUpdated info r.2.2 ∧ r.1 = ⟨target,r.1.amount,fundsHash cfg target a 0⟩ ∧
      r.1.amount.toNat + r.2.1.toNat = amountLeft.toNat ∧ ∃ st' ts',(∀ f' ∈ st',f'.amount = 0) ∧
        X.On g0 a r.2.2 st' ts' [(0,target)] (n + r.1.amount.toNat) g') g := by
  refine (onlyPower_leaveTarget L.votingPower ..).bind fun _ g1 h1 => ?_
  rw [wp_bind,wp_createStakedFunds,wp_bind]
  have h1 := on_power L h h1
  have hcreated : X.On g0 a info (some f) ts [(0,target)] n
      (g1.putLiability cfg ⟨target,a,0,0,false⟩) := by
    refine ⟨L.createStaked h1 ?_,h1.2.liabilities (g1.onlyLiabilities_putLiability cfg _)⟩
    rintro f' ⟨⟩
    exact hne.symm
  have hextract : (extract cfg f.target f.amount 0 (updateStaked f a) target amountLeft a info
      epoch).wp E (fun r g' => SecondaryUpdated info r.2 ∧ r.1 ≤ amountLeft ∧
        ∃ st',X.On g0 a r.2 st' ts [(0,target)] (n + r.1.toNat) g' ∧
        (0 < f.amount - r.1 → st' = some { f with amount := f.amount - r.1 }) ∧
        (¬0 < f.amount - r.1 → ∀ f' ∈ st',f'.amount = 0))
      (g1.putLiability cfg ⟨target,a,0,0,false⟩) := by
    refine on_extract L hcreated (fun info' g' hinfo h2 => ?_) fun _ info' g' hinfo h2 => ?_
    · refine (on_updateStaked L h2 (extractable_le_input ..)).imp fun _ g3 h3 => ?_
      refine ⟨hinfo,extractable_le ..,_,h3,fun hpos => if_pos hpos,fun hzero => ?_⟩
      rw [StakedFunds.remaining,if_neg hzero]
      simp
    · refine ⟨hinfo,by bv_omega,_,h2,fun _ => by rw [sub_zero],fun hzero => ?_⟩
      rintro f' ⟨⟩
      rw [sub_zero] at hzero
      exact le_zero_iff.mp (not_lt.mp hzero)
  refine hextract.imp fun r g2 h2 => ?_
  obtain ⟨hinfo,hle,st2,h2,hcur,hnone⟩ := h2
  dsimp only
  rw [zero_add]
  refine (onlyPower_joinTarget L.votingPower ..).bind fun _ g3 h3 => ?_
  refine (on_thawRest (f := { f with amount := f.amount - r.1 }) L (on_power L h2 h3) (fun _ => id)
    hs hcur hnone).bind fun info' g4 h4 => ?_
  exact ⟨hinfo.trans h4.1,rfl,by dsimp only; bv_omega,h4.2⟩

/-- Thawing funds are taken in hand until enough is there or nothing more is usable. -/
theorem on_extractThawing {rest : List (ThawingFunds H)} (h : X.On g0 a info st ts ks n g)
    (hks : ks ⊆ [(0,target)]) (hformed : formed → ∀ t ∈ rest,t.Formed cfg a)
    (hrest : strict → Distinct rest ∧ rest ⊆ ts)
    (hsum : f.amount.toNat + amountLeft.toNat < 2 ^ 128) :
    (extractThawing cfg a epoch rest f amountLeft info).wp E (fun r g' =>
      SecondaryUpdated info r.2.2 ∧ r.1 = { f with amount := r.1.amount } ∧
      r.1.amount.toNat + r.2.1.toNat = f.amount.toNat + amountLeft.toNat ∧
      ∃ ts' n',n' + r.2.1.toNat = n + amountLeft.toNat ∧ X.On g0 a r.2.2 st ts' ks n' g') g := by
  induction rest generalizing ts f n amountLeft info g with
  | nil => exact ⟨rfl,rfl,rfl,ts,n,rfl,h⟩
  | cons t rest ih =>
    -- whatever is taken moves from what is left to the stake
    have hgo : ∀ taken ≤ amountLeft,∀ info' g' ts',SecondaryUpdated info info' →
        X.On g0 a info' st ts' ks (n + taken.toNat) g' →
        (0 < amountLeft - taken → strict → Distinct rest ∧ rest ⊆ ts') →
        (if 0 < amountLeft - taken then extractThawing cfg a epoch rest
            { f with amount := f.amount + taken } (amountLeft - taken) info'
          else pure ({ f with amount := f.amount + taken },amountLeft - taken,info')).wp E
        (fun r g' => SecondaryUpdated info r.2.2 ∧ r.1 = { f with amount := r.1.amount } ∧
          r.1.amount.toNat + r.2.1.toNat = f.amount.toNat + amountLeft.toNat ∧ ∃ ts' n',
            n' + r.2.1.toNat = n + amountLeft.toNat ∧ X.On g0 a r.2.2 st ts' ks n' g') g' := by
      intro taken hle info' g' ts' hinfo h' hrest'
      have hleft : (amountLeft - taken).toNat + taken.toNat = amountLeft.toNat := by bv_omega
      have hstake : (f.amount + taken).toNat = f.amount.toNat + taken.toNat := by bv_omega
      refine wp_ite (fun hmore => ?_) fun _ => ?_
      · refine (ih h' (fun hf u hu => hformed hf u (.tail _ hu)) (hrest' hmore)
          (by dsimp only; omega)).imp fun r g2 h2 => ?_
        obtain ⟨hinfo2,hheld,hsum2,ts2,n2,hhand,h2⟩ := h2
        dsimp only at hsum2
        exact ⟨hinfo.trans hinfo2,hheld,by omega,ts2,n2,by omega,h2⟩
      · exact ⟨hinfo,rfl,by dsimp only; omega,ts',_,by dsimp only; omega,h'⟩
    unfold extractThawing
    rw [wp_bind]
    refine on_extract L h (fun info' g' hinfo h1 => ?_) fun _ info' g' hinfo h1 => ?_
    · refine ((L.updateThawing h1 hks (fun hf => hformed hf t mem_cons_self)
        (fun hstrict => (hrest hstrict).2 mem_cons_self) (extractable_le_input ..)).and
          (holds_updateThawing cfg h1.2 t _)).imp fun _ g2 h2 => ?_
      refine hgo _ (extractable_le ..) info' g2 _ hinfo h2 fun hmore hstrict => ?_
      -- more is needed, so the record was used up
      rw [if_neg (by rw [sub_extractable_of_more hmore]; exact lt_irrefl 0)]
      obtain ⟨hdistinct,hsub⟩ := hrest hstrict
      exact ⟨(nodup_cons.mp hdistinct).2,subset_erase_of_distinct hdistinct hsub⟩
    · refine hgo 0 (by bv_omega) info' g' ts hinfo h1 fun _ hstrict => ?_
      obtain ⟨hdistinct,hsub⟩ := hrest hstrict
      exact ⟨(nodup_cons.mp hdistinct).2,fun u hu => hsub (.tail _ hu)⟩

theorem on_raiseStake (h : X.On g0 a info st ts ks n g) (hks : ks ⊆ [(0,target)])
    (hsum : f.amount.toNat + amountLeft.toNat < 2 ^ 128) :
    (raiseStake cfg a info f amountLeft target epoch).wp E (fun r g' =>
      r.1 = { f with amount := f.amount + amountLeft } ∧
      ∃ ts',X.On g0 a r.2 st ts' ks (n + amountLeft.toNat) g') g := by
  refine wp_ite (fun _ => ?_) fun hzero => ?_
  · refine (onlyPower_addStake L.votingPower ..).bind fun _ g1 h1 => ?_
    have h1 := on_power L h h1
    rw [wp_bind,wp_get,h1.2.duplicates_self]
    refine (on_extractThawing L h1 hks (fun hf => (L.wellFormed hf h1).2)
      (fun hstrict => ⟨L.distinct hstrict h1.1,fun _ => id⟩) hsum).bind fun r g2 h2 => ?_
    obtain ⟨-,hheld,hsum2,ts',n',hhand,h2⟩ := h2
    have hamount : r.1.amount + r.2.1 = f.amount + amountLeft := by bv_omega
    refine wp_ite (fun _ => ?_) fun hdone => ?_
    · refine wp_ite (fun _ => L.balance) fun hle => ?_
      refine (AccountInfo.wp_setAvailableBalance L.votingPower _ _ _ (.inr L.balance) _).bind
        fun info' g3 h3 => ?_
      obtain ⟨hpower,hinfo,-⟩ := h3
      have h3 := on_power L h2 hpower
      refine ⟨by dsimp only; rw [hamount,hheld],ts',?_,h3.2⟩
      have hspent := L.spend info' _ h3.1 (not_lt.mp hle) (by rw [hinfo])
      rwa [hhand] at hspent
    · have hdone : r.2.1 = 0 := le_zero_iff.mp (not_lt.mp hdone)
      rw [hdone,add_zero] at hamount
      rw [hdone] at hhand
      rw [← hhand,← hamount]
      exact ⟨hheld,ts',h2⟩
  · have hzero : amountLeft = 0 := le_zero_iff.mp (not_lt.mp hzero)
    rw [hzero,add_zero]
    exact ⟨rfl,ts,h⟩

/-- The liability of the stake that is completed is ahead of it, or it is that of the stake. -/
theorem on_completeStake (h : X.On g0 a info st ts ks n g) (htarget : f.target = target)
    (hformed : formed → f.Formed cfg a) (hheld : stakedAmount st + n = f.amount.toNat)
    (hsum : f.amount.toNat + amountLeft.toNat < 2 ^ 128)
    (hst : ∀ f' ∈ st,f'.target = target ∨ f'.amount = 0)
    (hks : ks = [(0,target)] ∨ ks = [] ∧ ∃ f' ∈ st,f'.target = target) :
    (completeStake cfg a info f amountLeft target epoch).wp E (fun info' g' => ∃ st' ts' ks',
      X.On g0 a info' st' ts' ks' 0 g' ∧ (ks' = [] ∨ ks' = ks ∧ f.amount + amountLeft = 0) ∧
      stakedAmount st' = (f.amount + amountLeft).toNat ∧
      ∀ f' ∈ st',f'.target = target ∨ f'.amount = 0) g := by
  have hsub : ks ⊆ [(0,target)] := by
    rcases hks with rfl | ⟨rfl,-⟩
    · exact fun _ => id
    · simp
  refine wp_bind.mpr (wp_need (fun _ => L.other) fun info1 hrep => ?_)
  have h1 : X.On g0 a info1 st ts ks n g := by
    have hspent := L.spend info1 0 h.1 (by bv_omega) (by
      unfold updateRep at hrep
      split at hrep
      · cases hrep
      · cases hrep
        simp only [sub_zero])
    exact ⟨hspent,h.2⟩
  refine (on_raiseStake L h1 hsub hsum).bind fun r g2 h2 => ?_
  obtain ⟨newStake,info'⟩ := r
  obtain ⟨rfl,ts',h2⟩ := h2
  have htotal : (f.amount + amountLeft).toNat = stakedAmount st + (n + amountLeft.toNat) := by
    bv_omega
  refine wp_ite (fun hne => ?_) fun hzero => ?_
  · refine ((L.storeStaked (f := { f with amount := f.amount + amountLeft }) h2 htarget hformed
      htotal hne hst hks).and (holds_storeStaked h2.2 _)).bind fun _ g3 h3 => ?_
    refine ⟨_,ts',[],h3,.inl rfl,rfl,?_⟩
    rintro f' ⟨⟩
    exact .inl htarget
  · have hzero : f.amount + amountLeft = 0 := not_not.mp hzero
    rw [hzero] at htotal ⊢
    exact ⟨st,ts',ks,⟨L.empty h2 htotal.symm,h2.2⟩,.inr ⟨rfl,rfl⟩,
      (Nat.add_eq_zero_iff.mp htotal.symm).1,hst⟩

/-- Setting a stake keeps the property, but for the liability of a new target and no amount. -/
theorem on_stake {amount : Amount} (h : X.On g0 a info st ts [] 0 g)
    (hs : strict → ∀ f ∈ st,Searchable (epoch + thawingPeriod,f.target) ts) :
    (stake cfg a info amount target epoch).wp E (fun info' g' => ∃ st' ts' ks',
      X.On g0 a info' st' ts' ks' 0 g' ∧
      (ks' = [] ∨ ks' = [(0,target)] ∧ amount = 0 ∧ ∀ f ∈ st,f.target ≠ target) ∧
      stakedAmount st' = amount.toNat ∧ ∀ f ∈ st',f.target = target ∨ f.amount = 0) g := by
  unfold stake
  rw [wp_bind,wp_get,h.2.lookup_self]
  cases st with
  | none =>
    rw [wp_bind,wp_createStakedFunds]
    have hcreated : X.On g0 a info none ts [(0,target)] 0
        (g.putLiability cfg ⟨target,a,0,0,false⟩) :=
      ⟨L.createStaked h (by simp),h.2.liabilities (g.onlyLiabilities_putLiability cfg _)⟩
    refine (onlyPower_beginStake L.votingPower ..).bind fun _ g2 h2 => ?_
    refine (on_completeStake L (on_power L hcreated h2) (f := ⟨target,0,fundsHash cfg target a 0⟩)
      rfl (fun _ => rfl) rfl (by bv_omega : 0 + amount.toNat < _) (by simp)
      (.inl rfl)).imp fun info' g' h' => ?_
    simp only [zero_add] at h'
    obtain ⟨st',ts',ks',h',hks,hst⟩ := h'
    exact ⟨st',ts',ks',h',hks.imp_right fun hks => ⟨hks.1,hks.2,by simp⟩,hst⟩
  | some f =>
    have hs : strict → Searchable (epoch + thawingPeriod,f.target) ts := fun hstrict =>
      hs hstrict f rfl
    refine wp_ite (fun hne => ?_) fun hsame => wp_ite (fun hless => ?_) fun hmore => ?_
    · refine (on_changeTarget L h hne hs).bind fun r g1 h1 => ?_
      obtain ⟨-,hnew,hsum,st1,ts1,hst1,h1⟩ := h1
      rw [zero_add] at h1
      have hother : ∀ f' ∈ some f,f'.target ≠ target := by
        rintro f' ⟨⟩
        exact hne.symm
      refine wp_ite (fun hzero => ?_) fun hamount => ?_
      · have hnothing : r.1.amount.toNat = 0 := by
          rw [hzero] at hsum
          exact (Nat.add_eq_zero_iff.mp hsum).1
        rw [hnothing] at h1
        exact ⟨none,ts1,_,⟨L.dropStake h1 hst1,h1.2.dropStake⟩,.inr ⟨rfl,hzero,hother⟩,
          by rw [hzero]; rfl,by simp⟩
      · have hheld : stakedAmount st1 + r.1.amount.toNat = r.1.amount.toNat := by
          cases st1 with
          | none => exact zero_add _
          | some f' =>
            rw [stakedAmount_some,hst1 f' rfl]
            exact zero_add _
        have htotal : r.1.amount + r.2.1 = amount := by bv_omega
        refine (on_completeStake L h1 (by rw [hnew]) (fun _ => by rw [hnew]; rfl) hheld
          (hsum ▸ amount.isLt) (fun f' hf' => .inr (hst1 f' hf')) (.inl rfl)).imp
            fun info' g' h' => ?_
        rw [htotal] at h'
        obtain ⟨st',ts',ks',h',hks,hst⟩ := h'
        exact ⟨st',ts',ks',h',hks.imp_right fun hks => ⟨hks.1,hks.2,hother⟩,hst⟩
    · refine (onlyPower_subtractStake L.votingPower ..).bind fun _ g1 h1 => ?_
      refine (on_beginThawing L (on_power L h h1) (by simp) hs (by bv_omega)).imp
        fun info' g2 h2 => ?_
      have hrest : f.amount - (f.amount - amount) = amount := by ring
      rw [hrest] at h2
      refine ⟨_,_,[],h2.2,.inl rfl,stakedAmount_remaining f amount,fun f' hf' => ?_⟩
      exact .inl ((f.target_of_mem_remaining hf').trans (not_not.mp hsame).symm)
    · have htotal : f.amount + (amount - f.amount) = amount := by ring
      have htarget : f.target = target := (not_not.mp hsame).symm
      have hsum : f.amount.toNat + (amount - f.amount).toNat < 2 ^ 128 := by bv_omega
      refine (on_completeStake L h htarget (fun hf => (L.wellFormed hf h).1 f rfl) (add_zero _) hsum
        ?_ (.inr ⟨rfl,f,rfl,htarget⟩)).imp fun info' g' h' => ?_
      · rintro f' ⟨⟩
        exact .inl htarget
      · rw [htotal] at h'
        obtain ⟨st',ts',ks',h',hks,hst⟩ := h'
        exact ⟨st',ts',ks',h',.inl (hks.elim id And.left),hst⟩

end Stake

section Redate

variable {expiration : Epoch} {R : ThawingFunds H → Prop} {marked stops : ThawingFunds H → Bool}
  (L : RedateLaws cfg g0 a E formed strict expiration R X)
include L

/-- The marked records, which expire together, are taken in hand. -/
theorem on_redateLoop {rest : List (ThawingFunds H)} {previous : Epoch}
    (h : X.On g0 a info st ts ks n g) (hR : ∀ t ∈ rest,marked t → R t)
    (hformed : formed → ∀ t ∈ rest,t.Formed cfg a)
    (hrest : strict → Distinct rest ∧ rest ⊆ ts ∧ ∀ t ∈ rest,marked t →
      t.expirationEpoch = previous ∧ t.target ∉ ks.map Prod.snd) :
    (redateLoop cfg a expiration marked stops rest).wp E (fun us g' =>
      us = (redated marked stops rest).map (redateTo cfg a expiration) ∧
      X.On g0 a info st (ts.diff (redated marked stops rest)) (us.map key ++ ks)
        (n + totalAmount us) g') g := by
  induction rest generalizing ts ks n g with
  | nil =>
    exact ⟨rfl,h⟩
  | cons t rest ih =>
    have hR' : ∀ u ∈ rest,marked u → R u := fun u hu => hR u (.tail _ hu)
    have hformed' : formed → ∀ u ∈ rest,u.Formed cfg a := fun hf u hu => hformed hf u (.tail _ hu)
    unfold redateLoop redated
    by_cases hm : marked t
    · rw [if_pos hm,if_pos hm]
      have hlaw := L.redate h (hR t mem_cons_self hm)
        (fun hf => hformed hf t mem_cons_self) fun hstrict =>
          ⟨(hrest hstrict).2.1 mem_cons_self,((hrest hstrict).2.2 t mem_cons_self hm).2⟩
      refine (hlaw.and (onlyLiabilities_deleteLiability (E := anyHalt) trivial ..)).bind
        fun _ g1 h1 => ?_
      rw [wp_bind,wp_store,wp_bind,wp_modify,wp_bind]
      have hput := g1.onlyLiabilities_putLiability cfg ⟨t.target,a,t.amount,expiration,false⟩
      have hon := ((h.2.liabilities h1.2).liabilities hput).eraseThawing t
      refine (ih ⟨h1.1,hon⟩ hR' hformed' fun hstrict => ?_).imp fun us g2 h2 => ?_
      · obtain ⟨hdistinct,hsub,hmarked⟩ := hrest hstrict
        refine ⟨(nodup_cons.mp hdistinct).2,subset_erase_of_distinct hdistinct hsub,
          fun u hu hmu => ⟨(hmarked u (.tail _ hu) hmu).1,?_⟩⟩
        rw [map_cons,List.mem_cons,not_or]
        refine ⟨fun htarget => (nodup_cons.mp hdistinct).1 ?_,(hmarked u (.tail _ hu) hmu).2⟩
        -- records that expire together have different targets
        refine mem_map.mpr ⟨u,hu,Prod.ext ?_ htarget⟩
        exact (hmarked u (.tail _ hu) hmu).1.trans (hmarked t mem_cons_self hm).1.symm
      · obtain ⟨hus,hX,hholds⟩ := h2
        refine ⟨congrArg₂ List.cons rfl hus,?_,?_⟩
        · rw [add_assoc,← List.diff_cons] at hX
          exact L.perm hX List.perm_middle
        · rw [← List.diff_cons] at hholds
          exact hholds
    · rw [if_neg hm,if_neg hm]
      by_cases hstops : stops t
      · rw [if_pos hstops,if_pos hstops]
        exact ⟨rfl,h⟩
      · rw [if_neg hstops,if_neg hstops]
        refine ih h hR' hformed' fun hstrict => ?_
        obtain ⟨hdistinct,hsub,hmarked⟩ := hrest hstrict
        exact ⟨(nodup_cons.mp hdistinct).2,fun u hu => hsub (.tail _ hu),
          fun u hu => hmarked u (.tail _ hu)⟩

theorem on_storeAll {us : List (ThawingFunds H)}
    (h : X.On g0 a info st ts (us.map key) (totalAmount us) g)
    (hus : ∀ u ∈ us,u.Formed cfg a ∧ u.expirationEpoch = expiration)
    (hs : strict → Distinct us ∧ ∀ u ∈ us,Searchable u.key ts) :
    (us.forM fun t => storeThawing cfg t a).wp E
      (fun _ g' => ∃ ts',X.On g0 a info st ts' [] 0 g') g := by
  induction us generalizing ts g with
  | nil => exact ⟨ts,h⟩
  | cons u us ih =>
    obtain ⟨hform,hexp⟩ := hus u mem_cons_self
    have hsearch : strict → Searchable u.key ts := fun hstrict =>
      (hs hstrict).2 u mem_cons_self
    rw [map_cons,totalAmount_cons,add_comm] at h
    refine ((L.storeThawing h hexp (fun _ => hform) hsearch).and
      (holds_storeThawing cfg h.2 u)).bind fun _ g1 h1 => ?_
    refine ih h1 (fun v hv => hus v (.tail _ hv)) fun hstrict => ?_
    obtain ⟨hdistinct,hsearchable⟩ := hs hstrict
    obtain ⟨hu,hrest⟩ := nodup_cons.mp hdistinct
    refine ⟨hrest,fun v hv => ?_⟩
    refine (hsearchable v (.tail _ hv)).deposit cfg (hsearch hstrict) ?_ fun heq =>
      hu (heq ▸ List.mem_map_of_mem hv)
    show ¬u.expirationEpoch < v.expirationEpoch
    rw [hexp,(hus v (.tail _ hv)).2]
    exact lt_irrefl _


/-- Giving the marked records, which all expire in one epoch, another expiration. -/
theorem on_redate {previous : Epoch} (h : X.On g0 a info st ts [] 0 g)
    (hR : ∀ t ∈ ts,marked t → R t) (hprevious : ∀ t,marked t → t.expirationEpoch = previous)
    (hs : strict → ∀ t ∈ redated marked stops ts,
      Searchable (expiration,t.target) (ts.diff (redated marked stops ts))) :
    (redate cfg a expiration marked stops).wp E
      (fun _ g' => ∃ ts',X.On g0 a info st ts' [] 0 g') g := by
  unfold redate
  rw [wp_bind,wp_get,h.2.duplicates_self]
  refine (on_redateLoop L h hR (fun hf => (L.wellFormed hf h).2) fun hstrict =>
    ⟨L.distinct hstrict h.1,fun _ => id,fun t _ hm => ⟨hprevious t hm,by simp⟩⟩).bind
      fun us g1 h1 => ?_
  obtain ⟨rfl,h1⟩ := h1
  rw [List.append_nil,zero_add] at h1
  refine on_storeAll L h1 (fun u hu => ?_) fun hstrict => ⟨?_,fun u hu => ?_⟩
  · obtain ⟨t,-,rfl⟩ := mem_map.mp hu
    exact ⟨rfl,rfl⟩
  · exact distinct_redateTo cfg (fun t ht => hprevious t (marked_of_mem_redated ht))
      ((L.distinct hstrict h.1).sublist ((redated_sublist marked stops ts).map _))
  · obtain ⟨t,ht,rfl⟩ := mem_map.mp hu
    exact hs hstrict t ht

end Redate

/-- Nothing expires earlier than frozen funds, which have expiration zero. -/
theorem on_markThawingAsFrozen {R : ThawingFunds H → Prop}
    (L : RedateLaws cfg g0 a E formed strict 0 R X) (h : X.On g0 a info st ts [] 0 g)
    (hR : ∀ t ∈ ts,t.expirationEpoch = epoch + thawingPeriod → t.target = a → R t) :
    (markThawingAsFrozen cfg a epoch).wp E (fun _ g' => ∃ ts',X.On g0 a info st ts' [] 0 g') g :=
  on_redate L h (fun t ht hm => hR t ht (of_decide_eq_true hm).1 (of_decide_eq_true hm).2)
    (fun _ hm => (of_decide_eq_true hm).1) fun _ t _ => Searchable.zero t.target _

theorem on_setExpirationOfFrozen {R : ThawingFunds H → Prop}
    (L : RedateLaws cfg g0 a E formed strict (epoch + thawingPeriod) R X)
    (h : X.On g0 a info st ts [] 0 g) (hR : ∀ t ∈ ts,t.expirationEpoch = 0 → R t)
    (hs : strict → ∀ t ∈ ts,t.expirationEpoch = 0 →
      Searchable (epoch + thawingPeriod,t.target) (ts.filter fun t => t.expirationEpoch ≠ 0)) :
    (setExpirationOfFrozen cfg a epoch).wp E
      (fun _ g' => ∃ ts',X.On g0 a info st ts' [] 0 g') g := by
  refine on_redate L h (fun t ht hm => hR t ht (of_decide_eq_true hm))
    (fun _ hm => of_decide_eq_true hm) fun hstrict t ht => ?_
  rw [diff_redated_of_never (L.distinct hstrict h.1)]
  simpa using hs hstrict t ((redated_sublist ..).subset ht)
    (of_decide_eq_true (marked_of_mem_redated ht))

end Acting

end LogosCore.Ledger

import LogosCore.Conservation

/-! # The supply of tokens

What a token account says is out is what the user accounts hold. The difference is kept as an
integer per account, so that the statement is that these differences add up to zero. -/
namespace LogosCore.Ledger

open Option Program StakingManager
open AccountInfo (findEntry getEntry)
open Check (accepts_attempt_bind accepts_bind accepts_found_bind accepts_require)
open Table (amountAt amountAt_of_absent amountAt_of_lookup)

variable {H : Type} [DecidableEq H] [Zero H] {cfg : Config H} {entries : List (TokenEntry H)}
  {a' : Account H}

section Entries

def entriesHeld (t : H) (entries : List (TokenEntry H)) : ℕ :=
  ((entries.filter (·.tokenId = t)).map (·.balance.toNat)).sum

@[simp] theorem entriesHeld_nil (t : H) : entriesHeld t ([] : List (TokenEntry H)) = 0 := rfl

theorem entriesHeld_cons (t : H) (e : TokenEntry H) (entries : List (TokenEntry H)) :
    entriesHeld t (e::entries) =
      (if e.tokenId = t then e.balance.toNat else 0) + entriesHeld t entries := by
  by_cases h : e.tokenId = t <;> simp [entriesHeld,h]

theorem entriesHeld_append (t : H) (l l' : List (TokenEntry H)) :
    entriesHeld t (l ++ l') = entriesHeld t l + entriesHeld t l' := by
  simp [entriesHeld]

variable {info : AccountInfo H} {tokenId : H} {e : TokenEntry H}

theorem balance_le_entriesHeld (h : info.findEntry tokenId = some e) :
    e.balance.toNat ≤ entriesHeld tokenId info.entries := by
  unfold findEntry at h
  generalize info.entries = entries at h
  induction entries with
  | nil => cases h
  | cons a entries ih =>
    rw [entriesHeld_cons]
    by_cases ha : a.tokenId = tokenId
    · rw [List.find?_cons_of_pos (by simpa using ha)] at h
      cases h
      simp [ha]
    · rw [List.find?_cons_of_neg (by simpa using ha)] at h
      have hle := ih h
      omega

/-- Rewriting an entry replaces what it held and nothing else. -/
theorem entriesHeld_updateEntry (t : H) {f : TokenEntry H → TokenEntry H}
    (hf : ∀ e,(f e).tokenId = e.tokenId) (h : info.findEntry tokenId = some e) :
    entriesHeld t (info.updateEntry tokenId f).entries +
        (if t = tokenId then e.balance.toNat else 0) =
      entriesHeld t info.entries + if t = tokenId then (f e).balance.toNat else 0 := by
  unfold findEntry at h
  unfold AccountInfo.updateEntry
  generalize info.entries = entries at h
  induction entries with
  | nil => cases h
  | cons a entries ih =>
    by_cases ha : a.tokenId = tokenId
    · rw [List.find?_cons_of_pos (by simpa using ha)] at h
      cases h
      have hidx : (e::entries).findIdx? (·.tokenId = tokenId) = some 0 := by
        simp [List.findIdx?_cons,ha]
      simp only [hidx,List.modify_zero_cons,entriesHeld_cons,hf,ha]
      by_cases ht : t = tokenId
      · subst ht
        omega
      · simp only [ht,Ne.symm ht,if_false]
    · rw [List.find?_cons_of_neg (by simpa using ha)] at h
      have hrest := ih h
      cases hidx : entries.findIdx? (·.tokenId = tokenId) with
      | none =>
        have hnone := List.findIdx?_eq_none_iff.mp hidx e (List.mem_of_find?_eq_some h)
        have hsome := List.find?_some h
        exact absurd hsome (by simp [hnone])
      | some j =>
        have hidx' : (a::entries).findIdx? (·.tokenId = tokenId) = some (j + 1) := by
          simp [List.findIdx?_cons,ha,hidx]
        simp only [hidx] at hrest
        simp only [hidx',List.modify_succ_cons,entriesHeld_cons]
        omega

/-- A credit adds its amount to what is held of its token. -/
theorem entriesHeld_creditedEntries (s : Store H) (t : H) {send : Transaction H}
    (hfit : entriesHeld tokenId entries + send.amount.toNat < 2 ^ 128) :
    entriesHeld t (s.creditedEntries cfg entries tokenId send) =
      entriesHeld t entries + if t = tokenId then send.amount.toNat else 0 := by
  have hcredit : ∀ (info : AccountInfo H) (e : TokenEntry H),info.findEntry tokenId = some e →
      entriesHeld tokenId info.entries = entriesHeld tokenId entries →
      entriesHeld t info.entries = entriesHeld t entries →
      entriesHeld t (info.updateEntry tokenId fun e =>
        { e with balance := e.balance + send.amount }).entries =
        entriesHeld t entries + if t = tokenId then send.amount.toNat else 0 := by
    intro info e he hsame hsameT
    have hupdate := entriesHeld_updateEntry t
      (f := fun e => { e with balance := e.balance + send.amount }) (fun _ => rfl) he
    by_cases ht : t = tokenId
    · simp only [ht,if_true,BitVec.toNat_add] at hupdate ⊢
      omega
    · simp only [ht,if_false] at hupdate ⊢
      omega
  unfold Store.creditedEntries Store.tether
  simp only
  split
  · next hsome =>
    obtain ⟨e,he⟩ := isSome_iff_exists.mp hsome
    exact hcredit _ e he rfl rfl
  · next hnone =>
    -- the new entry is the first one of its token, and it is empty
    have habsent : entries.find? (·.tokenId = tokenId) = none := by
      simpa [findEntry] using hnone
    refine hcredit _ ⟨tokenId,(s.tokenUserStatus.lookup
      (cfg.tokenUserId tokenId send.destination)).getD .default,0⟩ ?_ ?_ ?_
    · simp only [findEntry,List.find?_append,habsent,none_or]
      simp
    · simp [entriesHeld_append,entriesHeld_cons]
    · simp [entriesHeld_append,entriesHeld_cons]

end Entries

namespace Account

def held (t : H) : Account H → ℕ
  | user info => entriesHeld t info.entries
  | token _ => 0

/-- What a user holds of a token; for its account, the balances less the supply. -/
def backing (t : H) (address : H) (a : Account H) : ℤ :=
  match a.tokens with
  | .inl entries => entriesHeld t entries
  | .inr (supply,balance,fees) =>
    if address = t then balance.toNat + fees.toNat - supply.toNat else 0

theorem held_user (t : H) (info : AccountInfo H) :
    (Account.user info).held t = entriesHeld t info.entries := rfl

theorem backing_user (t address : H) (info : AccountInfo H) :
    (Account.user info).backing t address = entriesHeld t info.entries := rfl

theorem backing_of_tokens {a : Account H} (h : a'.tokens = a.tokens) (t address : H) :
    a'.backing t address = a.backing t address := by
  simp only [backing,h]

theorem held_of_tokens {a : Account H} (h : a'.tokens = a.tokens) (t : H) :
    a'.held t = a.held t := by
  cases a <;> cases a' <;> simp_all [held,tokens]

theorem backing_of_ne {t address : H} (h : address ≠ t) (a : Account H) :
    a.backing t address = a.held t := by
  cases a with
  | user info => rfl
  | token info => simp [backing,tokens,held,h]

end Account

/-- The tokens that a request pays out of the token account. -/
def Body.payout : Body H → ℕ
  | .distribute _ transaction => transaction.amount.toNat
  | .withdrawFee _ transaction => transaction.amount.toNat
  | _ => 0

namespace Store

/-- The total supply is what the token account keeps, the fees, and what users hold. -/
def Supplied (s : Store H) : Prop :=
  ∀ t token,s.accounts.lookup t = some (.token token) →
    token.totalSupply.toNat = token.tokenBalance.toNat + token.tokenFeeBalance.toNat +
      s.accounts.total fun _ a => a.held t

/-- Every token is supplied, and nothing is held of a token that has no account. -/
structure Backed (s : Store H) : Prop where
  supplied : s.Supplied
  issued : ∀ t,(∀ token,s.accounts.lookup t ≠ some (.token token)) →
    s.accounts.total (fun _ a => a.held t) = 0

def backingApart (s : Store H) (t k : H) : ℤ :=
  Table.total (fun address a => a.backing t address) (s.accounts.erase k)

def heldApart (s : Store H) (t k : H) : ℕ :=
  Table.total (fun _ a => a.held t) (s.accounts.erase k)

theorem backingApart_self (s : Store H) (t : H) : s.backingApart t t = s.heldApart t t := by
  have hcast := Table.map_total (Nat.castAddMonoidHom ℤ) (fun _ a => Account.held t a)
    (s.accounts.erase t)
  simp only [Nat.coe_castAddMonoidHom] at hcast
  rw [heldApart,← hcast]
  refine Table.total_congr fun e he => Account.backing_of_ne (fun heq => ?_) e.2
  have hmem : e.1 ∈ s.accounts.erase t := AList.mem_keys.mpr (List.mem_keys_of_mem he)
  exact (AList.mem_erase.mp hmem).1 heq

theorem total_backing (s : Store H) (t k : H) :
    s.accounts.total (fun address a => a.backing t address) =
      s.backingApart t k + amountAt (fun address a => a.backing t address) s.accounts k :=
  (Table.total_erase ..).symm

theorem total_held (s : Store H) (t k : H) :
    s.accounts.total (fun _ a => a.held t) =
      s.heldApart t k + amountAt (fun _ a => a.held t) s.accounts k :=
  (Table.total_erase ..).symm

variable {tokenFee : Amount} {token : TokenAccount H} {j : H} {u : AccountInfo H}
  {ts : List (Transaction H)} {e : TokenEntry H}

variable {s : Store H}

/-- A token is supplied exactly if all contributions to its balance cancel. -/
theorem supplied_iff {t : H} (h : s.accounts.lookup t = some (.token token)) :
    token.totalSupply.toNat = token.tokenBalance.toNat + token.tokenFeeBalance.toNat +
        s.accounts.total (fun _ a => a.held t) ↔
      s.accounts.total (fun address a => a.backing t address) = 0 := by
  rw [total_backing s t t,total_held s t t,backingApart_self,amountAt_of_lookup h,
    amountAt_of_lookup h]
  simp only [Account.backing,Account.tokens,Account.held,if_true]
  omega

theorem held_eq_zero_iff {t : H} (h : ∀ token,s.accounts.lookup t ≠ some (.token token)) :
    s.accounts.total (fun _ a => a.held t) = 0 ↔
      s.accounts.total (fun address a => a.backing t address) = 0 := by
  rw [total_backing s t t,total_held s t t,backingApart_self]
  cases hlookup : s.accounts.lookup t with
  | none =>
    rw [amountAt_of_absent hlookup,amountAt_of_absent hlookup]
    omega
  | some a =>
    cases a with
    | token token => exact absurd hlookup (h token)
    | user info =>
      rw [amountAt_of_lookup hlookup,amountAt_of_lookup hlookup]
      simp only [Account.backing,Account.tokens,Account.held]
      omega

theorem backed_iff :
    s.Backed ↔ ∀ t,s.accounts.total (fun address a => a.backing t address) = 0 := by
  constructor
  · intro hs t
    by_cases h : ∃ token,s.accounts.lookup t = some (.token token)
    · obtain ⟨token,h⟩ := h
      exact (supplied_iff h).mp (hs.supplied t token h)
    · have hnone : ∀ token,s.accounts.lookup t ≠ some (.token token) :=
        fun token heq => h ⟨token,heq⟩
      exact (held_eq_zero_iff hnone).mp (hs.issued t hnone)
  · intro hs
    exact ⟨fun t token h => (supplied_iff h).mpr (hs t),fun t h => (held_eq_zero_iff h).mpr (hs t)⟩

theorem backingApart_accountPut_self (s : Store H) (t k : H) (a : Account H) :
    (s.accountPut k a).backingApart t k = s.backingApart t k := by
  simp only [backingApart,accountPut,Table.total_erase_insert_self]

/-- What can be lost or gained by writing one account: what it held of the token before. -/
theorem backingApart_accountPut_ne (s : Store H) (t : H) {k : H} (a : Account H) (h : j ≠ k) :
    (s.accountPut j a).backingApart t k +
        amountAt (fun address a => a.backing t address) s.accounts j =
      s.backingApart t k + a.backing t j :=
  Table.total_erase_insert_ne _ _ _ h

theorem heldApart_accountPut_ne (s : Store H) (t : H) {k : H} (a : Account H) (h : j ≠ k) :
    (s.accountPut j a).heldApart t k + amountAt (fun _ a => a.held t) s.accounts j =
      s.heldApart t k + a.held t :=
  Table.total_erase_insert_ne _ _ _ h

/-- The accounts other than `k` gain `n` of a token, if they have room, and no other token. -/
structure Tokens (k tokenId : H) (s s' : Store H) (n : ℕ) : Prop where
  held : s.heldApart tokenId k + n < 2 ^ 128 → s'.heldApart tokenId k = s.heldApart tokenId k + n
  backing : s.heldApart tokenId k + n < 2 ^ 128 → ∀ t,
    s'.backingApart t k = s.backingApart t k + if t = tokenId then (n : ℤ) else 0

theorem SameMoney.tokens {s s' : Store H} (h : s.SameMoney s') (k tokenId : H) :
    Tokens k tokenId s s' 0 := by
  constructor
  · intro _
    simp only [heldApart,h.accounts,Nat.add_zero]
  · intro _ t
    simp [backingApart,h.accounts]

theorem Tokens.trans {k tokenId : H} {a b c : Store H} {m n : ℕ} (hab : Tokens k tokenId a b m)
    (hbc : Tokens k tokenId b c n) : Tokens k tokenId a c (m + n) := by
  constructor
  · intro hfit
    have hb := hab.held (by omega)
    have hc := hbc.held (by omega)
    omega
  · intro hfit t
    have hb := hab.held (by omega)
    rw [hbc.backing (by omega) t,hab.backing (by omega) t]
    split <;> push_cast <;> ring

theorem tokens_accountPut_self (s : Store H) (k t : H) (a : Account H) :
    Tokens k t s (s.accountPut k a) 0 := by
  constructor
  · intro _
    simp only [heldApart,accountPut,Table.total_erase_insert_self,Nat.add_zero]
  · intro _ t'
    rw [backingApart_accountPut_self,Nat.cast_zero,ite_self,add_zero]

/-- Writing an account that says the same about tokens. -/
theorem tokens_accountPut_of_tokens (k tokenId : H)
    (h : a'.tokens = ((s.accounts.lookup j).map Account.tokens).getD (.inl [])) :
    Tokens k tokenId s (s.accountPut j a') 0 := by
  have hbacking : ∀ t,a'.backing t j =
      amountAt (fun address a => a.backing t address) s.accounts j := by
    intro t
    cases hlookup : s.accounts.lookup j with
    | none =>
      rw [hlookup] at h
      rw [amountAt_of_absent hlookup]
      simp [Account.backing,h]
    | some a =>
      rw [hlookup] at h
      rw [amountAt_of_lookup hlookup]
      exact Account.backing_of_tokens h t j
  have hheld : a'.held tokenId = amountAt (fun _ a => a.held tokenId) s.accounts j := by
    cases hlookup : s.accounts.lookup j with
    | none =>
      rw [hlookup] at h
      rw [amountAt_of_absent hlookup]
      cases a' with
      | user info =>
        have hentries : info.entries = [] := Sum.inl.inj h
        simp [Account.held,hentries]
      | token info => rfl
    | some a =>
      rw [hlookup] at h
      rw [amountAt_of_lookup hlookup]
      exact Account.held_of_tokens h tokenId
  by_cases hj : j = k
  · subst hj
    exact tokens_accountPut_self s j tokenId a'
  · constructor
    · intro _
      have hput := s.heldApart_accountPut_ne tokenId a' hj
      omega
    · intro _ t
      have hput := s.backingApart_accountPut_ne t a' hj
      have hsame := hbacking t
      omega

theorem amountAt_held_of_tokens
    (h : ((s.accounts.lookup j).map Account.tokens).getD (.inl []) = .inl entries) (t : H) :
    amountAt (fun _ a => a.held t) s.accounts j = entriesHeld t entries ∧
    amountAt (fun address a => a.backing t address) s.accounts j = entriesHeld t entries := by
  cases hlookup : s.accounts.lookup j with
  | none =>
    rw [hlookup] at h
    cases h
    rw [amountAt_of_absent hlookup,amountAt_of_absent hlookup]
    exact ⟨rfl,rfl⟩
  | some a =>
    rw [hlookup] at h
    rw [amountAt_of_lookup hlookup,amountAt_of_lookup hlookup]
    cases a with
    | user info =>
      cases h
      exact ⟨rfl,rfl⟩
    | token info => cases h

/-- Writing the account of a user who gains `n` of a token. -/
theorem tokens_accountPut_of_entries {j k tokenId : H} {a' : Account H}
    {entries entries' : List (TokenEntry H)} {n : ℕ} (hj : j ≠ k)
    (hold : ((s.accounts.lookup j).map Account.tokens).getD (.inl []) = .inl entries)
    (hnew : a'.tokens = .inl entries') (hgain : s.heldApart tokenId k + n < 2 ^ 128 → ∀ t,
      entriesHeld t entries' = entriesHeld t entries + if t = tokenId then n else 0) :
    Tokens k tokenId s (s.accountPut j a') n := by
  cases a' with
  | token info => cases hnew
  | user info =>
    have hentries : info.entries = entries' := Sum.inl.inj hnew
    constructor
    · intro hfit
      have hput := s.heldApart_accountPut_ne tokenId (.user info) hj
      have hheld := (amountAt_held_of_tokens hold tokenId).1
      have hgained := hgain hfit tokenId
      rw [if_pos rfl] at hgained
      rw [Account.held_user,hentries] at hput
      omega
    · intro hfit t
      have hput := s.backingApart_accountPut_ne t (.user info) hj
      have hheld := (amountAt_held_of_tokens hold t).2
      have hgained := hgain hfit t
      rw [Account.backing_user,hentries] at hput
      by_cases ht : t = tokenId
      · rw [if_pos ht] at hgained ⊢
        omega
      · rw [if_neg ht] at hgained ⊢
        omega

theorem entriesHeld_le_heldApart {k : H} (hj : j ≠ k)
    (h : ((s.accounts.lookup j).map Account.tokens).getD (.inl []) = .inl entries) (t : H) :
    entriesHeld t entries ≤ s.heldApart t k := by
  rw [← (amountAt_held_of_tokens h t).1,← Table.amountAt_erase_ne _ _ hj]
  exact Table.amountAt_le_total _ _ _

section Send

variable {s s' : Store H} {timestamp : BitVec 64} {requestHash tokenId origin : H} {epoch : Epoch}
  {send : Transaction H} {index : BitVec 16}

theorem applySend_logos_tokens (k t : H)
    (h : s.applySend cfg timestamp requestHash 0 origin epoch send index = some s') :
    Tokens k t s s' 0 := by
  obtain ⟨⟨info,s1⟩,hto,h⟩ := bind_eq_some_iff.mp h
  cases h
  obtain ⟨hsame,-,htokens,-⟩ := applySendTo_logos hto
  rw [← hsame.accounts] at htokens
  exact (hsame.tokens k t).trans (tokens_accountPut_of_tokens k t htokens)

theorem applySends_logos_tokens (k t : H) (sends : List (Transaction H))
    (h : applySends cfg timestamp requestHash 0 origin epoch sends index s = some s') :
    Tokens k t s s' 0 := by
  induction sends generalizing s index with
  | nil =>
    cases h
    exact (SameMoney.refl _).tokens k t
  | cons send sends ih =>
    obtain ⟨s1,hsend,h⟩ := bind_eq_some_iff.mp h
    exact (applySend_logos_tokens k t hsend).trans (ih h)

theorem applySend_tokens {k : H} (htoken : tokenId ≠ 0) (hdest : send.destination ≠ k)
    (h : s.applySend cfg timestamp requestHash tokenId origin epoch send index = some s') :
    Tokens k tokenId s s' send.amount.toNat := by
  obtain ⟨⟨info,s1⟩,hto,h⟩ := bind_eq_some_iff.mp h
  cases h
  obtain ⟨hsame,-,⟨entries,hold,hnew⟩,-⟩ := applySendTo_token htoken hto
  rw [← hsame.accounts] at hold
  have hput : Tokens k tokenId s1 (s1.accountPut send.destination info) send.amount.toNat := by
    refine tokens_accountPut_of_entries hdest hold hnew fun hfit t => ?_
    have hle := entriesHeld_le_heldApart hdest hold tokenId
    exact entriesHeld_creditedEntries s t (by omega)
  have hall := (hsame.tokens k tokenId).trans hput
  rwa [Nat.zero_add] at hall

theorem applySends_tokens {k : H} (htoken : tokenId ≠ 0) (sends : List (Transaction H))
    (hdest : ∀ t ∈ sends,t.destination ≠ k)
    (h : applySends cfg timestamp requestHash tokenId origin epoch sends index s = some s') :
    Tokens k tokenId s s' (sends.map (·.amount.toNat)).sum := by
  induction sends generalizing s index with
  | nil =>
    cases h
    exact (SameMoney.refl _).tokens k tokenId
  | cons send sends ih =>
    obtain ⟨s1,hsend,h⟩ := bind_eq_some_iff.mp h
    have hfirst := applySend_tokens htoken (hdest send List.mem_cons_self) hsend
    exact hfirst.trans (ih (fun t ht => hdest t (List.mem_cons_of_mem _ ht)) h)

end Send

/-- A new token account that still has its whole supply. -/
theorem tokens_accountPut_of_absent {k : H} (tokenId : H) (hj : j ≠ k)
    (habsent : s.accounts.lookup j = none) (hbalance : token.tokenBalance = token.totalSupply)
    (hfees : token.tokenFeeBalance = 0) : Tokens k tokenId s (s.accountPut j (.token token)) 0 := by
  constructor
  · intro _
    have hput := s.heldApart_accountPut_ne tokenId (.token token) hj
    rw [amountAt_of_absent habsent] at hput
    exact hput
  · intro _ t
    have hput := s.backingApart_accountPut_ne t (.token token) hj
    have hzero : (Account.token token).backing t j = 0 := by
      simp [Account.backing,Account.tokens,hbalance,hfees]
    rw [amountAt_of_absent habsent,hzero] at hput
    omega

theorem issue_tokens {s s' : Store H} {r : Request H} {i : Issuance H} {timestamp : BitVec 64}
    {k : H} (hfresh : i.tokenId ∉ s.accounts) (hk : k ∈ s.accounts) (tokenId : H)
    (h : s.issue cfg r i timestamp = some s') : Tokens k tokenId s s' 0 := by
  have hne : i.tokenId ≠ k := fun heq => hfresh (heq ▸ hk)
  have habsent : s.accounts.lookup i.tokenId = none := AList.lookup_eq_none.mpr hfresh
  have hplaced := sameMoney_placeReceive h
  refine Tokens.trans (m := 0) ?_ (hplaced.tokens k tokenId)
  exact tokens_accountPut_of_absent tokenId hne habsent rfl rfl

/-- Writing the account of a user who loses `n` of a token. -/
theorem heldApart_accountPut_of_loss {j k tokenId : H} {u u' : AccountInfo H} {n : ℕ}
    (hj : j ≠ k) (hlookup : s.accounts.lookup j = some (.user u))
    (hloss : ∀ t,entriesHeld t u'.entries + (if t = tokenId then n else 0) = entriesHeld t u.entries) :
    (s.accountPut j (.user u')).heldApart tokenId k + n = s.heldApart tokenId k ∧
    ∀ t,(s.accountPut j (.user u')).backingApart t k + (if t = tokenId then (n : ℤ) else 0) =
      s.backingApart t k := by
  constructor
  · have hput := s.heldApart_accountPut_ne tokenId (.user u') hj
    have hlost := hloss tokenId
    rw [amountAt_of_lookup hlookup,Account.held_user,Account.held_user] at hput
    rw [if_pos rfl] at hlost
    omega
  · intro t
    have hput := s.backingApart_accountPut_ne t (.user u') hj
    have hlost := hloss t
    rw [amountAt_of_lookup hlookup,Account.backing_user,Account.backing_user] at hput
    by_cases ht : t = tokenId
    · rw [if_pos ht] at hlost ⊢
      omega
    · rw [if_neg ht] at hlost ⊢
      omega

/-- An entry that covers a debit loses exactly that. -/
theorem entriesHeld_debit {tokenId : H} {amount : Amount} (he : u.findEntry tokenId = some e)
    (hamount : amount ≤ e.balance) (t : H) :
    entriesHeld t (u.updateEntry tokenId fun e => { e with balance := e.balance - amount }).entries +
      (if t = tokenId then amount.toNat else 0) = entriesHeld t u.entries := by
  have hupdate := entriesHeld_updateEntry t
    (f := fun e => { e with balance := e.balance - amount }) (fun _ => rfl) he
  have hamountNat : amount.toNat ≤ e.balance.toNat := hamount
  simp only [BitVec.toNat_sub_of_le hamount] at hupdate
  by_cases ht : t = tokenId
  · subst ht
    simp only [if_true] at hupdate ⊢
    omega
  · simp only [ht,if_false] at hupdate ⊢
    exact hupdate

theorem revokeFrom_tokens {s s' : Store H} {tokenId source hash k : H} {amount : Amount}
    {timestamp : BitVec 64} {token : TokenAccount H}
    (hk : s.accounts.lookup k = some (.token token))
    (hamount : ∀ u e,s.accounts.lookup source = some (.user u) → u.findEntry tokenId = some e →
      amount ≤ e.balance) (h : s.revokeFrom cfg tokenId source amount hash timestamp = some s') :
    s'.accounts.lookup k = some (.token token) ∧
    s'.heldApart tokenId k + amount.toNat = s.heldApart tokenId k ∧
    ∀ t,s'.backingApart t k + (if t = tokenId then (amount.toNat : ℤ) else 0) =
      s.backingApart t k := by
  obtain ⟨user,e,receives,head,hlookup,hentry,rfl⟩ := revokeFrom_steps h
  have hsource : source ≠ k := by
    rintro rfl
    cases hlookup.symm.trans hk
  have hlost := entriesHeld_debit hentry (hamount user e hlookup hentry)
  refine ⟨?_,heldApart_accountPut_of_loss (s := { s with receives := receives }) hsource hlookup hlost⟩
  simp only [accountPut,AList.lookup_insert_ne hsource.symm]
  exact hk

theorem adjustUserStatus_tokens {s s' : Store H} {tokenId account : H} {status : UserStatus}
    (k t : H) (h : s.adjustUserStatus cfg tokenId account status = some s') : Tokens k t s s' 0 := by
  rcases adjustUserStatus_steps h with ⟨statuses,rfl⟩ | ⟨user,e,hlookup,he,rfl⟩
  · have hsame : s.SameMoney { s with tokenUserStatus := statuses } := ⟨rfl,rfl⟩
    exact hsame.tokens k t
  · by_cases haccount : account = k
    · subst haccount
      exact tokens_accountPut_self s account t _
    · have hold : ((s.accounts.lookup account).map Account.tokens).getD (.inl []) =
          .inl user.entries := by
        rw [hlookup]
        rfl
      refine tokens_accountPut_of_entries haccount hold rfl fun _ t' => ?_
      have hupdate := entriesHeld_updateEntry t'
        (f := fun e => { e with status := e.status.adjust status }) (fun _ => rfl) he
      simp only [ite_self,Nat.add_zero]
      exact Nat.add_right_cancel hupdate

section Accepted

variable {s : Store H} {r : Request H} {info : Account H} {epoch : Epoch}

theorem accepted_admin (h : (s.validateBody cfg r info epoch).Accepts ())
    (hadmin : r.body.administered.isSome) :
    ∃ token,info = .token token ∧ ((∀ t source transaction,r.body ≠ .revoke t source transaction) →
        (r.validateAgainst cfg info).Accepts ()) ∧
      (s.validateTokenTransfer cfg r info).Accepts () := by
  have hbody : s.validateBody cfg r info epoch =
      (do validateTokenAdminRequest cfg r info; s.validateTokenTransfer cfg r info) := by
    unfold validateBody
    cases hkind : r.body <;> simp_all [Body.administered]
  rw [hbody] at h
  obtain ⟨_,hadminOk,htransfer⟩ := accepts_bind.mp h
  obtain ⟨token,htoken,hadminOk⟩ := accepts_found_bind.mp hadminOk
  obtain ⟨controller,-,hadminOk⟩ := accepts_found_bind.mp hadminOk
  obtain ⟨authorized,-,hadminOk⟩ := accepts_attempt_bind.mp hadminOk
  obtain ⟨-,hadminOk⟩ := Check.accepts_require_bind.mp hadminOk
  obtain ⟨-,hadminOk⟩ := Check.accepts_require_bind.mp hadminOk
  refine ⟨token,Account.asToken_eq_some.mp htoken,fun hrevoke => ?_,htransfer⟩
  split at hadminOk
  · next hkind => exact absurd hkind (hrevoke _ _ _)
  · exact hadminOk

variable {tokenId : H}

theorem accepted_validateEntry {amount : Amount}
    (h : (validateEntry cfg (.user u) tokenId amount).Accepts ())
    (he : u.findEntry tokenId = some e) : amount ≤ e.balance := by
  obtain ⟨u',hu',h⟩ := accepts_attempt_bind.mp h
  cases hu'
  obtain ⟨e',he',h⟩ := accepts_found_bind.mp h
  have hne : u.entries ≠ [] := by
    intro hempty
    rw [findEntry,hempty] at he
    cases he
  rw [getEntry,if_neg hne,he] at he'
  cases he'
  exact accepts_require.mp h

theorem accepted_tokenSend (hbody : r.body = .tokenSend tokenId ts tokenFee)
    (h : (s.validateBody cfg r (.user u) epoch).Accepts ()) (he : u.findEntry tokenId = some e) :
    r.body.getTokenTotal ≤ e.balance := by
  simp only [validateBody,hbody] at h
  unfold validateTokenTransfer at h
  by_cases hzero : r.body.getTokenTotal = 0
  · bv_omega
  · rw [if_neg hzero] at h
    simp only [hbody] at h
    obtain ⟨account,-,h⟩ := accepts_found_bind.mp h
    obtain ⟨token,-,h⟩ := accepts_attempt_bind.mp h
    obtain ⟨user,-,h⟩ := accepts_found_bind.mp h
    obtain ⟨entry,-,h⟩ := accepts_found_bind.mp h
    obtain ⟨_,-,h⟩ := accepts_bind.mp h
    obtain ⟨_,-,h⟩ := accepts_bind.mp h
    have hagainst : (validateEntry cfg (.user u) tokenId r.body.getTokenTotal).Accepts () := by
      simpa only [Request.validateAgainst,hbody] using h
    exact accepted_validateEntry hagainst he

theorem accepted_revoke {source : H} {transaction : Transaction H}
    (hbody : r.body = .revoke tokenId source transaction)
    (h : (s.validateTokenTransfer cfg r info).Accepts ())
    (hsource : s.accounts.lookup source = some (.user u)) (he : u.findEntry tokenId = some e) :
    transaction.amount ≤ e.balance := by
  unfold validateTokenTransfer at h
  have htotal : r.body.getTokenTotal = transaction.amount := by rw [hbody]; rfl
  by_cases hzero : r.body.getTokenTotal = 0
  · bv_omega
  · rw [if_neg hzero] at h
    simp only [hbody] at h
    obtain ⟨token,-,h⟩ := accepts_found_bind.mp h
    obtain ⟨account,haccount,h⟩ := accepts_found_bind.mp h
    obtain ⟨_,-,h⟩ := accepts_bind.mp h
    cases hsource.symm.trans haccount
    have hagainst : (validateEntry cfg (.user u) tokenId transaction.amount).Accepts () := by
      simpa only [Request.validateAgainst,hbody] using h
    exact accepted_validateEntry hagainst he

end Accepted

/-- Tokens never arrive on a token account. -/
theorem destination_ne_of_applySend {s s' : Store H} {timestamp : BitVec 64}
    {requestHash tokenId origin k : H} {epoch : Epoch} {send : Transaction H} {index : BitVec 16}
    (htoken : tokenId ≠ 0) (hk : s.accounts.lookup k = some (.token token))
    (h : s.applySend cfg timestamp requestHash tokenId origin epoch send index = some s') :
    send.destination ≠ k := by
  rintro rfl
  obtain ⟨⟨info,s1⟩,hto,-⟩ := bind_eq_some_iff.mp h
  obtain ⟨-,-,⟨entries,hold,-⟩,-⟩ := applySendTo_token htoken hto
  rw [hk] at hold
  cases hold

theorem Backed.held_lt (hs : s.Backed) (t : H) :
    s.accounts.total (fun _ a => a.held t) < 2 ^ 128 := by
  by_cases h : ∃ token,s.accounts.lookup t = some (.token token)
  · obtain ⟨token,h⟩ := h
    have hsupplied := hs.supplied t token h
    omega
  · have hzero := hs.issued t fun token heq => h ⟨token,heq⟩
    omega

theorem Backed.heldApart_lt (hs : s.Backed) (t k : H) : s.heldApart t k < 2 ^ 128 := by
  have hlt := hs.held_lt t
  rw [s.total_held t k] at hlt
  omega

/-- A token account keeps no more than its supply. -/
theorem Backed.tokenBalance_le (hs : s.Backed) {k : H} {token1 : TokenAccount H}
    (h : s.accounts.lookup k = some (.token token))
    (htokens : (Account.token token1).tokens = (Account.token token).tokens) :
    token1.tokenBalance.toNat ≤ token1.totalSupply.toNat := by
  simp only [Account.tokens,Sum.inr.injEq,Prod.mk.injEq] at htokens
  have hsupplied := hs.supplied k token h
  rw [htokens.1,htokens.2.1]
  omega

/-- No output goes back to the sender, and outputs and token fee stay within 128 bits. -/
def TokenExact (r : Request H) : Prop :=
  ∀ tokenId ts tokenFee,r.body = .tokenSend tokenId ts tokenFee →
    (∀ t ∈ ts,t.destination ≠ r.origin) ∧ (ts.map (·.amount.toNat)).sum + tokenFee.toNat < 2 ^ 128

theorem getTokenTotal_of_tokenSend (tokenId : H) :
    (Body.tokenSend tokenId ts tokenFee).getTokenTotal.toNat =
      ((ts.map (·.amount.toNat)).sum + tokenFee.toNat) % 2 ^ 128 := by
  have hfold : ∀ acc : Amount,ts.foldl (fun a t => a + t.amount) acc =
      acc + BitVec.ofNat 128 (ts.map (·.amount.toNat)).sum := by
    induction ts with
    | nil => exact fun acc => (BitVec.add_zero _).symm
    | cons t ts ih =>
      intro acc
      rw [List.foldl_cons,ih,List.map_cons,List.sum_cons,BitVec.ofNat_add,BitVec.ofNat_toNat,
        BitVec.setWidth_eq,BitVec.add_assoc]
  simp only [Body.getTokenTotal,hfold,BitVec.toNat_add,BitVec.toNat_ofNat]
  simp only [BitVec.ofNat_eq_ofNat,BitVec.toNat_zero,Nat.zero_add,Nat.mod_add_mod,Nat.mod_mod]

/-- The check of a percentage fee goes by the exact sum of the outputs, and nothing wraps. -/
structure FeeExact (token : TokenAccount H) (total tokenFee : Amount) (sum : ℕ) : Prop where
  sums : total.toNat = sum + tokenFee.toNat
  difference : (total - tokenFee).toNat = sum
  product : (token.feeRate * (total - tokenFee)).toNat = token.feeRate.toNat * sum
  check : token.feeSufficient total tokenFee ↔ token.feeRate.toNat * sum / 100 ≤ tokenFee.toNat

theorem feeExact_iff (tokenId : H) (hpercentage : token.feeType = .percentage) :
    FeeExact token (Body.tokenSend tokenId ts tokenFee).getTokenTotal tokenFee
        (ts.map (·.amount.toNat)).sum ↔
      (ts.map (·.amount.toNat)).sum + tokenFee.toNat < 2 ^ 128 ∧
        token.feeRate.toNat * (ts.map (·.amount.toNat)).sum < 2 ^ 128 := by
  have htotal : (Body.tokenSend tokenId ts tokenFee).getTokenTotal.toNat = _ :=
    getTokenTotal_of_tokenSend tokenId
  generalize (Body.tokenSend tokenId ts tokenFee).getTokenTotal = total at htotal ⊢
  generalize (ts.map (·.amount.toNat)).sum = sum at htotal ⊢
  constructor
  · intro h
    rw [← h.sums,← h.product]
    exact ⟨total.isLt,BitVec.isLt _⟩
  · rintro ⟨hsum,hproduct⟩
    rw [Nat.mod_eq_of_lt hsum] at htotal
    have hdifference : (total - tokenFee).toNat = sum := by bv_omega
    have hmul : (token.feeRate * (total - tokenFee)).toNat = token.feeRate.toNat * sum := by
      rw [BitVec.toNat_mul,hdifference,Nat.mod_eq_of_lt hproduct]
    refine ⟨htotal,hdifference,hmul,?_⟩
    simp only [TokenAccount.feeSufficient,TokenAccount.minFee,hpercentage,decide_eq_true_eq]
    rw [BitVec.le_def,BitVec.toNat_udiv,hmul]
    rfl

section Step

variable {s s' : Store H} {r : Request H} {timestamp : BitVec 64} {epoch : Epoch}
  {info info' : Account H}

/-- A token send without losses takes from its sender what the others and the fees get. -/
theorem sendTokens_backing (hs : s.Backed) {source : AccountInfo H} {tokenId : H}
    {stored : AccountInfo H} (htoken : tokenId ≠ 0)
    (hbody : r.body = .tokenSend tokenId ts tokenFee) (hexact : TokenExact r)
    (hlookup : s.accounts.lookup r.origin = some (.user stored))
    (hentries : source.entries = stored.entries)
    (hcovered : ∀ e,stored.findEntry tokenId = some e → r.body.getTokenTotal ≤ e.balance)
    {s1 : Store H} (haccounts : s1.accounts = s.accounts)
    (h : s1.sendTokens cfg r tokenId ts tokenFee timestamp epoch source = some (info',s')) (t : H) :
    s'.backingApart t r.origin + info'.backing t r.origin =
      s1.backingApart t r.origin + (Account.user source).backing t r.origin := by
  obtain ⟨hdest,hfit⟩ := hexact tokenId ts tokenFee hbody
  have htotal : (Body.tokenSend tokenId ts tokenFee).getTokenTotal.toNat = _ :=
    getTokenTotal_of_tokenSend tokenId
  rw [Nat.mod_eq_of_lt hfit] at htotal
  obtain ⟨token,entry,haccount,hentry,hsends,rfl⟩ := sendTokens_steps h
  have hstoredToken : s.accounts.lookup tokenId = some (.token token) := haccounts ▸ haccount
  have hne : tokenId ≠ r.origin := by
    intro heq
    rw [heq,hlookup] at hstoredToken
    cases hstoredToken
  have hstoredEntry : stored.findEntry tokenId = some entry := by
    rw [findEntry,← hentries]
    exact hentry
  have hle := hcovered entry hstoredEntry
  have hleNat : r.body.getTokenTotal.toNat ≤ entry.balance.toNat := hle
  rw [hbody,htotal] at hleNat
  have hheld := balance_le_entriesHeld hstoredEntry
  -- the supply bounds what is held, so that neither the fee nor an output overflows
  have hsupplied := hs.supplied tokenId token hstoredToken
  rw [s.total_held tokenId r.origin,amountAt_of_lookup hlookup,Account.held_user] at hsupplied
  have hfee : (token.tokenFeeBalance + tokenFee).toNat =
      token.tokenFeeBalance.toNat + tokenFee.toNat := by
    rw [BitVec.toNat_add,Nat.mod_eq_of_lt (by omega)]
  have hput := s1.backingApart_accountPut_ne t
    (.token { token with tokenFeeBalance := token.tokenFeeBalance + tokenFee }) hne
  rw [amountAt_of_lookup haccount] at hput
  have hheldPut := s1.heldApart_accountPut_ne tokenId
    (.token { token with tokenFeeBalance := token.tokenFeeBalance + tokenFee }) hne
  have hsame : s1.heldApart tokenId r.origin = s.heldApart tokenId r.origin := by
    simp only [heldApart,haccounts]
  simp only [Account.held] at hheldPut
  have hsent := (applySends_tokens htoken ts hdest hsends).backing (by omega) t
  have hdebit := entriesHeld_debit hentry hle t
  rw [hbody,htotal] at hdebit
  rw [Account.backing_user,Account.backing_user,hsent,hbody]
  simp only [Account.backing,Account.tokens,hfee] at hput
  by_cases ht : t = tokenId
  · subst ht
    simp only [↓reduceIte] at hput hdebit ⊢
    omega
  · simp only [ht,Ne.symm ht,if_false] at hput hdebit ⊢
    omega

/-- Issues, burns and payouts that pass their check change the balances of the token account
exactly. -/
theorem update_backing {token' checked : TokenAccount H} (address : H)
    (hupdate : token.update r.body = some token')
    (hsame : (Account.token token).tokens = (Account.token checked).tokens)
    (hfit : token.tokenBalance.toNat ≤ token.totalSupply.toNat)
    (hvalid : (r.validateAgainst cfg (.token checked)).Accepts ()) (t : H) :
    (Account.token token').backing t address + (if t = address then (r.body.payout : ℤ) else 0) =
      (Account.token token).backing t address := by
  simp only [Account.tokens,Sum.inr.injEq,Prod.mk.injEq] at hsame
  obtain ⟨hsupplySame,hbalanceSame,hfeeSame⟩ := hsame
  have hamounts : (token'.tokenBalance.toNat : ℤ) + token'.tokenFeeBalance.toNat -
      token'.totalSupply.toNat + r.body.payout =
      token.tokenBalance.toNat + token.tokenFeeBalance.toNat - token.totalSupply.toNat := by
    cases hbody : r.body
    all_goals rw [hbody] at hupdate
    case issueAdditional | burn | distribute | withdrawFee =>
      simp only [Request.validateAgainst,hbody,Account.asToken,accepts_attempt_bind,some_inj,
        exists_eq_left',accepts_require,← hsupplySame,← hbalanceSame,← hfeeSame] at hvalid
      cases hupdate
      simp only [Body.payout]
      bv_omega
    case immuteSetting =>
      obtain ⟨m,-,rfl⟩ := map_eq_some_iff.mp hupdate
      simp [Body.payout,TokenAccount.setSetting]
    case updateController =>
      simp only [TokenAccount.update,TokenAccount.updateController] at hupdate
      split at hupdate <;> cases hupdate <;> simp [Body.payout]
    all_goals
      cases hupdate
      simp [Body.payout,TokenAccount.setSetting]
  simp only [Account.backing,Account.tokens]
  by_cases ht : t = address
  · subst ht
    simp only [if_true]
    exact hamounts
  · simp only [ht,Ne.symm ht,if_false,add_zero]

theorem backing_of_tokens {k x : H} {s2 : Store H} (hheld : s.heldApart x k < 2 ^ 128)
    (hothers : Tokens k x s s2 0) (htokens : info'.tokens = info.tokens) (t : H) :
    s2.backingApart t k + info'.backing t k = s.backingApart t k + info.backing t k := by
  have hbacking := hothers.backing hheld t
  rw [Nat.cast_zero,ite_self,add_zero] at hbacking
  rw [hbacking,Account.backing_of_tokens htokens]

/-- A payout arrives on another account. -/
theorem payout_backing {tokenId hash : H} {token token' : TokenAccount H}
    {transaction : Transaction H} {index : BitVec 16} (htoken : tokenId ≠ 0)
    (hs : s.Backed) (hlookup : s.accounts.lookup tokenId = some (.token token))
    {s1 : Store H} (haccounts : s1.accounts = s.accounts) {token1 : TokenAccount H}
    (htokens : (Account.token token1).tokens = (Account.token token).tokens)
    (hpayout : r.body.payout = transaction.amount.toNat)
    (hupdate : ∀ t,(Account.token token').backing t tokenId +
      (if t = tokenId then (r.body.payout : ℤ) else 0) = (Account.token token1).backing t tokenId)
    (hsend : s1.applySend cfg timestamp hash tokenId r.origin epoch transaction index = some s')
    (t : H) :
    s'.backingApart t tokenId + (Account.token token').backing t tokenId =
      s1.backingApart t tokenId + (Account.token token1).backing t tokenId := by
  have hstored : s1.accounts.lookup tokenId = some (.token token) := haccounts ▸ hlookup
  have hdest := destination_ne_of_applySend htoken hstored hsend
  have hgain := applySend_tokens htoken hdest hsend
  -- what is held and what is paid out together stay below the supply
  have hzero := backed_iff.mp hs tokenId
  rw [s.total_backing tokenId tokenId,amountAt_of_lookup hlookup,backingApart_self,
    ← Account.backing_of_tokens htokens] at hzero
  have hsame : s1.heldApart tokenId tokenId = s.heldApart tokenId tokenId := by
    simp only [heldApart,haccounts]
  have hself := hupdate tokenId
  have hbacking := hgain.backing (by
    simp only [Account.backing,Account.tokens,if_true] at hself hzero
    omega) t
  have hpaid := hupdate t
  rw [hbacking]
  by_cases ht : t = tokenId
  · rw [if_pos ht,hpayout] at hpaid
    rw [if_pos ht]
    omega
  · rw [if_neg ht] at hpaid ⊢
    omega

/-- Applying an accepted request keeps the contributions of all accounts to every token. -/
theorem applyBody_backing {i : Submission H} {info1 info2 : Account H} {s1 s2 : Store H}
    {deposits : List Amount} (hs : s.Backed) (hexact : TokenExact i.request)
    (hvalid : (i.request.validate cfg).Accepts ())
    (hlookup : s.accounts.lookup i.request.getAccount = some info)
    (hbody : (s.validateBody cfg i.request info i.epoch).Accepts ())
    (haccounts : s1.accounts = s.accounts) (htokens : info1.tokens = info.tokens)
    (h : s1.applyBody cfg i.request i.timestamp i.epoch info1 = some (info2,deposits,s2)) (t : H) :
    s2.backingApart t i.request.getAccount + info2.backing t i.request.getAccount =
      s1.backingApart t i.request.getAccount + info1.backing t i.request.getAccount := by
  have hheld : s1.heldApart 0 i.request.getAccount < 2 ^ 128 := by
    have hlt := hs.heldApart_lt 0 i.request.getAccount
    rwa [heldApart,← haccounts] at hlt
  cases applied_of_applyBody h with
  | send hkind hset hsends =>
    obtain ⟨hsame,hreb⟩ := setBalance_rebalances hset
    exact backing_of_tokens hheld
      ((hsame.tokens _ 0).trans (applySends_logos_tokens _ 0 _ hsends)) hreb.tokens t
  | @issuance token _ _ hkind hissue =>
    have hfresh : token.tokenId ∉ s1.accounts := by
      simp only [validateBody,hkind,accepts_require] at hbody
      rwa [haccounts]
    have hmem : i.request.getAccount ∈ s1.accounts := by
      rw [haccounts]
      exact Table.mem_of_lookup hlookup
    exact backing_of_tokens hheld (issue_tokens hfresh hmem 0 hissue) rfl t
  | @revoke tokenId source transaction _ _ _ hkind hrevoke hsend =>
    have haccount : i.request.getAccount = tokenId := by
      simp [Request.getAccount,hkind,Body.administered]
    have htokenId : tokenId ≠ 0 := i.request.tokenId_ne_zero hvalid (by rw [hkind]; rfl)
    obtain ⟨token,rfl,-,htransfer⟩ := accepted_admin hbody (by rw [hkind]; rfl)
    rw [haccount] at hlookup hheld ⊢
    have hstored : s1.accounts.lookup tokenId = some (.token token) := haccounts ▸ hlookup
    obtain ⟨hstored3,hlost,hlostBacking⟩ := revokeFrom_tokens hstored (fun u e hu he =>
      accepted_revoke hkind htransfer (haccounts ▸ hu) he) hrevoke
    have hlt := hs.heldApart_lt tokenId tokenId
    rw [heldApart,← haccounts] at hlt
    have hdest := destination_ne_of_applySend htokenId hstored3 hsend
    have hgain := (applySend_tokens htokenId hdest hsend).backing (by rw [hlost]; exact hlt) t
    rw [hgain,hlostBacking t]
  | adjustUserStatus hkind hadjust =>
    exact backing_of_tokens hheld (adjustUserStatus_tokens _ 0 hadjust) rfl t
  | @payout tokenId _ _ _ _ hkind hupdate hsend =>
    rcases hkind with hkind | hkind
    all_goals
      have haccount : i.request.getAccount = tokenId := by
        simp [Request.getAccount,hkind,Body.administered]
      have htokenId : tokenId ≠ 0 := i.request.tokenId_ne_zero hvalid (by rw [hkind]; rfl)
      obtain ⟨token,rfl,hagainst,-⟩ := accepted_admin hbody (by rw [hkind]; rfl)
      rw [haccount] at hlookup ⊢
      have hfit := hs.tokenBalance_le hlookup htokens
      exact payout_backing htokenId hs hlookup haccounts htokens (by rw [hkind]; rfl)
        (update_backing tokenId hupdate htokens hfit (hagainst (by simp [hkind]))) hsend t
  | withdrawLogos hkind hsend =>
    exact backing_of_tokens hheld (applySend_logos_tokens _ 0 hsend) rfl t
  | tokenSend hkind hsend =>
    have haccount : i.request.getAccount = i.request.origin := by
      simp [Request.getAccount,hkind,Body.administered]
    have htokenId := i.request.tokenId_ne_zero hvalid (by rw [hkind]; rfl)
    rw [haccount] at hlookup ⊢
    cases info with
    | token token => cases htokens
    | user stored =>
      exact sendTokens_backing hs htokenId hkind hexact hlookup (Sum.inl.inj htokens)
        (fun e he => accepted_tokenSend hkind hbody he) haccounts hsend t
  | claim hkind hclaim =>
    obtain ⟨hsame,-,-,htokens2,-⟩ := claim_effect hclaim
    exact backing_of_tokens hheld (hsame.tokens _ 0) htokens2 t
  | unknown hkind => exact backing_of_tokens hheld ((SameMoney.refl _).tokens _ 0) rfl t
  | update hkind hupdate =>
    have hplain : i.request.body.administered.isSome ∧ i.request.body.payout = 0 ∧
        ∀ t source transaction,i.request.body ≠ .revoke t source transaction := by
      cases hb : i.request.body <;> simp_all [Body.updatesToken,Body.administered,Body.payout]
    obtain ⟨hadmin,hnone,hrevoke⟩ := hplain
    obtain ⟨token,rfl,hagainst,-⟩ := accepted_admin hbody hadmin
    have hfit := hs.tokenBalance_le hlookup htokens
    have hpaid := update_backing i.request.getAccount hupdate htokens hfit (hagainst hrevoke) t
    rw [hnone,Nat.cast_zero,ite_self,add_zero] at hpaid
    rw [hpaid]
  | govern hkind hrun =>
    have hrestaked := result_runGov (restaked_applyGovernance ..) hrun
    exact backing_of_tokens hheld ((sameMoney_runGov hrun).tokens _ 0)
      (Account.rebalanced_of_restaked hrestaked).tokens t

theorem process_backed {i : Submission H} {deposits : List Amount} (hs : s.Backed)
    (hexact : TokenExact i.request) (h : s.process cfg i = some (s',deposits)) : s'.Backed := by
  rcases process_split h with
    ⟨-,hpassed,-⟩ | ⟨info,info1,info2,s1,s2,-,hvalid,hlookup,-,hbody,hbegin,happly,rfl⟩
  · refine backed_iff.mpr fun t => ?_
    rw [(sameMoney_of_passed hpassed).accounts]
    exact backed_iff.mp hs t
  · obtain ⟨haccounts,hreb,-⟩ := beginRequest_effect hbegin
    have haccounts : s1.accounts = s.accounts := haccounts
    refine backed_iff.mpr fun t => ?_
    have hbefore := backed_iff.mp hs t
    rw [s.total_backing t i.request.getAccount,amountAt_of_lookup hlookup,
      ← Account.backing_of_tokens hreb.tokens,backingApart,← haccounts] at hbefore
    have hkept := applyBody_backing hs hexact hvalid hlookup hbody haccounts hreb.tokens happly t
    rw [total_backing _ t i.request.getAccount,backingApart_accountPut_self,accountPut,
      Table.amountAt_insert,hkept]
    exact hbefore

end Step

/-- In runs whose token sends lose nothing, the supply of every token is accounted for. -/
theorem exec_supplied {s s' : Store H} {steps : List (Submission H)} {deposits : List Amount}
    (hs : s.Backed) (hexact : Machine.Along (process cfg) (fun _ i => TokenExact i.request) s steps)
    (h : Machine.exec (process cfg) s steps = some (s',deposits)) : s'.Supplied :=
  (Machine.exec_preserves (I := fun _ (s : Store H) => s.Backed)
    (fun _ _ _ _ _ hs hexact hstep => process_backed hs hexact hstep) hs hexact h).supplied

section Sample

def tokenSample : Store ℕ :=
  ((Store.empty.accountPut 2 (.user (AccountInfo.holding 0))).accountPut 9 (.token { TokenAccount.ofIssuance
    ⟨9,[],[],100,.flat,0,0,[],[]⟩ with tokenBalance := 0 })).accountPut 1
    (.user { AccountInfo.holding (2 ^ 100) with entries := [⟨9,.default,100⟩] })

def sampleTokenSend (ts : List (Transaction ℕ)) : Submission ℕ where
  request := ⟨1,0,0x21e19e0c9bab2400000,0,0,7,.tokenSend 9 ts 0⟩
  epoch := 5
  timestamp := 9
  canAcquire _ _ := true
  allowDuplicates := true

theorem backed_tokenSample : tokenSample.Backed := by
  refine backed_iff.mpr fun t => ?_
  by_cases ht : t = 9
  · subst ht
    decide +kernel
  · have hempty : entriesHeld t [⟨9,.default,100⟩] = 0 := by
      simp [entriesHeld_cons,Ne.symm ht]
    have htotal : tokenSample.accounts.total (fun address a => a.backing t address) =
        (entriesHeld t [⟨9,.default,100⟩] : ℤ) + ((if 9 = t then 0 + 0 - 100 else 0) + (0 + 0)) := rfl
    rw [htotal,hempty,if_neg (Ne.symm ht)]
    rfl

/-- The ledger with a fee of ten percent and one unit in account 1. -/
def percentageSample : Store ℕ :=
  (tokenSample.accountPut 9 (.token (TokenAccount.ofIssuance
    ⟨9,[],[],100,.percentage,10,0,[],[]⟩))).accountPut 1
    (.user { AccountInfo.holding (2 ^ 100) with entries := [⟨9,.default,1⟩] })

theorem feeExact_iff_sample :
    FeeExact (TokenAccount.ofIssuance ⟨9,[],[],100,.percentage,10,0,[],[]⟩)
      (Body.tokenSend 9 [⟨2,40⟩] 4).getTokenTotal 4 40 :=
  (feeExact_iff 9 rfl).mpr ⟨by decide,by decide⟩

/-- Two outputs of half the range pass for nothing, and a fee of one unit for ten percent of
them. -/
theorem percentage_fee_wraps :
    (percentageSample.validateRequest Config.sample { sampleTokenSend [] with
      request := ⟨1,0,0x21e19e0c9bab2400000,0,0,7,.tokenSend 9 [⟨2,2 ^ 127⟩,⟨2,2 ^ 127⟩] 1⟩ }
      false).Accepts () ∧ ¬10 * (2 ^ 127 + 2 ^ 127) / 100 ≤ 1 := by
  refine ⟨by decide +kernel,by decide⟩

/-- After a payment of 40 units to account 2. -/
theorem exec_supplied_tokenSample : ∃ s' deposits,
    Machine.exec (process Config.sample) tokenSample [sampleTokenSend [⟨2,40⟩]] =
      some (s',deposits) ∧ s'.Supplied := by
  have hsome : (Machine.exec (process Config.sample) tokenSample
      [sampleTokenSend [⟨2,40⟩]]).isSome := by
    decide +kernel
  obtain ⟨⟨s',deposits⟩,h⟩ := isSome_iff_exists.mp hsome
  have hexact : TokenExact (sampleTokenSend [⟨2,40⟩]).request := by
    intro tokenId ts tokenFee hbody
    cases hbody
    decide
  exact ⟨s',deposits,h,exec_supplied backed_tokenSample
    (show Machine.Along _ _ _ [_] from ⟨hexact,fun _ _ _ => trivial⟩) h⟩

/-- Account 1 pays itself 40 units, and is then written as it was before they arrived. -/
theorem process_loses_tokens :
    ¬∀ (s s' : Store ℕ) (i : Submission ℕ) (deposits : List Amount),s.Backed →
      s.process Config.sample i = some (s',deposits) → s'.Supplied := by
  intro hall
  have hsome : ((tokenSample.process Config.sample (sampleTokenSend [⟨1,40⟩])).map fun r =>
      (((r.1.accounts.lookup 9).bind Account.asToken).map fun token =>
        (token.totalSupply,token.tokenBalance,token.tokenFeeBalance),
        r.1.accounts.total fun _ a => a.held 9)) = some (some (100,0,0),60) := by
    decide +kernel
  obtain ⟨⟨s',deposits⟩,h,heq⟩ := map_eq_some_iff.mp hsome
  obtain ⟨htoken,hheld⟩ := Prod.mk.inj heq
  obtain ⟨token,hlookup,hamounts⟩ := map_eq_some_iff.mp htoken
  obtain ⟨account,hlookup,haccount⟩ := bind_eq_some_iff.mp hlookup
  cases Account.asToken_eq_some.mp haccount
  have hsupplied := hall _ _ _ _ backed_tokenSample h 9 token hlookup
  simp only [Prod.mk.injEq] at hamounts
  obtain ⟨hsupply,hbalance,hfees⟩ := hamounts
  rw [hsupply,hbalance,hfees,hheld] at hsupplied
  exact absurd hsupplied (by decide)

end Sample

end Store
end LogosCore.Ledger

import LogosCore.TokenRegister

/-! # The status of token users

A user is frozen or whitelisted as the last request of the kind says, wherever the ledger keeps the
status; a check of a transfer sees this status unless the account is unopened or full. -/
namespace LogosCore.Ledger

open AccountInfo (findEntry getEntry)

variable {H : Type} [DecidableEq H] [Zero H] {cfg : Config H}

namespace Register

variable {g : Register H} {tokenId a t b : H}

/-- Whoever has an entry for a token is not in the central list. -/
def Single (cfg : Config H) (g : Register H) : Prop :=
  ∀ tokenId a,((g.standing a).1 tokenId).isSome = true →
    g.central.lookup (cfg.tokenUserId tokenId a) = none

theorem standing_setStatus {status : TokenUserStatus} :
    ((g.setStatus tokenId a status).standing b).1 t =
      if t = tokenId ∧ b = a then some status else (g.standing b).1 t := by
  by_cases hb : b = a
  · subst hb
    by_cases ht : t = tokenId <;> simp [setStatus,ht]
  · simp [setStatus,hb]

section Injective

variable (hinj : Function.Injective2 cfg.tokenUserId)

include hinj

theorem lookup_insert_central {c : Table H TokenUserStatus} {status : TokenUserStatus} :
    (c.insert (cfg.tokenUserId tokenId a) status).lookup (cfg.tokenUserId t b) =
      if t = tokenId ∧ b = a then some status else c.lookup (cfg.tokenUserId t b) := by
  by_cases h : t = tokenId ∧ b = a
  · obtain ⟨rfl,rfl⟩ := h
    simp
  · rw [if_neg h]
    exact AList.lookup_insert_ne fun heq => h (hinj.eq_iff.mp heq)

theorem lookup_erase_central {c : Table H TokenUserStatus} :
    (c.erase (cfg.tokenUserId tokenId a)).lookup (cfg.tokenUserId t b) =
      if t = tokenId ∧ b = a then none else c.lookup (cfg.tokenUserId t b) := by
  by_cases h : t = tokenId ∧ b = a
  · obtain ⟨rfl,rfl⟩ := h
    simp
  · rw [if_neg h]
    exact AList.lookup_erase_ne fun heq => h (hinj.eq_iff.mp heq)

/-- Nobody's status changes with an entry. -/
theorem status_tether : (g.tether cfg tokenId a).status cfg t b = g.status cfg t b := by
  unfold tether
  split
  · rfl
  · simp only [status,standing_setStatus,lookup_erase_central hinj]
    by_cases h : t = tokenId ∧ b = a
    · obtain ⟨rfl,rfl⟩ := h
      simp
    · simp [h]

theorem single_tether (hg : g.Single cfg) : (g.tether cfg tokenId a).Single cfg := by
  unfold tether
  split
  · exact hg
  · intro t b hentry
    rw [standing_setStatus] at hentry
    rw [lookup_erase_central hinj]
    split at hentry
    · next h => rw [if_pos h]
    · next h => rw [if_neg h,hg t b hentry]

theorem status_adjust {status : UserStatus} :
    (g.adjust cfg tokenId a status).status cfg t b =
      if t = tokenId ∧ b = a then (g.status cfg t b).adjust status else g.status cfg t b := by
  unfold adjust
  by_cases h : t = tokenId ∧ b = a
  · obtain ⟨rfl,rfl⟩ := h
    split
    · simp [Register.status,standing_setStatus]
    · next hentry => simp_all [Register.status]
  · split
    · simp only [Register.status,standing_setStatus,if_neg h]
      rfl
    · simp [Register.status,lookup_insert_central hinj,h]

theorem single_adjust {status : UserStatus} (hg : g.Single cfg) :
    (g.adjust cfg tokenId a status).Single cfg := by
  unfold adjust
  split
  · next hold =>
    intro t b hentry
    rw [standing_setStatus] at hentry
    split at hentry
    · next h =>
      obtain ⟨rfl,rfl⟩ := h
      exact hg t b hold
    · exact hg t b hentry
  · next hnone =>
    intro t b hentry
    rw [lookup_insert_central hinj,if_neg]
    · exact hg t b hentry
    · rintro ⟨rfl,rfl⟩
      exact hnone hentry

theorem status_tethers (ts : List (Transaction H)) :
    (ts.foldl (fun g t => g.tether cfg tokenId t.destination) g).status cfg t b =
      g.status cfg t b := by
  induction ts generalizing g with
  | nil => rfl
  | cons _ ts ih => exact ih.trans (status_tether hinj)

theorem single_tethers (ts : List (Transaction H)) (hg : g.Single cfg) :
    (ts.foldl (fun g t => g.tether cfg tokenId t.destination) g).Single cfg := by
  induction ts generalizing g with
  | nil => exact hg
  | cons _ ts ih => exact ih (single_tether hinj hg)

end Injective

/-- Statuses are read from the entries and the central list. -/
theorem same_statuses {g' : Register H} (hstanding : ∀ b,(g'.standing b).1 = (g.standing b).1)
    (hcentral : g'.central = g.central) :
    (∀ t b,g'.status cfg t b = g.status cfg t b) ∧ (g.Single cfg → g'.Single cfg) := by
  constructor
  · intro t b
    simp only [status,hstanding,hcentral]
  · intro hg t b hentry
    rw [hstanding] at hentry
    rw [hcentral]
    exact hg t b hentry

theorem same_statuses_setSetting (setting : TokenSetting) (value : Bool) :
    (∀ t b,(g.setSetting tokenId setting value).status cfg t b = g.status cfg t b) ∧
      (g.Single cfg → (g.setSetting tokenId setting value).Single cfg) := by
  refine same_statuses (fun b => ?_) rfl
  by_cases hb : b = tokenId
  · subst hb
    simp [setSetting]
  · simp [setSetting,hb]

theorem same_statuses_issue {settings : BitField} (hnew : (g.standing tokenId).1 = fun _ => none) :
    (∀ t b,(g.issue tokenId settings).status cfg t b = g.status cfg t b) ∧
      (g.Single cfg → (g.issue tokenId settings).Single cfg) := by
  refine same_statuses (fun b => ?_) rfl
  by_cases hb : b = tokenId
  · subst hb
    simp [issue,hnew]
  · simp [issue,hb]

end Register

namespace UserStatus

def freezes : UserStatus → Option Bool
  | frozen => some true
  | unfrozen => some false
  | _ => none

def whitelists : UserStatus → Option Bool
  | whitelisted => some true
  | notWhitelisted => some false
  | _ => none

end UserStatus

theorem TokenUserStatus.adjust_eq (status : TokenUserStatus) (change : UserStatus) :
    status.adjust change =
      ⟨change.whitelists.getD status.whitelisted,change.freezes.getD status.frozen⟩ := by
  cases change <;> rfl

namespace Body

/-- The change of the status of a user that a request asks for. -/
def statusChange (tokenId a : H) : Body H → Option UserStatus
  | adjustUserStatus t b status => if t = tokenId ∧ b = a then some status else none
  | _ => none

/-- What the last request of each kind says. -/
def lastStatus (tokenId a : H) (bodies : List (Body H)) (status : TokenUserStatus) :
    TokenUserStatus :=
  let changes := bodies.filterMap (·.statusChange tokenId a)
  ⟨(changes.filterMap (·.whitelists)).getLast?.getD status.whitelisted,
    (changes.filterMap (·.freezes)).getLast?.getD status.frozen⟩

theorem lastStatus_concat (tokenId a : H) (bodies : List (Body H)) (body : Body H)
    (status : TokenUserStatus) :
    lastStatus tokenId a (bodies ++ [body]) status =
      ((body.statusChange tokenId a).map (lastStatus tokenId a bodies status).adjust).getD
        (lastStatus tokenId a bodies status) := by
  cases hchange : body.statusChange tokenId a with
  | none => simp [lastStatus,List.filterMap_append,hchange]
  | some change => cases change <;>
      simp [lastStatus,List.filterMap_append,hchange,TokenUserStatus.adjust_eq,
        UserStatus.whitelists,UserStatus.freezes]

/-- A request changes the one status that it names, and none is kept twice. -/
theorem record_statuses (hinj : Function.Injective2 cfg.tokenUserId) {body : Body H}
    {g : Register H} (hissue : ∀ i,body = .issuance i → (g.standing i.tokenId).1 = fun _ => none) :
    (∀ t b,(body.record cfg g).status cfg t b =
      ((body.statusChange t b).map (g.status cfg t b).adjust).getD (g.status cfg t b)) ∧
    (g.Single cfg → (body.record cfg g).Single cfg) := by
  cases body with
  | issuance i => exact Register.same_statuses_issue (hissue i rfl)
  | changeSetting tokenId setting value => exact Register.same_statuses_setSetting setting _
  | immuteSetting tokenId setting =>
    cases hm : setting.getMutabilitySetting with
    | none =>
      simp only [record,hm]
      exact ⟨fun _ _ => rfl,id⟩
    | some m =>
      simp only [record,hm]
      exact Register.same_statuses_setSetting m false
  | revoke tokenId source t =>
    exact ⟨fun _ _ => Register.status_tether hinj,Register.single_tether hinj⟩
  | distribute tokenId t =>
    exact ⟨fun _ _ => Register.status_tether hinj,Register.single_tether hinj⟩
  | withdrawFee tokenId t =>
    exact ⟨fun _ _ => Register.status_tether hinj,Register.single_tether hinj⟩
  | tokenSend tokenId ts tokenFee =>
    exact ⟨fun _ _ => Register.status_tethers hinj ts,Register.single_tethers hinj ts⟩
  | adjustUserStatus tokenId a status =>
    refine ⟨fun t b => ?_,Register.single_adjust hinj⟩
    rw [record,Register.status_adjust hinj,statusChange]
    by_cases h : t = tokenId ∧ b = a
    · obtain ⟨rfl,rfl⟩ := h
      simp
    · rw [if_neg h,if_neg fun h' => h ⟨h'.1.symm,h'.2.symm⟩]
      rfl
  | _ => exact ⟨fun _ _ => rfl,id⟩

end Body

namespace Store

variable {s s' : Store H} {tokenId a : H}

/-- Process a request and note it if it is applied. -/
def processNoted (cfg : Config H) (s : Store H) (i : Submission H) :
    Option (Store H × List (Body H)) :=
  (s.process cfg i).map fun r => (r.1,if s.Adopts cfg i then [i.request.body] else [])

/-- The statuses follow the requests noted so far. -/
def Follows (cfg : Config H) (start : Register H) (bodies : List (Body H)) (g : Register H) :
    Prop :=
  g.Single cfg ∧ ∀ t b,g.status cfg t b = Body.lastStatus t b bodies (start.status cfg t b)

/-- One request. -/
theorem follows_processNoted (hinj : Function.Injective2 cfg.tokenUserId) {start : Register H}
    {bodies noted : List (Body H)} {i : Submission H} (hs : Follows cfg start bodies s.register)
    (h : s.processNoted cfg i = some (s',noted)) :
    Follows cfg start (bodies ++ noted) s'.register := by
  obtain ⟨⟨s1,deposits⟩,hprocess,heq⟩ := Option.map_eq_some_iff.mp h
  cases heq
  rcases process_register hprocess with ⟨hnot,hsame⟩ | ⟨info,hadopts,-,-,hbody,hrecord⟩
  · rw [if_neg hnot,List.append_nil,hsame]
    exact hs
  · have hissue : ∀ issuance,i.request.body = .issuance issuance →
        (s.register.standing issuance.tokenId).1 = fun _ => none := by
      intro issuance hissuance
      rw [validateBody,hissuance] at hbody
      have habsent := AList.lookup_eq_none.mpr (Check.accepts_require.mp hbody)
      simp [register,standing,habsent]
    obtain ⟨hstatus,hsingle⟩ := Body.record_statuses hinj hissue
    rw [if_pos hadopts,hrecord]
    refine ⟨hsingle hs.1,fun t b => ?_⟩
    rw [hstatus,Body.lastStatus_concat,hs.2]

theorem follows_exec (hinj : Function.Injective2 cfg.tokenUserId) {steps : List (Submission H)}
    {bodies : List (Body H)} (hs : s.register.Single cfg)
    (h : Machine.exec (processNoted cfg) s steps = some (s',bodies)) :
    Follows cfg s.register bodies s'.register :=
  Machine.exec_preserves (I := fun bodies s1 => Follows cfg s.register bodies s1.register)
    (P := fun _ _ => True)
    (fun _ _ _ _ _ hbefore _ hstep => follows_processNoted hinj hbefore hstep)
    ⟨hs,fun _ _ => rfl⟩ (Machine.along_true s steps) h

section Checks

open Check

omit [Zero H] in
theorem accepts_sendAllowed {t : TokenAccount H} {status : TokenUserStatus} :
    (t.sendAllowed status).Accepts () ↔ (t.allowed .whitelist = true → status.whitelisted = true) ∧
      (t.allowed .freeze = true → status.frozen = false) := by
  simp [TokenAccount.sendAllowed,accepts_require_bind,accepts_require]

def tokenWith (settings : BitField) : TokenAccount H :=
  TokenAccount.ofIssuance ⟨0,[],[],0,.flat,0,settings,[],[]⟩

theorem allowed_tokenWith (b : BitField) (setting : TokenSetting) :
    (tokenWith b : TokenAccount H).allowed setting = BitField.get b setting.ctorIdx := rfl

theorem accepts_sendAllowed_free (status : TokenUserStatus) :
    ((tokenWith 0 : TokenAccount H).sendAllowed status).Accepts () := by
  simp only [accepts_sendAllowed,allowed_tokenWith]
  exact ⟨fun h => absurd h (by decide),fun h => absurd h (by decide)⟩

/-- The settings can tell any two statuses apart. -/
theorem eq_of_sendAllowed {status status' : TokenUserStatus}
    (h : ∀ t : TokenAccount H,(t.sendAllowed status).Accepts () ↔
      (t.sendAllowed status').Accepts ()) : status = status' := by
  have hwhitelist := h (tokenWith 0x100)
  have hfreeze := h (tokenWith 0x10)
  simp only [accepts_sendAllowed,allowed_tokenWith] at hwhitelist hfreeze
  have hon : BitField.get 0x100 TokenSetting.whitelist.ctorIdx = true := by decide
  have hoff : BitField.get 0x100 TokenSetting.freeze.ctorIdx = false := by decide
  have hon' : BitField.get 0x10 TokenSetting.freeze.ctorIdx = true := by decide
  have hoff' : BitField.get 0x10 TokenSetting.whitelist.ctorIdx = false := by decide
  cases status
  simp_all

/-- The account is open and has an entry for the token or room for one. -/
def Receives (cfg : Config H) (s : Store H) (tokenId a : H) : Prop :=
  ∃ u,s.accounts.lookup a = some (.user u) ∧
    ((u.findEntry tokenId).isSome ∨ u.entries.length ≠ maxTokenEntries) ∧
    (u.entries = [] → cfg.uninitialized = true → s.register.status cfg tokenId a = .default)

theorem status_of_user {u : AccountInfo H} (hu : s.accounts.lookup a = some (.user u)) :
    s.register.status cfg tokenId a = ((u.findEntry tokenId).map (·.status)).getD
      ((s.tokenUserStatus.lookup (cfg.tokenUserId tokenId a)).getD .default) := by
  simp only [Register.status,register,standing_of_lookup hu]
  rfl

section Destination

variable {u : AccountInfo H} {t : TokenAccount H} (hu : s.accounts.lookup a = some (.user u))

include hu

theorem destination_of_entry {e : TokenEntry H}
    (he : u.getEntry cfg.uninitialized tokenId = some e) :
    s.validateDestination cfg tokenId a t = t.sendAllowed e.status := by
  simp only [validateDestination,hu,found_some_bind,Account.asUser,he]

theorem destination_of_none (he : u.getEntry cfg.uninitialized tokenId = none) :
    s.validateDestination cfg tokenId a t = (do
      require (u.entries.length ≠ maxTokenEntries) .tooManyTokenEntries
      t.sendAllowed
        ((s.tokenUserStatus.lookup (cfg.tokenUserId tokenId a)).getD .default)) := by
  simp only [validateDestination,hu,found_some_bind,Account.asUser,he]

theorem getEntry_status_iff :
    (∀ e,u.getEntry cfg.uninitialized tokenId = some e →
      e.status = s.register.status cfg tokenId a) ↔
    (u.entries = [] → cfg.uninitialized = true → s.register.status cfg tokenId a = .default) := by
  rw [status_of_user hu]
  by_cases hnil : u.entries = []
  · have hnone : u.findEntry tokenId = none := by simp [findEntry,hnil]
    cases hflag : cfg.uninitialized <;>
      simp [getEntry,hnil,hnone,TokenEntry.default,eq_comm]
  · simp +contextual [getEntry,hnil]

/-- The check of a destination goes by the status exactly for an account that can receive. -/
theorem destination_iff_of_user :
    (∀ t : TokenAccount H,(s.validateDestination cfg tokenId a t).Accepts () ↔
      (t.sendAllowed (s.register.status cfg tokenId a)).Accepts ()) ↔
    ((u.findEntry tokenId).isSome ∨ u.entries.length ≠ maxTokenEntries) ∧
    (u.entries = [] → cfg.uninitialized = true → s.register.status cfg tokenId a = .default) := by
  rw [← getEntry_status_iff hu]
  cases he : u.getEntry cfg.uninitialized tokenId with
  | some e =>
    have hroom : (u.findEntry tokenId).isSome ∨ u.entries.length ≠ maxTokenEntries := by
      by_cases hnil : u.entries = []
      · simp [hnil,maxTokenEntries]
      · simp only [getEntry,hnil,if_false] at he
        simp [he]
    simp only [destination_of_entry hu he]
    constructor
    · intro h
      refine ⟨hroom,fun e' he' => ?_⟩
      cases he'
      exact eq_of_sendAllowed h
    · rintro ⟨-,hstatus⟩ t
      rw [hstatus e rfl]
  | none =>
    have hnone : u.findEntry tokenId = none := by
      by_cases hnil : u.entries = []
      · simp [findEntry,hnil]
      · simpa [getEntry,hnil] using he
    have hstatus : s.register.status cfg tokenId a =
        (s.tokenUserStatus.lookup (cfg.tokenUserId tokenId a)).getD .default := by
      simp [status_of_user hu,hnone]
    simp only [destination_of_none hu he,accepts_require_bind,← hstatus,hnone,Option.isSome_none,
      Bool.false_eq_true,false_or]
    constructor
    · intro h
      exact ⟨((h (tokenWith 0)).mpr (accepts_sendAllowed_free _)).1,by simp⟩
    · rintro ⟨hroom,-⟩ t
      exact and_iff_right hroom

end Destination

theorem destination_iff :
    (∀ t : TokenAccount H,(s.validateDestination cfg tokenId a t).Accepts () ↔
      (t.sendAllowed (s.register.status cfg tokenId a)).Accepts ()) ↔
    s.Receives cfg tokenId a := by
  constructor
  · intro h
    have hfree := (h (tokenWith 0)).mpr (accepts_sendAllowed_free _)
    obtain ⟨account,haccount,hfree⟩ := accepts_found_bind.mp hfree
    obtain ⟨u,huser,-⟩ := accepts_found_bind.mp hfree
    cases Account.asUser_eq_some.mp huser
    exact ⟨u,haccount,(destination_iff_of_user haccount).mp h⟩
  · rintro ⟨u,hu,hreceives⟩
    exact (destination_iff_of_user hu).mpr hreceives

end Checks

/-- Nobody's status is kept twice, the entry a check reads has the status that the last requests
gave, and a check of a destination goes by it exactly if the account can receive. -/
theorem exec_statuses (hinj : Function.Injective2 cfg.tokenUserId) {steps : List (Submission H)}
    {bodies : List (Body H)} (hs : s.register.Single cfg)
    (h : Machine.exec (processNoted cfg) s steps = some (s',bodies)) :
    s'.register.Single cfg ∧ ∀ tokenId a,(∀ u,s'.accounts.lookup a = some (.user u) →
        ((∀ e,u.getEntry cfg.uninitialized tokenId = some e →
            e.status = Body.lastStatus tokenId a bodies (s.register.status cfg tokenId a)) ↔
          (u.entries = [] → cfg.uninitialized = true →
            s'.register.status cfg tokenId a = .default))) ∧
      ((∀ t : TokenAccount H,(s'.validateDestination cfg tokenId a t).Accepts () ↔
          (t.sendAllowed (Body.lastStatus tokenId a bodies
            (s.register.status cfg tokenId a))).Accepts ()) ↔
        s'.Receives cfg tokenId a) := by
  obtain ⟨hsingle,hstatus⟩ := follows_exec hinj hs h
  refine ⟨hsingle,fun tokenId a => ?_⟩
  rw [← hstatus]
  exact ⟨fun u hu => getEntry_status_iff hu,destination_iff⟩

section Sample

/-- A ledger with the accounts 1 and 2 and the token account 9, whose users are whitelisted. -/
def usersSample : Store ℕ :=
  (Store.sample.accountPut 2 (.user .default)).accountPut 9 (.token
    { controlledSample (BitVec.allOnes 32) with balance := 2 ^ 100,settings := 0x100 })

def usersRequest (sequence : BitVec 32) (previous : ℕ) (body : Body ℕ) : Submission ℕ where
  request := ⟨1,previous,0x21e19e0c9bab2400000,sequence,0,7,body⟩
  epoch := 5
  timestamp := 9
  canAcquire _ _ := true
  allowDuplicates := true

def whitelistSample (a : ℕ) : Submission ℕ := usersRequest 0 0 (.adjustUserStatus 9 a .whitelisted)

def distributeSample (a : ℕ) : Submission ℕ :=
  usersRequest 1 (Config.sample.requestHash (whitelistSample a).request) (.distribute 9 ⟨a,1⟩)

theorem exec_statuses_sample : ∃ s' bodies,
    Machine.exec (processNoted Config.sample) usersSample [whitelistSample 2] = some (s',bodies) ∧
    ∀ t : TokenAccount ℕ,(s'.validateDestination Config.sample 9 2 t).Accepts () ↔
      (t.sendAllowed ⟨true,false⟩).Accepts () := by
  have hrun : (Machine.exec (processNoted Config.sample) usersSample [whitelistSample 2]).map
      (fun r => (r.2,r.1.accounts.lookup 2)) =
        some ([(whitelistSample 2).request.body],some (.user .default)) := by
    decide +kernel
  obtain ⟨⟨s',bodies⟩,h,heq⟩ := Option.map_eq_some_iff.mp hrun
  obtain ⟨rfl,haccount⟩ := Prod.mk.inj heq
  have hinj : Function.Injective2 Config.sample.tokenUserId :=
    fun _ _ _ _ heq => Nat.pair_eq_pair.mp heq
  have hstatuses := ((exec_statuses hinj (fun _ _ _ => rfl) h).2 9 2).2.mpr
    ⟨.default,haccount,.inr (by decide),fun _ hflag => absurd hflag (by decide)⟩
  exact ⟨s',_,h,hstatuses⟩

/-- Account 3 is whitelisted like account 2, but it is not open: tokens for it are turned down. -/
theorem unopened_turned_down :
    Body.lastStatus 9 3 [(whitelistSample 3).request.body] .default = ⟨true,false⟩ ∧
    (Machine.exec (processNoted Config.sample) usersSample [whitelistSample 3]).map (fun r =>
        (r.2,(r.1.validateRequest Config.sample (distributeSample 3) false).run)) =
      some ([(whitelistSample 3).request.body],some (.error .invalidRequest)) ∧
    (Machine.exec (processNoted Config.sample) usersSample [whitelistSample 2]).map (fun r =>
        (r.1.validateRequest Config.sample (distributeSample 2) false).run) =
      some (some (.ok ())) := by
  decide +kernel

end Sample

end Store
end LogosCore.Ledger

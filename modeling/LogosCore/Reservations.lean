import LogosCore.Conservation

/-! # Reservations

A delegate that validates a request reserves the accounts it spends from for the hash of the
request. The reservations are in a cache, which is filled from the database where it has nothing;
they expire after two epochs. -/
namespace LogosCore.Ledger

open Check

variable {H : Type} [DecidableEq H] [Zero H] (cfg : Config H)

structure ReservationInfo (H : Type) where
  reservation : H
  reservationEpoch : Epoch
deriving DecidableEq

def reservationPeriod : Epoch := 2

structure Reservations (H : Type) where
  cache : Table H (ReservationInfo H)
  database : Table H (ReservationInfo H)

/-- The accounts a request reserves, for revocations and token sends also that of the tokens. -/
def Request.reserves (r : Request H) : List H :=
  r.getAccount :: match r.body with
    | .revoke tokenId _ _ => [cfg.tokenUserId tokenId r.getSource]
    | .tokenSend tokenId _ _ => [cfg.tokenUserId tokenId r.getSource]
    | _ => []

namespace Reservations

variable (s : Reservations H)

def release (account hash : H) : Reservations H :=
  match s.cache.lookup account with
  | some info =>
    if info.reservation = hash then { s with cache := s.cache.erase account } else s
  | none => s

/-- A reservation that is found in the database is only put into the cache. -/
def canAcquire (current : Epoch) (hash : H) (allowDuplicates : Bool) (account : H) :
    Bool × Reservations H :=
  match s.cache.lookup account with
  | some info =>
    if info.reservation ≠ hash then
      (info.reservationEpoch + reservationPeriod ≤ current,s)
    else (allowDuplicates,s)
  | none =>
    match s.database.lookup account with
    | some info => (false,{ s with cache := s.cache.insert account info })
    | none => (true,s)

/-- The node halts on a reservation for another hash that has not expired. -/
def updateReservation (current : Epoch) (hash account : H) : Option (Reservations H) :=
  if ∃ info ∈ s.cache.lookup account,info.reservation ≠ hash ∧
      current < info.reservationEpoch + reservationPeriod then none
  else some { s with cache := s.cache.insert account ⟨hash,current⟩ }

/-- Ask for the accounts one after the other, up to the first that cannot be acquired. -/
def acquireAll (current : Epoch) (hash : H) (allowDuplicates : Bool) :
    List H → Reservations H → Bool × Reservations H
  | [],s => (true,s)
  | account::accounts,s =>
    match s.canAcquire current hash allowDuplicates account with
    | (true,s') => acquireAll current hash allowDuplicates accounts s'
    | (false,s') => (false,s')

def updateAll (current : Epoch) (hash : H) : List H → Reservations H → Option (Reservations H)
  | [],s => some s
  | account::accounts,s =>
    (s.updateReservation current hash account).bind (updateAll current hash accounts)

end Reservations

/-- The part of validation that comes before the reservations. -/
def Store.validateOrigin (ledger : Store H) (r : Request H) (prelim : Bool) :
    Validation (Account H) := do
  require (prelim ∨ r.previous = 0 ∨ ledger.gov.requestExists r.previous) .gapPrevious
  require (cfg.validateSigConfig → cfg.verifySignature r) .badSignature
  r.validate cfg
  require (r.origin ∈ ledger.accounts) .unknownOrigin
  found (ledger.accounts.lookup r.getAccount) .invalidTokenId

namespace Reservations

variable (s : Reservations H)

def submission (r : Request H) (epoch current : Epoch) (allowDuplicates : Bool) : Submission H where
  request := r
  epoch := epoch
  timestamp := 0
  canAcquire account hash := (s.canAcquire current hash allowDuplicates account).1
  allowDuplicates := allowDuplicates

def validateRequest (ledger : Store H) (r : Request H) (epoch current : Epoch)
    (allowDuplicates prelim : Bool) : Option (Except ProcessResult Unit × Reservations H) :=
  match (ledger.validateOrigin cfg r prelim).run with
  | none => none
  | some (.error code) => some (.error code,s)
  | some (.ok info) =>
    match s.acquireAll current (cfg.requestHash r) allowDuplicates (r.reserves cfg) with
    | (false,s') => some (.error .alreadyReserved,s')
    | (true,s') =>
      if prelim then some (.ok (),s')
      else (ledger.validateAccount cfg (s.submission r epoch current allowDuplicates) info).run.map
        fun result => (result,s')

/-- Validate and reserve; the epoch may have changed in between. -/
def validateAndUpdate (ledger : Store H) (r : Request H) (epoch current later : Epoch)
    (allowDuplicates : Bool) : Option (Except ProcessResult Unit × Reservations H) :=
  match s.validateRequest cfg ledger r epoch current allowDuplicates false with
  | none => none
  | some (.error code,s') => some (.error code,s')
  | some (.ok _,s') =>
    (updateAll later (cfg.requestHash r) (r.reserves cfg) s').map fun s' => (.ok (),s')

def releaseRequest (r : Request H) : Reservations H :=
  (r.reserves cfg).foldl (fun s account => s.release account (cfg.requestHash r)) s

variable {cfg} {s} {s' : Reservations H} {current later : Epoch} {hash account k : H}
  {allowDuplicates : Bool} {accounts : List H}

/-- The reservation of an account; the cache comes before the database. -/
def reservation (s : Reservations H) (account : H) : Option (ReservationInfo H) :=
  (s.cache.lookup account).or (s.database.lookup account)

variable {info : ReservationInfo H}

theorem reservation_of_cache (h : s.cache.lookup account = some info) :
    s.reservation account = some info := by
  simp [reservation,h]

def Blocked (s : Reservations H) (current : Epoch) (hash account : H) : Prop :=
  ∃ info ∈ s.reservation account,info.reservation ≠ hash ∧
    current < info.reservationEpoch + reservationPeriod

/-- The cache has been filled from the database. -/
structure Filled (s s' : Reservations H) : Prop where
  database : s'.database = s.database
  keeps : ∀ {k info},s.cache.lookup k = some info → s'.cache.lookup k = some info
  origin : ∀ {k info},s'.cache.lookup k = some info →
    s.cache.lookup k = some info ∨ s.database.lookup k = some info

theorem Filled.refl (s : Reservations H) : s.Filled s := ⟨rfl,id,.inl⟩

theorem Filled.trans {s'' : Reservations H} (h : s.Filled s') (h' : s'.Filled s'') :
    s.Filled s'' := by
  refine ⟨h'.database.trans h.database,fun hk => h'.keeps (h.keeps hk),fun hk => ?_⟩
  rcases h'.origin hk with hk | hk
  · exact h.origin hk
  · exact .inr (h.database ▸ hk)

theorem canAcquire_true (h : s.canAcquire current hash allowDuplicates account = (true,s')) :
    s' = s ∧ ¬s.Blocked current hash account := by
  unfold canAcquire at h
  unfold Blocked reservation
  cases hcache : s.cache.lookup account with
  | some info =>
    simp only [hcache] at h
    split at h
    · obtain ⟨hexpired,rfl⟩ := Prod.mk.inj h
      have hle := of_decide_eq_true hexpired
      simp [BitVec.not_lt.mpr hle]
    · next hhash =>
      simp_all
  | none =>
    simp only [hcache] at h
    cases hdatabase : s.database.lookup account with
    | some info => simp [hdatabase] at h
    | none =>
      simp only [hdatabase] at h
      obtain ⟨-,rfl⟩ := Prod.mk.inj h
      simp

theorem canAcquire_filled : s.Filled (s.canAcquire current hash allowDuplicates account).2 := by
  unfold canAcquire
  cases hcache : s.cache.lookup account with
  | some info =>
    dsimp only
    split <;> exact .refl s
  | none =>
    cases hdatabase : s.database.lookup account with
    | none => exact .refl s
    | some info =>
      refine ⟨rfl,fun {k _} hk => ?_,fun {k _} hk => ?_⟩
      · have hne : k ≠ account := by
          rintro rfl
          cases hcache.symm.trans hk
        exact (AList.lookup_insert_ne hne).trans hk
      · by_cases hkey : k = account
        · subst hkey
          rw [AList.lookup_insert] at hk
          exact .inr (hdatabase.trans hk)
        · exact .inl ((AList.lookup_insert_ne hkey).symm.trans hk)

theorem acquireAll_true (h : s.acquireAll current hash allowDuplicates accounts = (true,s')) :
    s' = s ∧ ∀ account ∈ accounts,¬s.Blocked current hash account := by
  induction accounts generalizing s with
  | nil =>
    cases h
    exact ⟨rfl,by simp⟩
  | cons account accounts ih =>
    unfold acquireAll at h
    split at h
    · next s1 hcan =>
      obtain ⟨rfl,hfree⟩ := canAcquire_true hcan
      obtain ⟨rfl,hrest⟩ := ih h
      exact ⟨rfl,List.forall_mem_cons.mpr ⟨hfree,hrest⟩⟩
    · cases h

theorem acquireAll_filled : s.Filled (s.acquireAll current hash allowDuplicates accounts).2 := by
  induction accounts generalizing s with
  | nil => exact .refl s
  | cons account accounts ih =>
    have hfirst : s.Filled (s.canAcquire current hash allowDuplicates account).2 :=
      canAcquire_filled
    unfold acquireAll
    split
    · next s1 hcan =>
      rw [hcan] at hfirst
      exact hfirst.trans ih
    · next s1 hcan =>
      rw [hcan] at hfirst
      exact hfirst

theorem blocked_of_le (hle : current ≤ later) (h : s.Blocked later hash account) :
    s.Blocked current hash account := by
  obtain ⟨info,hinfo,hhash,hlater⟩ := h
  exact ⟨info,hinfo,hhash,by bv_omega⟩

/-- A reservation for the own hash does not block. -/
theorem blocked_of_insert {e : Epoch}
    (h : Blocked { s with cache := s.cache.insert k ⟨hash,e⟩ } current hash account) :
    s.Blocked current hash account := by
  obtain ⟨info,hinfo,hhash,hlater⟩ := h
  by_cases hk : account = k
  · subst hk
    rw [reservation,AList.lookup_insert] at hinfo
    cases hinfo
    exact absurd rfl hhash
  · rw [reservation,AList.lookup_insert_ne hk] at hinfo
    exact ⟨info,hinfo,hhash,hlater⟩

/-- Where nothing blocks, reserving does not halt. -/
theorem updateAll_isSome (h : ∀ account ∈ accounts,¬s.Blocked current hash account) :
    (updateAll current hash accounts s).isSome := by
  induction accounts generalizing s with
  | nil => rfl
  | cons account accounts ih =>
    obtain ⟨hfirst,hrest⟩ := List.forall_mem_cons.mp h
    have hupdate : s.updateReservation current hash account =
        some { s with cache := s.cache.insert account ⟨hash,current⟩ } := by
      apply if_neg
      rintro ⟨info,hinfo,hother⟩
      exact hfirst ⟨info,reservation_of_cache hinfo,hother⟩
    simp only [updateAll,hupdate,Option.bind_some]
    exact ih fun a ha hblocked => hrest a ha (blocked_of_insert hblocked)

section Validation

variable {ledger : Store H} {r : Request H} {epoch : Epoch} {prelim : Bool}
  {result : Except ProcessResult Unit}

theorem validateRequest_filled
    (h : s.validateRequest cfg ledger r epoch current allowDuplicates prelim = some (result,s')) :
    s.Filled s' := by
  have hacquire : s.Filled (s.acquireAll current (cfg.requestHash r) allowDuplicates
      (r.reserves cfg)).2 := acquireAll_filled
  unfold validateRequest at h
  split at h
  · cases h
  · cases h
    exact .refl s
  · split at h
    · next hall =>
      cases h
      rwa [hall] at hacquire
    · next hall =>
      rw [hall] at hacquire
      split at h
      · cases h
        exact hacquire
      · obtain ⟨_,-,heq⟩ := Option.map_eq_some_iff.mp h
        cases heq
        exact hacquire

theorem validateRequest_ok
    (h : s.validateRequest cfg ledger r epoch current allowDuplicates prelim = some (.ok (),s')) :
    s' = s ∧ ∀ account ∈ r.reserves cfg,¬s.Blocked current (cfg.requestHash r) account := by
  unfold validateRequest at h
  split at h
  · cases h
  · cases h
  · split at h
    · cases h
    · next hall =>
      obtain ⟨rfl,hfree⟩ := acquireAll_true hall
      split at h
      · cases h
        exact ⟨rfl,hfree⟩
      · obtain ⟨_,-,heq⟩ := Option.map_eq_some_iff.mp h
        cases heq
        exact ⟨rfl,hfree⟩

/-- The answer does not depend on the order in which the cache is filled. -/
theorem acquireAll_fst : (s.acquireAll current hash allowDuplicates accounts).1 =
    accounts.all fun account => (s.canAcquire current hash allowDuplicates account).1 := by
  induction accounts with
  | nil => rfl
  | cons account accounts ih =>
    unfold acquireAll
    split
    · next s1 hcan =>
      obtain ⟨rfl,-⟩ := canAcquire_true hcan
      simp [ih,hcan]
    · next s1 hcan => simp [hcan]

/-- What the validation of the ledger asks of the reservations. -/
theorem run_validateReservations (i : Submission H) :
    (Store.validateReservations cfg i).run =
      some (if (i.request.reserves cfg).all (i.canAcquire · (cfg.requestHash i.request))
        then .ok () else .error .alreadyReserved) := by
  have hfirst : (require (i.canAcquire i.request.getAccount (cfg.requestHash i.request) = true)
    ProcessResult.alreadyReserved).run = _ := run_require
  by_cases haccount : i.canAcquire i.request.getAccount (cfg.requestHash i.request) = true
  · rw [if_pos haccount] at hfirst
    refine (run_bind_ok hfirst).trans ?_
    cases hbody : i.request.body <;> simp [Request.reserves,hbody,haccount,run_require]
  · rw [if_neg haccount] at hfirst
    refine (run_bind_error hfirst).trans ?_
    simp [Request.reserves,haccount]

theorem validateRequest_fst :
    (s.validateRequest cfg ledger r epoch current allowDuplicates prelim).map Prod.fst =
      (ledger.validateRequest cfg (s.submission r epoch current allowDuplicates) prelim).run := by
  have hsplit : ledger.validateRequest cfg (s.submission r epoch current allowDuplicates) prelim =
      (do
        let info ← ledger.validateOrigin cfg r prelim
        Store.validateReservations cfg (s.submission r epoch current allowDuplicates)
        if prelim then pure ()
        else ledger.validateAccount cfg (s.submission r epoch current allowDuplicates) info) := by
    simp only [Store.validateRequest,Store.validateOrigin,bind_assoc]
    rfl
  have hreservations : (Store.validateReservations cfg
      (s.submission r epoch current allowDuplicates)).run =
        some (if (s.acquireAll current (cfg.requestHash r) allowDuplicates (r.reserves cfg)).1
          then .ok () else .error .alreadyReserved) := by
    rw [acquireAll_fst]
    exact run_validateReservations _
  rw [hsplit,validateRequest]
  cases horigin : (ledger.validateOrigin cfg r prelim).run with
  | none => exact (run_bind_none horigin).symm
  | some outcome =>
    cases outcome with
    | error code => exact (run_bind_error horigin).symm
    | ok info =>
      rw [run_bind_ok horigin]
      cases hall : s.acquireAll current (cfg.requestHash r) allowDuplicates (r.reserves cfg) with
      | mk acquired s' =>
        rw [hall] at hreservations
        cases acquired with
        | false => exact (run_bind_error hreservations).symm
        | true =>
          rw [run_bind_ok hreservations]
          cases prelim with
          | true => rfl
          | false => simp [Function.comp_def]

end Validation

section Runs

inductive Event (H : Type)
  | validate (ledger : Store H) (r : Request H) (epoch current : Epoch)
      (allowDuplicates prelim : Bool)
  | validateAndUpdate (ledger : Store H) (r : Request H) (epoch current later : Epoch)
      (allowDuplicates : Bool)
  | release (r : Request H)

inductive Note (H : Type)
  | reserved (account : H) (info : ReservationInfo H)
  | released (account hash : H)

def step (cfg : Config H) (s : Reservations H) :
    Event H → Option (Reservations H × List (Note H))
  | .validate ledger r epoch current allowDuplicates prelim =>
    (s.validateRequest cfg ledger r epoch current allowDuplicates prelim).map fun x => (x.2,[])
  | .validateAndUpdate ledger r epoch current later allowDuplicates =>
    (s.validateAndUpdate cfg ledger r epoch current later allowDuplicates).map fun x =>
      (x.2,match x.1 with
        | .ok _ => (r.reserves cfg).map fun account =>
          .reserved account ⟨cfg.requestHash r,later⟩
        | .error _ => [])
  | .release r =>
    some (s.releaseRequest cfg r,
      (r.reserves cfg).map fun account => .released account (cfg.requestHash r))

def Note.holds (account : H) (held : Option (ReservationInfo H)) :
    Note H → Option (ReservationInfo H)
  | reserved a info => if a = account then some info else held
  | released a hash =>
    if a = account then held.filter fun info => info.reservation ≠ hash else held

/-- The reservation of an account that the notes tell of. -/
def holder (account : H) (notes : List (Note H)) : Option (ReservationInfo H) :=
  notes.foldl (Note.holds account) none

theorem lookup_release (a h account : H) :
    (s.release a h).cache.lookup account =
      (Note.released a h).holds account (s.cache.lookup account) := by
  simp only [release,Note.holds]
  by_cases ha : a = account
  · subst ha
    cases hcache : s.cache.lookup a with
    | none => simp [hcache]
    | some info =>
      by_cases hhash : info.reservation = h <;> simp [hhash,hcache,Option.filter]
  · rw [if_neg ha]
    split
    · split
      · exact AList.lookup_erase_ne (Ne.symm ha)
      · rfl
    · rfl

theorem lookup_updateReservation {a h : H} (account : H)
    (hupdate : s.updateReservation current h a = some s') :
    s'.cache.lookup account =
      (Note.reserved a ⟨h,current⟩).holds account (s.cache.lookup account) := by
  unfold updateReservation at hupdate
  split at hupdate
  · cases hupdate
  · cases hupdate
    by_cases ha : a = account
    · subst ha
      simp [Note.holds]
    · simp [Note.holds,ha,AList.lookup_insert_ne (Ne.symm ha)]

theorem lookup_updateAll (account : H) (h : updateAll current hash accounts s = some s') :
    s'.cache.lookup account =
      (accounts.map fun a => Note.reserved a ⟨hash,current⟩).foldl (Note.holds account)
        (s.cache.lookup account) := by
  induction accounts generalizing s with
  | nil =>
    cases h
    rfl
  | cons a accounts ih =>
    obtain ⟨s1,hupdate,hrest⟩ := Option.bind_eq_some_iff.mp h
    rw [ih hrest,lookup_updateReservation account hupdate]
    rfl

theorem lookup_releaseRequest (r : Request H) (account : H) :
    (s.releaseRequest cfg r).cache.lookup account =
      ((r.reserves cfg).map fun a => Note.released a (cfg.requestHash r)).foldl
        (Note.holds account) (s.cache.lookup account) := by
  unfold releaseRequest
  induction r.reserves cfg generalizing s with
  | nil => rfl
  | cons a accounts ih =>
    simp only [List.foldl_cons,List.map_cons,ih,lookup_release]

/-- Whoever holds a reservation holds it after the same notes. -/
theorem holds_mono (account : H) (notes : List (Note H)) {x y : Option (ReservationInfo H)}
    (h : ∀ info,x = some info → y = some info) (info : ReservationInfo H)
    (hinfo : notes.foldl (Note.holds account) x = some info) :
    notes.foldl (Note.holds account) y = some info := by
  induction notes generalizing x y with
  | nil => exact h info hinfo
  | cons note notes ih =>
    refine ih (fun info hx => ?_) hinfo
    cases note with
    | reserved a info' =>
      simp only [Note.holds] at hx ⊢
      split
      · next ha => rwa [if_pos ha] at hx
      · next ha =>
        rw [if_neg ha] at hx
        exact h info hx
    | released a hash =>
      simp only [Note.holds] at hx ⊢
      split
      · next ha =>
        rw [if_pos ha] at hx
        obtain ⟨hx,hhash⟩ := Option.filter_eq_some_iff.mp hx
        exact Option.filter_eq_some_iff.mpr ⟨h info hx,hhash⟩
      · next ha =>
        rw [if_neg ha] at hx
        exact h info hx

variable {notes : List (Note H)} {e : Event H}

/-- Where a reservation comes from. -/
theorem holds_origin {account : H} {x : Option (ReservationInfo H)}
    (hinfo : notes.foldl (Note.holds account) x = some info) :
    x = some info ∨ ∃ a,.reserved a info ∈ notes := by
  induction notes generalizing x with
  | nil => exact .inl hinfo
  | cons note notes ih =>
    rcases ih hinfo with hx | ⟨a,ha⟩
    · cases note with
      | reserved a info' =>
        simp only [Note.holds] at hx
        split at hx
        · cases hx
          exact .inr ⟨a,List.mem_cons_self⟩
        · exact .inl hx
      | released a hash =>
        simp only [Note.holds] at hx
        split at hx
        · exact .inl (Option.filter_eq_some_iff.mp hx).1
        · exact .inl hx
    · exact .inr ⟨a,List.mem_cons_of_mem _ ha⟩

theorem updateAll_database (h : updateAll current hash accounts s = some s') :
    s'.database = s.database := by
  induction accounts generalizing s with
  | nil =>
    cases h
    rfl
  | cons a accounts ih =>
    obtain ⟨s1,hupdate,hrest⟩ := Option.bind_eq_some_iff.mp h
    unfold updateReservation at hupdate
    split at hupdate
    · cases hupdate
    · cases hupdate
      have hnext := ih hrest
      exact hnext

theorem release_database (a h : H) : (s.release a h).database = s.database := by
  unfold release
  split
  · split <;> rfl
  · rfl

theorem releaseRequest_database (r : Request H) :
    (s.releaseRequest cfg r).database = s.database := by
  unfold releaseRequest
  induction r.reserves cfg generalizing s with
  | nil => rfl
  | cons a accounts ih =>
    exact ih.trans (release_database a _)

/-- The sums with the period do not wrap. -/
structure Unwrapped (s : Reservations H) : Prop where
  cache : ∀ {account info},s.cache.lookup account = some info →
    info.reservationEpoch.toNat + 2 < 2 ^ 32
  database : ∀ {account info},s.database.lookup account = some info →
    info.reservationEpoch.toNat + 2 < 2 ^ 32

/-- The epoch does not go back while a request is validated, and is not one of the last two. -/
def Event.Timely : Event H → Prop
  | .validateAndUpdate _ _ _ current later _ => current ≤ later ∧ later.toNat + 2 < 2 ^ 32
  | _ => True

theorem step_effect (h : s.step cfg e = some (s',notes)) :
    ∃ s1,s.Filled s1 ∧ s'.database = s1.database ∧ (∀ account,s'.cache.lookup account =
        notes.foldl (Note.holds account) (s1.cache.lookup account)) ∧
      (e.Timely → ∀ a info,.reserved a info ∈ notes →
        info.reservationEpoch.toNat + 2 < 2 ^ 32) := by
  cases e with
  | validate ledger r epoch current allowDuplicates prelim =>
    obtain ⟨⟨result,s1⟩,hvalidate,heq⟩ := Option.map_eq_some_iff.mp h
    cases heq
    exact ⟨s1,validateRequest_filled hvalidate,rfl,fun _ => rfl,by simp⟩
  | release r =>
    cases h
    exact ⟨s,.refl s,releaseRequest_database r,lookup_releaseRequest r,by simp⟩
  | validateAndUpdate ledger r epoch current later allowDuplicates =>
    obtain ⟨⟨result,s2⟩,hupdate,heq⟩ := Option.map_eq_some_iff.mp h
    cases heq
    unfold validateAndUpdate at hupdate
    split at hupdate
    · cases hupdate
    · next hvalidate =>
      cases hupdate
      exact ⟨s2,validateRequest_filled hvalidate,rfl,fun _ => rfl,by simp⟩
    · next s1 hvalidate =>
      obtain ⟨s3,hall,heq⟩ := Option.map_eq_some_iff.mp hupdate
      cases heq
      refine ⟨s1,validateRequest_filled hvalidate,updateAll_database hall,
        fun account => lookup_updateAll account hall,fun htimely a info hmem => ?_⟩
      obtain ⟨a',-,heq⟩ := List.mem_map.mp hmem
      cases heq
      exact htimely.2

theorem Unwrapped.step (hs : s.Unwrapped) (htimely : e.Timely)
    (h : s.step cfg e = some (s',notes)) : s'.Unwrapped := by
  obtain ⟨s1,hfilled,hdatabase,hcache,hnotes⟩ := step_effect h
  constructor
  · intro account info hinfo
    rw [hcache] at hinfo
    rcases holds_origin hinfo with hinfo | ⟨a,ha⟩
    · exact (hfilled.origin hinfo).elim hs.cache hs.database
    · exact hnotes htimely a info ha
  · intro account info hinfo
    rw [hdatabase,hfilled.database] at hinfo
    exact hs.database hinfo

/-- What the notes tell of is in the cache. -/
theorem holder_step {log : List (Note H)}
    (hlog : ∀ account info,holder account log = some info → s.cache.lookup account = some info)
    (h : s.step cfg e = some (s',notes)) (account : H) (info : ReservationInfo H)
    (hinfo : holder account (log ++ notes) = some info) : s'.cache.lookup account = some info := by
  obtain ⟨s1,hfilled,-,hcache,-⟩ := step_effect h
  rw [holder,List.foldl_append] at hinfo
  rw [hcache]
  exact holds_mono account notes (fun info hx => hfilled.keeps (hlog account info hx)) info hinfo

theorem blocked_of_unwrapped (hs : s.Unwrapped)
    (hinfo : s.reservation account = some info) (hhash : info.reservation ≠ hash)
    (hcurrent : current.toNat < info.reservationEpoch.toNat + 2) :
    s.Blocked current hash account := by
  have hbound : info.reservationEpoch.toNat + 2 < 2 ^ 32 := by
    rcases Option.or_eq_some_iff.mp hinfo with hinfo | ⟨-,hinfo⟩
    · exact hs.cache hinfo
    · exact hs.database hinfo
  refine ⟨info,hinfo,hhash,?_⟩
  unfold reservationPeriod
  bv_omega

/-- Releasing another request frees no account. -/
theorem reservation_releaseRequest {r : Request H}
    (hinfo : s.reservation account = some info) (hhash : cfg.requestHash r ≠ info.reservation) :
    (s.releaseRequest cfg r).reservation account = some info := by
  have hreleases : ∀ x : Option (ReservationInfo H),(x = none ∨ x = some info) →
      ((r.reserves cfg).map fun a => Note.released a (cfg.requestHash r)).foldl
        (Note.holds account) x = x := by
    intro x hx
    induction r.reserves cfg with
    | nil => rfl
    | cons a accounts ih =>
      have hsame : (Note.released a (cfg.requestHash r)).holds account x = x := by
        simp only [Note.holds]
        rcases hx with rfl | rfl
        · simp
        · simp [Option.filter,Ne.symm hhash]
      simp only [List.map_cons,List.foldl_cons,hsame,ih]
  have hcache : s.cache.lookup account = none ∨ s.cache.lookup account = some info := by
    rcases Option.or_eq_some_iff.mp hinfo with hinfo | ⟨hnone,-⟩
    · exact .inr hinfo
    · exact .inl hnone
  rw [reservation,lookup_releaseRequest,hreleases _ hcache,releaseRequest_database]
  exact hinfo

/-- What was reserved and not released is reserved; reserving does not halt; and while a reservation
lasts, no other request is accepted for the account and none frees it. -/
theorem exec_exclusive {es : List (Event H)} {notes : List (Note H)} (hs : s.Unwrapped)
    (hes : Machine.Along (step cfg) (fun _ e => e.Timely) s es)
    (hrun : Machine.exec (step cfg) s es = some (s',notes)) :
    (∀ account info,holder account notes = some info → s'.reservation account = some info) ∧
    (∀ ledger r epoch current later allowDuplicates,current ≤ later →
      (s'.validateRequest cfg ledger r epoch current allowDuplicates false).isSome →
      (s'.validateAndUpdate cfg ledger r epoch current later allowDuplicates).isSome) ∧
    ∀ account info r,s'.reservation account = some info → cfg.requestHash r ≠ info.reservation →
      (∀ ledger epoch current allowDuplicates prelim s'',account ∈ r.reserves cfg →
        current.toNat < info.reservationEpoch.toNat + 2 →
        s'.validateRequest cfg ledger r epoch current allowDuplicates prelim ≠ some (.ok (),s'')) ∧
      (s'.releaseRequest cfg r).reservation account = some info := by
  obtain ⟨hunwrapped,hholder⟩ := Machine.exec_preserves
    (I := fun log s => s.Unwrapped ∧
      ∀ account info,holder account log = some info → s.cache.lookup account = some info)
    (fun _ _ _ _ _ hbefore htimely hstep =>
      ⟨hbefore.1.step htimely hstep,holder_step hbefore.2 hstep⟩)
    ⟨hs,fun _ _ hnone => by cases hnone⟩ hes hrun
  refine ⟨fun account info hinfo => reservation_of_cache (hholder account info hinfo),?_,?_⟩
  · intro ledger r epoch current later allowDuplicates hle hsome
    obtain ⟨⟨result,s1⟩,hvalidate⟩ := Option.isSome_iff_exists.mp hsome
    cases result with
    | error code => simp [validateAndUpdate,hvalidate]
    | ok _ =>
      obtain ⟨rfl,hfree⟩ := validateRequest_ok hvalidate
      have hall : (updateAll later (cfg.requestHash r) (r.reserves cfg) s1).isSome :=
        updateAll_isSome fun a ha hblocked => hfree a ha (blocked_of_le hle hblocked)
      simp [validateAndUpdate,hvalidate,hall]
  · intro account info r hinfo hhash
    refine ⟨?_,reservation_releaseRequest hinfo hhash⟩
    intro ledger epoch current allowDuplicates prelim s'' haccount hcurrent hvalidate
    exact (validateRequest_ok hvalidate).2 account haccount
      (blocked_of_unwrapped hunwrapped hinfo (Ne.symm hhash) hcurrent)

section Sample

/-- Requests that differ in their fee have different hashes. -/
def feeConfig : Config ℕ :=
  { Config.sample with requestHash := fun r => Nat.pair r.origin r.fee.toNat + 2 ^ 10 }

def paymentSample (fee : Amount) : Request ℕ := ⟨1,0,fee,0,0,7,.send [⟨2,5⟩]⟩

def reserveSample (epoch : Epoch) : Event ℕ :=
  .validateAndUpdate Store.sample (paymentSample (2 ^ 80)) epoch epoch epoch true

theorem exec_exclusive_sample : ∃ s' notes,
    Machine.exec (step feeConfig) ⟨∅,∅⟩ [reserveSample 5] = some (s',notes) ∧
    (s'.reservation 1).map (·.reservationEpoch) = some 5 ∧
    ∀ s'',s'.validateRequest feeConfig Store.sample (paymentSample (2 ^ 81)) 6 6 true false ≠
      some (.ok (),s'') := by
  have hrun : (Machine.exec (step feeConfig) ⟨∅,∅⟩ [reserveSample 5]).map (fun r =>
      r.1.reservation 1) = some (some ⟨feeConfig.requestHash (paymentSample (2 ^ 80)),5⟩) := by
    decide +kernel
  obtain ⟨⟨s',notes⟩,h,hreservation⟩ := Option.map_eq_some_iff.mp hrun
  have hempty : Unwrapped (⟨∅,∅⟩ : Reservations ℕ) := ⟨by simp,by simp⟩
  have htimely : Machine.Along (step feeConfig) (fun _ e => e.Timely) ⟨∅,∅⟩ [reserveSample 5] :=
    ⟨⟨by decide,by decide⟩,fun _ _ _ => trivial⟩
  have hexclusive := (exec_exclusive hempty htimely h).2.2 1 _ (paymentSample (2 ^ 81))
    hreservation (by decide +kernel)
  refine ⟨s',notes,h,by simp [hreservation],fun s'' => ?_⟩
  exact hexclusive.1 _ _ _ _ _ s'' (by decide) (by decide)

/-- Two epochs on the number wraps: a reservation of the last epoch has expired at once. -/
theorem last_epoch_not_reserved :
    (Machine.exec (step feeConfig) ⟨∅,∅⟩ [reserveSample (BitVec.allOnes 32)]).map (fun r =>
        (r.1.reservation 1,(r.1.validateRequest feeConfig Store.sample (paymentSample (2 ^ 81))
          (BitVec.allOnes 32) (BitVec.allOnes 32) true false).map Prod.fst)) =
      some (some ⟨feeConfig.requestHash (paymentSample (2 ^ 80)),BitVec.allOnes 32⟩,some (.ok ())) ∧
    feeConfig.requestHash (paymentSample (2 ^ 81)) ≠
      feeConfig.requestHash (paymentSample (2 ^ 80)) := by
  decide +kernel

end Sample

end Runs

end Reservations
end LogosCore.Ledger

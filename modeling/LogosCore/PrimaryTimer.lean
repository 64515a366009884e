import LogosCore.Backup

/-! # The timer of a primary

A primary has one timer, whose callback proposes again where a phase of consensus finds no quorum.
The answers that complete a phase, the end of a wait, the check that its callback makes and what the
callback then does are steps that interleave in any order. -/
namespace LogosCore.PrimaryTimer

/-- The callback of a numbered wait: the state it expects, and whether the wait was cancelled. -/
structure Callback where
  expected : ConsensusState
  wait : ℕ
  aborted : Bool
  deriving DecidableEq

/-- The members of `PrimaryDelegate` about the timer, and its callbacks queued or about to act. -/
structure State where
  state : ConsensusState
  stateChanging : Bool
  ongoing : Bool
  timerCancelled : Bool
  armed : ℕ
  waiting : Option Callback
  queued : List Callback
  entered : List Callback
  suspended : Bool
  deriving DecidableEq

/-- What ends a phase: an answer of the backups, or the callback of its wait. -/
inductive Deed
  | advanced (wait : ℕ)
  | reproposed (wait : ℕ)
  deriving DecidableEq

def Deed.wait : Deed → ℕ
  | advanced n => n
  | reproposed n => n

/-- `more`: another block is queued; `newEpoch`: the rejection is due to a new epoch. -/
inductive Event
  | messageQueued
  | prepareQuorum
  | commitQuorum (more : Bool)
  | rejected (newEpoch : Bool)
  | expire
  | check
  | act (alreadyPostCommitted more : Bool)
  | transition (suspended : Bool)

namespace State

def stateReadyForConsensus (s : State) : Bool := s.state = .void ∨ s.state = .postCommit

/-- `cancel` counts the waits that it aborts; where there is none a flag stands for it. -/
def cancelTimer (s : State) : State :=
  match s.waiting with
  | some c => { s with waiting := none,queued := s.queued ++ [{ c with aborted := true }] }
  | none => { s with timerCancelled := true }

/-- `CycleTimers`; setting the expiry aborts a wait that is still there. -/
def cycleTimers (s : State) (cancel : Bool) : State :=
  let s := if cancel then s.cancelTimer else s
  let expected := if s.stateReadyForConsensus then .prePrepare else .postPrepare
  { s with
    queued := s.queued ++ s.waiting.toList.map fun c => { c with aborted := true }
    armed := s.armed + 1
    waiting := some ⟨expected,s.armed + 1,false⟩ }

def advanceState (s : State) (newState : ConsensusState) : State :=
  { s with state := newState,stateChanging := false }

/-- `InitiateConsensus`: the timer is set before the state advances. -/
def initiateConsensus (s : State) : State := (s.cycleTimers false).advanceState .prePrepare

def onMessageQueued (s : State) (more : Bool) : State :=
  if s.ongoing || !more then s else { s with ongoing := true }.initiateConsensus

def beginNextRound (s : State) (more : Bool) : State :=
  { s with ongoing := false }.onMessageQueued more

def onPrePrepareRejected (s : State) (newEpoch : Bool) : State :=
  if newEpoch then s else (s.advanceState .void).initiateConsensus

def onQuorumFailed (s : State) (alreadyPostCommitted more : Bool) : State :=
  if s.suspended then s
  else if alreadyPostCommitted then s.beginNextRound more
  else (s.advanceState .void).initiateConsensus

/-- The first half of `OnTimeout`, up to the call of `OnQuorumFailed`. -/
def onTimeout (s : State) (c : Callback) : State :=
  if s.timerCancelled then { s with timerCancelled := false }
  else if c.aborted ∨ s.state ≠ c.expected then s
  else { s with entered := s.entered ++ [c] }

/-- The callbacks that have not run, in the order in which they will. -/
def outstanding (s : State) : List Callback := s.queued ++ s.waiting.toList

def init : State := ⟨.void,false,false,false,0,none,[],[],false⟩

end State

open State

/-- Only the request manager rejects, and only the others find a block already post-committed. -/
def step (ct : ConsensusType) (s : State) : Event → Option (State × List Deed)
  | .messageQueued => some (s.onMessageQueued true,[])
  | .prepareQuorum =>
    if s.stateChanging ∨ s.state ≠ .prePrepare then none
    else some ((s.cycleTimers true).advanceState .postPrepare,[.advanced s.armed])
  | .commitQuorum more =>
    if s.stateChanging ∨ s.state ≠ .postPrepare then none
    else some ((s.cancelTimer.advanceState .postCommit).beginNextRound more,[.advanced s.armed])
  | .rejected newEpoch =>
    if ct ≠ .request ∨ s.stateChanging ∨ s.state ≠ .prePrepare then none
    else some ({ s.cancelTimer with stateChanging := true }.onPrePrepareRejected newEpoch,
      if newEpoch then [] else [.advanced s.armed])
  | .expire => s.waiting.map fun c => ({ s with waiting := none,queued := s.queued ++ [c] },[])
  | .check =>
    match s.queued with
    | [] => none
    | c::cs => some ({ s with queued := cs }.onTimeout c,[])
  | .act alreadyPostCommitted more =>
    match s.entered with
    | [] => none
    | c::cs =>
      if alreadyPostCommitted ∧ ct = .request then none
      else some ({ s with entered := cs }.onQuorumFailed alreadyPostCommitted more,
        if s.suspended ∨ alreadyPostCommitted then [] else [.reproposed c.wait])
  | .transition suspended => some ({ s with suspended := suspended },[])

/-- Whether a callback gets past its check while the state stays as it is. -/
def fires (state : ConsensusState) : Bool → List Callback → Bool
  | _,[] => false
  | true,_::cs => fires state false cs
  | false,c::cs => !c.aborted && state = c.expected || fires state false cs

/-- In either phase a callback is about to act or will be if no answer comes first. -/
def State.Watched (s : State) : Prop :=
  s.state = .prePrepare ∨ s.state = .postPrepare → s.suspended = false →
    s.entered ≠ [] ∨ fires s.state s.timerCancelled s.outstanding = true

/-- No phase is ended both by an answer and by its timeout. -/
def Exclusive (log : List Deed) : Prop := ∀ n,¬(.advanced n ∈ log ∧ .reproposed n ∈ log)

/-- An answer completes a phase only while its one callback has not begun to run, and no callback
finds proposals suspended or its block post-committed. -/
def State.orderly (s : State) : Event → Bool
  | .prepareQuorum => s.entered = [] ∧ s.outstanding.length = 1
  | .commitQuorum _ => s.entered = [] ∧ s.outstanding.length = 1
  | .rejected newEpoch => newEpoch = false ∧ s.entered = [] ∧ s.outstanding.length = 1
  | .act alreadyPostCommitted _ => s.suspended = false ∧ alreadyPostCommitted = false
  | _ => true

/-! ## The callback of the current phase -/

/-- Callbacks that will not act: they are aborted, or the flag is there for the only one. -/
def Stale : Bool → List Callback → Prop
  | false,cs => ∀ c ∈ cs,c.aborted = true
  | true,cs => ∃ c,cs = [c]

def State.current (s : State) : Callback := ⟨s.state,s.armed,false⟩

/-- Where the callback of the phase is. -/
inductive Pending (s : State) : Prop
  | idle (hready : s.stateReadyForConsensus = true) (hongoing : s.ongoing = false)
      (hentered : s.entered = []) (hwaiting : s.waiting = none)
      (hstale : Stale s.timerCancelled s.queued)
  | waiting {stale : List Callback} (hongoing : s.ongoing = true) (hentered : s.entered = [])
      (hstale : Stale s.timerCancelled stale)
      (hcurrent : s.waiting = some s.current ∧ s.queued = stale ∨
        s.waiting = none ∧ s.queued = stale ++ [s.current])
  | acting (hongoing : s.ongoing = true) (hentered : s.entered = [s.current])
      (hcancelled : s.timerCancelled = false) (hwaiting : s.waiting = none)
      (hqueued : s.queued = [])

variable {s s' : State} {e : Event} {log o : List Deed} {ct : ConsensusType} {stale : List Callback}

theorem stale_nil {b : Bool} (h : Stale b []) : b = false := by
  cases b with
  | false => rfl
  | true =>
    obtain ⟨c,hc⟩ := h
    cases hc

theorem fires_of_stale {b : Bool} (h : Stale b stale) (state : ConsensusState) (n : ℕ) :
    fires state b (stale ++ [⟨state,n,false⟩]) = true := by
  cases b with
  | true =>
    obtain ⟨c,rfl⟩ := h
    simp [fires]
  | false =>
    induction stale with
    | nil => simp [fires]
    | cons c cs ih =>
      have hrest := ih fun c' hc' => h c' (List.mem_cons_of_mem c hc')
      simp [fires,hrest]

theorem Pending.watched (h : Pending s) : s.Watched := by
  intro hphase _
  cases h with
  | idle hready =>
    rcases hphase with hphase | hphase <;> simp [stateReadyForConsensus,hphase] at hready
  | acting _ hentered => exact .inl (by simp [hentered])
  | @waiting stale _ _ hstale hcurrent =>
    have houtstanding : s.outstanding = stale ++ [s.current] := by
      rcases hcurrent with ⟨hw,hq⟩ | ⟨hw,hq⟩ <;> simp [outstanding,hw,hq]
    rw [houtstanding]
    exact .inr (fires_of_stale hstale s.state s.armed)

/-- A new wait begins where none is left. -/
theorem pending_cycleTimers (hongoing : s.ongoing = true) (hentered : s.entered = [])
    (hwaiting : s.waiting = none) (hstale : Stale s.timerCancelled s.queued)
    {newState : ConsensusState}
    (hstate : newState = if s.stateReadyForConsensus then .prePrepare else .postPrepare) :
    Pending ((s.cycleTimers false).advanceState newState) := by
  refine .waiting hongoing hentered hstale (.inl ⟨?_,?_⟩)
  · simp [cycleTimers,advanceState,current,hstate]
  · simp [cycleTimers,advanceState,hwaiting]

/-- The one callback that is left is aborted, or the flag is set for it. -/
theorem Pending.cancelTimer (h : Pending s) (hongoing : s.ongoing = true)
    (hready : s.entered = [] ∧ s.outstanding.length = 1) :
    ∃ b cs,Stale b cs ∧
      s.cancelTimer = { s with timerCancelled := b,waiting := none,queued := cs } := by
  cases h with
  | idle _ hidle => simp [hidle] at hongoing
  | acting _ hentered => simp [hentered] at hready
  | @waiting stale _ _ hstale hcurrent =>
    have hnil : stale = [] := by
      rcases hcurrent with ⟨hw,hq⟩ | ⟨hw,hq⟩ <;> simpa [outstanding,hw,hq] using hready.2
    subst hnil
    have hflag := stale_nil hstale
    rcases hcurrent with ⟨hw,hq⟩ | ⟨hw,hq⟩
    · exact ⟨false,[{ s.current with aborted := true }],by simp [Stale],
        by simp [State.cancelTimer,hw,hq,hflag]⟩
    · exact ⟨true,[s.current],⟨_,rfl⟩,by simp [State.cancelTimer,hw,hq]⟩

theorem pending_onMessageQueued (hready : s.stateReadyForConsensus = true)
    (hongoing : s.ongoing = false) (hentered : s.entered = []) (hwaiting : s.waiting = none)
    (hstale : Stale s.timerCancelled s.queued) (more : Bool) :
    Pending (s.onMessageQueued more) := by
  cases more with
  | false =>
    simp only [onMessageQueued,Bool.not_false,Bool.or_true,if_true]
    exact .idle hready hongoing hentered hwaiting hstale
  | true =>
    simp only [onMessageQueued,hongoing,Bool.not_true,Bool.or_false,Bool.false_eq_true,if_false]
    apply pending_cycleTimers
    exacts [rfl,hentered,hwaiting,hstale,(if_pos hready).symm]

theorem Pending.check {c : Callback} {cs : List Callback} (h : Pending s) (hq : s.queued = c::cs) :
    Pending ({ s with queued := cs }.onTimeout c) := by
  -- a stale callback is dropped, and the flag with it
  have hdrop : ∀ {rest : List Callback},Stale s.timerCancelled (c::rest) →
      ∃ b,Stale b rest ∧ { s with queued := cs }.onTimeout c =
        { s with queued := cs,timerCancelled := b } := by
    intro rest hstale
    cases hb : s.timerCancelled with
    | true =>
      rw [hb] at hstale
      obtain ⟨_,heq⟩ := hstale
      cases heq
      exact ⟨false,by simp [Stale],by simp [onTimeout]⟩
    | false =>
      rw [hb] at hstale
      obtain ⟨haborted,hrest⟩ := List.forall_mem_cons.mp hstale
      exact ⟨false,hrest,by simp [onTimeout,haborted]⟩
  cases h with
  | idle hready hongoing hentered hwaiting hstale =>
    rw [hq] at hstale
    obtain ⟨b,hrest,heq⟩ := hdrop hstale
    rw [heq]
    exact .idle hready hongoing hentered hwaiting hrest
  | acting _ _ _ _ hqueued => cases hq.symm.trans hqueued
  | @waiting stale hongoing hentered hstale hcurrent =>
    cases stale with
    | cons c' rest =>
      have hc : c = c' ∧ (s.waiting = some s.current ∧ cs = rest ∨
          s.waiting = none ∧ cs = rest ++ [s.current]) := by
        rcases hcurrent with ⟨hw,hq'⟩ | ⟨hw,hq'⟩ <;> rw [hq] at hq' <;> cases hq' <;> simp [hw]
      obtain ⟨rfl,hleft⟩ := hc
      obtain ⟨b,hrest,heq⟩ := hdrop hstale
      rw [heq]
      exact .waiting hongoing hentered hrest hleft
    | nil =>
      rcases hcurrent with ⟨-,hq'⟩ | ⟨hw,hq'⟩ <;> rw [hq] at hq' <;> cases hq'
      have hflag := stale_nil hstale
      have henter : { s with queued := [] }.onTimeout s.current =
          { s with queued := [],entered := [s.current] } := by
        simp [onTimeout,hflag,current,hentered]
      rw [henter]
      exact .acting hongoing rfl hflag hw rfl

/-! ## Runs -/

/-- The deeds so far belong to different phases before the one with number `n`. -/
def Numbered (log : List Deed) (n : ℕ) : Prop :=
  (log.map Deed.wait).Nodup ∧ ∀ m ∈ log.map Deed.wait,m < n

theorem Numbered.exclusive {n : ℕ} (h : Numbered log n) : Exclusive log := by
  rintro m ⟨hadvanced,hreproposed⟩
  cases List.inj_on_of_nodup_map h.1 hadvanced hreproposed rfl

theorem Numbered.append {n : ℕ} {d : Deed} (h : Numbered log n) (hd : d.wait = n) :
    Numbered (log ++ [d]) (n + 1) := by
  constructor
  · rw [List.map_append]
    refine List.nodup_append.mpr ⟨h.1,List.nodup_singleton _,fun m hm m' hm' => ?_⟩
    cases List.mem_singleton.mp hm'
    exact (hd ▸ h.2 m hm).ne
  · intro m hm
    rw [List.map_append] at hm
    rcases List.mem_append.mp hm with hm | hm
    · exact Nat.lt_succ_of_lt (h.2 m hm)
    · cases List.mem_singleton.mp hm
      exact hd ▸ Nat.lt_succ_self n

/-- The first number that no deed has. -/
def State.unused (s : State) : ℕ := if s.ongoing then s.armed else s.armed + 1

structure Sound (log : List Deed) (s : State) : Prop where
  pending : Pending s
  numbered : Numbered log s.unused

theorem Pending.ongoing (h : Pending s) (hready : s.stateReadyForConsensus = false) :
    s.ongoing = true := by
  cases h with
  | idle hidle => cases hready.symm.trans hidle
  | waiting hongoing => exact hongoing
  | acting hongoing => exact hongoing

theorem unused_onMessageQueued (more : Bool) (hongoing : s.ongoing = false) :
    (s.onMessageQueued more).unused = s.armed + 1 := by
  cases more <;> simp [onMessageQueued,hongoing,unused,initiateConsensus,cycleTimers,advanceState]

theorem Sound.step (h : Sound log s) (hok : s.orderly e = true)
    (hstep : step ct s e = some (s',o)) : Sound (log ++ o) s' := by
  obtain ⟨hpending,hnumbered⟩ := h
  -- an answer finds the wait of its phase, whose number is not used
  have hanswer : s.stateReadyForConsensus = false → s.entered = [] ∧ s.outstanding.length = 1 →
      s.ongoing = true ∧ Numbered (log ++ [.advanced s.armed]) (s.armed + 1) ∧ ∃ b cs,Stale b cs ∧
          s.cancelTimer = { s with timerCancelled := b,waiting := none,queued := cs } := by
    intro hready hone
    have hongoing := hpending.ongoing hready
    simp only [unused,hongoing,if_true] at hnumbered
    exact ⟨hongoing,hnumbered.append rfl,hpending.cancelTimer hongoing hone⟩
  cases e with
  | messageQueued =>
    cases hstep
    rw [List.append_nil]
    cases hongoing : s.ongoing with
    | true => simpa [onMessageQueued,hongoing] using Sound.mk hpending hnumbered
    | false =>
      cases hpending with
      | waiting htrue => cases hongoing.symm.trans htrue
      | acting htrue => cases hongoing.symm.trans htrue
      | idle hready _ hentered hwaiting hstale =>
        refine ⟨pending_onMessageQueued hready hongoing hentered hwaiting hstale true,?_⟩
        rw [unused_onMessageQueued true hongoing]
        simpa [unused,hongoing] using hnumbered
  | prepareQuorum =>
    simp only [PrimaryTimer.step,Option.ite_none_left_eq_some,not_or,not_not] at hstep
    obtain ⟨⟨-,hstate⟩,heq⟩ := hstep
    cases heq
    have hone := of_decide_eq_true hok
    obtain ⟨hongoing,hnumbered,b,cs,hstale,hcancel⟩ :=
      hanswer (by simp [stateReadyForConsensus,hstate]) hone
    have hcycle : s.cycleTimers true = s.cancelTimer.cycleTimers false := rfl
    rw [hcycle,hcancel]
    constructor
    · apply pending_cycleTimers
      exacts [hongoing,hone.1,rfl,hstale,by simp [stateReadyForConsensus,hstate]]
    · simpa [unused,cycleTimers,advanceState,hongoing] using hnumbered
  | commitQuorum more =>
    simp only [PrimaryTimer.step,Option.ite_none_left_eq_some,not_or,not_not] at hstep
    obtain ⟨⟨-,hstate⟩,heq⟩ := hstep
    cases heq
    have hone := of_decide_eq_true hok
    obtain ⟨hongoing,hnumbered,b,cs,hstale,hcancel⟩ :=
      hanswer (by simp [stateReadyForConsensus,hstate]) hone
    rw [hcancel]
    constructor
    · apply pending_onMessageQueued
      exacts [rfl,rfl,hone.1,rfl,hstale]
    · rw [beginNextRound,unused_onMessageQueued more rfl]
      exact hnumbered
  | rejected newEpoch =>
    obtain ⟨rfl,hone⟩ := of_decide_eq_true hok
    simp only [PrimaryTimer.step,Option.ite_none_left_eq_some,not_or,not_not] at hstep
    obtain ⟨⟨-,-,hstate⟩,heq⟩ := hstep
    cases heq
    obtain ⟨hongoing,hnumbered,b,cs,hstale,hcancel⟩ :=
      hanswer (by simp [stateReadyForConsensus,hstate]) hone
    rw [hcancel]
    constructor
    · apply pending_cycleTimers
      exacts [hongoing,hone.1,rfl,hstale,rfl]
    · simpa [onPrePrepareRejected,initiateConsensus,unused,cycleTimers,advanceState,hongoing]
        using hnumbered
  | expire =>
    obtain ⟨c,hc,heq⟩ := Option.map_eq_some_iff.mp hstep
    cases heq
    rw [List.append_nil]
    refine ⟨?_,hnumbered⟩
    cases hpending with
    | idle _ _ _ hwaiting => cases hc.symm.trans hwaiting
    | acting _ _ _ hwaiting => cases hc.symm.trans hwaiting
    | waiting hongoing hentered hstale hcurrent =>
      rcases hcurrent with ⟨hw,hq⟩ | ⟨hw,-⟩
      · cases hc.symm.trans hw
        exact .waiting hongoing hentered hstale (.inr ⟨rfl,by rw [hq]; rfl⟩)
      · cases hc.symm.trans hw
  | check =>
    cases hq : s.queued with
    | nil => simp [PrimaryTimer.step,hq] at hstep
    | cons c cs =>
      simp only [PrimaryTimer.step,hq,Option.some.injEq,Prod.mk.injEq] at hstep
      obtain ⟨rfl,rfl⟩ := hstep
      rw [List.append_nil]
      refine ⟨hpending.check hq,?_⟩
      have hunused : ({ s with queued := cs }.onTimeout c).unused = s.unused := by
        simp only [onTimeout]
        split_ifs <;> rfl
      exact hunused ▸ hnumbered
  | act post more =>
    obtain ⟨hsuspended,rfl⟩ := of_decide_eq_true hok
    cases hpending with
    | idle _ _ hentered => simp [PrimaryTimer.step,hentered] at hstep
    | waiting _ hentered => simp [PrimaryTimer.step,hentered] at hstep
    | acting hongoing hentered hcancelled hwaiting hqueued =>
      simp [PrimaryTimer.step,hentered,hsuspended,onQuorumFailed] at hstep
      obtain ⟨rfl,rfl⟩ := hstep
      constructor
      · apply pending_cycleTimers
        exacts [hongoing,rfl,hwaiting,by simp [advanceState,hcancelled,hqueued,Stale],rfl]
      · simp only [unused,hongoing,if_true] at hnumbered
        simpa [initiateConsensus,unused,cycleTimers,advanceState,hongoing]
          using hnumbered.append rfl
  | transition suspended =>
    cases hstep
    rw [List.append_nil]
    refine ⟨?_,hnumbered⟩
    cases hpending with
    | idle hready hongoing hentered hwaiting hstale =>
      exact .idle hready hongoing hentered hwaiting hstale
    | waiting hongoing hentered hstale hcurrent =>
      exact .waiting hongoing hentered hstale hcurrent
    | acting hongoing hentered hcancelled hwaiting hqueued =>
      exact .acting hongoing hentered hcancelled hwaiting hqueued

theorem sound_init : Sound [] State.init :=
  ⟨.idle rfl rfl rfl rfl (by simp [State.init,Stale]),by simp [Numbered]⟩

/-- Answers complete two phases, and the timeout of the next one proposes again. -/
theorem exec_round :
    Machine.exec (step .request) State.init [.messageQueued,.prepareQuorum,.check,
        .commitQuorum true,.expire,.check,.check,.act false false] =
      some (⟨.prePrepare,false,true,false,4,some ⟨.prePrepare,4,false⟩,[],[],false⟩,
        [.advanced 1,.advanced 2,.reproposed 3]) := by
  decide +kernel

end LogosCore.PrimaryTimer

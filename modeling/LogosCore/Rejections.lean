import LogosCore.PrimaryTally

/-! # Rejections from the network

A rejection is decoded from bytes that a delegate chose. The length of its map is the sender's,
while the hash for the signature and the tally assume a length: at most the largest batch, and at
least the current one. -/

namespace LogosCore.Primary

open Machine Quorum

/-- A decoded `RejectionMessage`; any byte is a reason. -/
structure ReceivedRejection (H σ : Type) where
  preprepareHash : H
  reason : BitVec 8
  rejectionMap : List Bool
  signature : σ

section Read

/-- `sgetn`, if there are enough bytes. -/
def readBytes (count : ℕ) (stream : List (BitVec 8)) : Option (List (BitVec 8) × List (BitVec 8)) :=
  if count ≤ stream.length then some (stream.take count,stream.drop count) else none

/-- `logos::read` of a `vector<bool>`: the number of bits, then the bits, lowest first. -/
def readBits (stream : List (BitVec 8)) : Option (List Bool × List (BitVec 8)) := do
  let (size,stream) ← readBytes 2 stream
  let bits := (size.getD 0 0).toNat + 256 * (size.getD 1 0).toNat
  let (bytes,stream) ← readBytes ((bits + 7) / 8) stream
  some ((bytes.flatMap fun b => (List.range 8).map b.getLsbD).take bits,stream)

variable {H σ : Type} (hashOf : List (BitVec 8) → H) (signatureOf : List (BitVec 8) → σ)

def ReceivedRejection.ofStream (stream : List (BitVec 8)) : Option (ReceivedRejection H σ) := do
  let (hash,stream) ← readBytes 32 stream
  let (reason,stream) ← readBytes 1 stream
  let (map,stream) ← readBits stream
  let (signature,_) ← readBytes 32 stream
  some ⟨hashOf hash,reason.getD 0 0,map,signatureOf signature⟩

end Read

section Write

/-- The loop of `logos::write` over the bits; a byte that is full goes into the buffer. -/
def packBits (buf : List (BitVec 8)) (oneByte : BitVec 8) (cmp : ℕ) : List Bool → List (BitVec 8)
  | [] => if cmp ≠ 0 then buf ++ [oneByte] else buf
  | b::bs =>
    let oneByte := oneByte ||| (if b then 1 else 0 : BitVec 8) <<< cmp
    if cmp + 1 = 8 then packBits (buf ++ [oneByte]) 0 0 bs else packBits buf oneByte (cmp + 1) bs

def writeBits (value : List Bool) : List (BitVec 8) :=
  BitVec.ofNat 8 value.length::BitVec.ofNat 8 (value.length / 256)::packBits [] 0 0 value

def bitsOf (bytes : List (BitVec 8)) : List Bool :=
  bytes.flatMap fun b => (List.range 8).map b.getLsbD

/-- The bits that have been put into a byte, lowest first. -/
def Holds (oneByte : BitVec 8) (bits : List Bool) : Prop :=
  ∀ i < 8,oneByte.getLsbD i = bits.getD i false

theorem holds_nil : Holds 0 [] := fun i _ => by simp

variable {oneByte : BitVec 8} {bits : List Bool}

theorem Holds.add (h : Holds oneByte bits) (b : Bool) :
    Holds (oneByte ||| (if b then 1 else 0 : BitVec 8) <<< bits.length) (bits ++ [b]) := by
  intro i hi
  rw [BitVec.getLsbD_or,h i hi,BitVec.getLsbD_shiftLeft]
  rcases lt_trichotomy i bits.length with hlt | rfl | hgt
  · simp [List.getElem?_append_left hlt,hlt]
  · cases b <;> simp [hi]
  · have hne : i - bits.length ≠ 0 := by omega
    have hout : (bits ++ [b]).length ≤ i := by simpa using hgt
    rw [List.getD_eq_default _ _ hgt.le,List.getD_eq_default _ _ hout]
    cases b <;> simp [hne]

theorem Holds.bitsOf (h : Holds oneByte bits) (hlen : bits.length ≤ 8) :
    bitsOf [oneByte] = bits ++ List.replicate (8 - bits.length) false := by
  rw [Primary.bitsOf,List.flatMap_singleton]
  refine List.ext_getElem (by simp; omega) fun i hi _ => ?_
  simp only [List.getElem_map,List.getElem_range,List.getElem_append,List.getElem_replicate]
  rw [h i (by simpa using hi)]
  split <;> simp_all

theorem bitsOf_append (bytes bytes' : List (BitVec 8)) :
    bitsOf (bytes ++ bytes') = bitsOf bytes ++ bitsOf bytes' := List.flatMap_append

/-- What is written holds the bits before and the bits of the rest, in as few bytes as they need. -/
theorem packBits_spec (h : Holds oneByte bits) (hlen : bits.length < 8) (buf : List (BitVec 8))
    (value : List Bool) : (packBits buf oneByte bits.length value).length =
        buf.length + (bits.length + value.length + 7) / 8 ∧
      bitsOf buf ++ bits ++ value <+: bitsOf (packBits buf oneByte bits.length value) := by
  induction value generalizing buf oneByte bits with
  | nil =>
    rw [packBits,List.append_nil]
    by_cases hpart : bits.length = 0
    · rw [List.length_eq_zero_iff.mp hpart]
      simp
    · rw [if_pos hpart,bitsOf_append,h.bitsOf hlen.le,← List.append_assoc]
      exact ⟨by simp; omega,List.prefix_append ..⟩
  | cons b value ih =>
    have hadd := h.add b
    have hbits : bitsOf buf ++ bits ++ b::value = bitsOf buf ++ (bits ++ [b]) ++ value := by simp
    rw [packBits,hbits]
    by_cases hfull : bits.length + 1 = 8
    · have hbyte := hadd.bitsOf (by simp [hfull])
      simp only [List.length_append,List.length_singleton,hfull,Nat.sub_self,List.replicate_zero,
        List.append_nil] at hbyte
      obtain ⟨hlength,hstarts⟩ := ih holds_nil (by simp) (buf ++ [_])
      rw [List.append_nil,bitsOf_append,hbyte] at hstarts
      rw [if_pos hfull]
      refine ⟨hlength.trans ?_,hstarts⟩
      simp only [List.length_append,List.length_nil,List.length_cons]
      omega
    · rw [if_neg hfull]
      obtain ⟨hlength,hstarts⟩ := ih hadd (by simp; omega) buf
      rw [List.length_append,List.length_singleton] at hlength hstarts
      refine ⟨hlength.trans ?_,hstarts⟩
      rw [List.length_cons]
      omega

theorem readBits_header {n : ℕ} (hn : n ≤ 65535) (stream : List (BitVec 8)) :
    readBits (BitVec.ofNat 8 n::BitVec.ofNat 8 (n / 256)::stream) =
      (readBytes ((n + 7) / 8) stream).map fun r => ((bitsOf r.1).take n,r.2) := by
  have hsize : (BitVec.ofNat 8 n).toNat + 256 * (BitVec.ofNat 8 (n / 256)).toNat = n := by
    simp only [BitVec.toNat_ofNat]
    omega
  simp only [readBits,readBytes,List.length_cons,Nat.le_add_left,if_true,Option.bind_eq_bind,
    Option.bind_some,List.take_succ_cons,List.take_zero,List.drop_succ_cons,List.drop_zero,
    List.getD_cons_zero,List.getD_cons_succ,hsize]
  split <;> rfl

/-- A bit vector is read back as it was written, and nothing less than all of it is read. -/
theorem readBits_writeBits (value : List Bool) (hvalue : value.length ≤ 65535) :
    (∀ rest,readBits (writeBits value ++ rest) = some (value,rest)) ∧
    ∀ part,part <+: writeBits value → part ≠ writeBits value → readBits part = none := by
  obtain ⟨hlength,pad,hbits⟩ := packBits_spec holds_nil (by simp) [] value
  simp only [List.length_nil,Nat.zero_add] at hlength hbits
  refine ⟨fun rest => ?_,fun part hpart hne => ?_⟩
  · rw [writeBits,List.cons_append,List.cons_append,readBits_header hvalue,readBytes,← hlength]
    rw [if_pos (by simp),Option.map_some,List.take_left,List.drop_left,← hbits]
    simp [bitsOf]
  · obtain ⟨tail,htail⟩ := hpart
    have htail' : tail ≠ [] := by
      rintro rfl
      exact hne (by simpa using htail)
    match part with
    | [] => rfl
    | [b] => rfl
    | b::c::part =>
      rw [writeBits,List.cons_append,List.cons_append,List.cons.injEq,List.cons.injEq] at htail
      obtain ⟨rfl,rfl,htail⟩ := htail
      have hshort : part.length < (value.length + 7) / 8 := by
        rw [← hlength,← htail,List.length_append]
        exact Nat.lt_add_of_pos_right (List.length_pos_iff.mpr htail')
      rw [readBits_header hvalue,readBytes,if_neg (not_le.mpr hshort)]
      rfl

theorem readBits_writeBits_nine : readBits (writeBits (List.replicate 9 true) ++ [7]) =
    some (List.replicate 9 true,[7]) :=
  (readBits_writeBits _ (by decide)).1 [7]

end Write

section Receive

variable {H σ ρ : Type} [DecidableEq H] [Zero H] [Inhabited σ] (cfg : Config H σ ρ)
  (digest : ReceivedRejection H σ → H)

/-- A byte that is no reason matches none of the cases, as `Void`. -/
def reasonOf (byte : BitVec 8) : RejectionReason :=
  [.clockDrift,.containsInvalidRequest,.badSignature,.invalidPreviousHash,.wrongSequenceNumber,
    .invalidEpoch,.newEpoch,.invalidPrimaryIndex].getD byte.toNat .void

/-- `RejectionMessage::Hash`, with the assertion on the length of the map. -/
def ReceivedRejection.hash (m : ReceivedRejection H σ) : Option H :=
  if m.rejectionMap.length ≤ consensusBatchSize then some (digest m) else none

/-- `OnRejection`; the array of responses fits the largest batch. -/
def tallyReceived (p : State H σ ρ) (remote : DelegateId) (m : ReceivedRejection H σ) :
    Option (State H σ ρ) :=
  if reasonOf m.reason = .containsInvalidRequest ∧
    consensusBatchSize < p.currentBatch.body.length then none
  else onRejection cfg p remote ⟨m.preprepareHash,reasonOf m.reason,m.rejectionMap,m.signature⟩

/-- `ProceedWithMessage` up to `Tally`; a failed assertion or a read out of bounds is `none`. -/
def receiveRejection (p : State H σ ρ) (remote : DelegateId) (m : ReceivedRejection H σ) :
    Option (State H σ ρ) :=
  if p.stateChanging ∨ p.state ≠ .prePrepare ∨ m.preprepareHash ≠ p.prePrepareHash then some p
  else match m.hash digest with
  | none => none
  | some h => if cfg.verify remote h m.signature then tallyReceived cfg p remote m else some p

variable {cfg digest} {p : State H σ ρ} {remote : DelegateId}

theorem tallyReceived_isSome {m : ReceivedRejection H σ}
    (hmap : m.rejectionMap.length ≤ consensusBatchSize) : (tallyReceived cfg p remote m).isSome ↔
      (reasonOf m.reason = .containsInvalidRequest →
        p.currentBatch.body.length ≤ m.rejectionMap.length) := by
  unfold tallyReceived onRejection
  cases reasonOf m.reason with
  | containsInvalidRequest =>
    by_cases hshort : m.rejectionMap.length < p.currentBatch.body.length
    · simp [hshort]
    · simp [hshort,Nat.not_lt.mp hshort,le_trans (Nat.not_lt.mp hshort) hmap]
  | _ => simp

/-- A rejection of the current proposal is handled within bounds and without a failed assertion
exactly if its map is no longer than the largest batch and, if signed and rejecting requests, no
shorter than the current one. -/
theorem receiveRejection_safe_iff (hashOf : List (BitVec 8) → H)
    (signatureOf : List (BitVec 8) → σ) (cfg : Config H σ ρ) (digest : ReceivedRejection H σ → H)
    (p : State H σ ρ) (remote : DelegateId) (stream : List (BitVec 8)) :
    ∀ m ∈ ReceivedRejection.ofStream hashOf signatureOf stream,
      m.preprepareHash = p.prePrepareHash → p.stateChanging = false → p.state = .prePrepare →
      ((receiveRejection cfg digest p remote m).isSome ↔
        m.rejectionMap.length ≤ consensusBatchSize ∧
          (cfg.verify remote (digest m) m.signature = true → m.reason = 1 →
            p.currentBatch.body.length ≤ m.rejectionMap.length)) := by
  intro m _ hhash hchanging hstate
  have hreason : ∀ b : BitVec 8,reasonOf b = .containsInvalidRequest ↔ b = 1 := by decide +kernel
  rw [receiveRejection,if_neg (by simp [hhash,hchanging,hstate]),ReceivedRejection.hash]
  by_cases hmap : m.rejectionMap.length ≤ consensusBatchSize
  · simp only [if_pos hmap]
    split
    · next hverify => simp [tallyReceived_isSome hmap,hreason,hverify,hmap]
    · next hverify => simp [hverify,hmap]
  · simp [hmap]

end Receive

section Examples

def rejectionBytes (reason : BitVec 8) (map : List (BitVec 8)) : List (BitVec 8) :=
  List.replicate 32 0 ++ reason::map ++ List.replicate 32 0

/-- What the primary reads from these bytes; the hash is that of its first batch. -/
def readRejection (stream : List (BitVec 8)) : Option (ReceivedRejection ℕ Unit) :=
  ReceivedRejection.ofStream (fun _ => unevenConfig.hash firstBatch) (fun _ => ()) stream

def proposeFirst : List (Event ℕ Unit ℕ) :=
  [.start true (envWith 0 []),.messageQueued (envWith 0 [7])]

/-- Backup 1 rejects the batch with a map of one bit. -/
theorem receiveRejection_safe_oneBit :
    ∃ p log,exec (step unevenConfig) (init 0 0) proposeFirst = some (p,log) ∧
      ∃ m ∈ readRejection (rejectionBytes 1 [1,0,1]),
        (receiveRejection unevenConfig (fun m => m.preprepareHash) p 1 m).isSome := by
  have hrun : (exec (step unevenConfig) (init 0 0) proposeFirst).map (fun r =>
      (r.1.prePrepareHash,r.1.stateChanging,r.1.state,r.1.currentBatch.body)) =
      some (unevenConfig.hash firstBatch,false,.prePrepare,[7]) := by decide +kernel
  obtain ⟨⟨p,log⟩,hexec,heq⟩ := Option.map_eq_some_iff.mp hrun
  simp only [Prod.mk.injEq] at heq
  obtain ⟨hhash,hchanging,hstate,hbody⟩ := heq
  have hread : (readRejection (rejectionBytes 1 [1,0,1])).map (fun m =>
      (m.preprepareHash,m.rejectionMap)) = some (unevenConfig.hash firstBatch,[true]) := by
    decide +kernel
  obtain ⟨m,hm,heq⟩ := Option.map_eq_some_iff.mp hread
  obtain ⟨hmhash,hmap⟩ := Prod.mk.inj heq
  refine ⟨p,log,hexec,m,hm,(receiveRejection_safe_iff _ _ unevenConfig _ p 1 _ m hm
    (hmhash.trans hhash.symm) hchanging hstate).mpr ?_⟩
  rw [hmap,hbody]
  exact ⟨by decide,fun _ _ => le_refl 1⟩

/-- A map without bits is read past its end, and one with 1501 bits fails the assertion in the
hash. -/
theorem receiveRejection_unsafe :
    ∃ p log,exec (step unevenConfig) (init 0 0) proposeFirst = some (p,log) ∧
      ∀ stream ∈ [rejectionBytes 1 [0,0],rejectionBytes 0 (0xdd::0x05::List.replicate 188 0)],
        ∃ m ∈ readRejection stream,m.preprepareHash = p.prePrepareHash ∧
          receiveRejection unevenConfig (fun m => m.preprepareHash) p 1 m = none := by
  have hrun : (exec (step unevenConfig) (init 0 0) proposeFirst).any (fun r =>
      [rejectionBytes 1 [0,0],rejectionBytes 0 (0xdd::0x05::List.replicate 188 0)].all fun stream =>
        (readRejection stream).any fun m => m.preprepareHash = r.1.prePrepareHash ∧
          (receiveRejection unevenConfig (fun m => m.preprepareHash) r.1 1 m).isNone) = true := by
    decide +kernel
  obtain ⟨⟨p,log⟩,hexec,hall⟩ := (Option.any_eq_true ..).mp hrun
  refine ⟨p,log,hexec,fun stream hstream => ?_⟩
  obtain ⟨m,hm,h⟩ := (Option.any_eq_true ..).mp (List.all_eq_true.mp hall stream hstream)
  simp only [decide_eq_true_eq,Option.isNone_iff_eq_none] at h
  exact ⟨m,hm,h⟩

end Examples

end LogosCore.Primary

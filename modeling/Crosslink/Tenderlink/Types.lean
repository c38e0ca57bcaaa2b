import Crosslink.Lib.Codec
import Crosslink.Lib.Fallible

/-!
# The data of the tenderlink state machine

Values, votes, rosters and round records as `tenderlink` keeps them. Unsigned words are natural
numbers; their additions go through `Fallible.addU` wherever the source can overflow, with
`Params.overflowChecks` telling the two build profiles apart. What the crate takes from elsewhere
(the keyed hashes, ed25519 signing and verification) is a parameter.
-/

namespace Crosslink.Tenderlink

open Codec Fallible

/-! ### Identifiers -/

/-- The 32-byte keyed hash that names a proposed value. -/
structure ValueId where
  bytes : Bytes 32
  deriving DecidableEq

def ValueId.nil : ValueId := ⟨Bytes.zero 32⟩

structure PubKeyID where
  bytes : Bytes 32
  deriving DecidableEq

def PubKeyID.nil : PubKeyID := ⟨Bytes.zero 32⟩

structure TMSig where
  bytes : Bytes 64
  deriving DecidableEq

def TMSig.nil : TMSig := ⟨Bytes.zero 64⟩

abbrev SigningKey := Bytes 32

abbrev BlockValue := List UInt8

/-- What the state machine takes from other crates, and the build profile. -/
structure Params where
  valueHash : List UInt8 → ValueId
  proposerHash : List UInt8 → Bytes 32
  verify : TMSig → PubKeyID → List UInt8 → Bool
  sign : SigningKey → List UInt8 → TMSig
  verificationKey : SigningKey → PubKeyID
  /-- Arithmetic overflow panics (`true`, the dev profile) or wraps (`false`, release). -/
  overflowChecks : Bool

/-! ### A concrete instance

Keys, signatures and a digest that compute. Key number one encodes the identity point, which has small
order: by ZIP 215 a signature under it verifies, on every message, when its scalar is zero and its
point has small order, the all-zero signature included. -/

def keyNo (n : ℕ) : PubKeyID := ⟨⟨leBytes 32 n, leBytes_length 32 n⟩⟩

def sigNo (n : ℕ) : TMSig := ⟨⟨leBytes 64 n, leBytes_length 64 n⟩⟩

def smallOrderSigs : List TMSig := [TMSig.nil, sigNo 1, sigNo (2 ^ 255 - 20)]

def sampleSign (key : Bytes 32) (msg : List UInt8) : TMSig :=
  ⟨⟨key.toList ++ leBytes 32 (leNat msg % (2 ^ 255 - 19)), by simp⟩⟩

theorem sampleSign_ne_nil (h : key ≠ Bytes.zero 32) (msg : List UInt8) :
    sampleSign key msg ≠ TMSig.nil := by
  intro hnil
  have hbytes : (key.toList ++ leBytes 32 (leNat msg % (2 ^ 255 - 19))).take 32 = (Bytes.zero 64).toList.take 32 :=
    congrArg (fun sig => sig.bytes.toList.take 32) hnil
  rw [List.take_left' (by simp)] at hbytes
  exact h (Subtype.ext (hbytes.trans (by decide)))

def Params.sample (overflowChecks : Bool) : Params where
  valueHash v := ⟨⟨leBytes 32 (1 + leNat v), leBytes_length 32 _⟩⟩
  proposerHash _ := Bytes.zero 32
  verify sig key msg := if key = keyNo 1 then sig ∈ smallOrderSigs else sig = sampleSign key.bytes msg
  sign := sampleSign
  verificationKey key := ⟨key⟩
  overflowChecks

/-! ### Values and their chunks -/

def proposalChunkDataSize : ℕ := 1212

def idFromValue (P : Params) (v : BlockValue) : ValueId := P.valueHash v

/-- `len().div_ceil(PROPOSAL_CHUNK_DATA_SIZE)`. -/
def chunksNOfSize (size : ℕ) : ℕ := (size + (proposalChunkDataSize - 1)) / proposalChunkDataSize

def chunksN (v : BlockValue) : ℕ := chunksNOfSize v.length

/-- Offset and size of a chunk. The index is a `u32` widened to `usize`, so only the subtraction can
overflow. -/
def chunkOSize (P : Params) (v : BlockValue) (chunkI : ℕ) : Except Panic (ℕ × ℕ) := do
  let o := chunkI * proposalChunkDataSize
  let left ← subU P.overflowChecks 64 v.length o
  return (o, min proposalChunkDataSize left)

/-! ### Rosters -/

structure SortedRosterMember where
  pubKey : PubKeyID
  stake : ℕ
  cumulativeStake : ℕ
  deriving DecidableEq

def rosterMaxN : ℕ := 100

def activeRosterLen (roster : List SortedRosterMember) : ℕ := min rosterMaxN roster.length

/-- Total stake of the first `n` members. -/
def stakeBefore (roster : List SortedRosterMember) (n : ℕ) : ℕ :=
  ((roster.take n).map SortedRosterMember.stake).sum

/-- A roster as the node keeps it: `cumulative_stake` holds the running sums of the stakes, the
member itself included, and the running sums fit in a `u64`. -/
structure SortedRoster where
  members : List SortedRosterMember
  cumulative_eq : ∀ i m, members[i]? = some m → m.cumulativeStake = stakeBefore members (i + 1)
  total_lt : stakeBefore members members.length < 2 ^ 64
  deriving DecidableEq

def rosterIFromPubKey (roster : List SortedRosterMember) (pubKey : PubKeyID) : Option ℕ :=
  roster.findIdx? fun m => m.pubKey == pubKey

/-! ### Votes and counts -/

/-- A vote slot: the value voted on and the signature, both nil when there is no vote. -/
abbrev ValSig := ValueId × TMSig

def ValSig.nil : ValSig := (ValueId.nil, TMSig.nil)

/-- The prevote and the precommit of one roster member (`[(ValueId, TMSig); 2]`). -/
structure VoteSlots where
  prevote : ValSig
  precommit : ValSig
  deriving DecidableEq

def VoteSlots.nil : VoteSlots := ⟨ValSig.nil, ValSig.nil⟩

def VoteSlots.get (v : VoteSlots) (isPrecommit : Bool) : ValSig :=
  if isPrecommit then v.precommit else v.prevote

def VoteSlots.set (v : VoteSlots) (isPrecommit : Bool) (x : ValSig) : VoteSlots :=
  if isPrecommit then { v with precommit := x } else { v with prevote := x }

structure ConsensusCounts where
  anys : ℕ
  prevotes : ℕ
  nilPrevotes : ℕ
  yesPrevotes : ℕ
  precommits : ℕ
  yesPrecommits : ℕ
  deriving DecidableEq

def ConsensusCounts.zero : ConsensusCounts := ⟨0, 0, 0, 0, 0, 0⟩

def ConsensusCounts.zipWithM (op : ℕ → ℕ → Except Panic ℕ) (a b : ConsensusCounts) :
    Except Panic ConsensusCounts := do
  return ⟨← op a.anys b.anys, ← op a.prevotes b.prevotes, ← op a.nilPrevotes b.nilPrevotes,
    ← op a.yesPrevotes b.yesPrevotes, ← op a.precommits b.precommits,
    ← op a.yesPrecommits b.yesPrecommits⟩

def ConsensusCounts.add (P : Params) := ConsensusCounts.zipWithM (addU P.overflowChecks 64)

def ConsensusCounts.sub (P : Params) := ConsensusCounts.zipWithM (subU P.overflowChecks 64)

/-- `ConsensusCounts::from(&(slots, stake))`: what one member contributes. -/
def ConsensusCounts.ofSlots (v : VoteSlots) (stake : ℕ) : ConsensusCounts :=
  let hasPrevote := v.prevote.2 ≠ TMSig.nil
  let hasPrecommit := v.precommit.2 ≠ TMSig.nil
  { anys := if hasPrevote ∨ hasPrecommit then stake else 0
    prevotes := if hasPrevote then stake else 0
    nilPrevotes := if hasPrevote ∧ v.prevote.1 = ValueId.nil then stake else 0
    yesPrevotes := if hasPrevote ∧ v.prevote.1 ≠ ValueId.nil then stake else 0
    precommits := if hasPrecommit then stake else 0
    yesPrecommits := if hasPrecommit ∧ v.precommit.1 ≠ ValueId.nil then stake else 0 }

/-! ### Rounds -/

inductive TMStep where
  | propose
  | prevote
  | precommit
  deriving DecidableEq

inductive TMStatus where
  | indeterminate
  | pass
  | fail
  deriving DecidableEq

inductive TMStatusReason where
  | none
  | needsBlock (hash : Bytes 32)
  deriving DecidableEq

abbrev Instant := ℕ

structure Timeout where
  time : Instant
  height : ℕ
  round : ℕ
  step : TMStep
  deriving DecidableEq

def Timeout.new (now : Instant) (height round : ℕ) (step : TMStep) : Timeout :=
  { time := now + (5000 + round * 1000), height, round, step }

structure RoundData where
  height : ℕ
  round : ℕ
  proposal : BlockValue
  proposalValidRound : ℤ
  proposalSigs : List TMSig
  proposalSigsN : ℕ
  proposalId : ValueId
  proposalCheckedValidity : TMStatus × TMStatusReason
  proposalIsFaulty : Bool
  msgValSigs : List VoteSlots
  roster : List SortedRosterMember
  counts : ConsensusCounts
  activeTimeout : Option Timeout
  timeoutTriggered : Bool × Bool
  deriving DecidableEq

def RoundData.empty : RoundData where
  height := 0
  round := 0
  proposal := []
  proposalValidRound := -1
  proposalSigs := []
  proposalSigsN := 0
  proposalId := ValueId.nil
  proposalCheckedValidity := (.indeterminate, .none)
  proposalIsFaulty := false
  msgValSigs := []
  roster := []
  counts := ConsensusCounts.zero
  activeTimeout := none
  timeoutTriggered := (false, false)

/-- The sort key of `rounds_data`. -/
def RoundData.key (d : RoundData) : ℕ × ℕ := (d.height, d.round)

def RoundData.hasFullProposal (d : RoundData) : Bool :=
  0 < d.proposalSigsN && d.proposalSigsN == d.proposalSigs.length

def RoundData.hasEnoughInfoToDetermineValidity (d : RoundData) : Bool :=
  d.proposalIsFaulty || d.hasFullProposal

def RoundData.resetProposal (d : RoundData) (proposalSize : ℕ) : RoundData :=
  { d with
    proposal := List.replicate proposalSize 0
    proposalSigs := List.replicate (chunksNOfSize proposalSize) TMSig.nil }

def RoundData.flushForAmnesiacProposer (d : RoundData) (valueId : ValueId) (validRound : ℤ)
    (roster : List SortedRosterMember) (proposalSize : ℕ) : RoundData :=
  let rosterN := activeRosterLen roster
  RoundData.resetProposal { RoundData.empty with
    height := d.height
    round := d.round
    proposalId := valueId
    proposalValidRound := validRound
    msgValSigs := List.replicate rosterN VoteSlots.nil
    roster := roster.take rosterN
    activeTimeout := d.activeTimeout
    timeoutTriggered := d.timeoutTriggered } proposalSize

/-! ### Certificates -/

structure FatPointerSignature where
  pubKey : PubKeyID
  voteSignature : Bytes 64
  deriving DecidableEq

structure FatPointerToBftBlock where
  voteForBlockWithoutFinalizerPublicKey : Bytes 44
  signatures : List FatPointerSignature
  deriving DecidableEq

end Crosslink.Tenderlink

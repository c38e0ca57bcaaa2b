import Crosslink.Tenderlink.Packets

/-!
# Incorporating one message into its round record

The part of `check_and_incorporate_msg` that runs after the round record has been found or inserted:
storing a proposal chunk, or a vote. A chunk either goes into the value, or shows the proposer faulty,
or (for a chunk under the node's own key) flushes the record; a vote fills an empty slot.
-/

namespace Crosslink.Tenderlink

open Codec Fallible

/-- The arguments of `check_and_incorporate_msg`. -/
structure Msg where
  height : ℕ
  round : ℕ
  chunkI : ℕ
  valueId : ValueId
  validRound : ℤ
  rosterI : ℕ
  packetType : ℕ
  signedData : List UInt8
  sig : TMSig
  deriving DecidableEq

section

variable (P : Params) (roster : List SortedRosterMember)

/-! ### Recounting -/

/-- Adds the contributions of the members from index `i` on. -/
def recountFrom : ℕ → ConsensusCounts → List VoteSlots → Except Panic ConsensusCounts
  | _, acc, [] => .ok acc
  | i, acc, v :: vs => do
    let member ← getIdx roster i
    let acc ← acc.add P (ConsensusCounts.ofSlots v member.stake)
    recountFrom (i + 1) acc vs

def recount (slots : List VoteSlots) : Except Panic ConsensusCounts :=
  recountFrom P roster 0 ConsensusCounts.zero slots

/-! ### Chunks -/

def ValSig.isFault (valueId : ValueId) (x : ValSig) : Bool := x.1 != ValueId.nil && x.1 != valueId

def VoteSlots.isFault (valueId : ValueId) (v : VoteSlots) : Bool :=
  v.prevote.isFault valueId || v.precommit.isFault valueId

/-- Drops speculative votes for a value that turned out not to be the proposed one. -/
def VoteSlots.purge (valueId : ValueId) (v : VoteSlots) : VoteSlots :=
  ⟨if v.prevote.isFault valueId then ValSig.nil else v.prevote,
    if v.precommit.isFault valueId then ValSig.nil else v.precommit⟩

/-- The first chunk of a round names the proposal; earlier votes for other values go. -/
def adoptProposalId (d : RoundData) (valueId : ValueId) : Except Panic RoundData :=
  if d.proposalId = ValueId.nil then do
    let slots := d.msgValSigs.map (VoteSlots.purge valueId)
    if d.msgValSigs.any (VoteSlots.isFault valueId) then
      return { d with proposalId := valueId, msgValSigs := slots, counts := ← recount P roster slots }
    else
      return { d with proposalId := valueId, msgValSigs := slots }
  else .ok d

/-- `dst[o..o + data.len()] = data`. -/
def overwrite (dst : List UInt8) (o : ℕ) (data : List UInt8) : Except Panic (List UInt8) :=
  if o + data.length ≤ dst.length then .ok (dst.take o ++ data ++ dst.drop (o + data.length))
  else .error .index

/-- With the last chunk in place the value must hash to its announced id. -/
def checkFullProposal (d : RoundData) : RoundData × TMStatus :=
  if d.proposalSigsN = d.proposalSigs.length ∧ d.proposalId ≠ idFromValue P d.proposal then
    ({ d with proposalIsFaulty := true }, .fail)
  else (d, .pass)

/-- The rest of the chunk branch, once the record is known to be for the same proposal. -/
def storeChunk (isMyProposal : Bool) (m : Msg) (hdr : PacketProposalChunkHeader) (d : RoundData) :
    Except Panic (RoundData × TMStatus) := do
  let (chunkO, chunkSize) ← chunkOSize P d.proposal m.chunkI
  let chunkData ← slice m.signedData PacketProposalChunkHeader.serializedSize
    (PacketProposalChunkHeader.serializedSize + chunkSize)
  let seenSig ← getIdx d.proposalSigs m.chunkI
  if seenSig = TMSig.nil then
    let proposal ← overwrite d.proposal chunkO chunkData
    let d ← adoptProposalId P roster { d with
      proposal
      proposalSigs := d.proposalSigs.set m.chunkI m.sig
      proposalSigsN := d.proposalSigsN + 1
      proposalValidRound := m.validRound } m.valueId
    return checkFullProposal P d
  else if seenSig ≠ m.sig then
    if isMyProposal then
      return (d.flushForAmnesiacProposer m.valueId m.validRound roster hdr.proposalSize, .pass)
    else
      return ({ d with proposalIsFaulty := true }, .fail)
  else
    return (d, .pass)

/-- The `PACKET_TYPE_PROPOSAL_CHUNK` branch. -/
def incorporateChunk (isPrevSeenRound isMyProposal : Bool) (m : Msg) (d : RoundData) :
    Except Panic (RoundData × TMStatus) :=
  match PacketProposalChunkHeader.readFrom m.signedData with
  | none => .ok (d, .fail)
  | some (hdr, _) =>
    if isPrevSeenRound ∧ 0 < d.proposalSigsN then
      if isMyProposal ∧ (d.proposal.length ≠ hdr.proposalSize ∨ d.proposalId ≠ m.valueId ∨
          d.proposalValidRound ≠ m.validRound) then
        storeChunk P roster isMyProposal m hdr
          (d.flushForAmnesiacProposer m.valueId m.validRound roster hdr.proposalSize)
      else if d.proposal.length ≠ hdr.proposalSize then .ok (d, .fail)
      else if d.proposalId ≠ m.valueId then .ok (d, .fail)
      else if d.proposalValidRound ≠ m.validRound then .ok (d, .fail)
      else storeChunk P roster isMyProposal m hdr d
    else storeChunk P roster isMyProposal m hdr (d.resetProposal hdr.proposalSize)

/-! ### Votes -/

/-- Whether a vote can be judged against the proposal; `none` rejects it. -/
def voteStatus (d : RoundData) (valueId : ValueId) : Option TMStatus :=
  if valueId = ValueId.nil then some .pass
  else if d.proposalSigsN = 0 then some .indeterminate
  else if d.proposalId ≠ valueId then none
  else some .pass

/-- The branch of the two vote packet types. In the dev profile the counts are also recomputed, for a
diagnostic message only. -/
def incorporateVote (isPrecommit : Bool) (m : Msg) (d : RoundData) : Except Panic (RoundData × TMStatus) :=
  match voteStatus d m.valueId with
  | none => .ok (d, .fail)
  | some status => do
    let slots ← getIdx d.msgValSigs m.rosterI
    let old := slots.get isPrecommit
    if old.2 ≠ TMSig.nil ∧ (m.valueId, m.sig) ≠ old then
      return (d, .fail)
    else
      let member ← getIdx roster m.rosterI
      let slots' := slots.set isPrecommit (m.valueId, m.sig)
      let delta ← (ConsensusCounts.ofSlots slots' member.stake).sub P (ConsensusCounts.ofSlots slots member.stake)
      let counts ← d.counts.add P delta
      let d := { d with msgValSigs := d.msgValSigs.set m.rosterI slots', counts }
      if P.overflowChecks then
        let _ ← recount P roster d.msgValSigs
      return (d, status)

/-- The `match packet_type` of `check_and_incorporate_msg`. -/
def incorporate (isPrevSeenRound isMyProposal : Bool) (m : Msg) (d : RoundData) :
    Except Panic (RoundData × TMStatus) :=
  if m.packetType = packetTypeProposalChunk then
    incorporateChunk P roster isPrevSeenRound isMyProposal m d
  else if m.packetType = packetTypePrevoteSignatures ∨ m.packetType = packetTypePrecommitSignatures then
    incorporateVote P roster (m.packetType = packetTypePrecommitSignatures) m d
  else .ok (d, .fail)

end

end Crosslink.Tenderlink

import Crosslink.Tenderlink.Tally

/-!
# What a message does to a round record

`Shape R d` is the static part of the invariant of a record `d` at the current height: one slot pair
for each active member of the roster `R`, counts equal to the tally, one signature slot for each chunk.
Over such records the message branches have closed forms without panics in the vote path
(`incorporateVote_eq`), and with the chunk index as the only obstacle in the chunk path
(`storeChunk_eq`, `storeChunk_error`).
-/

namespace Crosslink.Tenderlink

open Codec Fallible ConsensusCounts List PacketProposalChunkHeader VoteSlots

structure Shape (R : SortedRoster) (d : RoundData) : Prop where
  slots : d.msgValSigs.length = activeRosterLen R.members
  counts : d.counts = tally R.members d.msgValSigs
  sigs : d.proposalSigs.length = chunksN d.proposal

theorem tally_replicate_nil (roster : List SortedRosterMember) (n : ℕ) :
    tally roster (List.replicate n VoteSlots.nil) = ConsensusCounts.zero := by
  refine ConsensusCounts.ext_get fun k => ?_
  rw [tally, ConsensusCounts.get_ofFn, ConsensusCounts.zero_get, stakeWhere]
  refine Finset.sum_eq_zero fun i _ => if_neg ?_
  have hnil : slotAt (List.replicate n VoteSlots.nil) i = VoteSlots.nil := by
    simp [slotAt, List.getD_eq_getElem?_getD, List.getElem?_replicate]
    split <;> rfl
  rw [hnil]
  cases k <;> decide

theorem Shape.emptyRound (R : SortedRoster) (height round : ℕ) :
    Shape R (emptyRound height round R.members) where
  slots := by simp [Tenderlink.emptyRound]
  counts := (tally_replicate_nil _ _).symm
  sigs := by simp [Tenderlink.emptyRound, RoundData.empty, chunksN, chunksNOfSize, proposalChunkDataSize]

theorem Shape.resetProposal (hd : Shape R d) (size : ℕ) :
    Shape R (d.resetProposal size) where
  slots := hd.slots
  counts := hd.counts
  sigs := by simp [RoundData.resetProposal, chunksN]

theorem Shape.flush (R : SortedRoster) (d : RoundData) (valueId : ValueId) (validRound : ℤ) (size : ℕ) :
    Shape R (d.flushForAmnesiacProposer valueId validRound R.members size) where
  slots := by simp [RoundData.flushForAmnesiacProposer, RoundData.resetProposal]
  counts := (tally_replicate_nil _ _).symm
  sigs := by simp [RoundData.flushForAmnesiacProposer, RoundData.resetProposal, chunksN]

/-! ### Votes -/

section Votes

variable {P : Params} {R : SortedRoster} {d : RoundData} {m : Msg} {isPrecommit : Bool}

def recordedSlots (isPrecommit : Bool) (m : Msg) (d : RoundData) : List VoteSlots :=
  d.msgValSigs.set m.rosterI ((slotAt d.msgValSigs m.rosterI).set isPrecommit (m.valueId, m.sig))

def recordVote (R : SortedRoster) (isPrecommit : Bool) (m : Msg) (d : RoundData) : RoundData :=
  { d with
    msgValSigs := recordedSlots isPrecommit m d
    counts := tally R.members (recordedSlots isPrecommit m d) }

instance (v : VoteSlots) (isPrecommit : Bool) (x : ValSig) : Decidable (v.accepts isPrecommit x) :=
  inferInstanceAs (Decidable (_ ∨ _))

theorem Shape.recordVote (hd : Shape R d) (isPrecommit : Bool) (m : Msg) :
    Shape R (recordVote R isPrecommit m d) where
  slots := by simp [Tenderlink.recordVote, recordedSlots, hd.slots]
  counts := rfl
  sigs := hd.sigs

theorem Shape.slot_eq (hd : Shape R d) (hi : m.rosterI < activeRosterLen R.members) :
    d.msgValSigs[m.rosterI]? = some (slotAt d.msgValSigs m.rosterI) := by
  have hlt : m.rosterI < d.msgValSigs.length := by rw [hd.slots]; exact hi
  simp [slotAt, hlt]

theorem counts_le_recordVote (hd : Shape R d) (hi : m.rosterI < activeRosterLen R.members)
    (hacc : (slotAt d.msgValSigs m.rosterI).accepts isPrecommit (m.valueId, m.sig)) (k : CountKind) :
    d.counts.get k ≤ (recordVote R isPrecommit m d).counts.get k := by
  have hset : _ + (recordVote R isPrecommit m d).counts.get k = _ := tally_set _ (hd.slot_eq hi) k
  have hle := ofSlots_le_of_accepts hacc (stakeAt R.members m.rosterI) k
  rw [← hd.counts] at hset
  omega

theorem incorporateVote_accept (hd : Shape R d) (hi : m.rosterI < activeRosterLen R.members)
    (hacc : (slotAt d.msgValSigs m.rosterI).accepts isPrecommit (m.valueId, m.sig))
    (hst : voteStatus d m.valueId = some status) :
    incorporateVote P R.members isPrecommit m d = .ok (recordVote R isPrecommit m d, status) := by
  have hmem : m.rosterI < R.members.length := lt_of_lt_of_le hi (activeRosterLen_le _)
  have hmember : R.members[m.rosterI]? = some R.members[m.rosterI] := by simp [hmem]
  have hstake := stakeAt_of_getElem? hmember
  have hno : ¬ (((slotAt d.msgValSigs m.rosterI).get isPrecommit).2 ≠ TMSig.nil ∧
      (m.valueId, m.sig) ≠ (slotAt d.msgValSigs m.rosterI).get isPrecommit) := by
    rcases hacc with h | h
    · exact fun hc => hc.1 h
    · exact fun hc => hc.2 h
  set old := slotAt d.msgValSigs m.rosterI with hold
  set new := old.set isPrecommit (m.valueId, m.sig) with hnew
  -- the two contributions differ by this much in each count, and never go down
  set delta := ofFn fun k => (ofSlots new R.members[m.rosterI].stake).get k -
    (ofSlots old R.members[m.rosterI].stake).get k with hdelta
  have hsub : (ofSlots new R.members[m.rosterI].stake).sub P
      (ConsensusCounts.ofSlots old R.members[m.rosterI].stake) = .ok delta :=
    ConsensusCounts.sub_ok fun k => by
      have hle := ofSlots_le_of_accepts hacc R.members[m.rosterI].stake k
      rw [← hnew] at hle
      rw [hdelta, ConsensusCounts.get_ofFn]
      omega
  have hadd : d.counts.add P delta = .ok (tally R.members (recordedSlots isPrecommit m d)) :=
    ConsensusCounts.add_ok (fun k => by
      have hset : _ + (tally R.members (recordedSlots isPrecommit m d)).get k = _ :=
        tally_set new (hd.slot_eq hi) k
      have hle := ofSlots_le_of_accepts hacc R.members[m.rosterI].stake k
      rw [← hnew] at hle
      rw [← hd.counts, hstake, ← hold] at hset
      rw [hdelta, ConsensusCounts.get_ofFn]
      omega) fun k => tally_get_lt R _ k
  have hrecount : recount P R.members (recordedSlots isPrecommit m d) = _ := recount_eq P R
    (by simpa [recordedSlots, hd.slots] using activeRosterLen_le _)
  unfold incorporateVote
  rw [hst]
  simp only [getIdx_ok (hd.slot_eq hi), getIdx_ok hmember, ok_bind, ← hold, if_neg hno, ← hnew, hsub, hadd]
  change (if P.overflowChecks = true then recount P R.members (recordedSlots isPrecommit m d) >>= _ else _) = _
  rw [hrecount]
  split <;> rfl

theorem incorporateVote_reject (hd : Shape R d) (hi : m.rosterI < activeRosterLen R.members)
    (h : voteStatus d m.valueId = none ∨
      ¬ (slotAt d.msgValSigs m.rosterI).accepts isPrecommit (m.valueId, m.sig)) :
    incorporateVote P R.members isPrecommit m d = .ok (d, .fail) := by
  unfold incorporateVote
  cases hst : voteStatus d m.valueId with
  | none => rfl
  | some status =>
    have hacc : ¬ (slotAt d.msgValSigs m.rosterI).accepts isPrecommit (m.valueId, m.sig) := by
      simpa [hst] using h
    simp only [getIdx_ok (hd.slot_eq hi), ok_bind]
    rw [if_pos (not_or.mp hacc)]
    rfl

theorem incorporateVote_eq (P : Params) (isPrecommit : Bool) (m : Msg) (hd : Shape R d)
    (hi : m.rosterI < activeRosterLen R.members) :
    ∃ status, incorporateVote P R.members isPrecommit m d = .ok (d, .fail) ∨
      (incorporateVote P R.members isPrecommit m d = .ok (recordVote R isPrecommit m d, status) ∧
        voteStatus d m.valueId = some status ∧
        (slotAt d.msgValSigs m.rosterI).accepts isPrecommit (m.valueId, m.sig)) := by
  cases hst : voteStatus d m.valueId with
  | none => exact ⟨.fail, .inl (incorporateVote_reject hd hi (.inl hst))⟩
  | some status =>
    refine ⟨status, ?_⟩
    by_cases hacc : (slotAt d.msgValSigs m.rosterI).accepts isPrecommit (m.valueId, m.sig)
    · exact .inr ⟨incorporateVote_accept hd hi hacc hst, rfl, hacc⟩
    · exact .inl (incorporateVote_reject hd hi (.inr hacc))

end Votes

/-! ### Chunks -/

section Chunks

variable {P : Params} {R : SortedRoster} {d : RoundData} {m : Msg} {hdr : PacketProposalChunkHeader}
  {isMyProposal : Bool}

def adopt (R : SortedRoster) (d : RoundData) (valueId : ValueId) : RoundData :=
  if d.proposalId = ValueId.nil then
    { d with
      proposalId := valueId
      msgValSigs := d.msgValSigs.map (VoteSlots.purge valueId)
      counts := tally R.members (d.msgValSigs.map (VoteSlots.purge valueId)) }
  else d

theorem VoteSlots.purge_eq_self {v : VoteSlots} (h : v.isFault valueId = false) :
    v.purge valueId = v := by
  obtain ⟨h₁, h₂⟩ : v.prevote.isFault valueId = false ∧ v.precommit.isFault valueId = false := by
    simpa [isFault] using h
  simp [purge, h₁, h₂]

theorem Shape.adopt (hd : Shape R d) (valueId : ValueId) : Shape R (adopt R d valueId) := by
  unfold Tenderlink.adopt
  split
  · exact ⟨by simp [hd.slots], rfl, hd.sigs⟩
  · exact hd

theorem adoptProposalId_eq (hd : Shape R d) (valueId : ValueId) :
    adoptProposalId P R.members d valueId = .ok (adopt R d valueId) := by
  unfold adoptProposalId adopt
  split
  · have hlen : (d.msgValSigs.map (purge valueId)).length ≤ R.members.length := by
      simpa [hd.slots] using activeRosterLen_le _
    dsimp only
    split
    · rw [recount_eq P R hlen]
      rfl
    · rename_i hany
      have hsame : d.msgValSigs.map (purge valueId) = d.msgValSigs := by
        refine (map_congr_left fun v hv => ?_).trans (map_id _)
        refine purge_eq_self (Bool.eq_false_iff.mpr fun hf => hany ?_)
        exact any_eq_true.mpr ⟨v, hv, hf⟩
      rw [hsame, ← hd.counts]
      rfl
  · rfl

def chunkSizeAt (d : RoundData) (chunkI : ℕ) : ℕ :=
  min proposalChunkDataSize (d.proposal.length - chunkI * proposalChunkDataSize)

def withChunk (m : Msg) (d : RoundData) : RoundData :=
  let o := m.chunkI * proposalChunkDataSize
  let data := (m.signedData.drop PacketProposalChunkHeader.serializedSize).take (chunkSizeAt d m.chunkI)
  { d with
    proposal := d.proposal.take o ++ data ++ d.proposal.drop (o + data.length)
    proposalSigs := d.proposalSigs.set m.chunkI m.sig
    proposalSigsN := d.proposalSigsN + 1
    proposalValidRound := m.validRound }

/-- What `storeChunk` returns when the chunk index is in range. -/
def storeResult (P : Params) (R : SortedRoster) (isMyProposal : Bool) (m : Msg)
    (hdr : PacketProposalChunkHeader) (d : RoundData) : RoundData × TMStatus :=
  if d.proposalSigs[m.chunkI]? = some TMSig.nil then
    checkFullProposal P (adopt R (withChunk m d) m.valueId)
  else if d.proposalSigs[m.chunkI]? = some m.sig then (d, .pass)
  else if isMyProposal then
    (d.flushForAmnesiacProposer m.valueId m.validRound R.members hdr.proposalSize, .pass)
  else ({ d with proposalIsFaulty := true }, .fail)

theorem lt_chunksN_iff (v : BlockValue) (i : ℕ) : i < chunksN v ↔ i * proposalChunkDataSize < v.length := by
  unfold chunksN chunksNOfSize proposalChunkDataSize
  omega

theorem Shape.withChunk (hd : Shape R d) (m : Msg) (hi : m.chunkI < d.proposalSigs.length)
    (hlen : PacketProposalChunkHeader.serializedSize + chunkSizeAt d m.chunkI ≤ m.signedData.length) :
    Shape R (withChunk m d) where
  slots := hd.slots
  counts := hd.counts
  sigs := by
    rw [hd.sigs, lt_chunksN_iff] at hi
    simp only [Tenderlink.withChunk, length_set, hd.sigs, chunksN]
    congr 1
    simp only [chunkSizeAt, List.length_append, List.length_take, List.length_drop] at hlen ⊢
    omega

theorem Shape.checkFullProposal (hd : Shape R d) : Shape R (checkFullProposal P d).1 := by
  unfold Tenderlink.checkFullProposal
  split
  · exact ⟨hd.slots, hd.counts, hd.sigs⟩
  · exact hd

theorem storeChunk_eq (hd : Shape R d) (hi : m.chunkI < d.proposalSigs.length)
    (hlen : PacketProposalChunkHeader.serializedSize + chunkSizeAt d m.chunkI ≤ m.signedData.length) :
    storeChunk P R.members isMyProposal m hdr d = .ok (storeResult P R isMyProposal m hdr d) := by
  have hoff := hi
  rw [hd.sigs, lt_chunksN_iff] at hoff
  have hsize : chunkOSize P d.proposal m.chunkI =
      .ok (m.chunkI * proposalChunkDataSize, chunkSizeAt d m.chunkI) := by
    simp only [chunkOSize, subU_ok hoff.le, ok_bind]
    rfl
  have hslice : slice m.signedData serializedSize
      (serializedSize + chunkSizeAt d m.chunkI) =
        .ok ((m.signedData.drop serializedSize).take (chunkSizeAt d m.chunkI)) := by
    rw [slice_ok (by omega) hlen, Nat.add_sub_cancel_left]
  have hsig : d.proposalSigs[m.chunkI]? = some d.proposalSigs[m.chunkI] := by simp [hi]
  have hover : overwrite d.proposal (m.chunkI * proposalChunkDataSize)
      ((m.signedData.drop serializedSize).take (chunkSizeAt d m.chunkI)) =
        .ok (withChunk m d).proposal := by
    refine if_pos ?_
    simp only [chunkSizeAt, length_take, length_drop]
    omega
  have hadopt := adoptProposalId_eq (P := P) (hd.withChunk m hi hlen) m.valueId
  unfold storeChunk storeResult
  simp only [hsize, ok_bind, hslice, getIdx_ok hsig, hsig, Option.some.injEq]
  split
  · rw [hover, ok_bind]
    change adoptProposalId P R.members (withChunk m d) m.valueId >>= _ = _
    rw [hadopt]
    rfl
  · split_ifs <;> first | rfl | contradiction

theorem storeChunk_error (hi : d.proposalSigs.length ≤ m.chunkI) :
    ∃ e, storeChunk P R.members isMyProposal m hdr d = .error e := by
  unfold storeChunk
  cases h₁ : chunkOSize P d.proposal m.chunkI with
  | error e => exact ⟨e, rfl⟩
  | ok a =>
    rw [ok_bind]
    cases h₂ : slice m.signedData serializedSize
        (serializedSize + a.2) with
    | error e => exact ⟨e, by simp [h₂]⟩
    | ok data => exact ⟨.index, by simp [h₂, getIdx_error hi]⟩

theorem storeChunk_ok (hd : Shape R d) (h : storeChunk P R.members isMyProposal m hdr d = .ok r) :
    m.chunkI < d.proposalSigs.length ∧
      PacketProposalChunkHeader.serializedSize + chunkSizeAt d m.chunkI ≤ m.signedData.length ∧
      r = storeResult P R isMyProposal m hdr d := by
  have hi : m.chunkI < d.proposalSigs.length := by
    by_contra hcon
    obtain ⟨e, he⟩ : ∃ e, storeChunk P R.members isMyProposal m hdr d = .error e :=
      storeChunk_error (Nat.le_of_not_lt hcon)
    rw [he] at h
    cases h
  have hlen : serializedSize + chunkSizeAt d m.chunkI ≤ m.signedData.length := by
    have hoff := hi
    rw [hd.sigs, lt_chunksN_iff] at hoff
    have hsize : chunkOSize P d.proposal m.chunkI =
        .ok (m.chunkI * proposalChunkDataSize, chunkSizeAt d m.chunkI) := by
      simp only [chunkOSize, subU_ok hoff.le, ok_bind]
      rfl
    by_contra hcon
    unfold storeChunk at h
    rw [hsize, ok_bind] at h
    simp only [slice, if_neg (not_and_of_not_right _ hcon), error_bind] at h
    cases h
  rw [storeChunk_eq hd hi hlen] at h
  cases h
  exact ⟨hi, hlen, rfl⟩

/-- The record a chunk is stored into: itself when the announced value is the same, a flushed one when
the node's own key announces another value, a fresh one before the first chunk. -/
def chunkBase (R : SortedRoster) (isMyProposal : Bool) (m : Msg) (hdr : PacketProposalChunkHeader)
    (d : RoundData) : Option RoundData :=
  if 0 < d.proposalSigsN then
    if d.proposal.length = hdr.proposalSize ∧ d.proposalId = m.valueId ∧ d.proposalValidRound = m.validRound then
      some d
    else if isMyProposal then
      some (d.flushForAmnesiacProposer m.valueId m.validRound R.members hdr.proposalSize)
    else none
  else some (d.resetProposal hdr.proposalSize)

theorem Shape.chunkBase (hd : Shape R d) {b : RoundData} (h : chunkBase R isMyProposal m hdr d = some b) :
    Shape R b := by
  unfold Tenderlink.chunkBase at h
  split_ifs at h
  · cases h; exact hd
  · cases h; exact Shape.flush R d _ _ _
  · cases h; exact hd.resetProposal _

theorem incorporateChunk_eq (hseen : seen = true ∨ d.proposalSigsN = 0)
    (hread : PacketProposalChunkHeader.readFrom m.signedData = some (hdr, rest)) :
    incorporateChunk P R.members seen isMyProposal m d =
      match chunkBase R isMyProposal m hdr d with
      | none => .ok (d, .fail)
      | some b => storeChunk P R.members isMyProposal m hdr b := by
  unfold incorporateChunk chunkBase
  simp only [hread]
  by_cases hn : 0 < d.proposalSigsN
  · obtain rfl : seen = true := hseen.resolve_right (by omega)
    rw [if_pos ⟨rfl, hn⟩, if_pos hn]
    by_cases hsame : d.proposal.length = hdr.proposalSize ∧ d.proposalId = m.valueId ∧
        d.proposalValidRound = m.validRound
    · obtain ⟨h₁, h₂, h₃⟩ := hsame
      simp [h₁, h₂, h₃]
    · cases isMyProposal with
      | true =>
        rw [if_neg hsame, if_pos ⟨rfl, by tauto⟩]
        rfl
      | false =>
        rw [if_neg hsame, if_neg (by simp)]
        split_ifs <;> first | rfl | (exfalso; tauto)
  · rw [if_neg (fun h => hn h.2), if_neg hn]

theorem incorporateChunk_unread (hread : PacketProposalChunkHeader.readFrom m.signedData = none) :
    incorporateChunk P R.members seen isMyProposal m d = .ok (d, .fail) := by
  unfold incorporateChunk
  rw [hread]

end Chunks

/-! ### Everything a message can do -/

/-- The announced proposal of a record is the one a chunk belongs to. -/
def SameProposal (m : Msg) (hdr : PacketProposalChunkHeader) (d : RoundData) : Prop :=
  d.proposal.length = hdr.proposalSize ∧ d.proposalId = m.valueId ∧ d.proposalValidRound = m.validRound

/-- How a chunk finds the record it is stored into. -/
inductive ChunkBase (R : SortedRoster) (isMyProposal : Bool) (m : Msg) (hdr : PacketProposalChunkHeader)
    (d : RoundData) : RoundData → Prop where
  | same (hn : 0 < d.proposalSigsN) (h : SameProposal m hdr d) : ChunkBase R isMyProposal m hdr d d
  | flushed (hn : 0 < d.proposalSigsN) (hmine : isMyProposal = true) (h : ¬ SameProposal m hdr d) :
      ChunkBase R isMyProposal m hdr d
        (d.flushForAmnesiacProposer m.valueId m.validRound R.members hdr.proposalSize)
  | first (hn : d.proposalSigsN = 0) : ChunkBase R isMyProposal m hdr d (d.resetProposal hdr.proposalSize)

/-- Everything that incorporating a message can do to its record. -/
inductive RecordStep (P : Params) (R : SortedRoster) (isMyProposal : Bool) (m : Msg) (d : RoundData) :
    RoundData → Prop where
  | same : RecordStep P R isMyProposal m d d
  | vote (isPrecommit : Bool)
      (htype : m.packetType = if isPrecommit then packetTypePrecommitSignatures else packetTypePrevoteSignatures)
      (hstatus : voteStatus d m.valueId ≠ none)
      (hacc : (slotAt d.msgValSigs m.rosterI).accepts isPrecommit (m.valueId, m.sig)) :
      RecordStep P R isMyProposal m d (recordVote R isPrecommit m d)
  | store (htype : m.packetType = packetTypeProposalChunk) (hdr : PacketProposalChunkHeader)
      (rest : List UInt8) (hread : PacketProposalChunkHeader.readFrom m.signedData = some (hdr, rest))
      (b : RoundData) (hbase : ChunkBase R isMyProposal m hdr d b)
      (hnew : b.proposalSigs[m.chunkI]? = some TMSig.nil)
      (hlen : PacketProposalChunkHeader.serializedSize + chunkSizeAt b m.chunkI ≤ m.signedData.length) :
      RecordStep P R isMyProposal m d (checkFullProposal P (adopt R (withChunk m b) m.valueId)).1
  | flush (htype : m.packetType = packetTypeProposalChunk) (hdr : PacketProposalChunkHeader)
      (rest : List UInt8) (hread : PacketProposalChunkHeader.readFrom m.signedData = some (hdr, rest))
      (hmine : isMyProposal = true) (hn : 0 < d.proposalSigsN) (hsame : SameProposal m hdr d)
      (old : TMSig) (hold : d.proposalSigs[m.chunkI]? = some old) (hne : old ≠ TMSig.nil) (hsig : old ≠ m.sig) :
      RecordStep P R isMyProposal m d
        (d.flushForAmnesiacProposer m.valueId m.validRound R.members hdr.proposalSize)
  | faulty (htype : m.packetType = packetTypeProposalChunk) (hmine : isMyProposal = false)
      (hn : 0 < d.proposalSigsN) :
      RecordStep P R isMyProposal m d { d with proposalIsFaulty := true }

section

variable {P : Params} {R : SortedRoster} {d d' : RoundData} {m : Msg} {isMyProposal : Bool}

theorem chunkBase_cases (h : chunkBase R isMyProposal m hdr d = some b) : ChunkBase R isMyProposal m hdr d b := by
  unfold chunkBase at h
  split_ifs at h with hn hsame hmine
  · cases h; exact .same hn hsame
  · cases h; exact .flushed hn hmine hsame
  · cases h; exact .first (by omega)

theorem getElem?_resetProposal {size i : ℕ} (h : (d.resetProposal size).proposalSigs[i]? = some sig) :
    sig = TMSig.nil := by
  simp only [RoundData.resetProposal, getElem?_replicate] at h
  split at h <;> simp_all

theorem ChunkBase.eq_of_seen (h : ChunkBase R isMyProposal m hdr d b) (hsig : b.proposalSigs[m.chunkI]? = some sig)
    (hne : sig ≠ TMSig.nil) : b = d ∧ 0 < d.proposalSigsN ∧ SameProposal m hdr d := by
  cases h with
  | same hn hs => exact ⟨rfl, hn, hs⟩
  | flushed => exact absurd (getElem?_resetProposal hsig) hne
  | first => exact absurd (getElem?_resetProposal hsig) hne

theorem incorporateChunk_cases (hd : Shape R d) (hseen : seen = true ∨ d.proposalSigsN = 0)
    (htype : m.packetType = packetTypeProposalChunk)
    (h : incorporateChunk P R.members seen isMyProposal m d = .ok (d', status)) :
    RecordStep P R isMyProposal m d d' := by
  cases hread : readFrom m.signedData with
  | none =>
    rw [incorporateChunk_unread hread] at h
    cases h
    exact .same
  | some x =>
    obtain ⟨hdr, rest⟩ := x
    rw [incorporateChunk_eq hseen hread] at h
    cases hb : chunkBase R isMyProposal m hdr d with
    | none =>
      rw [hb] at h
      cases h
      exact .same
    | some b =>
      rw [hb] at h
      have hbase := chunkBase_cases hb
      obtain ⟨hi, hlen, hr⟩ := storeChunk_ok (hd.chunkBase hb) h
      have hsig : b.proposalSigs[m.chunkI]? = some b.proposalSigs[m.chunkI] := by simp [hi]
      obtain rfl : d' = (storeResult P R isMyProposal m hdr b).1 := congrArg Prod.fst hr
      unfold storeResult
      split_ifs with hnil hgood hmine
      · exact .store htype hdr rest hread b hbase hnil hlen
      all_goals
        rw [hsig, Option.some.injEq] at hnil
        obtain ⟨rfl, hn, hsame⟩ := hbase.eq_of_seen hsig hnil
      · exact .same
      · rw [hsig, Option.some.injEq] at hgood
        exact .flush htype hdr rest hread hmine hn hsame _ hsig hnil hgood
      · exact .faulty htype (by simpa using hmine) hn

theorem incorporate_cases (hd : Shape R d) (hseen : seen = true ∨ d.proposalSigsN = 0)
    (hi : m.rosterI < activeRosterLen R.members)
    (h : incorporate P R.members seen isMyProposal m d = .ok (d', status)) :
    RecordStep P R isMyProposal m d d' := by
  unfold incorporate at h
  split_ifs at h with hchunk hvote
  · exact incorporateChunk_cases hd hseen hchunk h
  · obtain ⟨status', hr | ⟨hr, hst, hacc⟩⟩ :=
      incorporateVote_eq P (m.packetType = packetTypePrecommitSignatures) m hd hi
    · rw [hr] at h
      cases h
      exact .same
    · rw [hr] at h
      cases h
      refine .vote _ ?_ (by simp [hst]) hacc
      rcases hvote with hp | hp <;> simp [hp, packetTypePrecommitSignatures, packetTypePrevoteSignatures]
  · cases h
    exact .same

/-! ### What no message changes -/

theorem checkFullProposal_frame (P : Params) (d : RoundData) :
    (checkFullProposal P d).1.key = d.key ∧ (checkFullProposal P d).1.activeTimeout = d.activeTimeout ∧
      (checkFullProposal P d).1.timeoutTriggered = d.timeoutTriggered := by
  unfold checkFullProposal
  split <;> exact ⟨rfl, rfl, rfl⟩

theorem adopt_frame (R : SortedRoster) (d : RoundData) (valueId : ValueId) :
    (adopt R d valueId).key = d.key ∧ (adopt R d valueId).activeTimeout = d.activeTimeout ∧
      (adopt R d valueId).timeoutTriggered = d.timeoutTriggered := by
  unfold adopt
  split <;> exact ⟨rfl, rfl, rfl⟩

theorem RecordStep.frame (h : RecordStep P R isMyProposal m d d') :
    d'.key = d.key ∧ d'.activeTimeout = d.activeTimeout ∧ d'.timeoutTriggered = d.timeoutTriggered := by
  cases h with
  | same => exact ⟨rfl, rfl, rfl⟩
  | vote => exact ⟨rfl, rfl, rfl⟩
  | store htype hdr rest hread b hbase =>
    obtain ⟨h₁, h₂, h₃⟩ := checkFullProposal_frame P (adopt R (withChunk m b) m.valueId)
    obtain ⟨g₁, g₂, g₃⟩ := adopt_frame R (withChunk m b) m.valueId
    rw [h₁, h₂, h₃, g₁, g₂, g₃]
    cases hbase <;> exact ⟨rfl, rfl, rfl⟩
  | flush => exact ⟨rfl, rfl, rfl⟩
  | faulty => exact ⟨rfl, rfl, rfl⟩

theorem ChunkBase.shape (hd : Shape R d) (h : ChunkBase R isMyProposal m hdr d b) : Shape R b := by
  cases h with
  | same => exact hd
  | flushed => exact Shape.flush R d _ _ _
  | first => exact hd.resetProposal _

theorem RecordStep.shape (hd : Shape R d) (h : RecordStep P R isMyProposal m d d') : Shape R d' := by
  cases h with
  | same => exact hd
  | vote k => exact hd.recordVote k m
  | store htype hdr rest hread b hbase hnew hlen =>
    have hi : m.chunkI < b.proposalSigs.length := (List.getElem?_eq_some_iff.mp hnew).1
    exact (((hbase.shape hd).withChunk m hi hlen).adopt m.valueId).checkFullProposal
  | flush => exact Shape.flush R d _ _ _
  | faulty => exact ⟨hd.slots, hd.counts, hd.sigs⟩

end

end Crosslink.Tenderlink

import Crosslink.Tenderlink.Gossip
import Crosslink.Tenderlink.Proposer
import Crosslink.Tenderlink.Robust

/-!
# Gossiping the chunks of a proposal

A record keeps the bytes of its proposal and one signature for each chunk, but the fields of the chunk headers only once.
`send_round_data_to_peer` rebuilds the header of every stored chunk from the record. The rebuilt bytes are the signed
ones: a record changes its announced proposal only when it drops all chunks, and a node that signs as `broadcast` does
never sees two of its own chunks under one header.
-/

namespace Crosslink.Tenderlink

open Codec Fallible List PacketProposalChunkHeader

variable {P : Params} {s s' t : TMState} {d d' : RoundData} {m : Msg}

/-! ### The chunks of a record -/

def RoundData.chunkHdr (d : RoundData) (i : ℕ) : PacketProposalChunkHeader :=
  { chunkI := i, proposalSize := d.proposal.length, round := d.round, validRound := d.proposalValidRound
    height := d.height, proposalId := d.proposalId }

def RoundData.chunkBytes (d : RoundData) (i : ℕ) : List UInt8 := (d.chunkHdr i).writeTo ++ chunkData d.proposal i

/-- One turn of the chunk loop of `send_round_data_to_peer`. In the dev profile a chunk whose signature does not verify is
left out. -/
def sendChunk (P : Params) (d : RoundData) (proposer : PubKeyID) (status : PacketStatus) (sig : TMSig) (chunkI : ℕ) :
    Except Panic (Option (List UInt8)) := do
  let (chunkO, chunkSize) ← chunkOSize P d.proposal chunkI
  let data ← slice d.proposal chunkO (chunkO + chunkSize)
  let signedData := (d.chunkHdr chunkI).writeTo ++ data
  if P.overflowChecks && !P.verify sig proposer signedData then return none
  return some (writeHeaderAndStatus packetTypeProposalChunk status ++ signedData ++ sig.bytes.toList)

def RoundData.storedChunks (d : RoundData) : List (TMSig × ℕ) :=
  d.proposalSigs.zipIdx.filter fun (sig, _) => sig ≠ TMSig.nil

/-- The chunk part of `send_round_data_to_peer`: the packets of all stored chunks, each with the status of its moment. -/
def chunkMessages (P : Params) (statuses : ℕ → PacketStatus) (d : RoundData) : Except Panic (List (List UInt8)) := do
  if 2 ^ 32 ≤ d.proposal.length then throw .unwrap
  let (_, proposer) ← proposerFromHeightRound P d.roster d.height d.round
  if d.proposalSigsN = 0 then return []
  let sent ← d.storedChunks.mapM fun (sig, chunkI) => sendChunk P d proposer (statuses chunkI) sig chunkI
  return sent.filterMap id

/-- The chunks of the record can be passed on. -/
structure ChunksKept (P : Params) (d : RoundData) : Prop where
  signed : ∀ i sig, d.proposalSigs[i]? = some sig → sig ≠ TMSig.nil →
    ∃ rosterI key, proposerFromHeightRound P d.roster d.height d.round = .ok (some rosterI, key) ∧
      P.verify sig key (d.chunkBytes i) = true
  count : d.proposalSigsN = d.proposalSigs.countP fun sig => sig ≠ TMSig.nil
  hash : d.hasFullProposal = true → d.proposalIsFaulty = false → idFromValue P d.proposal = d.proposalId

theorem chunkData_length (value : BlockValue) (i : ℕ) :
    (chunkData value i).length = min proposalChunkDataSize (value.length - i * proposalChunkDataSize) := by
  rw [chunkData, length_take, length_drop]

theorem chunkData_splice (hlt : i * proposalChunkDataSize < value.length)
    (hdata : data.length = min proposalChunkDataSize (value.length - i * proposalChunkDataSize)) (j : ℕ) :
    chunkData (value.take (i * proposalChunkDataSize) ++ data ++
      value.drop (i * proposalChunkDataSize + data.length)) j = if j = i then data else chunkData value j := by
  have htake : (value.take (i * proposalChunkDataSize)).length = i * proposalChunkDataSize := by
    rw [length_take]
    omega
  apply ext_getElem?
  intro k
  by_cases hk : k < proposalChunkDataSize
  · by_cases hj : j = i
    · subst hj
      rw [if_pos rfl, chunkData, getElem?_take_of_lt hk, getElem?_drop, append_assoc,
        getElem?_append_right (by omega), htake, Nat.add_sub_cancel_left]
      by_cases hin : k < data.length
      · rw [getElem?_append_left hin]
      · rw [getElem?_append_right (by omega), getElem?_drop, getElem?_eq_none (by omega),
          getElem?_eq_none (by omega)]
    · rw [if_neg hj, chunkData, chunkData, getElem?_take_of_lt hk, getElem?_take_of_lt hk, getElem?_drop,
        getElem?_drop, append_assoc]
      rcases Nat.lt_or_gt_of_ne hj with hbelow | habove
      · have hend : j * proposalChunkDataSize + k < i * proposalChunkDataSize := by
          unfold proposalChunkDataSize at hk ⊢
          omega
        rw [getElem?_append_left (by omega), getElem?_take_of_lt hend]
      · have hstart : i * proposalChunkDataSize + proposalChunkDataSize ≤ j * proposalChunkDataSize := by
          unfold proposalChunkDataSize
          omega
        rw [getElem?_append_right (by omega), getElem?_append_right (by omega), getElem?_drop, htake]
        by_cases hin : j * proposalChunkDataSize + k < value.length
        · have hsame : i * proposalChunkDataSize + data.length +
              (j * proposalChunkDataSize + k - i * proposalChunkDataSize - data.length) = j * proposalChunkDataSize + k := by
            omega
          rw [hsame]
        · rw [getElem?_eq_none (by omega), getElem?_eq_none (by omega)]
  · have hlen : (if j = i then data else chunkData value j).length ≤ k := by
      split_ifs
      · omega
      · rw [chunkData_length]
        omega
    rw [getElem?_eq_none hlen, getElem?_eq_none]
    rw [chunkData_length]
    omega

/-! ### Chunk messages -/

/-- A chunk that `broadcast` signs for one of the values. -/
def Broadcast (P : Params) (values : Set BlockValue) (hdr : PacketProposalChunkHeader) (data : List UInt8) : Prop :=
  ∃ value ∈ values, value.length < 2 ^ 32 ∧ ∃ validRound, (Signed.chunk hdr data).IsChunkOf P value validRound

/-- A chunk message as it is built from a packet and by `broadcast`. -/
structure ChunkFormed (m : Msg) (hdr : PacketProposalChunkHeader) (data : List UInt8) : Prop where
  covers : (Signed.chunk hdr data).Covers m
  length : hdr.chunkI * proposalChunkDataSize < hdr.proposalSize % 2 ^ 32 →
    data.length = min proposalChunkDataSize (hdr.proposalSize % 2 ^ 32 - hdr.chunkI * proposalChunkDataSize)

theorem Broadcast.formed (h : Broadcast P values hdr data) (hcovers : (Signed.chunk hdr data).Covers m) :
    ChunkFormed m hdr data := by
  refine ⟨hcovers, fun _ => ?_⟩
  obtain ⟨value, -, hlen, validRound, hhdr, hdata⟩ := h
  have hsize : hdr.proposalSize = value.length := by
    rw [hhdr]
    rfl
  rw [hdata, hsize, Nat.mod_eq_of_lt hlen]
  exact chunkData_length value hdr.chunkI

theorem store_proposal (P : Params) (R : SortedRoster) (b : RoundData) (m : Msg) :
    (checkFullProposal P (adopt R (withChunk m b) m.valueId)).1.proposal = (withChunk m b).proposal := by
  rw [← (adopt_proposal R (withChunk m b) m.valueId).1, checkFullProposal]
  split_ifs <;> rfl

theorem ChunkFormed.writeTo_chunkHdr (hformed : ChunkFormed m hdr data)
    (hread : PacketProposalChunkHeader.readFrom m.signedData = some (hdr₀, rest)) (hkey : d.key = (m.height, m.round))
    (hsame : SameProposal m hdr₀ d) :
    (d.chunkHdr m.chunkI).writeTo = hdr.writeTo := by
  obtain ⟨-, hsigned, hheight, hround, hchunkI, hvalueId, hvalidRound⟩ := hformed.covers
  obtain ⟨hsize, hid, hvalid⟩ := hsame
  obtain ⟨hdheight, hdround⟩ := Prod.mk.inj hkey
  rw [hsigned] at hread
  have hmod := readFrom_writeTo_size hread
  have hword : leBytes 4 (hdr.proposalSize % 2 ^ 32) = leBytes 4 hdr.proposalSize := leBytes_mod 4 _
  simp only [writeTo, RoundData.chunkHdr, hsize, hid, hvalid, hdheight, hdround, hmod, hword,
    hheight, hround, hchunkI, hvalueId, hvalidRound]

theorem store_chunkBytes (hb : Shape R b) (hformed : ChunkFormed m hdr data)
    (hread : PacketProposalChunkHeader.readFrom m.signedData = some (hdr₀, rest))
    (hsize : b.proposal.length = hdr₀.proposalSize) (hkey : b.key = (m.height, m.round))
    (hid : b.proposalId = ValueId.nil ∨ b.proposalId = m.valueId) (hnew : b.proposalSigs[m.chunkI]? = some TMSig.nil)
    (hlen : PacketProposalChunkHeader.serializedSize + chunkSizeAt b m.chunkI ≤ m.signedData.length)
    (hd' : (checkFullProposal P (adopt R (withChunk m b) m.valueId)).1 = d') :
    d'.chunkBytes m.chunkI = m.signedData ∧ chunkData d'.proposal m.chunkI = data ∧ d'.proposalId = m.valueId ∧
      ∀ j ≠ m.chunkI, chunkData d'.proposal j = chunkData b.proposal j ∧
        (SameProposal m hdr₀ b → d'.chunkBytes j = b.chunkBytes j) := by
  obtain ⟨hlength, -, -, hround, hadopted⟩ := store_frame hb hnew hlen hd'
  obtain ⟨-, hsigned, -, -, hchunkI, -, -⟩ := hformed.covers
  have hkey' : d'.key = b.key := by
    rw [← hd', (checkFullProposal_frame P _).1, (adopt_frame R _ _).1]
    rfl
  have hid' : d'.proposalId = m.valueId := by
    rw [hadopted]
    rcases hid with h | h
    · rw [if_pos h]
    · rw [h, ite_self]
  have hlt : m.chunkI * proposalChunkDataSize < b.proposal.length := by
    rw [← lt_chunksN_iff, ← hb.sigs]
    exact (List.getElem?_eq_some_iff.mp hnew).1
  have hdata : data.length = min proposalChunkDataSize (b.proposal.length - m.chunkI * proposalChunkDataSize) := by
    have hread' := hread
    rw [hsigned] at hread'
    have hmod := readFrom_writeTo_size hread'
    rw [hsize, hmod, hchunkI] at hlt ⊢
    exact hformed.length hlt
  have hproposal : d'.proposal = b.proposal.take (m.chunkI * proposalChunkDataSize) ++ data ++
      b.proposal.drop (m.chunkI * proposalChunkDataSize + data.length) := by
    have htaken : (m.signedData.drop serializedSize).take (chunkSizeAt b m.chunkI) = data := by
      rw [hsigned, drop_left' (writeTo_length hdr), chunkSizeAt, ← hdata,
        take_length]
    rw [← hd', store_proposal]
    show b.proposal.take _ ++ _ ++ b.proposal.drop (_ + _) = _
    rw [htaken]
  have hchunks := chunkData_splice hlt hdata
  rw [← hproposal] at hchunks
  have hself : chunkData d'.proposal m.chunkI = data := by rw [hchunks, if_pos rfl]
  refine ⟨?_, hself, hid', fun j hj => ?_⟩
  · rw [RoundData.chunkBytes, hself, hsigned,
      hformed.writeTo_chunkHdr hread (hkey'.trans hkey) ⟨hlength.trans hsize, hid', hround⟩]
  · have hother : chunkData d'.proposal j = chunkData b.proposal j := by rw [hchunks, if_neg hj]
    refine ⟨hother, fun hsame => ?_⟩
    obtain ⟨hheight', hround'⟩ := Prod.mk.inj hkey'
    rw [RoundData.chunkBytes, RoundData.chunkBytes, hother, RoundData.chunkHdr, RoundData.chunkHdr, hlength, hheight',
      hround', hround, hid', hsame.2.1, hsame.2.2]

/-! ### The records of a node -/

/-- The message is a chunk that `broadcast` signs with the node's key, in this life of the node or an earlier one. -/
def OwnBroadcast (P : Params) (values : Set BlockValue) (s : TMState) (m : Msg) : Prop :=
  m.sig = P.sign s.mySigningKey m.signedData ∧
    ∃ hdr data, Broadcast P values hdr data ∧ (Signed.chunk hdr data).Covers m

/-- What a record needs of a chunk from others. -/
structure ChunkHeard (P : Params) (values : Set BlockValue) (s : TMState) (m : Msg) (key : PubKeyID) : Prop where
  sig : m.sig ≠ TMSig.nil
  proposer : ∃ rosterI, proposerFromHeightRound P s.roster.members m.height m.round = .ok (some rosterI, key)
  formed : ∃ hdr data, ChunkFormed m hdr data
  own : key = s.myPubKey → OwnBroadcast P values s m

def ChunkSigned (P : Params) (values : Set BlockValue) (s : TMState) (d : RoundData) (i : ℕ) (sig : TMSig) : Prop :=
  ∃ rosterI key, proposerFromHeightRound P s.roster.members d.height d.round = .ok (some rosterI, key) ∧
    P.verify sig key (d.chunkBytes i) = true ∧
      (key = s.myPubKey → sig = P.sign s.mySigningKey (d.chunkBytes i) ∧
        ∃ value ∈ values, idFromValue P value = d.proposalId ∧ chunkData d.proposal i = chunkData value i)

structure ChunkRecord (P : Params) (values : Set BlockValue) (s : TMState) (d : RoundData) : Prop where
  proposal : ProposalOk P d
  fresh : d.proposalSigsN = 0 → d.proposalId = ValueId.nil
  size : d.proposal.length < 2 ^ 32
  roster : d.roster = s.roster.members ∨ d.roster = s.active
  signed : ∀ i sig, d.proposalSigs[i]? = some sig → sig ≠ TMSig.nil → ChunkSigned P values s d i sig

variable {values : Set BlockValue} {key : PubKeyID}

theorem Signed.Covers.data_eq (h : (Signed.chunk hdr data).Covers m) (h' : (Signed.chunk hdr' data').Covers m) :
    data = data' :=
  (append_inj (h.2.1.symm.trans h'.2.1) (by simp)).2

theorem ChunkSigned.own_eq (hinj : values.InjOn (idFromValue P)) (h : ChunkSigned P values s d m.chunkI sig)
    (hm : ChunkHeard P values s m key) (hme : key = s.myPubKey) (hkey : d.key = (m.height, m.round))
    (hread : PacketProposalChunkHeader.readFrom m.signedData = some (hdr₀, rest)) (hsame : SameProposal m hdr₀ d) :
    sig = m.sig := by
  obtain ⟨hsig, hdr, data, hcast, hcovers⟩ := hm.own hme
  have hformed := hcast.formed hcovers
  obtain ⟨value', hvalue', -, validRound, hhdr, hdata⟩ := hcast
  obtain ⟨rosterI, key₁, hproposer, -, hown⟩ := h
  obtain ⟨rosterI', hproposer'⟩ := hm.proposer
  obtain ⟨hheight, hround⟩ := Prod.mk.inj hkey
  rw [hheight, hround, hproposer'] at hproposer
  obtain ⟨hsig₁, value, hvalue, hid, hchunk⟩ := hown ((congrArg Prod.snd (Except.ok.inj hproposer)).symm.trans hme)
  have hid' : idFromValue P value' = d.proposalId := by
    rw [hsame.2.1, hcovers.2.2.2.2.2.1, hhdr]
    rfl
  obtain rfl := hinj hvalue hvalue' (hid.trans hid'.symm)
  rw [hsig₁, hsig, RoundData.chunkBytes, hformed.writeTo_chunkHdr hread hkey hsame, hchunk, hcovers.2.1, hdata,
    hcovers.2.2.2.2.1]
  rfl

theorem ChunkBase.announced (h : ChunkBase s.roster isMyProposal m hdr d b)
    (hfresh : d.proposalSigsN = 0 → d.proposalId = ValueId.nil) :
    b.proposal.length = hdr.proposalSize ∧ (b.proposalId = ValueId.nil ∨ b.proposalId = m.valueId) ∧ b.key = d.key ∧
      (b.roster = d.roster ∨ b.roster = s.active) ∧
      ((∀ sig ∈ b.proposalSigs, sig = TMSig.nil) ∨ b = d ∧ SameProposal m hdr d) := by
  cases h with
  | same _ hsame => exact ⟨hsame.1, .inr hsame.2.1, rfl, .inl rfl, .inr ⟨rfl, hsame⟩⟩
  | flushed => exact ⟨length_replicate, .inr rfl, rfl, .inr rfl, .inl fun _ h => eq_of_mem_replicate h⟩
  | first hn => exact ⟨length_replicate, .inl (hfresh hn), rfl, .inl rfl, .inl fun _ h => eq_of_mem_replicate h⟩

theorem store_roster (P : Params) (R : SortedRoster) (b : RoundData) (m : Msg) :
    (checkFullProposal P (adopt R (withChunk m b) m.valueId)).1.roster = b.roster := by
  unfold checkFullProposal adopt
  split_ifs <;> rfl

theorem ChunkRecord.store_signed (hd : ChunkRecord P values s d) (hshape : Shape s.roster d)
    (hkey : d.key = (m.height, m.round)) (hverify : P.verify m.sig key m.signedData = true)
    (hm : ChunkHeard P values s m key) (hread : PacketProposalChunkHeader.readFrom m.signedData = some (hdr, rest))
    (hbase : ChunkBase s.roster isMyProposal m hdr d b) (hnew : b.proposalSigs[m.chunkI]? = some TMSig.nil)
    (hlen : PacketProposalChunkHeader.serializedSize + chunkSizeAt b m.chunkI ≤ m.signedData.length)
    (hd' : (checkFullProposal P (adopt s.roster (withChunk m b) m.valueId)).1 = d') :
    ∀ i sig, d'.proposalSigs[i]? = some sig → sig ≠ TMSig.nil → ChunkSigned P values s d' i sig := by
  obtain ⟨hsize, hid, hbkey, -, hold⟩ := hbase.announced hd.fresh
  obtain ⟨hdr₁, data, hformed⟩ := hm.formed
  obtain ⟨hbytes, hdata, hid', hothers⟩ :=
    store_chunkBytes (hbase.shape hshape) hformed hread hsize (hbkey.trans hkey) hid hnew hlen hd'
  have hkey' : d'.key = d.key := by
    rw [← hd', (checkFullProposal_frame P _).1, (adopt_frame s.roster _ _).1]
    exact hbkey
  obtain ⟨hheight', hround'⟩ := Prod.mk.inj hkey'
  intro i sig hi hne
  rw [(store_frame (hbase.shape hshape) hnew hlen hd').2.1, getElem?_set] at hi
  split_ifs at hi with hself hlt
  · obtain rfl := Option.some.inj hi
    subst hself
    obtain ⟨rosterI, hproposer⟩ := hm.proposer
    obtain ⟨hheight, hround⟩ := Prod.mk.inj hkey
    refine ⟨rosterI, key, by rw [hheight', hround', hheight, hround, hproposer], by rw [hbytes, hverify], fun hme => ?_⟩
    obtain ⟨hsig, hdr₂, data₂, ⟨value, hvalue, -, validRound, hhdr₂, hdata₂⟩, hcovers⟩ := hm.own hme
    refine ⟨by rw [hbytes, hsig], value, hvalue, ?_, ?_⟩
    · rw [hid', hcovers.2.2.2.2.2.1, hhdr₂]
      rfl
    · rw [hdata, hformed.covers.data_eq hcovers, hdata₂, hcovers.2.2.2.2.1]
      rfl
  · rcases hold with hnil | ⟨rfl, hsame⟩
    · exact absurd (hnil sig (mem_of_getElem? hi)) hne
    · obtain ⟨hchunk, hsameBytes⟩ := hothers i (Ne.symm hself)
      obtain ⟨rosterI, key₁, hproposer, hverify₁, hown⟩ := hd.signed i sig hi hne
      refine ⟨rosterI, key₁, by rw [hheight', hround', hproposer], by rw [hsameBytes hsame, hverify₁], fun hme => ?_⟩
      obtain ⟨hsig, value, hvalue, hvid, hvchunk⟩ := hown hme
      exact ⟨by rw [hsameBytes hsame, hsig], value, hvalue, by rw [hvid, hid', hsame.2.1], by rw [hchunk, hvchunk]⟩

theorem ChunkRecord.step {member : SortedRosterMember} (hinj : values.InjOn (idFromValue P))
    (hd : ChunkRecord P values s d) (hshape : Shape s.roster d) (hkey : d.key = (m.height, m.round))
    (hverify : P.verify m.sig member.pubKey m.signedData = true)
    (hm : m.packetType = packetTypeProposalChunk → ChunkHeard P values s m member.pubKey)
    (hstep : RecordStep P s.roster (member.pubKey = s.myPubKey) m d d') : ChunkRecord P values s d' := by
  have hproposal := hd.proposal.step hstep fun htype => (hm htype).sig
  cases hstep with
  | same => exact hd
  | vote => exact ⟨hproposal, hd.fresh, hd.size, hd.roster, hd.signed⟩
  | store htype hdr rest hread b hbase hnew hlen =>
    obtain ⟨hlength, -, hn, -⟩ := store_frame (P := P) (hbase.shape hshape) hnew hlen rfl
    obtain ⟨hsize, -, -, hroster, -⟩ := hbase.announced hd.fresh
    refine ⟨hproposal, fun hzero => ?_, ?_, ?_,
      hd.store_signed hshape hkey hverify (hm htype) hread hbase hnew hlen rfl⟩
    · exact absurd (hn.symm.trans hzero) (Nat.succ_ne_zero _)
    · rw [hlength, hsize]
      exact (PacketProposalChunkHeader.readFrom_eq_some.mp hread).1.proposalSize
    · rw [store_roster]
      rcases hroster with h | h
      · rw [h]
        exact hd.roster
      · exact .inr h
  | flush htype hdr rest hread hmine hn hsame old hold hne hdiff =>
    exact absurd ((hd.signed _ old hold hne).own_eq hinj (hm htype) (of_decide_eq_true hmine) hkey hread hsame) hdiff
  | faulty => exact ⟨hproposal, hd.fresh, hd.size, hd.roster, hd.signed⟩

theorem proposerFromHeightRound_ne_nil {height round : ℕ}
    (h : proposerFromHeightRound P roster height round = .ok (o, key)) (hne : key ≠ PubKeyID.nil) :
    ∃ rosterI, o = some rosterI := by
  cases o with
  | some rosterI => exact ⟨rosterI, rfl⟩
  | none =>
    unfold proposerFromHeightRound at h
    split_ifs at h
    · exact absurd (congrArg Prod.snd (Except.ok.inj h)).symm hne
    · obtain ⟨last, -, h⟩ := bind_eq_ok.mp h
      dsimp only at h
      split_ifs at h
      · exact absurd (congrArg Prod.snd (Except.ok.inj h)).symm hne
      · obtain ⟨member, -, h⟩ := bind_eq_ok.mp h
        cases h

section Moves

variable {wraps : Prop} {Heard : Msg → PubKeyID → Prop}

theorem ChunkRecord.emptyRound (P : Params) (values : Set BlockValue) (s : TMState) (round : ℕ) :
    ChunkRecord P values s (emptyRound s.height round s.roster.members) where
  proposal := .emptyRound P _ _ _
  fresh _ := rfl
  size := (by decide : 0 < 2 ^ 32)
  roster := .inl rfl
  signed _ _ hi := absurd (mem_of_getElem? hi) not_mem_nil

theorem ChunkRecord.of_eq (hd : ChunkRecord P values s d) (hroster : s'.roster = s.roster)
    (hme : s'.myPubKey = s.myPubKey ∧ s'.mySigningKey = s.mySigningKey) : ChunkRecord P values s' d := by
  refine ⟨hd.proposal, hd.fresh, hd.size, ?_, ?_⟩
  · rw [TMState.active, hroster]
    exact hd.roster
  · unfold ChunkSigned
    rw [hroster, hme.1, hme.2]
    exact hd.signed

theorem RecordMove.chunkRecord (h : RecordMove P Heard s d d') (hinj : values.InjOn (idFromValue P))
    (hd : ChunkRecord P values s d) (hshape : Shape s.roster d)
    (hheard : ∀ m key, Heard m key → m.packetType = packetTypeProposalChunk → m.height = s.height →
      ChunkHeard P values s m key)
    (hsigned : ∀ hdr data, Signed.chunk hdr data ∈ s.signed → Broadcast P values hdr data)
    (hsign : ∀ data, P.sign s.mySigningKey data ≠ TMSig.nil) (hkey : s.myPubKey ≠ PubKeyID.nil) :
    ChunkRecord P values s d' := by
  cases h with
  | same => exact hd
  | heard _ m member hdkey hheight _ hmember hverify hformed hsource hstep =>
    refine hd.step hinj hshape (by rw [hdkey, hheight]) hverify (fun htype => ?_) hstep
    rcases hsource with h | ⟨hme, hsig, e, he, hcovers⟩
    · exact hheard m _ h htype hheight
    · obtain ⟨hdr, data, rfl⟩ := Signed.covers_chunk hcovers htype
      obtain ⟨o, hproposer⟩ := hformed.chunk htype
      obtain ⟨rosterI, rfl⟩ := proposerFromHeightRound_ne_nil hproposer (hme ▸ hkey)
      have hcast := hsigned hdr data he
      exact ⟨hsig ▸ hsign _, ⟨rosterI, hproposer⟩, ⟨hdr, data, hcast.formed hcovers⟩,
        fun _ => ⟨hsig, hdr, data, hcast, hcovers⟩⟩
  | checked verdict hopen hverdict =>
    have hproposal : ProposalOk P { d with proposalCheckedValidity := verdict } :=
      (RecordMove.checked verdict hopen hverdict : RecordMove P (fun _ _ => False) s d _).proposalOk hd.proposal
        (fun _ _ h => h.elim) hsign
    exact ⟨hproposal, hd.fresh, hd.size, hd.roster, hd.signed⟩
  | timed t triggered ht =>
    exact ⟨⟨hd.proposal.seen, hd.proposal.hash, hd.proposal.pass⟩, hd.fresh, hd.size, hd.roster, hd.signed⟩

/-! ### Records of any height -/

/-- The chunks of the record can be passed on, and the record has its proper shape. -/
structure Passable (P : Params) (d : RoundData) : Prop extends ChunksKept P d where
  size : d.proposal.length < 2 ^ 32
  sigs : d.proposalSigs.length = chunksN d.proposal
  roster : ∃ R : SortedRoster, d.roster = R.members ∨ d.roster = R.included.members

/-- What a node knows of all its records. -/
structure Keeping (P : Params) (values : Set BlockValue) (s : TMState) : Prop where
  current : ∀ d ∈ s.roundsData, d.height = s.height → ChunkRecord P values s d
  past : ∀ d ∈ s.roundsData, d.height ≠ s.height → Passable P d
  cached : ∀ d ∈ s.recentCommitRoundCache, Passable P d

theorem ChunkRecord.passable (hd : ChunkRecord P values s d) (hshape : Shape s.roster d) : Passable P d where
  signed i sig hi hne := by
    obtain ⟨rosterI, key, hproposer, hverify, -⟩ := hd.signed i sig hi hne
    refine ⟨rosterI, key, ?_, hverify⟩
    rcases hd.roster with h | h
    · rw [h, hproposer]
    · rw [h, ← hproposer]
      exact proposerFromHeightRound_included s.roster d.height d.round
  count := hd.proposal.seen
  hash := hd.proposal.hash
  size := hd.size
  sigs := hshape.sigs
  roster := ⟨s.roster, hd.roster⟩

theorem Keeping.known (h : Keeping P values s) : Known (ChunkRecord P values s) (Passable P) s :=
  ⟨h.current, h.past, h.cached⟩

theorem Keeping.passable (h : Keeping P values s) (hs : Wf s) :
    ∀ d, d ∈ s.roundsData ∨ d ∈ s.recentCommitRoundCache → Passable P d :=
  fun _ => h.known.all fun d hd hheight hrecord => hrecord.passable (hs.shape d hd hheight)

theorem RecordMove.passable (h : RecordMove P Heard s d d') (hheight : d.height ≠ s.height) (hd : Passable P d) :
    Passable P d' := by
  cases h with
  | same => exact hd
  | heard _ m member hkey => exact absurd (congrArg Prod.fst hkey) hheight
  | checked => exact ⟨⟨hd.signed, hd.count, hd.hash⟩, hd.size, hd.sigs, hd.roster⟩
  | timed => exact ⟨⟨hd.signed, hd.count, hd.hash⟩, hd.size, hd.sigs, hd.roster⟩

theorem Move.keeping (h : Move P wraps Heard s s') (hs : Wf s) (hinj : values.InjOn (idFromValue P))
    (hI : Keeping P values s)
    (hheard : ∀ m key, Heard m key → m.packetType = packetTypeProposalChunk → m.height = s.height →
      ChunkHeard P values s m key)
    (hsigned : ∀ hdr data, Signed.chunk hdr data ∈ s.signed → Broadcast P values hdr data)
    (hsign : ∀ data, P.sign s.mySigningKey data ≠ TMSig.nil) (hkey : s.myPubKey ≠ PubKeyID.nil) :
    Keeping P values s' := by
  have hknown : Known (ChunkRecord P values s') (Passable P) s' := by
    refine h.known hs hI.known (fun d hd hheight hrecord => hrecord.passable (hs.shape d hd hheight))
      (fun d d' hheight hd hmove => hmove.passable hheight hd) fun hroster => ⟨fun round => ?_, ?_⟩
    · exact (ChunkRecord.emptyRound P values s round).of_eq hroster h.identity
    · intro d d' hd hheight hrecord hmove
      exact (hmove.chunkRecord hinj hrecord (hs.shape d hd hheight) hheard hsigned hsign hkey).of_eq hroster h.identity
  exact ⟨hknown.current, hknown.past, hknown.cached⟩

theorem Moves.same_roster (h : Moves P wraps Heard s s') :
    (s'.height = s.height ∧ s'.roster = s.roster) ∨ s.height < s'.height := by
  induction h with
  | refl => exact .inl ⟨rfl, rfl⟩
  | tail _ hmove ih =>
    rcases hmove.height_cases with ⟨hh, hr⟩ | ⟨hh, -⟩
    · rw [hh, hr]
      exact ih
    · refine .inr ?_
      rcases ih with ⟨ih, -⟩ | ih <;> omega

theorem ChunkHeard.of_eq (h : ChunkHeard P values s m key) (hroster : s'.roster = s.roster)
    (hme : s'.myPubKey = s.myPubKey ∧ s'.mySigningKey = s.mySigningKey) : ChunkHeard P values s' m key := by
  refine ⟨h.sig, ?_, h.formed, ?_⟩
  · rw [hroster]
    exact h.proposer
  · unfold OwnBroadcast
    rw [hme.1, hme.2]
    exact h.own

theorem Moves.keeping (h : Moves P True Heard s s') (hs : Inv P True s) (hinj : values.InjOn (idFromValue P))
    (hI : Keeping P values s)
    (hheard : ∀ m key, Heard m key → m.packetType = packetTypeProposalChunk →
      m.height = s.height ∧ ChunkHeard P values s m key)
    (hsign : ∀ data, P.sign s.mySigningKey data ≠ TMSig.nil) (hkey : s.myPubKey ≠ PubKeyID.nil)
    (hsigned : ∀ hdr data, Signed.chunk hdr data ∈ s'.signed → Broadcast P values hdr data) : Keeping P values s' := by
  induction h with
  | refl => exact hI
  | @tail s₁ s₂ hmoves hmove ih =>
    have hbefore : ∀ hdr data, Signed.chunk hdr data ∈ s₁.signed → Broadcast P values hdr data :=
      fun hdr data hmem => hsigned hdr data (hmove.signed_subset hmem)
    obtain ⟨-, hme⟩ := Moves.signed_subset hmoves
    refine hmove.keeping (Moves.inv hmoves hs).wf hinj (ih hbefore) ?_ hbefore (by rw [hme.2]; exact hsign)
      (by rw [hme.1]; exact hkey)
    intro m key hm htype hheight
    obtain ⟨hheight₀, hchunk⟩ := hheard m key hm htype
    rcases Moves.same_roster hmoves with ⟨-, hroster⟩ | hlt
    · exact hchunk.of_eq hroster hme
    · omega

end Moves

/-! ### Sending -/

def chunkMessage (d : RoundData) (status : PacketStatus) (i : ℕ) (sig : TMSig) : List UInt8 :=
  writeHeaderAndStatus packetTypeProposalChunk status ++ d.chunkBytes i ++ sig.bytes.toList

theorem mem_storedChunks (h : (sig, i) ∈ d.storedChunks) :
    d.proposalSigs[i]? = some sig ∧ sig ≠ TMSig.nil := by
  obtain ⟨hmem, hne⟩ := mem_filter.mp h
  obtain ⟨hlt, hget⟩ := mem_zipIdx' hmem
  exact ⟨by rw [getElem?_eq_getElem hlt, hget], by simpa using hne⟩

theorem storedChunks_length (d : RoundData) : d.storedChunks.length = d.proposalSigs.countP fun sig => sig ≠ TMSig.nil := by
  rw [RoundData.storedChunks, ← countP_eq_length_filter]
  conv_rhs => rw [← zipIdx_map_fst 0 d.proposalSigs, countP_map]
  rfl

theorem sendChunk_eq_ok (hd : Passable P d)
    (hproposer : proposerFromHeightRound P d.roster d.height d.round = .ok (o, proposer)) (status : PacketStatus)
    (h : (sig, i) ∈ d.storedChunks) :
    sendChunk P d proposer status sig i = .ok (some (chunkMessage d status i sig)) := by
  obtain ⟨hstored, hne⟩ := mem_storedChunks h
  obtain ⟨rosterI, key, hkey, hverify⟩ := hd.signed i sig hstored hne
  obtain rfl : proposer = key := congrArg Prod.snd (Except.ok.inj (hproposer.symm.trans hkey))
  obtain ⟨size, hsize, hslice⟩ := chunk_slice (P := P) d.proposal (hd.sigs ▸ (List.getElem?_eq_some_iff.mp hstored).1)
  have hgood : (P.overflowChecks && !P.verify sig proposer (d.chunkBytes i)) = false := by
    rw [hverify, Bool.not_true, Bool.and_false]
  rw [RoundData.chunkBytes] at hgood
  simp only [sendChunk, hsize, ok_bind, hslice, hgood]
  rfl

theorem SortedRoster.proposer_ok (P : Params) (R : SortedRoster) (height round : ℕ) :
    ∃ o key, proposerFromHeightRound P R.members height round = .ok (o, key) := by
  rcases Nat.eq_zero_or_pos R.activeStake with hzero | hpos
  · exact ⟨_, _, proposerFromHeightRound_none (.inr hzero) _ _⟩
  · obtain ⟨m, -, hm⟩ := proposerFromHeightRound_eq (P := P) hpos height round
    exact ⟨_, _, hm⟩

theorem chunkMessages_eq_ok (hd : Passable P d) (statuses : ℕ → PacketStatus) :
    chunkMessages P statuses d = .ok (d.storedChunks.map fun (sig, i) => chunkMessage d (statuses i) i sig) := by
  obtain ⟨o, proposer, hproposer⟩ : ∃ o proposer, proposerFromHeightRound P d.roster d.height d.round = .ok (o, proposer) := by
    obtain ⟨R, hroster | hroster⟩ := hd.roster <;> rw [hroster] <;> exact SortedRoster.proposer_ok P _ _ _
  unfold chunkMessages
  rw [if_neg (Nat.not_le.mpr hd.size), hproposer]
  simp only [ok_bind]
  by_cases hzero : d.proposalSigsN = 0
  · have hnone : d.storedChunks = [] := by
      rw [← length_eq_zero_iff, storedChunks_length, ← hd.count, hzero]
    rw [if_pos hzero, hnone]
    rfl
  · have hsent := mapM_ok (l := d.storedChunks) fun a ha => sendChunk_eq_ok hd hproposer (statuses a.2) ha
    rw [if_neg hzero, hsent, ok_bind]
    show Except.ok (List.filterMap id (List.map _ _)) = _
    rw [filterMap_map]
    exact congrArg Except.ok (congrFun filterMap_eq_map _)

/-! ### Receiving -/

theorem PacketProposalChunkHeader.readFrom_written (h : PacketProposalChunkHeader) (rest : List UInt8) :
    ∃ hdr, PacketProposalChunkHeader.readFrom (h.writeTo ++ rest) = some (hdr, rest) ∧ hdr.writeTo = h.writeTo ∧
      hdr.chunkI = h.chunkI % 2 ^ 32 ∧ hdr.proposalSize = h.proposalSize % 2 ^ 32 ∧ hdr.round = h.round % 2 ^ 32 ∧
      hdr.height = h.height % 2 ^ 64 ∧ hdr.proposalId = h.proposalId := by
  obtain ⟨hdr, hread, hfields⟩ : ∃ hdr, readFrom (h.writeTo ++ rest) = some (hdr, rest) ∧
      hdr.chunkI = h.chunkI % 2 ^ 32 ∧ hdr.proposalSize = h.proposalSize % 2 ^ 32 ∧ hdr.round = h.round % 2 ^ 32 ∧
      hdr.height = h.height % 2 ^ 64 ∧ hdr.proposalId = h.proposalId := by
    unfold readFrom writeTo
    simp only [bind_eq_some, append_assoc, pure_eq_some]
    exact ⟨_, ⟨_, _, readLE_leBytes _ _ _, _, _, readLE_leBytes _ _ _, _, _, readLE_leBytes _ _ _, _, _,
      readLE_leBytes _ _ _, _, _, readLE_leBytes _ _ _, _, _, readBytes_eq_some.mpr rfl, rfl, rfl⟩, rfl, rfl, rfl, rfl, rfl⟩
  have hbytes := (readFrom_eq_some.mp hread).2
  exact ⟨hdr, hread, (append_inj hbytes (by simp)).1.symm, hfields⟩

/-- The message is a stored chunk of the record, read back from its packet. -/
structure ChunkCall (d : RoundData) (i : ℕ) (sig : TMSig) (rosterI : ℕ) (hdr : PacketProposalChunkHeader) (m : Msg) :
    Prop where
  covers : (Signed.chunk hdr (chunkData d.proposal i)).Covers m
  fits : hdr.Fits
  bytes : hdr.writeTo = (d.chunkHdr i).writeTo
  key : (hdr.height, hdr.round) = d.key
  chunkI : hdr.chunkI = i
  size : hdr.proposalSize = d.proposal.length
  valueId : hdr.proposalId = d.proposalId
  sender : m.rosterI = rosterI ∧ m.sig = sig

theorem deliveries_chunkMessage (hheight : d.height < 2 ^ 64) (hround : d.round < 2 ^ 32)
    (hsize : d.proposal.length < 2 ^ 32) (hi : i * proposalChunkDataSize < d.proposal.length)
    (hproposer : proposerFromHeightRound P roster d.height d.round = .ok (some rosterI, key)) (status : PacketStatus)
    (sig : TMSig) :
    ∃ hdr m, ChunkCall d i sig rosterI hdr m ∧ deliveries P roster (chunkMessage d status i sig) = .ok [m] := by
  obtain ⟨hdr, hread, hwritten, hchunkI, hsize', hround', hheight', hid⟩ :=
    (d.chunkHdr i).readFrom_written (chunkData d.proposal i ++ sig.bytes.toList)
  have hismall : i < 2 ^ 32 := by
    unfold proposalChunkDataSize at hi
    omega
  rw [show (d.chunkHdr i).chunkI = i from rfl, Nat.mod_eq_of_lt hismall] at hchunkI
  rw [show (d.chunkHdr i).proposalSize = d.proposal.length from rfl, Nat.mod_eq_of_lt hsize] at hsize'
  rw [show (d.chunkHdr i).round = d.round from rfl, Nat.mod_eq_of_lt hround] at hround'
  rw [show (d.chunkHdr i).height = d.height from rfl, Nat.mod_eq_of_lt hheight] at hheight'
  rw [← append_assoc] at hread
  change PacketProposalChunkHeader.readFrom (d.chunkBytes i ++ sig.bytes.toList) = _ at hread
  have hstart : (writeHeaderAndStatus packetTypeProposalChunk status).length = 44 := by
    simp [writeHeaderAndStatus, PacketHeader.writeTo, PacketStatus.writeTo]
  have hbytes : (d.chunkBytes i).length = PacketProposalChunkHeader.serializedSize +
      min proposalChunkDataSize (d.proposal.length - i * proposalChunkDataSize) := by
    rw [RoundData.chunkBytes, length_append, PacketProposalChunkHeader.writeTo_length, chunkData_length]
  have hlen : (chunkMessage d status i sig).length =
      min proposalChunkDataSize (d.proposal.length - i * proposalChunkDataSize) + proposalPacketExtra := by
    rw [chunkMessage, length_append, length_append, hstart, hbytes, List.Vector.toList_length,
      PacketProposalChunkHeader.serializedSize, proposalPacketExtra]
    omega
  have hdrop : (chunkMessage d status i sig).drop 44 = d.chunkBytes i ++ sig.bytes.toList := by
    rw [chunkMessage, append_assoc]
    exact drop_left' hstart
  have hslice : slice (chunkMessage d status i sig) 44 (44 + PacketProposalChunkHeader.serializedSize +
      min proposalChunkDataSize (d.proposal.length - i * proposalChunkDataSize)) = .ok (d.chunkBytes i) := by
    rw [slice_ok (by omega) (by rw [hlen, PacketProposalChunkHeader.serializedSize, proposalPacketExtra]; omega), hdrop,
      Nat.add_assoc, Nat.add_sub_cancel_left, ← hbytes]
    exact congrArg Except.ok take_left
  have hsig : readBytes 64 ((chunkMessage d status i sig).drop (44 + PacketProposalChunkHeader.serializedSize +
      min proposalChunkDataSize (d.proposal.length - i * proposalChunkDataSize))) = some (sig.bytes, []) := by
    rw [readBytes_eq_some, Nat.add_assoc, ← hbytes, ← drop_drop, hdrop, drop_left, append_nil]
  have hmsg : chunkMsg P roster packetTypeProposalChunk (chunkMessage d status i sig) 44 = .ok (some
      ⟨d.height, d.round, i, d.proposalId, hdr.validRound, rosterI, packetTypeProposalChunk, d.chunkBytes i, sig⟩) := by
    unfold chunkMsg
    rw [hdrop, hread]
    simp only [hchunkI, hsize', hround', hheight', hid, subU_ok hi.le, ok_bind, if_pos hlen, hproposer, hslice, hsig]
    rfl
  have hcovers : (Signed.chunk hdr (chunkData d.proposal i)).Covers
      ⟨d.height, d.round, i, d.proposalId, hdr.validRound, rosterI, packetTypeProposalChunk, d.chunkBytes i, sig⟩ :=
    ⟨rfl, by rw [hwritten]; rfl, hheight'.symm, hround'.symm, hchunkI.symm, hid.symm, rfl⟩
  have hfits := (PacketProposalChunkHeader.readFrom_eq_some.mp hread).1
  refine ⟨hdr, _, ⟨hcovers, hfits, hwritten, by rw [hheight', hround']; rfl, hchunkI, hsize', hid, rfl, rfl⟩, ?_⟩
  obtain ⟨status', hheader⟩ := readHeaderAndMaybeStatus_written (show packetTypeProposalChunk < 128 by decide) status
    (d.chunkBytes i ++ sig.bytes.toList)
  rw [← append_assoc] at hheader
  change readHeaderAndMaybeStatus (chunkMessage d status i sig) = _ at hheader
  have hne : (chunkMessage d status i sig).length ≠ 0 := by
    rw [hlen, proposalPacketExtra]
    omega
  have htype : PacketHeader.type_ ⟨packetTypeProposalChunk ||| packetTagStatusFlag⟩ = packetTypeProposalChunk := by decide
  unfold deliveries
  rw [if_neg hne, hheader]
  simp only [htype, if_true, hmsg, ok_bind]
  rfl

/-- A node at the height of the record, with the same included members, that has seen no chunk of the round. -/
structure Fresh (d : RoundData) (t : TMState) : Prop where
  wf : Wf t
  height : t.height = d.height
  roster : t.active = d.roster.take (activeRosterLen d.roster)
  unseen : ∀ e ∈ t.roundsData, e.key = d.key → e.proposalSigsN = 0 ∧ e.proposalId = ValueId.nil

theorem Fresh.proposer (ht : Fresh d t) (hd : Passable P d) (height round : ℕ) :
    proposerFromHeightRound P t.roster.members height round = proposerFromHeightRound P d.roster height round := by
  have hroster : t.roster.included.members = _ := ht.roster
  rw [← proposerFromHeightRound_included t.roster, hroster]
  obtain ⟨R, h | h⟩ := hd.roster
  · rw [h]
    exact proposerFromHeightRound_included R height round
  · rw [h]
    exact proposerFromHeightRound_included R.included height round

/-- A node has the chunk of another node's record in its own record of the round. -/
def Took (d : RoundData) (i : ℕ) (sig : TMSig) (t : TMState) : Prop :=
  ∃ e ∈ t.roundsData, e.key = d.key ∧ e.proposalSigs[i]? = some sig ∧ e.chunkBytes i = d.chunkBytes i

theorem chunkData_zero (h : chunksN value = 1) : chunkData value 0 = value := by
  rw [chunkData, Nat.zero_mul, drop_zero]
  apply take_of_length_le
  unfold chunksN chunksNOfSize at h
  unfold proposalChunkDataSize at h ⊢
  omega

theorem checkFullProposal_cases (h : checkFullProposal P d = (d', status)) :
    status = .pass ∨ (d'.proposalSigsN = d'.proposalSigs.length ∧ d'.proposalId ≠ idFromValue P d'.proposal) := by
  unfold checkFullProposal at h
  split_ifs at h with hfail
  · obtain ⟨rfl, rfl⟩ := Prod.mk.inj h
    exact .inr hfail
  · obtain ⟨rfl, rfl⟩ := Prod.mk.inj h
    exact .inl rfl

theorem Passable.hash_of_one (hd : Passable P d) (hi : d.proposalSigs[i]? = some sig) (hne : sig ≠ TMSig.nil)
    (hone : chunksN d.proposal = 1) (hfaulty : d.proposalIsFaulty = false) :
    i = 0 ∧ idFromValue P d.proposal = d.proposalId := by
  have hlen := hd.sigs.trans hone
  obtain ⟨only, honly⟩ := List.length_eq_one_iff.mp hlen
  have hzero : i = 0 := by
    have hlt := (List.getElem?_eq_some_iff.mp hi).1
    omega
  subst hzero
  rw [honly, List.getElem?_cons_zero, Option.some.injEq] at hi
  have hn : d.proposalSigsN = 1 := by
    rw [hd.count, honly, List.countP_singleton, hi]
    simp [hne]
  exact ⟨rfl, hd.hash (hasFullProposal_iff.mpr ⟨by omega, by omega⟩) hfaulty⟩

theorem incorporate_unseen (seen isMyProposal : Bool) (hd : Passable P d) (hi : d.proposalSigs[i]? = some sig)
    (hne : sig ≠ TMSig.nil) (he : Shape R e) (hn : e.proposalSigsN = 0) (hid : e.proposalId = ValueId.nil)
    (hkey : e.key = d.key) (hm : ChunkCall d i sig rosterI hdr m) :
    ∃ status e', incorporate P R.members seen isMyProposal m e = .ok (e', status) ∧
      (d.proposalIsFaulty = false → status = .pass) ∧ e'.key = d.key ∧ e'.proposalSigs[i]? = some sig ∧
      e'.chunkBytes i = d.chunkBytes i := by
  obtain ⟨hkind, hsigned, hheight, hround, hchunkI, hvalueId, hvalidRound⟩ := hm.covers
  rw [hm.chunkI] at hchunkI
  have hread : PacketProposalChunkHeader.readFrom m.signedData = some (hdr, chunkData d.proposal i) :=
    PacketProposalChunkHeader.readFrom_eq_some.mpr ⟨hm.fits, hsigned⟩
  have hlt := (List.getElem?_eq_some_iff.mp hi).1
  rw [hd.sigs] at hlt
  have hoff := (lt_chunksN_iff _ _).mp hlt
  generalize hb : e.resetProposal hdr.proposalSize = b
  have hbase : chunkBase R isMyProposal m hdr e = some b := by
    rw [chunkBase, if_neg (by omega), hb]
  have hshape : Shape R b := he.chunkBase hbase
  have hblen : b.proposal.length = hdr.proposalSize := by
    rw [← hb]
    exact length_replicate
  have hbsigs : b.proposalSigs.length = chunksN d.proposal := by
    rw [hshape.sigs, chunksN, chunksN, hblen, hm.size]
  have hnew : b.proposalSigs[m.chunkI]? = some TMSig.nil := by
    obtain ⟨sig', hget⟩ : ∃ sig', b.proposalSigs[m.chunkI]? = some sig' :=
      ⟨_, getElem?_eq_getElem (by rw [hbsigs, hchunkI]; exact hlt)⟩
    have hnil : sig' = TMSig.nil := by
      rw [← hb] at hget
      exact getElem?_resetProposal hget
    rw [hget, hnil]
  have hlen : serializedSize + chunkSizeAt b m.chunkI ≤ m.signedData.length := by
    rw [hsigned, length_append, writeTo_length, chunkData_length, chunkSizeAt, hblen, hm.size,
      hchunkI]
  have hformed : ChunkFormed m hdr (chunkData d.proposal i) := by
    refine ⟨hm.covers, fun _ => ?_⟩
    rw [chunkData_length, hm.size, Nat.mod_eq_of_lt hd.size, hm.chunkI]
  have hmkey : b.key = (m.height, m.round) := by
    rw [hheight, hround, hm.key, ← hkey, ← hb]
    rfl
  have hrun : incorporate P R.members seen isMyProposal m e =
      .ok (checkFullProposal P (adopt R (withChunk m b) m.valueId)) := by
    rw [incorporate, if_pos hkind, incorporateChunk_eq (.inr hn) hread, hbase]
    refine (storeChunk_eq hshape (by rw [hbsigs, hchunkI]; exact hlt) hlen).trans ?_
    rw [storeResult, if_pos hnew]
  rcases hres : checkFullProposal P (adopt R (withChunk m b) m.valueId) with ⟨e', status⟩
  rw [hres] at hrun
  have he' : (checkFullProposal P (adopt R (withChunk m b) m.valueId)).1 = e' := congrArg Prod.fst hres
  obtain ⟨hlength, hsigs, hcount, -⟩ := store_frame hshape hnew hlen he'
  obtain ⟨hbytes, hdata, hvalue, -⟩ :=
    store_chunkBytes hshape hformed hread hblen hmkey (.inl (by rw [← hb]; exact hid)) hnew hlen he'
  rw [hchunkI] at hbytes hdata hsigs
  refine ⟨status, e', hrun, fun hfaulty => ?_, ?_, ?_, ?_⟩
  · refine (checkFullProposal_cases hres).resolve_right fun hfail => ?_
    have hone : chunksN d.proposal = 1 := by
      rw [hcount, hsigs, length_set, hbsigs] at hfail
      have hzero : b.proposalSigsN = 0 := by
        rw [← hb]
        exact hn
      omega
    obtain ⟨rfl, hhash⟩ := hd.hash_of_one hi hne hone hfaulty
    have hone' : chunksN e'.proposal = 1 := by rw [← hone, chunksN, chunksN, hlength, hblen, hm.size]
    rw [chunkData_zero hone, chunkData_zero hone'] at hdata
    rw [hvalue, hvalueId, hm.valueId, hdata, hhash] at hfail
    exact hfail.2 rfl
  · rw [← he', (checkFullProposal_frame P _).1, (adopt_frame R _ _).1, ← hkey, ← hb]
    rfl
  · rw [hsigs, getElem?_set_self (by rw [hbsigs]; exact hlt), hm.sender.2]
  · rw [hbytes, hsigned, hm.bytes]
    rfl

theorem checkAndIncorporateMsg_fresh (hd : Passable P d) (hi : d.proposalSigs[i]? = some sig) (hne : sig ≠ TMSig.nil)
    (hproposer : proposerFromHeightRound P d.roster d.height d.round = .ok (some rosterI, key))
    (hverify : P.verify sig key (d.chunkBytes i) = true) (ht : Fresh d t) (hm : ChunkCall d i sig rosterI hdr m) :
    ∃ status t', checkAndIncorporateMsg P m t = .ok status t' ∧ Took d i sig t' ∧
      (d.proposalIsFaulty = false → status = .pass) := by
  obtain ⟨hkind, hsigned, hheight, hround, -⟩ := hm.covers
  obtain ⟨hdheight, hdround⟩ := Prod.mk.inj hm.key
  rw [← ht.proposer hd] at hproposer
  obtain ⟨member, hmember, rfl⟩ := proposerFromHeightRound_some hproposer
  have hactive : rosterI < activeRosterLen t.roster.members := proposer_active hproposer
  have hacc : Accepted P t m member := by
    refine ⟨by rw [hheight, hdheight, ht.height], by rw [hm.sender.1]; exact hactive, by rw [hm.sender.1, hmember], ?_⟩
    rw [hm.sender.2, hsigned, hm.bytes]
    exact hverify
  apply exists_of_wp
  refine checkAndIncorporateMsg_rule (fun hnone => absurd hacc (hnone member)) fun member' seen j t₁ e hacc' hfound => ?_
  have hekey : e.key = d.key := by
    rw [hfound.getElem?.2, ht.height, hround, hdround]
    rfl
  have hunseen : e.proposalSigsN = 0 ∧ e.proposalId = ValueId.nil := by
    cases hfound with
    | found j e he => exact ht.unseen e (mem_of_getElem? he) hekey
    | inserted => exact ⟨rfl, rfl⟩
  obtain ⟨status, e', hrun, hstatus, hkey', hsig', hbytes'⟩ :=
    incorporate_unseen seen (member'.pubKey = t.myPubKey) hd hi hne (hfound.shape ht.wf).1 hunseen.1 hunseen.2 hekey hm
  have hlt := (List.getElem?_eq_some_iff.mp hfound.getElem?.1).1
  refine ⟨fun r hr => ?_, fun error herror => ?_⟩
  · rw [hrun] at hr
    obtain rfl := Except.ok.inj hr
    exact ⟨⟨e', List.mem_set hlt e', hkey', hsig', hbytes'⟩, hstatus⟩
  · rw [hrun] at herror
    cases herror

/-- The record sends each stored chunk, and a fresh node takes what it sends. -/
def Regossips (P : Params) (d : RoundData) : Prop :=
  ∀ statuses, ∃ packets, chunkMessages P statuses d = .ok packets ∧ packets.length = d.proposalSigsN ∧
    ∀ packet ∈ packets, ∃ i sig, d.proposalSigs[i]? = some sig ∧ sig ≠ TMSig.nil ∧ ∀ t, Fresh d t →
      ∃ m status t', deliveries P t.roster.members packet = .ok [m] ∧ checkAndIncorporateMsg P m t = .ok status t' ∧
        receive P packet t = .ok () t' ∧ Took d i sig t' ∧ (d.proposalIsFaulty = false → status = .pass)

theorem Passable.regossips (hd : Passable P d) (hheight : d.height < 2 ^ 64) (hround : d.round < 2 ^ 32) :
    Regossips P d := by
  intro statuses
  refine ⟨_, chunkMessages_eq_ok hd statuses, by rw [length_map, storedChunks_length, hd.count], ?_⟩
  intro packet hpacket
  obtain ⟨⟨sig, i⟩, hmem, rfl⟩ := mem_map.mp hpacket
  obtain ⟨hi, hne⟩ := mem_storedChunks hmem
  obtain ⟨rosterI, key, hproposer, hverify⟩ := hd.signed i sig hi hne
  have hoff : i * proposalChunkDataSize < d.proposal.length := by
    rw [← lt_chunksN_iff, ← hd.sigs]
    exact (List.getElem?_eq_some_iff.mp hi).1
  refine ⟨i, sig, hi, hne, fun t ht => ?_⟩
  obtain ⟨hdr, m, hm, hdeliver⟩ := deliveries_chunkMessage hheight hround hd.size hoff
    ((ht.proposer hd _ _).trans hproposer) (statuses i) sig
  obtain ⟨status, t', hrun, htook, hstatus⟩ := checkAndIncorporateMsg_fresh hd hi hne hproposer hverify ht hm
  refine ⟨m, status, t', hdeliver, hrun, ?_, htook, hstatus⟩
  have hone : incorporateOne P m t = .ok () t' := by
    show (checkAndIncorporateMsg P m >>= fun _ => pure ()) t = _
    simp only [bind, EStateM.bind, hrun]
    rfl
  rw [receive_eq_calls hdeliver]
  show (incorporateOne P m >>= fun _ => pure PUnit.unit) t = _
  simp only [bind, EStateM.bind, hone]
  rfl

/-! ### Along a run -/

/-- No delivered chunk carries the all-zero signature, and those under the node's own key are signed by `broadcast`. -/
def CleanChunks (P : Params) (values : Set BlockValue) (s : TMState) (input : Input) : Prop :=
  ∀ m key, heardIn P s input m key → m.packetType = packetTypeProposalChunk →
    m.sig ≠ TMSig.nil ∧ (key = s.myPubKey → OwnBroadcast P values s m)

theorem CleanChunks.heard (h : CleanChunks P values s input) (m : Msg) (key : PubKeyID) (hm : heardIn P s input m key)
    (htype : m.packetType = packetTypeProposalChunk) :
    m.height = s.height ∧ ChunkHeard P values s m key := by
  obtain ⟨hsig, hown⟩ := h m key hm htype
  cases input with
  | tick now => exact hm.elim
  | recv packet =>
    obtain ⟨hcarries, member, hacc, rfl⟩ := hm
    refine ⟨hacc.height, ?_⟩
    cases hcarries with
    | chunk _ hheader hmsg =>
      rw [hheader] at hmsg
      obtain ⟨hdr, data, rest, left, pubKey, hread, hleft, hdata, -, hproposer, hcovers⟩ := chunkMsg_eq_some hmsg
      obtain ⟨member', hmember', rfl⟩ := proposerFromHeightRound_some hproposer
      obtain rfl : member = member' := Option.some.inj (hacc.here.symm.trans hmember')
      have hfits := (PacketProposalChunkHeader.readFrom_eq_some.mp hread).1
      refine ⟨hsig, ⟨m.rosterI, by rw [hcovers.2.2.1, hcovers.2.2.2.1, hproposer]⟩, ⟨hdr, data, hcovers, fun hlt => ?_⟩, hown⟩
      rw [Nat.mod_eq_of_lt hfits.proposalSize] at hlt ⊢
      rw [subU_ok hlt.le] at hleft
      rw [hdata, Except.ok.inj hleft]
    | vote _ hheader _ hmsg =>
      obtain ⟨-, -, -, -, -, hkind⟩ := voteMsg_eq_some hmsg
      rw [hkind] at htype
      rcases hheader with h | h <;> rw [h] at htype <;> cases htype

/-- In every run in which no chunk with the all-zero signature is delivered, all records, of the current height and of
decided ones, can be passed on. -/
theorem chunks_regossiped {cl : Closures} {mySigningKey : SigningKey} {roster : SortedRoster} {startup : List RoundData}
    {now₀ : Instant} (hinj : values.InjOn (idFromValue P)) (hsign : ∀ data, P.sign mySigningKey data ≠ TMSig.nil)
    (hkey : P.verificationKey mySigningKey ≠ PubKeyID.nil) (hstartup : ∀ d ∈ startup, Passable P d)
    (h : Reaches P cl (CleanChunks P values) (TMState.init P mySigningKey roster startup) now₀ (.ok () s))
    (hsigned : ∀ hdr data, Signed.chunk hdr data ∈ s.signed → Broadcast P values hdr data) :
    ∀ d, d ∈ s.roundsData ∨ d ∈ s.recentCommitRoundCache →
      ChunksKept P d ∧ (d.height < 2 ^ 64 → d.round < 2 ^ 32 → Regossips P d) := by
  have hinit : Keeping P values (TMState.init P mySigningKey roster startup) :=
    ⟨fun _ hd => absurd hd not_mem_nil, fun _ hd => absurd hd not_mem_nil, hstartup⟩
  obtain ⟨s', hs', hinv, hI⟩ := h.invariant True
    (I := fun s => s.mySigningKey = mySigningKey ∧ s.myPubKey = P.verificationKey mySigningKey ∧
      ((∀ hdr data, Signed.chunk hdr data ∈ s.signed → Broadcast P values hdr data) → Keeping P values s))
    (init_inv _ _ _) rfl (fun hfalse => absurd trivial hfalse)
    (fun s hmoves => by
      obtain ⟨-, hme⟩ := Moves.signed_subset hmoves
      exact ⟨hme.2, hme.1, hmoves.keeping (init_inv _ _ _) hinj hinit (fun _ _ hm => hm.elim) hsign hkey⟩)
    fun s input s' hok hinv hI hmoves => by
      obtain ⟨hgrown, hme⟩ := Moves.signed_subset hmoves
      refine ⟨hme.2.trans hI.1, hme.1.trans hI.2.1, fun hsigned => ?_⟩
      refine hmoves.keeping hinv hinj (hI.2.2 fun hdr data hmem => hsigned hdr data (hgrown _ hmem)) hok.heard
        (by rw [hI.1]; exact hsign) (by rw [hI.2.1]; exact hkey) hsigned
  cases hs'
  intro d hd
  have hpass := (hI.2.2 hsigned).passable hinv.wf d hd
  exact ⟨hpass.toChunksKept, hpass.regossips⟩

theorem cleanChunks_of_foreignChunk (s : TMState) (input : Input) (h : foreignChunk P s input = true) :
    CleanChunks P ∅ s input := by
  intro m key hm htype
  obtain ⟨hsig, hown⟩ := (cleanInput_of_foreignChunk s input h).2 m key hm htype
  refine ⟨hsig, fun hkey => ?_⟩
  cases input with
  | tick now => exact hm.elim
  | recv packet =>
    obtain ⟨hcarries, member, hacc, rfl⟩ := hm
    have hm := all_eq_true.mp h m hcarries.mem_carried
    simp only [htype, bne_self_eq_false, Bool.false_or, Bool.and_eq_true, bne_iff_ne, keyAt_eq hacc.here] at hm
    exact absurd hkey hm.2

def decidedNode : TMState :=
  endState (life (Params.sample true) (.idle minorityRoster) 0 (decidingInputs (Params.sample true))
    (minorityNode (Params.sample true)))

theorem chunks_regossiped_decidedNode :
    decidedNode.recentCommitRoundCache.map RoundData.proposalSigsN = [1] ∧
      ∀ d, d ∈ decidedNode.roundsData ∨ d ∈ decidedNode.recentCommitRoundCache → ChunksKept (Params.sample true) d ∧
        (d.height < 2 ^ 64 → d.round < 2 ^ 32 → Regossips (Params.sample true) d) := by
  have hreaches : Reaches (Params.sample true) (.idle minorityRoster) (CleanChunks (Params.sample true) ∅)
      (TMState.init (Params.sample true) (keyNo 3).bytes minorityRoster []) 0 (.ok () decidedNode) := by
    rw [decidedNode, ← eq_ok_of_isOk (by decide +kernel)]
    exact reaches_life_of cleanChunks_of_foreignChunk (by decide +kernel)
  have hvotes : decidedNode.signed = [.vote false 0 0 (idFromValue (Params.sample true) [7])] := by decide +kernel
  refine ⟨by decide +kernel, chunks_regossiped (Set.injOn_empty _) (sampleSign_ne_nil (by decide)) (by decide +kernel)
    (fun _ hd => absurd hd not_mem_nil) hreaches fun hdr data hmem => ?_⟩
  rw [hvotes] at hmem
  cases mem_singleton.mp hmem

/-- A proposer with a key of small order sends its chunk under the all-zero signature: the record counts it and holds no
signature, so the chunk is not passed on. -/
theorem zero_signature_counted :
    let P := Params.sample true
    let hdr := chunkHeader P 0 0 [7] (-1) 0
    let r := life P (.idle weakRoster) 0 [.recv (chunkPacket hdr [7] TMSig.nil)]
      (TMState.init P (keyNo 3).bytes weakRoster [])
    Reaches P (.idle weakRoster) (fun _ _ => True) (TMState.init P (keyNo 3).bytes weakRoster []) 0 r ∧ isOk r = true ∧
      (endState r).signed = [] ∧ ∃ d ∈ (endState r).roundsData, d.proposalSigsN = 1 ∧ d.storedChunks = [] ∧
        ¬ ChunksKept P d := by
  intro P hdr r
  have hrecord : (endState r).roundsData.map (fun d => (d.proposalSigsN, d.storedChunks)) = [(1, [])] := by decide +kernel
  obtain ⟨d, hd, heq⟩ := mem_map.mp (hrecord ▸ mem_singleton_self _)
  obtain ⟨hn, hnone⟩ := Prod.mk.inj heq
  refine ⟨reaches_life (fun _ _ => trivial) _ _ _, by decide +kernel, by decide +kernel, d, hd, hn, hnone, fun hkept => ?_⟩
  have hcount := hkept.count
  rw [← storedChunks_length, hnone, hn] at hcount
  cases hcount

end Crosslink.Tenderlink

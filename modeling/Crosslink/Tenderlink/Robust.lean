import Crosslink.Tenderlink.VoteBytes

/-!
# Packets that stop a node

Every number in a packet is chosen by its sender. Two checks are missing before any signature is looked
at (the chunk index against the proposal size, and the vote counts against the 18 slots), and two more
behind one: an empty chunk right after the last, and the round of a precommit. `Faulty` lists them, and
no other packet stops a node that has a roster.
-/

namespace Crosslink.Tenderlink

open Codec Fallible Search PacketProposalChunkHeader PacketVotes

/-- The build in which every arithmetic overflow is a panic. -/
def Params.checked (P : Params) : Params := { P with overflowChecks := true }

/-- The packet is handled without overflow or panic, and only dropped when it carries no message. -/
def Robust (P : Params) (packet : List UInt8) (s : TMState) : Prop :=
  ∃ s', receive P.checked packet s = .ok () s' ∧
    ((∀ m, ¬ Carries P.checked s.roster.members packet m) → s' = s)

/-- Another proposal of the round is recorded, and it is not the node's own. -/
def Clashes (s : TMState) (m : Msg) (hdr : PacketProposalChunkHeader) (member : SortedRosterMember) : Prop :=
  ∃ d ∈ s.roundsData, d.key = (s.height, m.round) ∧ 0 < d.proposalSigsN ∧ ¬ SameProposal m hdr d ∧
    member.pubKey ≠ s.myPubKey

/-- A chunk that starts behind the end of its proposal, or at the end and with a valid signature. -/
def ChunkFault (P : Params) (s : TMState) (packet : List UInt8) (readO : ℕ) : Prop :=
  ∃ hdr rest, PacketProposalChunkHeader.readFrom (packet.drop readO) = some (hdr, rest) ∧
    (hdr.proposalSize < hdr.chunkI * proposalChunkDataSize ∨
      hdr.proposalSize = hdr.chunkI * proposalChunkDataSize ∧
        ∃ m member, chunkMsg P.checked s.roster.members packetTypeProposalChunk packet readO = .ok (some m) ∧
          Accepted P.checked s m member ∧ ¬ Clashes s m hdr member)

/-- The sum of the vote counts does not fit a byte, or a nineteenth vote begins in the packet. -/
def TooManyVotes (fields : PacketVotes) (rest : List UInt8) : Prop :=
  2 ^ 8 ≤ fields.noVotesN + fields.yesVotesN ∨
    (PacketVotes.votesSize < fields.noVotesN + fields.yesVotesN ∧
      PacketVotes.votesSize * PacketVotes.voteSize + 2 ≤ rest.length)

/-- Too many votes, or a precommit of a known member in a round from `2^31` on. -/
def VotesFault (P : Params) (s : TMState) (packetType : ℕ) (packet : List UInt8) (readO : ℕ) : Prop :=
  ∃ fields rest, PacketVotes.readFields (packet.drop readO) = some (fields, rest) ∧
    (TooManyVotes fields rest ∨
      (packetType = packetTypePrecommitSignatures ∧ 2 ^ 31 ≤ fields.round ∧
        ∃ votes i vote, PacketVotes.readFrom P.checked (packet.drop readO) = .ok (some votes) ∧
          i < fields.noVotesN + fields.yesVotesN ∧ votes.votes[i]? = some vote ∧
            vote.rosterI < s.roster.members.length))

def Faulty (P : Params) (s : TMState) (packet : List UInt8) : Prop :=
  ∃ header status readO, readHeaderAndMaybeStatus packet = some (header, status, readO) ∧
    ((header.type_ = packetTypeProposalChunk ∧ ChunkFault P s packet readO) ∨
      ((header.type_ = packetTypePrevoteSignatures ∨ header.type_ = packetTypePrecommitSignatures) ∧
        VotesFault P s header.type_ packet readO))

variable {P : Params} {s : TMState} {R : SortedRoster} {m : Msg} {d : RoundData}
  {hdr : PacketProposalChunkHeader} {data : List UInt8}

/-! ### Chunks -/

theorem proposerFromHeightRound_ok (P : Params) (hne : roster ≠ []) (height round : ℕ) :
    ∃ r, proposerFromHeightRound P roster height round = .ok r := by
  have hpos : 0 < roster.length := List.length_pos_iff.mpr hne
  have hlast : activeRosterLen roster - 1 < roster.length := by
    unfold activeRosterLen
    omega
  have hmember : roster[activeRosterLen roster - 1]? = some roster[activeRosterLen roster - 1] := by simp [hlast]
  unfold proposerFromHeightRound
  rw [if_neg hpos.ne', getIdx_ok hmember]
  dsimp only [ok_bind]
  split
  · exact ⟨_, rfl⟩
  · rename_i htotal
    -- the last included member stops the search
    have hle := partitionPoint_le (p := fun m => decide (m.cumulativeStake ≤
      leNat ((P.proposerHash (leBytes 8 height ++ leBytes 4 round)).toList.take 8) %
        roster[activeRosterLen roster - 1].cumulativeStake)) hmember
      (decide_eq_false (Nat.not_le.mpr (Nat.mod_lt _ (Nat.pos_of_ne_zero htotal))))
    rw [getIdx_ok (List.getElem?_eq_getElem (lt_of_le_of_lt hle hlast))]
    exact ⟨_, rfl⟩

theorem chunkMsg_ok (hne : roster ≠ []) (hread : readHeaderAndMaybeStatus packet = some (header, status, readO))
    (hfit : ∀ hdr rest, PacketProposalChunkHeader.readFrom (packet.drop readO) = some (hdr, rest) → hdr.chunkI * proposalChunkDataSize ≤ hdr.proposalSize) :
    ∃ o, chunkMsg P roster packetType packet readO = .ok o := by
  obtain ⟨hreadO, -⟩ := readHeaderAndMaybeStatus_le hread
  unfold chunkMsg
  cases hhdr : readFrom (packet.drop readO) with
  | none => exact ⟨none, rfl⟩
  | some p =>
    obtain ⟨hdr, rest⟩ := p
    dsimp only
    rw [subU_ok (hfit hdr rest hhdr)]
    dsimp only [ok_bind]
    split
    · rename_i hsize
      obtain ⟨⟨rosterI, pubKey⟩, hproposer⟩ := proposerFromHeightRound_ok P hne hdr.height hdr.round
      rw [hproposer]
      cases rosterI with
      | none => exact ⟨none, rfl⟩
      | some rosterI =>
        unfold proposalPacketExtra at hsize
        dsimp only [ok_bind]
        rw [slice_ok (by omega) (by unfold serializedSize; omega)]
        dsimp only [ok_bind]
        split
        · rename_i hsig
          have := readBytes_eq_none.mp hsig
          simp only [List.length_drop, serializedSize] at this
          omega
        · exact ⟨_, rfl⟩
    · exact ⟨none, rfl⟩

theorem chunkMsg_underflow (hhdr : PacketProposalChunkHeader.readFrom (packet.drop readO) = some (hdr, rest))
    (hlt : hdr.proposalSize < hdr.chunkI * proposalChunkDataSize) :
    chunkMsg P.checked roster packetType packet readO = .error .overflow := by
  unfold chunkMsg
  simp only [hhdr, Params.checked, subU_underflow hlt, error_bind]

theorem chunkBase_eq_none :
    chunkBase R isMine m hdr d = none ↔ 0 < d.proposalSigsN ∧ ¬ SameProposal m hdr d ∧ isMine = false := by
  unfold chunkBase SameProposal
  split_ifs <;> simp_all

theorem chunkBase_length (h : chunkBase R isMine m hdr d = some b) :
    b.proposal.length = hdr.proposalSize := by
  rcases chunkBase_cases h with ⟨-, hsame⟩ | ⟨-, -, -⟩ | -
  · exact hsame.1
  · simp [RoundData.flushForAmnesiacProposer, RoundData.resetProposal]
  · simp [RoundData.resetProposal]

theorem incorporate_chunk (hd : Shape R d) (hseen : seen = true ∨ d.proposalSigsN = 0)
    (hm : (Signed.chunk hdr data).Covers m) (hfits : hdr.Fits)
    (hle : hdr.chunkI * proposalChunkDataSize ≤ hdr.proposalSize)
    (hdata : data.length = min proposalChunkDataSize (hdr.proposalSize - hdr.chunkI * proposalChunkDataSize)) :
    (∃ e, incorporate P R.members seen isMine m d = .error e) ↔
      hdr.proposalSize = hdr.chunkI * proposalChunkDataSize ∧ chunkBase R isMine m hdr d ≠ none := by
  obtain ⟨hkind, hsigned, -, -, hchunkI, -, -⟩ := hm
  have hread : readFrom m.signedData = some (hdr, data) :=
    readFrom_eq_some.mpr ⟨hfits, hsigned⟩
  rw [incorporate, if_pos hkind, incorporateChunk_eq hseen hread]
  cases hbase : chunkBase R isMine m hdr d with
  | none => simp
  | some b =>
    dsimp only
    have hb := hd.chunkBase hbase
    have hlen := chunkBase_length hbase
    have hindex : m.chunkI < b.proposalSigs.length ↔ hdr.chunkI * proposalChunkDataSize < hdr.proposalSize := by
      rw [hb.sigs, lt_chunksN_iff, hlen, hchunkI]
    constructor
    · rintro ⟨e, herror⟩
      refine ⟨le_antisymm (Nat.le_of_not_lt fun hlt => ?_) hle, by simp⟩
      have hsize : serializedSize + chunkSizeAt b m.chunkI ≤ m.signedData.length := by
        rw [hsigned, List.length_append, writeTo_length, hdata, chunkSizeAt, hlen, hchunkI]
      rw [storeChunk_eq hb (hindex.mpr hlt) hsize] at herror
      cases herror
    · rintro ⟨heq, -⟩
      exact storeChunk_error (Nat.le_of_not_lt fun hlt => (hindex.mp hlt).ne heq.symm)

theorem FoundRound.clashes_iff (hs : Wf s) (h : FoundRound s m.round seen i s₁ d) :
    chunkBase R (member.pubKey = s.myPubKey) m hdr d = none ↔ Clashes s m hdr member := by
  rw [chunkBase_eq_none, decide_eq_false_iff_not]
  cases h with
  | found i d hd hkey =>
    constructor
    · exact fun hclash => ⟨d, List.mem_of_getElem? hd, hkey, hclash⟩
    · rintro ⟨e, he, hkey', hclash⟩
      obtain ⟨j, hj⟩ := List.getElem?_of_mem he
      obtain ⟨-, rfl⟩ := hs.index_unique hd hj (hkey.trans hkey'.symm)
      exact hclash
  | inserted i hi =>
    constructor
    · exact fun hclash => absurd hclash.1 (Nat.lt_irrefl 0)
    · rintro ⟨e, he, hkey', -⟩
      exact absurd (keyCmp_eq.mpr hkey') ((binarySearchBy_vacant hi).2 e he)

/-- A chunk message stops the node exactly when it is accepted and its index is at the end of a proposal
that no recorded one contradicts. -/
theorem checkAndIncorporateMsg_chunk (hs : Wf s) (hm : (Signed.chunk hdr data).Covers m) (hfits : hdr.Fits)
    (hle : hdr.chunkI * proposalChunkDataSize ≤ hdr.proposalSize)
    (hdata : data.length = min proposalChunkDataSize (hdr.proposalSize - hdr.chunkI * proposalChunkDataSize)) :
    wp (checkAndIncorporateMsg P m)
      (fun _ _ => ¬ (hdr.proposalSize = hdr.chunkI * proposalChunkDataSize ∧
        ∃ member, Accepted P s m member ∧ ¬ Clashes s m hdr member))
      (fun _ _ => hdr.proposalSize = hdr.chunkI * proposalChunkDataSize ∧
        ∃ member, Accepted P s m member ∧ ¬ Clashes s m hdr member) s := by
  refine checkAndIncorporateMsg_rule (fun hnone => ?_) fun member seen i s₁ d hacc hround => ?_
  · rintro ⟨-, member, hacc, -⟩
    exact hnone member hacc
  · obtain ⟨hshape, hseen⟩ := hround.shape hs
    have hpanics : (∃ e, incorporate P s.roster.members seen (member.pubKey = s.myPubKey) m d = .error e) ↔ _ :=
      incorporate_chunk hshape hseen hm hfits hle hdata
    rw [Ne, hround.clashes_iff hs] at hpanics
    refine ⟨fun r hr => ?_, fun e he => ?_⟩
    · rintro ⟨heq, member', hacc', hclash⟩
      obtain rfl : member = member' := Option.some.inj (hacc.here.symm.trans hacc'.here)
      obtain ⟨e, he⟩ := hpanics.mpr ⟨heq, hclash⟩
      rw [he] at hr
      cases hr
    · obtain ⟨heq, hclash⟩ := hpanics.mp ⟨e, he⟩
      exact ⟨heq, member, hacc, hclash⟩

def Dropped (P : Params) (s : TMState) (packet : List UInt8) (s' : TMState) : Prop :=
  (∀ m, ¬ Carries P.checked s.roster.members packet m) → s' = s

theorem receiveChunk_wp (hs : Wf s) (hne : s.roster.members ≠ [])
    (hread : readHeaderAndMaybeStatus packet = some (header, status, readO))
    (htype : header.type_ = packetTypeProposalChunk) :
    wp (receiveChunk P.checked header.type_ packet readO) (fun _ s' => ¬ ChunkFault P s packet readO ∧ Dropped P s packet s')
      (fun _ _ => ChunkFault P s packet readO) s := by
  unfold receiveChunk
  rw [htype, wp_bind, wp_get, wp_bind]
  cases hmsg : chunkMsg P.checked s.roster.members packetTypeProposalChunk packet readO with
  | error e =>
    rw [wp_lift_error]
    by_contra hfault
    obtain ⟨o, ho⟩ : ∃ o, chunkMsg P.checked s.roster.members packetTypeProposalChunk packet readO = .ok o := by
      refine chunkMsg_ok hne hread fun hdr rest hhdr => Nat.le_of_not_lt fun hlt => hfault ?_
      exact ⟨hdr, rest, hhdr, .inl hlt⟩
    rw [hmsg] at ho
    cases ho
  | ok o =>
    rw [wp_lift_ok]
    -- the index was not past the end, or unpacking would have failed
    have hnot : ∀ hdr rest, readFrom (packet.drop readO) = some (hdr, rest) →
        ¬ hdr.proposalSize < hdr.chunkI * proposalChunkDataSize := by
      intro hdr rest hhdr hlt
      rw [chunkMsg_underflow hhdr hlt] at hmsg
      cases hmsg
    cases o with
    | none =>
      refine ⟨?_, fun _ => rfl⟩
      rintro ⟨hdr, rest, hhdr, hlt | ⟨-, m, -, hmsg', -⟩⟩
      · exact hnot hdr rest hhdr hlt
      · rw [hmsg] at hmsg'
        cases hmsg'
    | some m =>
      have hcarries : Carries P.checked s.roster.members packet m := .chunk hread htype (htype ▸ hmsg)
      obtain ⟨hdr, data, rest, left, pubKey, hhdr, hleft, hdata, -, -, hcovers⟩ := chunkMsg_eq_some hmsg
      have hle := Nat.le_of_not_lt (hnot hdr _ hhdr)
      rw [subU_ok hle] at hleft
      cases hleft
      have hfits := (readFrom_eq_some.mp hhdr).1
      have hfault : ChunkFault P s packet readO ↔ hdr.proposalSize = hdr.chunkI * proposalChunkDataSize ∧
          ∃ member, Accepted P.checked s m member ∧ ¬ Clashes s m hdr member := by
        constructor
        · rintro ⟨hdr', rest', hhdr', hcase⟩
          rw [hhdr] at hhdr'
          cases hhdr'
          rcases hcase with hlt | ⟨heq, m', member, hmsg', hrest⟩
          · exact absurd hlt (hnot hdr _ hhdr)
          · rw [hmsg] at hmsg'
            cases hmsg'
            exact ⟨heq, member, hrest⟩
        · rintro ⟨heq, member, hrest⟩
          exact ⟨hdr, _, hhdr, .inr ⟨heq, m, member, hmsg, hrest⟩⟩
      rw [hfault]
      refine wp_seq (checkAndIncorporateMsg_chunk hs hcovers hfits hle hdata) fun _ s' hok => ?_
      exact ⟨hok, fun hnone => absurd hcarries (hnone m)⟩

/-! ### Votes -/

theorem checkAndIncorporateMsg_vote (hs : Wf s)
    (hkind : m.packetType = packetTypePrevoteSignatures ∨ m.packetType = packetTypePrecommitSignatures) :
    wp (checkAndIncorporateMsg P m) (fun _ _ => True) (fun _ _ => False) s := by
  refine checkAndIncorporateMsg_rule (fun _ => trivial) fun member seen i s₁ d hacc hround =>
    ⟨fun _ _ => trivial, fun e he => ?_⟩
  obtain ⟨hshape, -⟩ := hround.shape hs
  have hchunk : m.packetType ≠ packetTypeProposalChunk := by
    rcases hkind with h | h <;> rw [h] <;> decide
  rw [incorporate, if_neg hchunk, if_pos hkind] at he
  obtain ⟨status, hrej | ⟨hacc', -⟩⟩ := incorporateVote_eq P _ m hshape hacc.active
  · rw [hrej] at he
    cases he
  · rw [hacc'] at he
    cases he

theorem voteMsg_error_iff (hvote : packet.votes[voteI]? = some vote) (hround : packet.round < 2 ^ 32) :
    (∃ e, voteMsg P.checked roster packetType packet voteI = .error e) ↔
      packetType = packetTypePrecommitSignatures ∧ 2 ^ 31 ≤ packet.round ∧ vote.rosterI < roster.length := by
  unfold voteMsg
  rw [getIdx_ok hvote, ok_bind]
  cases hmember : roster[vote.rosterI]? with
  | none =>
    have := List.getElem?_eq_none_iff.mp hmember
    simp only [reduceCtorEq, exists_false, false_iff, not_and, not_lt, pure, Except.pure]
    exact fun _ _ => this
  | some member =>
    have hlt := (List.getElem?_eq_some_iff.mp hmember).1
    by_cases hover : packetType = packetTypePrecommitSignatures ∧ 2 ^ 31 ≤ packet.round
    · obtain ⟨rfl, hbig⟩ := hover
      have hword : voteRoundWord P.checked true packet.round = .error .overflow := voteRoundWord_overflow rfl hbig
      simp only [makeVoteSignDatas, decide_true, hword, error_bind]
      exact ⟨fun _ => ⟨trivial, hbig, hlt⟩, fun _ => ⟨_, rfl⟩⟩
    · have hword : voteRoundWord P.checked (packetType = packetTypePrecommitSignatures) packet.round = .ok _ :=
        voteRoundWord_ok hround fun _ hpre => Nat.lt_of_not_le fun hbig => hover ⟨of_decide_eq_true hpre, hbig⟩
      simp only [makeVoteSignDatas, hword, ok_bind]
      refine ⟨?_, fun h => absurd ⟨h.1, h.2.1⟩ hover⟩
      rintro ⟨e, he⟩
      cases he

/-- What the vote loop keeps of the state `s` it started from. -/
structure Heeding (P : Params) (s : TMState) (packet : List UInt8) (s₁ : TMState) : Prop where
  wf : Wf s₁
  roster : s₁.roster = s.roster
  dropped : Dropped P s packet s₁

theorem receiveVote_wp (h : Heeding P s bytes s₁)
    (htype : packetType = packetTypePrevoteSignatures ∨ packetType = packetTypePrecommitSignatures)
    (hcarries : ∀ m, voteMsg P.checked s.roster.members packetType packet voteI = .ok (some m) → Carries P.checked s.roster.members bytes m) :
    wp (receiveVote P.checked packetType packet voteI)
      (fun _ s' => Heeding P s bytes s' ∧
        ¬ ∃ e, voteMsg P.checked s.roster.members packetType packet voteI = .error e)
      (fun _ _ => ∃ e, voteMsg P.checked s.roster.members packetType packet voteI = .error e) s₁ := by
  unfold receiveVote
  rw [wp_bind, wp_get, wp_bind, h.roster]
  cases hmsg : voteMsg P.checked s.roster.members packetType packet voteI with
  | error e => exact ⟨e, rfl⟩
  | ok o =>
    rw [wp_lift_ok]
    cases o with
    | none => exact ⟨h, nofun⟩
    | some m =>
      have hm := hcarries m hmsg
      obtain ⟨-, -, -, -, -, hkind⟩ := voteMsg_eq_some hmsg
      have hinv : Inv P.checked True s₁ := ⟨h.wf, fun hw => absurd trivial hw⟩
      have hlisten : Refines P.checked True (fun _ _ => True) _ _ s₁ :=
        carried_refines hinv (h.roster ▸ hm) fun _ _ => trivial
      have hfree : wp (do let _ ← checkAndIncorporateMsg P.checked m : NodeM Unit) (fun _ _ => True)
          (fun _ _ => False) s₁ :=
        wp_seq (checkAndIncorporateMsg_vote h.wf (hkind ▸ htype)) fun _ _ _ => trivial
      refine wp_mono (wp_and hlisten.run hfree) ?_ fun _ _ h => h.2.elim
      rintro _ s' ⟨⟨-, hlistened⟩, -⟩
      exact ⟨⟨hlistened.inv.wf, hlistened.roster.trans h.roster, fun hnone => absurd hm (hnone m)⟩, nofun⟩

theorem readFields_eq_some (h : PacketVotes.readFields buf = some (fields, rest)) :
    fields.round < 2 ^ 32 ∧ fields.votes.length = PacketVotes.votesSize := by
  unfold readFields at h
  simp only [bind_eq_some, readLE_eq_some, readBytes_eq_some, pure_eq_some] at h
  obtain ⟨no, _, ⟨hno, rfl⟩, yes, _, ⟨hyes, rfl⟩, round, _, ⟨hround, rfl⟩, height, _, -, id, _, -, rfl, -⟩ := h
  exact ⟨hround, List.length_replicate⟩

theorem readFrom_error (hfields : PacketVotes.readFields buf = some (fields, rest)) (hmany : TooManyVotes fields rest) :
    ∃ e, PacketVotes.readFrom P.checked buf = .error e := by
  obtain ⟨-, hlen⟩ := readFields_eq_some hfields
  by_cases hsum : fields.noVotesN + fields.yesVotesN < 2 ^ 8
  · obtain ⟨hn, hbuf⟩ := hmany.resolve_left (Nat.not_le.mpr hsum)
    refine ⟨.index, ?_⟩
    simp only [PacketVotes.readFrom, hfields, addU_ok hsum, ok_bind]
    rw [PacketVotes.readVotes_error (Nat.zero_le _) (by omega) (by rw [hlen]; exact hbuf), error_bind]
  · refine ⟨.overflow, ?_⟩
    simp only [PacketVotes.readFrom, hfields, Params.checked, addU_overflow (Nat.le_of_not_lt hsum), error_bind]

theorem readFrom_ok (hfields : PacketVotes.readFields buf = some (fields, rest)) (hmany : ¬ TooManyVotes fields rest) :
    ∃ o, PacketVotes.readFrom P buf = .ok o ∧ ∀ packet, o = some packet →
      packet.noVotesN = fields.noVotesN ∧ packet.yesVotesN = fields.yesVotesN ∧ packet.round = fields.round ∧
        fields.noVotesN + fields.yesVotesN ≤ packet.votes.length := by
  obtain ⟨-, hlen⟩ := readFields_eq_some hfields
  obtain ⟨hsum, hroom⟩ := not_or.mp hmany
  obtain ⟨r, hr, hslots⟩ : ∃ r, readVotes (fields.noVotesN + fields.yesVotesN) 0 fields.votes rest =
      .ok r ∧ _ := readVotes_ok (Nat.zero_le _) (by rw [hlen, Nat.sub_zero]; omega)
  refine ⟨r.map fun votes => { fields with votes }, ?_, fun packet hpacket => ?_⟩
  · simp only [PacketVotes.readFrom, hfields, addU_ok (Nat.lt_of_not_le hsum), ok_bind, hr]
    rfl
  · obtain ⟨votes, hvotes, rfl⟩ := Option.map_eq_some_iff.mp hpacket
    obtain ⟨hlen', hn⟩ := hslots votes hvotes
    refine ⟨rfl, rfl, rfl, ?_⟩
    change _ ≤ votes.length
    omega

theorem readFrom_error_iff : (∃ e, PacketVotes.readFrom P.checked buf = .error e) ↔
    ∃ fields rest, PacketVotes.readFields buf = some (fields, rest) ∧ TooManyVotes fields rest := by
  refine ⟨fun ⟨e, he⟩ => ?_, fun ⟨fields, rest, hfields, hmany⟩ => readFrom_error hfields hmany⟩
  cases hfields : readFields buf with
  | none =>
    simp only [PacketVotes.readFrom, hfields] at he
    cases he
  | some p =>
    refine ⟨p.1, p.2, rfl, ?_⟩
    by_contra hmany
    obtain ⟨o, ho, -⟩ : ∃ o, readFrom P.checked buf = .ok o ∧ _ := readFrom_ok hfields hmany
    rw [he] at ho
    cases ho

theorem readFrom_eq_some (h : PacketVotes.readFrom P.checked buf = .ok (some packet)) :
    ∃ fields rest, PacketVotes.readFields buf = some (fields, rest) ∧ ¬ TooManyVotes fields rest ∧
      packet.noVotesN = fields.noVotesN ∧ packet.yesVotesN = fields.yesVotesN ∧ packet.round = fields.round ∧
      packet.round < 2 ^ 32 ∧ fields.noVotesN + fields.yesVotesN ≤ packet.votes.length := by
  cases hfields : readFields buf with
  | none =>
    simp only [PacketVotes.readFrom, hfields] at h
    cases h
  | some p =>
    obtain ⟨fields, rest⟩ := p
    have hmany : ¬ TooManyVotes fields rest := by
      intro hmany
      obtain ⟨e, he⟩ := readFrom_error_iff.mpr ⟨fields, rest, hfields, hmany⟩
      rw [h] at he
      cases he
    obtain ⟨o, ho, hpacket⟩ : ∃ o, readFrom P.checked buf = .ok o ∧ _ := readFrom_ok hfields hmany
    rw [h] at ho
    cases ho
    obtain ⟨hno, hyes, hround, hlen⟩ := hpacket packet rfl
    exact ⟨fields, rest, rfl, hmany, hno, hyes, hround, hround ▸ (readFields_eq_some hfields).1, hlen⟩

theorem votesFault_iff (hfrom : PacketVotes.readFrom P.checked (bytes.drop readO) = .ok (some packet)) :
    VotesFault P s packetType bytes readO ↔ ∃ i < packet.noVotesN + packet.yesVotesN,
      ∃ e, voteMsg P.checked s.roster.members packetType packet i = .error e := by
  obtain ⟨fields, rest, hfields, hmany, hno, hyes, hround, hlt, hlen⟩ := readFrom_eq_some hfrom
  rw [hno, hyes]
  constructor
  · rintro ⟨fields', rest', hfields', hcase⟩
    rw [hfields] at hfields'
    cases hfields'
    rcases hcase with hmany' | ⟨hpre, hbig, packet', i, vote, hfrom', hi, hvote, hknown⟩
    · exact absurd hmany' hmany
    · rw [hfrom] at hfrom'
      cases hfrom'
      exact ⟨i, hi, (voteMsg_error_iff hvote hlt).mpr ⟨hpre, hround ▸ hbig, hknown⟩⟩
  · rintro ⟨i, hi, herror⟩
    have hvote : packet.votes[i]? = some packet.votes[i] := by simp
    obtain ⟨hpre, hbig, hknown⟩ := (voteMsg_error_iff hvote hlt).mp herror
    exact ⟨fields, rest, hfields, .inr ⟨hpre, hround ▸ hbig, packet, i, _, hfrom, hi, hvote, hknown⟩⟩

theorem voteLoop_wp (hs : Wf s)
    (htype : packetType = packetTypePrevoteSignatures ∨ packetType = packetTypePrecommitSignatures)
    (hcarries : ∀ voteI m, voteMsg P.checked s.roster.members packetType packet voteI = .ok (some m) → Carries P.checked s.roster.members bytes m) :
    wp ((List.range n).forM (receiveVote P.checked packetType packet))
      (fun _ s' => (¬ ∃ i < n, ∃ e, voteMsg P.checked s.roster.members packetType packet i = .error e) ∧
        Dropped P s bytes s')
      (fun _ _ => ∃ i < n, ∃ e, voteMsg P.checked s.roster.members packetType packet i = .error e) s := by
  have hturn : ∀ i s₁, Heeding P s bytes s₁ → wp (receiveVote P.checked packetType packet i) _ _ s₁ :=
    fun i s₁ h => receiveVote_wp h htype (hcarries i)
  have hstart : Heeding P s bytes s := ⟨hs, rfl, fun _ => rfl⟩
  by_cases hstop : ∃ i < n, ∃ e, voteMsg P.checked s.roster.members packetType packet i = .error e
  · obtain ⟨i, hi, herror⟩ := hstop
    refine wp_mono (wp_forM_stops (List.mem_range.mpr hi) (fun j _ s₁ h => ?_) (fun s₁ h => ?_) hstart)
      (fun _ _ h => h.elim) fun _ _ _ => ⟨i, hi, herror⟩
    · exact wp_mono (hturn j s₁ h) (fun _ _ h' => h'.1) fun _ _ _ => trivial
    · exact wp_mono (hturn i s₁ h) (fun _ _ h' => h'.2 herror) fun _ _ _ => trivial
  · refine wp_mono (wp_forM _ (fun j hj s₁ h => ?_) hstart) (fun _ s' h => ⟨hstop, h.dropped⟩) fun _ _ h => h
    refine wp_mono (hturn j s₁ h) (fun _ _ h' => h'.1) fun _ _ herror => ?_
    exact ⟨j, List.mem_range.mp hj, herror⟩

theorem receiveVotes_wp (hs : Wf s) (hread : readHeaderAndMaybeStatus packet = some (header, status, readO))
    (htype : header.type_ = packetTypePrevoteSignatures ∨ header.type_ = packetTypePrecommitSignatures) :
    wp (receiveVotes P.checked header.type_ packet readO)
      (fun _ s' => ¬ VotesFault P s header.type_ packet readO ∧ Dropped P s packet s')
      (fun _ _ => VotesFault P s header.type_ packet readO) s := by
  unfold receiveVotes
  rw [wp_bind]
  cases hfrom : readFrom P.checked (packet.drop readO) with
  | error e =>
    obtain ⟨fields, rest, hfields, hmany⟩ := readFrom_error_iff.mp ⟨e, hfrom⟩
    exact ⟨fields, rest, hfields, .inl hmany⟩
  | ok o =>
    rw [wp_lift_ok]
    cases o with
    | none =>
      refine ⟨?_, fun _ => rfl⟩
      rintro ⟨fields, rest, hfields, hmany | ⟨-, -, votes, i, vote, hfrom', -⟩⟩
      · obtain ⟨e, he⟩ := readFrom_error (P := P) hfields hmany
        rw [hfrom] at he
        cases he
      · rw [hfrom] at hfrom'
        cases hfrom'
    | some votes =>
      obtain ⟨fields, rest, hfields, hsum, hno, hyes, -⟩ := readFrom_eq_some hfrom
      have hn : votes.noVotesN + votes.yesVotesN < 2 ^ 8 := by
        rw [hno, hyes]
        exact Nat.lt_of_not_le fun hbig => hsum (.inl hbig)
      rw [votesFault_iff hfrom, wp_bind, addU_ok hn, wp_lift_ok]
      exact voteLoop_wp hs htype fun _ _ hmsg => .vote hread htype hfrom hmsg

/-! ### Whole packets -/

theorem receive_wp (packet : List UInt8) (hs : Wf s) (hne : s.roster.members ≠ []) :
    wp (receive P.checked packet) (fun _ s' => ¬ Faulty P s packet ∧ Dropped P s packet s')
      (fun _ _ => Faulty P s packet) s := by
  have hfault : ∀ {header status readO}, readHeaderAndMaybeStatus packet = some (header, status, readO) →
      (Faulty P s packet ↔ (header.type_ = packetTypeProposalChunk ∧ ChunkFault P s packet readO) ∨
        ((header.type_ = packetTypePrevoteSignatures ∨ header.type_ = packetTypePrecommitSignatures) ∧
          VotesFault P s header.type_ packet readO)) := by
    intro header status readO hread
    refine ⟨?_, fun h => ⟨header, status, readO, hread, h⟩⟩
    rintro ⟨header', status', readO', hread', h⟩
    rw [hread] at hread'
    cases hread'
    exact h
  have hempty : packet.length = 0 → ¬ Faulty P s packet := by
    rintro h ⟨header, status, readO, hread, -⟩
    rw [List.length_eq_zero_iff.mp h] at hread
    cases hread
  unfold receive
  refine wp_ite (fun h => ⟨hempty h, fun _ => rfl⟩) fun _ => ?_
  cases hread : readHeaderAndMaybeStatus packet with
  | none =>
    refine ⟨?_, fun _ => rfl⟩
    rintro ⟨header, status, readO, hread', -⟩
    rw [hread] at hread'
    cases hread'
  | some p =>
    obtain ⟨header, status, readO⟩ := p
    rw [hfault hread]
    have hkinds : header.type_ = packetTypeProposalChunk →
        ¬ (header.type_ = packetTypePrevoteSignatures ∨ header.type_ = packetTypePrecommitSignatures) := by
      intro h
      rw [h]
      decide
    refine wp_ite (fun htype => ?_) fun hchunk => wp_ite (fun htype => ?_) fun hvotes => ?_
    · refine wp_mono (receiveChunk_wp hs hne hread htype) (fun _ _ h => ⟨?_, h.2⟩) fun _ _ h => .inl ⟨htype, h⟩
      rintro (⟨-, hfault⟩ | ⟨htype', -⟩)
      · exact h.1 hfault
      · exact hkinds htype htype'
    · refine wp_mono (receiveVotes_wp hs hread htype) (fun _ _ h => ⟨?_, h.2⟩) fun _ _ h => .inr ⟨htype, h⟩
      rintro (⟨htype', -⟩ | ⟨-, hfault⟩)
      · exact hchunk htype'
      · exact h.1 hfault
    · refine ⟨?_, fun _ => rfl⟩
      rintro (⟨htype, -⟩ | ⟨htype, -⟩)
      · exact hchunk htype
      · exact hvotes htype

theorem Reaches.wf (h : Reaches P cl Ok (TMState.init P mySigningKey roster startup) now₀ (.ok () s)) : Wf s := by
  obtain ⟨s', hs', hinv, -⟩ := h.invariant True (I := fun _ => True) (init_inv _ _ _) rfl
    (fun hw => absurd trivial hw) (fun _ _ => trivial) fun _ _ _ _ _ _ _ => trivial
  cases hs'
  exact hinv.wf

/-- Whatever a node has been through, the packets that stop it are the faulty ones. -/
theorem robust_iff {cl : Closures} {Ok : TMState → Input → Prop} {mySigningKey : SigningKey} {roster : SortedRoster}
    {startup : List RoundData} {now₀ : Instant}
    (h : Reaches P cl Ok (TMState.init P mySigningKey roster startup) now₀ (.ok () s))
    (hne : s.roster.members ≠ []) (packet : List UInt8) : Robust P packet s ↔ ¬ Faulty P s packet := by
  have hrun : wp (receive P.checked packet) _ _ s := receive_wp packet h.wf hne
  unfold wp at hrun
  unfold Robust
  cases hreceive : receive P.checked packet s with
  | ok _ s' =>
    rw [hreceive] at hrun
    exact ⟨fun _ => hrun.1, fun _ => ⟨s', rfl, hrun.2⟩⟩
  | error e s' =>
    rw [hreceive] at hrun
    exact ⟨nofun, fun hnot => absurd hrun hnot⟩

/-! ### A started node -/

def isOk : EStateM.Result Panic TMState Unit → Bool
  | .ok _ _ => true
  | .error _ _ => false

theorem eq_ok_of_isOk (h : isOk r = true) : r = .ok () (endState r) := by
  cases r with
  | ok => rfl
  | error => cases h

def startedNode : TMState :=
  endState (life (Params.sample true) (.idle minorityRoster) 0 [] (minorityNode (Params.sample true)))

theorem startedNode_reached : Reaches (Params.sample true) (.idle minorityRoster) (fun _ _ => True)
    (minorityNode (Params.sample true)) 0 (.ok () startedNode) := by
  rw [startedNode, ← eq_ok_of_isOk (by decide +kernel)]
  exact reaches_life (fun _ _ => trivial) _ _ _

theorem robust_iff_startedNode : startedNode.roster.members ≠ [] ∧
    (Robust (Params.sample true) [] startedNode ↔ ¬ Faulty (Params.sample true) startedNode []) :=
  ⟨by decide +kernel, robust_iff startedNode_reached (by decide +kernel) []⟩

/-- The header of a second chunk of an empty proposal, without a signature. -/
def farChunk : List UInt8 :=
  PacketHeader.writeTo ⟨packetTypeProposalChunk⟩ ++ PacketProposalChunkHeader.writeTo ⟨1, 0, 0, -1, 0, ValueId.nil⟩

def crowdedVotes : List UInt8 :=
  PacketHeader.writeTo ⟨packetTypePrevoteSignatures⟩ ++ leBytes 1 19 ++ List.replicate (45 + 19 * PacketVotes.voteSize) 0

/-- Neither packet needs a key, and each stops a node that has just started. -/
theorem unsigned_packets_panic :
    let P := Params.sample true
    Reaches P (.idle minorityRoster) (fun _ _ => True) (minorityNode P) 0 (.ok () startedNode) ∧
      startedNode.roster.members ≠ [] ∧ ¬ Robust P farChunk startedNode ∧ ¬ Robust P crowdedVotes startedNode := by
  have hpanics : ∀ packet, isOk (receive (Params.sample true).checked packet startedNode) = false →
      ¬ Robust (Params.sample true) packet startedNode := by
    rintro packet h ⟨s', hs', -⟩
    rw [hs'] at h
    cases h
  exact ⟨startedNode_reached, by decide +kernel, hpanics _ (by decide +kernel), hpanics _ (by decide +kernel)⟩

/-! ### Heights that are over -/

/-- The cache still starts with the records it was given, holds one record for each height below the current one, those
of the run in order, and for each height of the run there was a decision. -/
structure Committed (startup : List RoundData) (s : TMState) : Prop where
  kept : startup <+: s.recentCommitRoundCache
  length : s.recentCommitRoundCache.length = s.height
  inOrder : ∀ i d, startup.length ≤ i → s.recentCommitRoundCache[i]? = some d → d.height = i
  decided : ∀ height, startup.length ≤ height → height < s.height → ∃ dec ∈ s.pushed, dec.roundData.height = height

theorem Move.committed (h : Move P wraps Heard s s') (hs : Committed startup s) : Committed startup s' := by
  cases h with
  | push =>
    refine ⟨hs.kept, hs.length, hs.inOrder, fun height hle hlt => ?_⟩
    obtain ⟨dec, hdec, heq⟩ := hs.decided height hle hlt
    exact ⟨dec, List.mem_cons_of_mem _ hdec, heq⟩
  | newHeight roster d hpushed hd hheight =>
    refine ⟨hs.kept.trans (List.prefix_append _ _), by simp [hs.length], fun i d' hle hd' => ?_, fun height hle hlt => ?_⟩
    · rw [List.getElem?_append] at hd'
      split_ifs at hd' with hlt
      · exact hs.inOrder i d' hle hd'
      · rw [List.getElem?_singleton] at hd'
        split_ifs at hd' with hzero
        rw [← Option.some.inj hd', hheight, ← hs.length]
        omega
    · rcases Nat.lt_succ_iff_lt_or_eq.mp hlt with hlt | rfl
      · exact hs.decided height hle hlt
      · obtain ⟨dec, hdec, -, heq⟩ := hpushed
        exact ⟨dec, hdec, heq⟩
  | _ => exact ⟨hs.kept, hs.length, hs.inOrder, hs.decided⟩

theorem Moves.committed (h : Moves P wraps Heard s s') (hs : Committed startup s) : Committed startup s' := by
  induction h with
  | refl => exact hs
  | tail _ hmove ih => exact hmove.committed ih

end Crosslink.Tenderlink

import Crosslink.Bft.Votes
import Crosslink.Tenderlink.NoEquivocation
import Crosslink.Tenderlink.Proposals

/-!
# Decision certificates

The certificate of a decision is rebuilt from the precommit slots of the deciding record. In a run in
which no chunk with the all-zero signature is accepted, and the node's own chunks come back only as it
signed them, the certificate names the decided value, its signatures are valid precommits for it, one for
each signing member, and the signers hold a quorum of the roster.
-/

namespace Crosslink.Tenderlink

open Codec Fallible Bft List

variable {P : Params} {wraps : Prop} {Heard : Msg → PubKeyID → Prop} {s s' : TMState} {d d' : RoundData} {m : Msg}

/-! ### What a certificate should be -/

def signers (R : SortedRoster) (p : FatPointerToBftBlock) : Finset ℕ :=
  (Finset.range (activeRosterLen R.members)).filter fun i =>
    (R.members[i]?).any fun member => p.signatures.any fun sig => sig.pubKey == member.pubKey

/-- A batch verifier accepts a batch of signatures that verify one by one. -/
def BatchVerifies (P : Params) (batch : List (PubKeyID × TMSig × List UInt8) → Bool) : Prop :=
  ∀ items, (∀ item ∈ items, P.verify item.2.1 item.1 item.2.2 = true) → batch items = true

structure Certified (P : Params) (dec : Decision) : Prop where
  names : dec.fatPointer.voteForBlockWithoutFinalizerPublicKey.toList =
    (idFromValue P dec.value).bytes.toList ++ leBytes 8 dec.roundData.height ++ leBytes 4 (dec.roundData.round + 2 ^ 31)
  distinct : (dec.fatPointer.signatures.map FatPointerSignature.pubKey).Nodup
  active : ∀ sig ∈ dec.fatPointer.signatures, ∃ i ∈ signers dec.roster dec.fatPointer,
    ∃ member, dec.roster.members[i]? = some member ∧ member.pubKey = sig.pubKey
  verified : ∀ sig ∈ dec.fatPointer.signatures, P.verify ⟨sig.voteSignature⟩ sig.pubKey
    (sig.pubKey.bytes.toList ++ dec.fatPointer.voteForBlockWithoutFinalizerPublicKey.toList) = true
  accepted : ∀ batch, BatchVerifies P batch → validateSignatures batch dec.fatPointer = true
  quorum : IsQuorum P dec.roster (signers dec.roster dec.fatPointer)

/-! ### Reading the certificate off a record -/

def signing (d : RoundData) : List (VoteSlots × ℕ) :=
  d.msgValSigs.zipIdx.filter fun (v, _) => v.precommit.1 = d.proposalId ∧ v.precommit.2 ≠ TMSig.nil

def keyAt (roster : List SortedRosterMember) (i : ℕ) : PubKeyID := (roster[i]?.map SortedRosterMember.pubKey).getD PubKeyID.nil

theorem keyAt_eq (h : roster[i]? = some member) : keyAt roster i = member.pubKey := by
  rw [keyAt, h]
  rfl

theorem mem_signing :
    (v, i) ∈ signing d ↔ d.msgValSigs[i]? = some v ∧ v.precommit.1 = d.proposalId ∧ v.precommit.2 ≠ TMSig.nil := by
  simp [signing, mem_filter, mem_zipIdx_iff_getElem?]

theorem roundDataToFatPointer_eq (h : roundDataToFatPointer P d roster = .ok p) (hround : d.round < 2 ^ 31) :
    p.voteForBlockWithoutFinalizerPublicKey.toList =
        d.proposalId.bytes.toList ++ leBytes 8 d.height ++ leBytes 4 (d.round + 2 ^ 31) ∧
      p.signatures = (signing d).map (fun x => ⟨keyAt roster x.2, x.1.precommit.2.bytes⟩) ∧
      ∀ x ∈ signing d, ∃ member, roster[x.2]? = some member := by
  unfold roundDataToFatPointer at h
  rw [addU_ok (by omega), ok_bind] at h
  obtain ⟨signatures, hsigs, h⟩ := bind_eq_ok.mp h
  rw [pure_eq_ok] at h
  subst h
  obtain ⟨hmap, hall⟩ : signatures = (signing d).map (fun x => ⟨keyAt roster x.2, x.1.precommit.2.bytes⟩) ∧ _ := by
    refine mapM_eq_ok hsigs ?_
    rintro ⟨v, i⟩ - sig hsig
    obtain ⟨member, hmember, hsig⟩ := bind_eq_ok.mp hsig
    rw [pure_eq_ok] at hsig
    rw [← hsig, keyAt_eq (getIdx_eq_ok.mp hmember)]
  refine ⟨rfl, hmap, fun x hx => ?_⟩
  obtain ⟨member, hmember, -⟩ := bind_eq_ok.mp (hall x hx)
  exact ⟨member, getIdx_eq_ok.mp hmember⟩

/-! ### The deciding record -/

/-- The counted votes of a record verify over the bytes a vote signs. -/
def VotesVerified (P : Params) (R : SortedRoster) (d : RoundData) : Prop :=
  ∀ i isPrecommit valueId sig member, R.members[i]? = some member → d.Voted i isPrecommit valueId sig →
    ∃ word, voteRoundWord P isPrecommit d.round = .ok word ∧
      P.verify sig member.pubKey (voteBytes member.pubKey valueId d.height word) = true

/-- The message is one that this node signed, with its own signature. -/
def OwnSigned (P : Params) (s : TMState) (m : Msg) : Prop :=
  m.sig = P.sign s.mySigningKey m.signedData ∧ ∃ e ∈ s.signed, e.Covers m

/-- A stored chunk of the node's own proposal is as the node signed it. -/
def OwnChunks (P : Params) (s : TMState) (d : RoundData) : Prop :=
  ∀ o, proposerFromHeightRound P s.roster.members d.height d.round = .ok (o, s.myPubKey) →
    ∀ j sig, d.proposalSigs[j]? = some sig → sig ≠ TMSig.nil →
      ∃ hdr data, Signed.chunk hdr data ∈ s.signed ∧ (hdr.height, hdr.round) = d.key ∧ hdr.chunkI = j ∧
        sig = P.sign s.mySigningKey (hdr.writeTo ++ data) ∧ d.proposal.length = hdr.proposalSize % 2 ^ 32 ∧
        d.proposalId = hdr.proposalId ∧ d.proposalValidRound = hdr.validRound

structure CertRecord (P : Params) (s : TMState) (d : RoundData) : Prop where
  proposal : ProposalOk P d
  votes : VotesVerified P s.roster d
  agreed : Agreed (fun _ => True) d
  fresh : d.proposalSigsN = 0 → d.proposalId = ValueId.nil
  own : OwnChunks P s d

theorem Signed.covers_chunk {e : Signed} (h : e.Covers m) (hkind : m.packetType = packetTypeProposalChunk) :
    ∃ hdr data, e = .chunk hdr data := by
  cases e with
  | chunk hdr data => exact ⟨hdr, data, rfl⟩
  | vote k height round valueId =>
    have hvote := h.1
    rw [hkind] at hvote
    cases k <;> cases hvote

theorem LogInv.chunks_agree (hs : LogInv P s) (h : Signed.chunk hdr data ∈ s.signed)
    (h' : Signed.chunk hdr' data' ∈ s.signed) (hkey : (hdr.height, hdr.round) = (hdr'.height, hdr'.round)) :
    hdr.proposalSize = hdr'.proposalSize ∧ hdr.proposalId = hdr'.proposalId ∧ hdr.validRound = hdr'.validRound ∧
      (hdr.chunkI = hdr'.chunkI → hdr = hdr' ∧ data = data') := by
  obtain ⟨value, validRound, hchunks⟩ := hs.chunks (hdr'.height, hdr'.round)
  obtain ⟨hhdr, hdata⟩ := hchunks hdr data h hkey
  obtain ⟨hhdr', hdata'⟩ := hchunks hdr' data' h' rfl
  obtain ⟨hheight, hround⟩ := Prod.mk.inj hkey
  refine ⟨?_, ?_, ?_, fun hi => ?_⟩
  · rw [hhdr, hhdr']
    rfl
  · rw [hhdr, hhdr']
    rfl
  · rw [hhdr, hhdr']
    rfl
  · rw [hhdr, hhdr', hheight, hround, hi, hdata, hdata', hi]
    exact ⟨rfl, rfl⟩

theorem CertRecord.own_chunk (hd : CertRecord P s d) (hlog : LogInv P s)
    (hproposer : proposerFromHeightRound P s.roster.members d.height d.round = .ok (o, s.myPubKey))
    (hown : OwnSigned P s m) (hkind : m.packetType = packetTypeProposalChunk) (hkey : d.key = (m.height, m.round))
    (hread : PacketProposalChunkHeader.readFrom m.signedData = some (hdr, rest)) (hn : 0 < d.proposalSigsN) :
    SameProposal m hdr d ∧ ∀ old, d.proposalSigs[m.chunkI]? = some old → old ≠ TMSig.nil → old = m.sig := by
  obtain ⟨hsig, e, he, hcovers⟩ := hown
  obtain ⟨hdr₂, data₂, rfl⟩ := Signed.covers_chunk hcovers hkind
  obtain ⟨-, hsigned, hheight, hround, hchunkI, hvalueId, hvalidRound⟩ := hcovers
  rw [hsigned] at hread
  have hsize := PacketProposalChunkHeader.readFrom_writeTo_size hread
  have hagree : ∀ {hdr₁ data₁}, Signed.chunk hdr₁ data₁ ∈ s.signed → (hdr₁.height, hdr₁.round) = d.key → _ :=
    fun hmem hkey₁ => hlog.chunks_agree hmem he (by rw [hkey₁, hkey, hheight, hround])
  constructor
  · rw [hd.proposal.seen, countP_pos_iff] at hn
    obtain ⟨sig, hmem, hne⟩ := hn
    obtain ⟨j, hj⟩ := getElem?_of_mem hmem
    obtain ⟨hdr₁, data₁, hmem₁, hkey₁, -, -, hlen, hid, hvalid⟩ := hd.own o hproposer j sig hj (by simpa using hne)
    obtain ⟨h₁, h₂, h₃, -⟩ := hagree hmem₁ hkey₁
    exact ⟨by rw [hlen, h₁, hsize], by rw [hid, h₂, hvalueId], by rw [hvalid, h₃, hvalidRound]⟩
  · intro old hold hne
    obtain ⟨hdr₁, data₁, hmem₁, hkey₁, hi, hsig₁, -⟩ := hd.own o hproposer _ old hold hne
    obtain ⟨rfl, rfl⟩ := (hagree hmem₁ hkey₁).2.2.2 (hi.trans hchunkI)
    rw [hsig₁, hsig, hsigned]

theorem store_frame (hb : Shape R b) (hnew : b.proposalSigs[m.chunkI]? = some TMSig.nil)
    (hlen : PacketProposalChunkHeader.serializedSize + chunkSizeAt b m.chunkI ≤ m.signedData.length)
    (hd' : (checkFullProposal P (adopt R (withChunk m b) m.valueId)).1 = d') :
    d'.proposal.length = b.proposal.length ∧ d'.proposalSigs = b.proposalSigs.set m.chunkI m.sig ∧
      d'.proposalSigsN = b.proposalSigsN + 1 ∧ d'.proposalValidRound = m.validRound ∧
      d'.proposalId = if b.proposalId = ValueId.nil then m.valueId else b.proposalId := by
  have hoff : m.chunkI * proposalChunkDataSize < b.proposal.length := by
    rw [← lt_chunksN_iff, ← hb.sigs]
    exact (List.getElem?_eq_some_iff.mp hnew).1
  have hlength : (withChunk m b).proposal.length = b.proposal.length := by
    simp only [withChunk, chunkSizeAt, List.length_append, List.length_take, List.length_drop] at hlen ⊢
    omega
  have hframe : d'.proposal = (withChunk m b).proposal ∧ d'.proposalSigs = (withChunk m b).proposalSigs ∧
      d'.proposalSigsN = b.proposalSigsN + 1 ∧ d'.proposalValidRound = m.validRound ∧
      d'.proposalId = if b.proposalId = ValueId.nil then m.valueId else b.proposalId := by
    rw [← hd', checkFullProposal, adopt]
    change _ ∧ _ ∧ _ ∧ _ ∧ _ = if (withChunk m b).proposalId = ValueId.nil then m.valueId else (withChunk m b).proposalId
    split_ifs <;> exact ⟨rfl, rfl, rfl, rfl, rfl⟩
  exact ⟨by rw [hframe.1, hlength], hframe.2⟩

theorem OwnChunks.store (hb : OwnChunks P s b) (hshape : Shape R b) (htype : m.packetType = packetTypeProposalChunk)
    (hread : PacketProposalChunkHeader.readFrom m.signedData = some (hdr, rest)) (hkey : b.key = (m.height, m.round))
    (hown : OwnSigned P s m) (hsize : b.proposal.length = hdr.proposalSize)
    (hid : b.proposalId = ValueId.nil ∨ b.proposalId = m.valueId)
    (hvalid : 0 < b.proposalSigsN → b.proposalId = m.valueId ∧ b.proposalValidRound = m.validRound)
    (hseen : b.proposalSigsN = 0 → ∀ sig ∈ b.proposalSigs, sig = TMSig.nil)
    (hnew : b.proposalSigs[m.chunkI]? = some TMSig.nil)
    (hlen : PacketProposalChunkHeader.serializedSize + chunkSizeAt b m.chunkI ≤ m.signedData.length) :
    OwnChunks P s (checkFullProposal P (adopt R (withChunk m b) m.valueId)).1 := by
  generalize hd' : (checkFullProposal P (adopt R (withChunk m b) m.valueId)).1 = d'
  have hkey' : d'.key = b.key := by
    rw [← hd', (checkFullProposal_frame P _).1, (adopt_frame R _ _).1]
    rfl
  obtain ⟨hlength, hsigs, -, hround, hadopted⟩ := store_frame hshape hnew hlen hd'
  have hid' : d'.proposalId = m.valueId := by
    rw [hadopted]
    rcases hid with h | h
    · rw [if_pos h]
    · rw [h, ite_self]
  intro o hproposer j sig hj hne
  obtain ⟨hsig, e, he, hcovers⟩ := hown
  rw [hsigs, getElem?_set] at hj
  split_ifs at hj with hi hlt
  · cases hj
    obtain ⟨hdr₂, data₂, rfl⟩ := Signed.covers_chunk hcovers htype
    obtain ⟨-, hsigned, hheight, hround₂, hchunkI, hvalueId, hvalidRound⟩ := hcovers
    rw [hsigned] at hread
    refine ⟨hdr₂, data₂, he, by rw [hkey', hkey, hheight, hround₂], by rw [← hchunkI, hi], by rw [hsig, hsigned],
      ?_, by rw [hid', hvalueId], by rw [hround, hvalidRound]⟩
    rw [hlength, hsize, PacketProposalChunkHeader.readFrom_writeTo_size hread]
  -- an older chunk: the announced proposal has not changed
  · rcases Nat.eq_zero_or_pos b.proposalSigsN with hzero | hpos
    · exact absurd (hseen hzero sig (mem_of_getElem? hj)) hne
    · have hbkey := Prod.mk.inj hkey'
      obtain ⟨hdr₁, data₁, hmem, hkey₁, hi₁, hsig₁, hlen₁, hid₁, hround₁⟩ :=
        hb o (by rw [← hbkey.1, ← hbkey.2, hproposer]) j sig hj hne
      obtain ⟨hvid, hvround⟩ := hvalid hpos
      exact ⟨hdr₁, data₁, hmem, by rw [hkey₁, hkey'], hi₁, hsig₁, by rw [hlength, hlen₁],
        by rw [hid', ← hvid, hid₁], by rw [hround, ← hvround, hround₁]⟩

theorem VotesVerified.step {R : SortedRoster} {isMyProposal : Bool} {member : SortedRosterMember}
    (hd : VotesVerified P R d) (hkey : d.key = (m.height, m.round)) (hmember : R.members[m.rosterI]? = some member)
    (hverify : P.verify m.sig member.pubKey m.signedData = true) (hformed : Formed P R member m)
    (hstep : RecordStep P R isMyProposal m d d') : VotesVerified P R d' := by
  intro i k x sig member' hmember' hvoted
  obtain ⟨hheight, hround⟩ := Prod.mk.inj hstep.frame.1
  rw [hheight, hround]
  rcases hstep.voted hvoted with hold | ⟨hkind, rfl, rfl, rfl⟩
  · exact hd i k x sig member' hmember' hold
  · rw [hmember] at hmember'
    cases hmember'
    obtain ⟨word, hword, hdata⟩ := hformed.vote k hkind
    obtain ⟨h₁, h₂⟩ := Prod.mk.inj hkey
    exact ⟨word, by rw [h₂, hword], by rw [h₁, ← hdata, hverify]⟩

theorem CertRecord.step {member : SortedRosterMember} (hd : CertRecord P s d) (hshape : Shape s.roster d)
    (hlog : LogInv P s) (hkey : d.key = (m.height, m.round)) (hmember : s.roster.members[m.rosterI]? = some member)
    (hverify : P.verify m.sig member.pubKey m.signedData = true) (hformed : Formed P s.roster member m)
    (hsig : m.packetType = packetTypeProposalChunk → m.sig ≠ TMSig.nil)
    (hown : m.packetType = packetTypeProposalChunk → member.pubKey = s.myPubKey → OwnSigned P s m)
    (hstep : RecordStep P s.roster (member.pubKey = s.myPubKey) m d d') : CertRecord P s d' := by
  have hframe := hstep.frame.1
  have hagreed := hstep.agreed hd.agreed fun hzero hne => absurd (hd.fresh hzero) hne
  refine ⟨hd.proposal.step hstep hsig, hd.votes.step hkey hmember hverify hformed hstep, hagreed, ?_, ?_⟩
  · cases hstep with
    | same => exact hd.fresh
    | vote => exact hd.fresh
    | store htype hdr rest hread b hbase hnew hlen =>
      have hn := (store_frame (P := P) (hbase.shape hshape) hnew hlen rfl).2.2.1
      exact fun hzero => absurd (hn.symm.trans hzero) (Nat.succ_ne_zero _)
    | flush htype hdr rest hread hmine hn hsame old hold hne hdiff =>
      have hme := of_decide_eq_true hmine
      obtain ⟨o, hproposer⟩ := hformed.chunk htype
      obtain ⟨h₁, h₂⟩ := Prod.mk.inj hkey
      rw [← h₁, ← h₂, hme] at hproposer
      exact absurd ((hd.own_chunk hlog hproposer (hown htype hme) htype hkey hread hn).2 old hold hne) hdiff
    | faulty => exact hd.fresh
  · cases hstep with
    | same => exact hd.own
    | vote => exact hd.own
    | store htype hdr rest hread b hbase hnew hlen =>
      obtain ⟨o, hsender⟩ := hformed.chunk htype
      obtain ⟨h₁, h₂⟩ := Prod.mk.inj hkey
      rw [← h₁, ← h₂] at hsender
      by_cases hme : member.pubKey = s.myPubKey
      · have hsigned := hown htype hme
        rw [hme] at hsender
        cases hbase with
        | same hn hsame =>
          exact hd.own.store hshape htype hread hkey hsigned hsame.1 (.inr hsame.2.1) (fun _ => hsame.2)
            (fun hzero => absurd hzero hn.ne') hnew hlen
        | flushed hn _ hdiff =>
          exact absurd (hd.own_chunk hlog hsender hsigned htype hkey hread hn).1 hdiff
        | first hn =>
          have hempty : OwnChunks P s (d.resetProposal hdr.proposalSize) :=
            fun _ _ j sig hj hne => absurd (getElem?_resetProposal hj) hne
          exact hempty.store (hshape.resetProposal _) htype hread hkey hsigned (by simp [RoundData.resetProposal])
            (.inl (hd.fresh hn)) (fun hpos => absurd hn hpos.ne') (fun _ _ h => eq_of_mem_replicate h) hnew hlen
      -- another member's chunk, so this is not the own proposal
      · intro o' hproposer
        rw [(Prod.mk.inj hframe).1, (Prod.mk.inj hframe).2, hsender] at hproposer
        exact absurd (congrArg Prod.snd (Except.ok.inj hproposer)) hme
    | flush htype hdr rest hread hmine hn hsame old hold hne hdiff =>
      exact fun _ _ j sig hj hne => absurd (eq_of_mem_replicate (mem_of_getElem? hj)) hne
    | faulty => exact hd.own

/-! ### The certificate of a good record -/

theorem keyAt_injective (hnodup : (roster.map SortedRosterMember.pubKey).Nodup) (hi : roster[i]? = some member)
    (hj : roster[j]? = some member') (hkey : keyAt roster i = keyAt roster j) : i = j := by
  obtain ⟨hilt, -⟩ := List.getElem?_eq_some_iff.mp hi
  refine (List.getElem?_inj (by simpa using hilt) hnodup).mp ?_
  rw [List.getElem?_map, List.getElem?_map, hi, hj, Option.map_some, Option.map_some, ← keyAt_eq hi, ← keyAt_eq hj,
    hkey]

theorem signing_indices (d : RoundData) : (signing d).Pairwise fun x y => x.2 ≠ y.2 := by
  refine List.Pairwise.filter _ (pairwise_map.mp ?_)
  rw [zipIdx_map_snd]
  exact nodup_range'

theorem signing_lt (hx : x ∈ signing d) : x.2 < d.msgValSigs.length :=
  (List.getElem?_eq_some_iff.mp (mem_signing.mp hx).1).1

theorem signing_voted (hx : x ∈ signing d) : d.Voted x.2 true d.proposalId x.1.precommit.2 := by
  obtain ⟨hget, hid, hsig⟩ := mem_signing.mp hx
  rw [RoundData.Voted, slotAt_of_getElem? hget, ← hid]
  exact ⟨rfl, hsig⟩

theorem yesPrecommit_le (hshape : Shape R d) (hd : Agreed (fun _ => True) d) (hn : 0 < d.proposalSigsN)
    (hsigs : p.signatures = (signing d).map fun x => ⟨keyAt R.members x.2, x.1.precommit.2.bytes⟩)
    (hmembers : ∀ x ∈ signing d, ∃ member, R.members[x.2]? = some member) :
    d.counts.get .yesPrecommit ≤ stakeOf R.members (signers R p) := by
  rw [hshape.counts, tally, ConsensusCounts.get_ofFn, stakeWhere_eq_stakeOf]
  refine Finset.sum_le_sum_of_subset fun i hi => ?_
  obtain ⟨hlt, hvote, hyes⟩ := Finset.mem_filter.mp hi
  rw [Finset.mem_range] at hlt
  have hget : d.msgValSigs[i]? = some (slotAt d.msgValSigs i) := by simp [slotAt, hlt]
  have hid := hd hn i true _ _ trivial ⟨rfl, hvote⟩ hyes
  have hx : (slotAt d.msgValSigs i, i) ∈ signing d := mem_signing.mpr ⟨hget, hid, hvote⟩
  obtain ⟨member, hmember⟩ := hmembers _ hx
  refine Finset.mem_filter.mpr ⟨Finset.mem_range.mpr (hshape.slots ▸ hlt), ?_⟩
  rw [hmember, Option.any_some, hsigs, any_map, any_eq_true]
  exact ⟨_, hx, by simp [keyAt_eq hmember]⟩

theorem CertRecord.certified (hd : CertRecord P s d) (hshape : Shape s.roster d)
    (hvalid : d.proposalCheckedValidity.1 = .pass) (hbig : ReachesBig P s d .yesPrecommit)
    (hfat : roundDataToFatPointer P d s.roster.members = .ok p) (hround : d.round < 2 ^ 31)
    (hnodup : (s.roster.members.map SortedRosterMember.pubKey).Nodup) :
    Certified P ⟨s.roster, d, d.proposal, p, d.proposalSigs⟩ := by
  obtain ⟨hnames, hsigs, hmembers⟩ := roundDataToFatPointer_eq hfat hround
  obtain ⟨hfull, hhash⟩ := hd.proposal.pass hvalid
  have hsigner : ∀ x ∈ signing d, x.2 ∈ signers s.roster p := by
    intro x hx
    obtain ⟨member, hmember⟩ := hmembers x hx
    refine Finset.mem_filter.mpr ⟨Finset.mem_range.mpr (hshape.slots ▸ signing_lt hx), ?_⟩
    rw [hmember, Option.any_some, hsigs, any_map, any_eq_true]
    exact ⟨x, hx, by simp [keyAt_eq hmember]⟩
  have hverified : ∀ sig ∈ p.signatures, P.verify ⟨sig.voteSignature⟩ sig.pubKey
      (sig.pubKey.bytes.toList ++ p.voteForBlockWithoutFinalizerPublicKey.toList) = true := by
    rw [hsigs, forall_mem_map]
    intro x hx
    obtain ⟨member, hmember⟩ := hmembers x hx
    obtain ⟨word, hword, hverify⟩ := hd.votes x.2 true _ _ member hmember (signing_voted hx)
    rw [voteRoundWord, addU_ok (by simp only [if_true]; omega)] at hword
    cases hword
    rw [hnames, keyAt_eq hmember, ← append_assoc, ← append_assoc]
    exact hverify
  refine ⟨by rw [hnames, hhash], ?_, ?_, hverified, fun batch hbatch => hbatch _ ?_, ?_⟩
  · rw [hsigs, map_map]
    refine pairwise_map.mpr ((signing_indices d).imp_of_mem fun {x y} hx hy hne hkey => hne ?_)
    obtain ⟨member, hmember⟩ := hmembers x hx
    obtain ⟨member', hmember'⟩ := hmembers y hy
    exact keyAt_injective hnodup hmember hmember' hkey
  · rw [hsigs, forall_mem_map]
    intro x hx
    obtain ⟨member, hmember⟩ := hmembers x hx
    exact ⟨x.2, hsigner x hx, member, hmember, (keyAt_eq hmember).symm⟩
  · rw [inflate, map_map, forall_mem_map]
    intro sig hsig
    simp only [Function.comp_apply, toBytes_template]
    exact hverified sig hsig
  · obtain ⟨th, hth, hle⟩ := hbig
    exact ⟨Finset.filter_subset _ _, th, hth,
      hle.trans (yesPrecommit_le hshape hd.agreed (hasFullProposal_iff.mp hfull).1 hsigs hmembers)⟩

/-! ### Along a run -/

/-- A chunk that others may deliver: signed with other than zero bytes, and under the node's own key only as
the node itself signed it. -/
def CleanMsg (P : Params) (s : TMState) (m : Msg) (key : PubKeyID) : Prop :=
  m.packetType = packetTypeProposalChunk → m.sig ≠ TMSig.nil ∧ (key = s.myPubKey → OwnSigned P s m)

theorem CertRecord.of_records (hsigned : ∀ e ∈ s.signed, e ∈ s'.signed) (hroster : s'.roster = s.roster)
    (hme : s'.myPubKey = s.myPubKey ∧ s'.mySigningKey = s.mySigningKey) (hd : CertRecord P s d) :
    CertRecord P s' d := by
  refine ⟨hd.proposal, by rw [hroster]; exact hd.votes, hd.agreed, hd.fresh, ?_⟩
  intro o hproposer j sig hj hne
  rw [hroster, hme.1] at hproposer
  obtain ⟨hdr, data, hmem, hrest⟩ := hd.own o hproposer j sig hj hne
  exact ⟨hdr, data, hsigned _ hmem, by rw [hme.2]; exact hrest⟩

theorem CertRecord.emptyRound (P : Params) (s : TMState) (round : ℕ) :
    CertRecord P s (emptyRound s.height round s.roster.members) where
  proposal := .emptyRound P _ _ _
  votes _ _ _ _ _ _ hvoted := absurd hvoted (not_voted_of_replicate rfl)
  agreed h := absurd h (Nat.lt_irrefl 0)
  fresh _ := rfl
  own _ _ _ _ hj := absurd (mem_of_getElem? hj) not_mem_nil

theorem RecordMove.certRecord (h : RecordMove P Heard s d d') (hd : CertRecord P s d) (hshape : Shape s.roster d)
    (hlog : LogInv P s) (hheard : ∀ m key, Heard m key → CleanMsg P s m key)
    (hsign : ∀ data, P.sign s.mySigningKey data ≠ TMSig.nil) : CertRecord P s d' := by
  have hproposal := h.proposalOk hd.proposal (fun m key hm htype => (hheard m key hm htype).1) hsign
  cases h with
  | same => exact hd
  | heard _ m member hkey hheight _ hmember hverify hformed hsource hstep =>
    refine hd.step hshape hlog (by rw [hkey, hheight]) hmember hverify hformed (fun htype => ?_) (fun htype hme => ?_)
      hstep
    · rcases hsource with h | ⟨-, hsig, -⟩
      · exact (hheard m _ h htype).1
      · rw [hsig]
        exact hsign _
    · rcases hsource with h | ⟨-, hown⟩
      · exact (hheard m _ h htype).2 hme
      · exact hown
  | checked => exact ⟨hproposal, hd.votes, hd.agreed, hd.fresh, hd.own⟩
  | timed => exact ⟨hproposal, hd.votes, hd.agreed, hd.fresh, hd.own⟩

/-- The records of the current height are good, and so were those of all decisions. -/
structure Certifying (P : Params) (s : TMState) : Prop where
  records : ∀ d ∈ s.roundsData, d.height = s.height → CertRecord P s d
  pushed : ∀ dec ∈ s.pushed, dec.roundData.round < 2 ^ 31 →
    (dec.roster.members.map SortedRosterMember.pubKey).Nodup → Certified P dec
  sign : ∀ data, P.sign s.mySigningKey data ≠ TMSig.nil

theorem Move.certifying (h : Move P wraps Heard s s') (hs : Inv P False s) (hI : Certifying P s)
    (hheard : ∀ m key, Heard m key → CleanMsg P s m key) : Certifying P s' := by
  have hrecords := h.current_records hs.wf hI.records fun hroster =>
    have hlater {d : RoundData} : CertRecord P s d → CertRecord P s' d :=
      .of_records (fun _ => h.signed_subset) hroster h.identity
    ⟨fun round => hlater (.emptyRound P s round), fun d _ hd hheight hrec hmove =>
      hlater (hmove.certRecord hrec (hs.wf.shape d hd hheight) (hs.log id) hheard hI.sign)⟩
  refine ⟨hrecords, ?_, by rw [h.identity.2]; exact hI.sign⟩
  cases h with
  | push i d p hd hheight hvalid hbig hfat =>
    intro dec hdec hround hnodup
    rcases mem_cons.mp hdec with rfl | hdec
    · have hmem := mem_of_getElem? hd
      exact (hI.records d hmem hheight).certified (hs.wf.shape d hmem hheight) hvalid hbig hfat hround hnodup
    · exact hI.pushed dec hdec hround hnodup
  | _ => exact hI.pushed

theorem CleanMsg.later (hsigned : ∀ e ∈ s.signed, e ∈ s'.signed)
    (hme : s'.myPubKey = s.myPubKey ∧ s'.mySigningKey = s.mySigningKey) (h : CleanMsg P s m key) :
    CleanMsg P s' m key := by
  intro htype
  obtain ⟨hsig, hown⟩ := h htype
  refine ⟨hsig, fun hkey => ?_⟩
  obtain ⟨hsame, e, he, hcovers⟩ := hown (hkey.trans hme.1)
  exact ⟨by rw [hme.2, hsame], e, hsigned e he, hcovers⟩

theorem Moves.certifying (h : Moves P False Heard s s') (hs : Inv P False s) (hI : Certifying P s)
    (hheard : ∀ m key, Heard m key → CleanMsg P s m key) : Certifying P s' := by
  induction h with
  | refl => exact hI
  | tail hmoves hmove ih =>
    have hgrown := Moves.signed_subset hmoves
    exact hmove.certifying (Moves.inv hmoves hs) ih fun m key hm => (hheard m key hm).later hgrown.1 hgrown.2

/-- The round counter does not wrap, and only clean chunks are delivered. -/
def CleanInput (P : Params) (s : TMState) (input : Input) : Prop :=
  NoWrap P s input ∧ ∀ m key, heardIn P s input m key → CleanMsg P s m key

theorem init_certifying (hsign : ∀ data, P.sign mySigningKey data ≠ TMSig.nil) :
    Certifying P (TMState.init P mySigningKey roster startup) :=
  ⟨fun _ hd => absurd hd not_mem_nil, fun _ hdec => absurd hdec not_mem_nil, hsign⟩

/-- Every decision of a run with clean inputs is certified. -/
theorem certified_of_reaches {cl : Closures} {mySigningKey : SigningKey} {roster : SortedRoster}
    {startup : List RoundData} {now₀ : Instant} {r : EStateM.Result Panic TMState Unit}
    (hsign : ∀ data, P.sign mySigningKey data ≠ TMSig.nil)
    (h : Reaches P cl (CleanInput P) (TMState.init P mySigningKey roster startup) now₀ r) :
    ∀ dec ∈ (endState r).pushed, dec.roundData.round < 2 ^ 31 →
      (dec.roster.members.map SortedRosterMember.pubKey).Nodup → Certified P dec := by
  obtain ⟨s, hs, -, hI⟩ := h.invariant False (I := Certifying P) (init_inv _ _ _) rfl (fun _ _ _ hok => hok.1)
    (fun s hmoves => hmoves.certifying (init_inv _ _ _) (init_certifying hsign) fun _ _ hm => hm.elim)
    fun s input s' hok hinv hI hmoves => hmoves.certifying hinv hI hok.2
  rw [← hs.sameTrace.pushed]
  exact hI.pushed

/-- A condition that can be evaluated: the packet carries no chunk, or another member's. -/
def foreignChunk (P : Params) (s : TMState) : Input → Bool
  | .tick _ => P.overflowChecks
  | .recv packet => (carried P s.roster.members packet).all fun m =>
    m.packetType != packetTypeProposalChunk || (m.sig != TMSig.nil && keyAt s.roster.members m.rosterI != s.myPubKey)

theorem cleanInput_of_foreignChunk (s : TMState) (input : Input) (h : foreignChunk P s input = true) :
    CleanInput P s input := by
  cases input with
  | tick now => exact ⟨.inl h, fun _ _ hm => hm.elim⟩
  | recv packet =>
    refine ⟨trivial, ?_⟩
    rintro m key ⟨hcarries, member, hacc, rfl⟩ hkind
    have hm := all_eq_true.mp h m hcarries.mem_carried
    simp only [hkind, bne_self_eq_false, Bool.false_or, Bool.and_eq_true, bne_iff_ne, keyAt_eq hacc.here] at hm
    exact ⟨hm.1, fun hme => absurd hme hm.2⟩

def decidingInputs (P : Params) : List Input :=
  let key := keyNo 2
  let hdr := chunkHeader P 0 0 [7] (-1) 0
  let valueId := idFromValue P [7]
  [.recv (chunkPacket hdr [7] (P.sign key.bytes (hdr.writeTo ++ [7]))),
    .recv (votePacket true 0 0 valueId 0 (P.sign key.bytes (voteBytes key valueId 0 (2 ^ 31)))),
    .tick 1]

theorem certified_of_reaches_minorityNode :
    let P := Params.sample true
    let r := life P (.idle minorityRoster) 0 (decidingInputs P) (minorityNode P)
    (endState r).pushed.map Decision.value = [[7]] ∧
      ∀ dec ∈ (endState r).pushed, dec.roundData.round < 2 ^ 31 →
        (dec.roster.members.map SortedRosterMember.pubKey).Nodup → Certified P dec :=
  ⟨by decide +kernel, certified_of_reaches (sampleSign_ne_nil (by decide))
    (reaches_life_of cleanInput_of_foreignChunk (by decide +kernel))⟩

/-! ### A proposer with a key of small order

The proposer's first chunk comes with the all-zero signature. The record counts it and the value passes;
the slot still looks empty, so a second chunk overwrites the value, and the third shows the proposer
faulty, which lets the tick go by the cached verdict. -/

def weakRoster : SortedRoster := threeMembersFrom 1 3 1 0 minorityRoster.total_lt

def overwritingInputs (P : Params) : List Input :=
  let hdr := chunkHeader P 0 0 [7] (-1) 0
  [.recv (chunkPacket hdr [7] TMSig.nil), .tick 1, .recv (chunkPacket hdr [9] (sigNo 1)),
    .recv (chunkPacket hdr [9] (sigNo (2 ^ 255 - 20))), .recv (votePacket true 0 0 (idFromValue P [7]) 0 (sigNo 1)),
    .tick 2]

/-- The node decides `[9]` with a certificate for `[7]`. -/
theorem certificate_names_other_value :
    let P := Params.sample true
    let r := life P (.idle weakRoster) 0 (overwritingInputs P) (TMState.init P (keyNo 3).bytes weakRoster [])
    Reaches P (.idle weakRoster) (fun _ _ => True) (TMState.init P (keyNo 3).bytes weakRoster []) 0 r ∧
      ∃ dec ∈ (endState r).pushed, dec.value = [9] ∧ dec.roundData.key = (0, 0) ∧
        (dec.roster.members.map SortedRosterMember.pubKey).Nodup ∧
        dec.fatPointer.voteForBlockWithoutFinalizerPublicKey.toList.take 32 = (idFromValue P [7]).bytes.toList ∧
        ¬ Certified P dec := by
  intro P r
  have hpushed : (endState r).pushed.map (fun dec => (dec.value, dec.roundData.key,
      dec.roster.members.map SortedRosterMember.pubKey,
      dec.fatPointer.voteForBlockWithoutFinalizerPublicKey.toList.take 32)) =
        [([9], (0, 0), [keyNo 1, keyNo 3, keyNo 4], (idFromValue P [7]).bytes.toList)] := by
    decide +kernel
  obtain ⟨dec, hdec, heq⟩ := mem_map.mp (hpushed ▸ mem_singleton_self _)
  simp only [Prod.mk.injEq] at heq
  obtain ⟨hvalue, hkey, hmembers, hnamed⟩ := heq
  refine ⟨reaches_life (fun _ _ => trivial) _ _ _, dec, hdec, hvalue, hkey, by rw [hmembers]; decide, hnamed,
    fun hcert => ?_⟩
  have hnames := congrArg (List.take 32) hcert.names
  rw [hnamed, hvalue, append_assoc, take_left' (by simp)] at hnames
  exact absurd hnames (by decide)

end Crosslink.Tenderlink

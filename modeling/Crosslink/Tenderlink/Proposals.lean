import Crosslink.Tenderlink.Invariant

/-!
# Proposals and votes in a record

`ProposalOk` says what the cached verdict of a record is worth: the signature count is right, a complete
value that is not marked faulty hashes to the announced id, and so does every value that once passed. It
holds as long as no chunk comes with the all-zero signature, which the record takes for a missing chunk.
`Agreed` says that the votes counted for the proposal are votes for its id.
-/

namespace Crosslink.Tenderlink

open Codec List

variable {P : Params} {wraps : Prop} {Heard : Msg → PubKeyID → Prop} {s s' : TMState} {R : SortedRoster}
  {d d' : RoundData} {m : Msg} {isMyProposal : Bool}

/-! ### The proposal -/

structure ProposalOk (P : Params) (d : RoundData) : Prop where
  seen : d.proposalSigsN = d.proposalSigs.countP fun sig => sig ≠ TMSig.nil
  hash : d.hasFullProposal = true → d.proposalIsFaulty = false → idFromValue P d.proposal = d.proposalId
  pass : d.proposalCheckedValidity.1 = .pass →
    d.hasFullProposal = true ∧ idFromValue P d.proposal = d.proposalId

theorem hasFullProposal_iff : d.hasFullProposal = true ↔
    0 < d.proposalSigsN ∧ d.proposalSigsN = d.proposalSigs.length := by
  simp [RoundData.hasFullProposal]

theorem ProposalOk.of_unseen (hn : d.proposalSigsN = 0) (hsigs : ∀ sig ∈ d.proposalSigs, sig = TMSig.nil)
    (hpass : d.proposalCheckedValidity.1 ≠ .pass) : ProposalOk P d where
  seen := by
    rw [hn, eq_comm, countP_eq_zero]
    simpa using hsigs
  hash h := by
    have := (hasFullProposal_iff.mp h).1
    omega
  pass h := absurd h hpass

theorem ProposalOk.emptyRound (P : Params) (height round : ℕ) (roster : List SortedRosterMember) :
    ProposalOk P (emptyRound height round roster) :=
  .of_unseen rfl (fun _ h => absurd h not_mem_nil) nofun

theorem ProposalOk.flush (P : Params) (d : RoundData) (valueId : ValueId) (validRound : ℤ)
    (roster : List SortedRosterMember) (size : ℕ) :
    ProposalOk P (d.flushForAmnesiacProposer valueId validRound roster size) :=
  .of_unseen rfl (fun _ h => eq_of_mem_replicate h) nofun

theorem ProposalOk.not_pass (hd : ProposalOk P d) {i : ℕ} (hi : d.proposalSigs[i]? = some TMSig.nil) :
    d.proposalCheckedValidity.1 ≠ .pass := by
  intro hpass
  have hfull := (hasFullProposal_iff.mp (hd.pass hpass).1).2
  rw [hd.seen, countP_eq_length] at hfull
  simpa using hfull _ (mem_of_getElem? hi)

theorem ProposalOk.chunkBase (hd : ProposalOk P d) (h : ChunkBase R isMyProposal m hdr d b) : ProposalOk P b := by
  cases h with
  | same => exact hd
  | flushed => exact .flush P d _ _ _ _
  | first hn =>
    refine .of_unseen hn (fun _ h => eq_of_mem_replicate h) fun hpass => ?_
    have := (hasFullProposal_iff.mp (hd.pass hpass).1).1
    omega

theorem countP_set_nil {sigs : List TMSig} (hi : sigs[i]? = some TMSig.nil) (hsig : sig ≠ TMSig.nil) :
    (sigs.set i sig).countP (fun sig => sig ≠ TMSig.nil) = sigs.countP (fun sig => sig ≠ TMSig.nil) + 1 := by
  obtain ⟨hlt, hget⟩ := List.getElem?_eq_some_iff.mp hi
  rw [List.countP_set hlt, hget]
  simp [hsig]

theorem adopt_proposal (R : SortedRoster) (d : RoundData) (valueId : ValueId) :
    (adopt R d valueId).proposal = d.proposal ∧ (adopt R d valueId).proposalSigs = d.proposalSigs ∧
      (adopt R d valueId).proposalSigsN = d.proposalSigsN ∧
      (adopt R d valueId).proposalCheckedValidity = d.proposalCheckedValidity := by
  unfold adopt
  split <;> exact ⟨rfl, rfl, rfl, rfl⟩

theorem ProposalOk.step (hd : ProposalOk P d) (h : RecordStep P R isMyProposal m d d')
    (hsig : m.packetType = packetTypeProposalChunk → m.sig ≠ TMSig.nil) : ProposalOk P d' := by
  cases h with
  | same => exact hd
  | vote => exact ⟨hd.seen, hd.hash, hd.pass⟩
  | store htype hdr rest hread b hbase hnew =>
    have hb := hd.chunkBase hbase
    obtain ⟨hp, hs, hn, hv⟩ := adopt_proposal R (withChunk m b) m.valueId
    have hseen : (withChunk m b).proposalSigsN = (withChunk m b).proposalSigs.countP fun sig => sig ≠ TMSig.nil := by
      change b.proposalSigsN + 1 = (b.proposalSigs.set m.chunkI m.sig).countP _
      rw [countP_set_nil hnew (hsig htype), hb.seen]
    have hopen := hb.not_pass hnew
    unfold checkFullProposal
    split
    · exact ⟨by rw [hn, hs]; exact hseen, nofun, fun hpass => absurd (hv ▸ hpass) hopen⟩
    · rename_i hcheck
      refine ⟨by rw [hn, hs]; exact hseen, fun hfull _ => ?_, fun hpass => absurd (hv ▸ hpass) hopen⟩
      by_contra hne
      exact hcheck ⟨(hasFullProposal_iff.mp hfull).2, fun heq => hne heq.symm⟩
  | flush => exact .flush P d _ _ _ _
  | faulty => exact ⟨hd.seen, nofun, hd.pass⟩

theorem RecordMove.proposalOk (h : RecordMove P Heard s d d') (hd : ProposalOk P d)
    (hheard : ∀ m key, Heard m key → m.packetType = packetTypeProposalChunk → m.sig ≠ TMSig.nil)
    (hsign : ∀ data, P.sign s.mySigningKey data ≠ TMSig.nil) : ProposalOk P d' := by
  cases h with
  | same => exact hd
  | heard _ m member _ _ _ _ _ _ hsource hstep =>
    refine hd.step hstep fun htype => ?_
    rcases hsource with h | ⟨-, hsig, -⟩
    · exact hheard m _ h htype
    · rw [hsig]
      exact hsign _
  | checked verdict hopen hverdict =>
    refine ⟨hd.seen, hd.hash, fun hpass => ?_⟩
    rcases hverdict with ⟨-, hfail⟩ | ⟨hsound, hfull⟩
    · rw [hfail] at hpass
      cases hpass
    · exact ⟨hfull, hd.hash hfull hsound⟩
  | timed => exact ⟨hd.seen, hd.hash, hd.pass⟩

/-! ### Votes -/

theorem slotAt_set (slots : List VoteSlots) (i j : ℕ) (v : VoteSlots) :
    slotAt (slots.set i v) j = if i = j ∧ i < slots.length then v else slotAt slots j := by
  simp only [slotAt, getD_eq_getElem?_getD, getElem?_set]
  split_ifs with h₁ h₂ h₃ h₃ <;> simp_all
  omega

theorem slotAt_purge (slots : List VoteSlots) (valueId : ValueId) (i : ℕ) :
    slotAt (slots.map (VoteSlots.purge valueId)) i = (slotAt slots i).purge valueId := by
  simp only [slotAt, getD_eq_getElem?_getD, getElem?_map]
  cases slots[i]? with
  | some v => rfl
  | none => rfl

theorem slotAt_replicate (n i : ℕ) : slotAt (List.replicate n VoteSlots.nil) i = VoteSlots.nil := by
  simp only [slotAt, getD_eq_getElem?_getD, getElem?_replicate]
  split <;> rfl

theorem VoteSlots.purge_get (v : VoteSlots) (valueId : ValueId) (isPrecommit : Bool) :
    (v.purge valueId).get isPrecommit =
      if (v.get isPrecommit).isFault valueId then ValSig.nil else v.get isPrecommit := by
  cases isPrecommit <;> rfl

/-- The member at `i` has a counted vote in the record. -/
def RoundData.Voted (d : RoundData) (i : ℕ) (isPrecommit : Bool) (valueId : ValueId) (sig : TMSig) : Prop :=
  (slotAt d.msgValSigs i).get isPrecommit = (valueId, sig) ∧ sig ≠ TMSig.nil

def Msg.IsVote (m : Msg) (isPrecommit : Bool) : Prop :=
  m.packetType = if isPrecommit then packetTypePrecommitSignatures else packetTypePrevoteSignatures

theorem voted_congr (h : d'.msgValSigs = d.msgValSigs) :
    d'.Voted i isPrecommit valueId sig ↔ d.Voted i isPrecommit valueId sig := by
  unfold RoundData.Voted
  rw [h]

theorem not_voted_of_replicate (h : d.msgValSigs = List.replicate n VoteSlots.nil) :
    ¬ d.Voted i isPrecommit valueId sig := by
  rintro ⟨hslot, hsig⟩
  rw [h, slotAt_replicate] at hslot
  have : sig = TMSig.nil := by cases isPrecommit <;> exact (congrArg Prod.snd hslot).symm
  exact hsig this

theorem recordVote_voted (h : (recordVote R k m d).Voted i isPrecommit valueId sig) :
    d.Voted i isPrecommit valueId sig ∨ (i = m.rosterI ∧ isPrecommit = k ∧ valueId = m.valueId ∧ sig = m.sig) := by
  obtain ⟨hslot, hsig⟩ := h
  change (slotAt (d.msgValSigs.set _ _) i).get isPrecommit = _ at hslot
  rw [slotAt_set] at hslot
  split_ifs at hslot with hi
  · obtain ⟨rfl, -⟩ := hi
    by_cases hk : isPrecommit = k
    · subst hk
      rw [VoteSlots.get_set_self] at hslot
      cases hslot
      exact .inr ⟨rfl, rfl, rfl, rfl⟩
    · rw [VoteSlots.get_set_of_ne _ hk] at hslot
      exact .inl ⟨hslot, hsig⟩
  · exact .inl ⟨hslot, hsig⟩

theorem adopt_voted (h : (adopt R d adopted).Voted i isPrecommit valueId sig) :
    d.Voted i isPrecommit valueId sig ∧
      (d.proposalId = ValueId.nil → valueId ≠ ValueId.nil → valueId = (adopt R d adopted).proposalId) := by
  obtain ⟨hslot, hsig⟩ := h
  unfold adopt at hslot ⊢
  split at hslot
  · rename_i hid
    change (slotAt (d.msgValSigs.map (VoteSlots.purge adopted)) i).get isPrecommit = _ at hslot
    rw [slotAt_purge, VoteSlots.purge_get] at hslot
    split_ifs at hslot with hfault
    · exact absurd (congrArg Prod.snd hslot).symm hsig
    · rw [if_pos hid]
      refine ⟨⟨hslot, hsig⟩, fun _ hne => ?_⟩
      rw [hslot] at hfault
      simpa [ValSig.isFault, hne] using hfault
  · rename_i hid
    exact ⟨⟨hslot, hsig⟩, fun h => absurd h hid⟩

theorem checkFullProposal_votes (P : Params) (d : RoundData) :
    (checkFullProposal P d).1.msgValSigs = d.msgValSigs ∧ (checkFullProposal P d).1.proposalId = d.proposalId ∧
      (checkFullProposal P d).1.proposalSigsN = d.proposalSigsN := by
  unfold checkFullProposal
  split <;> exact ⟨rfl, rfl, rfl⟩

theorem ChunkBase.voted (h : ChunkBase R isMyProposal m hdr d b) (hb : b.Voted i isPrecommit valueId sig) :
    d.Voted i isPrecommit valueId sig ∧ b.proposalId = d.proposalId := by
  cases h with
  | same => exact ⟨hb, rfl⟩
  | flushed => exact absurd hb (not_voted_of_replicate rfl)
  | first => exact ⟨hb, rfl⟩

theorem RecordStep.voted (h : RecordStep P R isMyProposal m d d') (hd' : d'.Voted i isPrecommit valueId sig) :
    d.Voted i isPrecommit valueId sig ∨
      (m.IsVote isPrecommit ∧ i = m.rosterI ∧ valueId = m.valueId ∧ sig = m.sig) := by
  cases h with
  | same => exact .inl hd'
  | vote k htype =>
    rcases recordVote_voted hd' with hd | ⟨rfl, rfl, rfl, rfl⟩
    · exact .inl hd
    · exact .inr ⟨htype, rfl, rfl, rfl⟩
  | store htype hdr rest hread b hbase =>
    have hadopt := (voted_congr (checkFullProposal_votes P _).1).mp hd'
    have hb : b.Voted i isPrecommit valueId sig := (adopt_voted hadopt).1
    exact .inl (hbase.voted hb).1
  | flush => exact absurd hd' (not_voted_of_replicate rfl)
  | faulty => exact .inl hd'

/-- Among the members in `Good`, the votes for a value in a record with a proposal are for the proposal. -/
def Agreed (Good : ℕ → Prop) (d : RoundData) : Prop :=
  0 < d.proposalSigsN → ∀ i isPrecommit valueId sig, Good i → d.Voted i isPrecommit valueId sig →
    valueId ≠ ValueId.nil → valueId = d.proposalId

theorem RecordStep.agreed (h : RecordStep P R isMyProposal m d d') (hd : Agreed Good d)
    (hstale : d.proposalSigsN = 0 → d.proposalId ≠ ValueId.nil → ∀ i isPrecommit valueId sig, Good i → d.Voted i isPrecommit valueId sig → valueId ≠ ValueId.nil → valueId = d.proposalId) :
    Agreed Good d' := by
  intro hn i k x sig hgood hvoted hx
  cases h with
  | same => exact hd hn i k x sig hgood hvoted hx
  | vote k' htype hstatus =>
    rcases recordVote_voted hvoted with hold | ⟨rfl, rfl, rfl, rfl⟩
    · exact hd hn i k x sig hgood hold hx
    · unfold voteStatus at hstatus
      have hn' : d.proposalSigsN ≠ 0 := Nat.pos_iff_ne_zero.mp hn
      change m.valueId = d.proposalId
      by_contra hne
      exact hstatus (by rw [if_neg hx, if_neg hn', if_pos (Ne.symm hne)])
  | store htype hdr rest hread b hbase =>
    obtain ⟨hslots, hid, -⟩ := checkFullProposal_votes P (adopt R (withChunk m b) m.valueId)
    obtain ⟨hb, hadopted⟩ := adopt_voted ((voted_congr hslots).mp hvoted)
    rw [hid]
    by_cases hnil : b.proposalId = ValueId.nil
    · exact hadopted hnil hx
    · obtain ⟨hold, hbid⟩ := hbase.voted hb
      have hkeep : (adopt R (withChunk m b) m.valueId).proposalId = b.proposalId := by
        rw [adopt, if_neg (show (withChunk m b).proposalId ≠ ValueId.nil from hnil)]
        rfl
      rw [hkeep, hbid]
      rw [hbid] at hnil
      rcases Nat.eq_zero_or_pos d.proposalSigsN with hzero | hpos
      · exact hstale hzero hnil i k x sig hgood hold hx
      · exact hd hpos i k x sig hgood hold hx
  | flush => exact absurd hvoted (not_voted_of_replicate rfl)
  | faulty => exact hd hn i k x sig hgood hvoted hx

/-! ### All records of the current height -/

/-- What every move keeps of a record, and what new records have, holds of all records of the current
height: none is at a new height yet. -/
theorem Move.current_records {I I' : RoundData → Prop} (h : Move P wraps Heard s s') (hs : Wf s)
    (hI : ∀ d ∈ s.roundsData, d.height = s.height → I d)
    (hkeep : s'.roster = s.roster → (∀ round, I' (emptyRound s.height round s.roster.members)) ∧
      ∀ d d', d ∈ s.roundsData → d.height = s.height → I d → RecordMove P Heard s d d' → I' d') :
    ∀ d' ∈ s'.roundsData, d'.height = s'.height → I' d' := by
  intro d' hd' hheight
  rcases h.height_cases with ⟨hsame, hroster⟩ | ⟨hnext, -, -, -, hrecords⟩
  · obtain ⟨hempty, hmove⟩ := hkeep hroster
    rcases h.record hd' with ⟨d, hd, hrecord⟩ | ⟨round, rfl⟩
    · exact hmove d d' hd (by rw [← hrecord.height, hheight, hsame])
        (hI d hd (by rw [← hrecord.height, hheight, hsame])) hrecord
    · exact hempty round
  · rw [hrecords] at hd'
    have := hs.height_le d' (mem_of_mem_filter hd')
    omega

/-- `I` holds of the records of the current height, `J` of the others and of the committed ones. -/
structure Known (I J : RoundData → Prop) (s : TMState) : Prop where
  current : ∀ d ∈ s.roundsData, d.height = s.height → I d
  past : ∀ d ∈ s.roundsData, d.height ≠ s.height → J d
  cached : ∀ d ∈ s.recentCommitRoundCache, J d

theorem Known.all (h : Known I J s) (hIJ : ∀ d ∈ s.roundsData, d.height = s.height → I d → J d)
    (hd : d ∈ s.roundsData ∨ d ∈ s.recentCommitRoundCache) : J d := by
  rcases hd with hd | hd
  · by_cases hheight : d.height = s.height
    · exact hIJ d hd hheight (h.current d hd hheight)
    · exact h.past d hd hheight
  · exact h.cached d hd

theorem Move.known {I I' J : RoundData → Prop} (h : Move P wraps Heard s s') (hs : Wf s) (hI : Known I J s)
    (hIJ : ∀ d ∈ s.roundsData, d.height = s.height → I d → J d)
    (hpast : ∀ d d', d.height ≠ s.height → J d → RecordMove P Heard s d d' → J d')
    (hkeep : s'.roster = s.roster → (∀ round, I' (emptyRound s.height round s.roster.members)) ∧
      ∀ d d', d ∈ s.roundsData → d.height = s.height → I d → RecordMove P Heard s d d' → I' d') : Known I' J s' := by
  refine ⟨h.current_records hs hI.current hkeep, fun d' hd' hheight => ?_, ?_⟩
  · rcases h.height_cases with ⟨hsame, -⟩ | ⟨-, -, -, -, hrecords⟩
    · rcases h.record hd' with ⟨d, hd, hmove⟩ | ⟨round, rfl⟩
      · have hother : d.height ≠ s.height := by
          rw [← hmove.height, ← hsame]
          exact hheight
        exact hpast d d' hother (hI.past d hd hother) hmove
      · exact absurd hsame.symm hheight
    · rw [hrecords] at hd'
      exact hI.all hIJ (.inl (mem_of_mem_filter hd'))
  · cases h with
    | newHeight roster d hpushed hd hheight =>
      intro e he
      rcases mem_append.mp he with he | he
      · exact hI.cached e he
      · rw [mem_singleton.mp he]
        exact hI.all hIJ (.inl hd)
    | _ => exact hI.cached

theorem Move.identity (h : Move P wraps Heard s s') :
    s'.myPubKey = s.myPubKey ∧ s'.mySigningKey = s.mySigningKey := by
  cases h <;> exact ⟨rfl, rfl⟩

theorem Move.signed_subset (h : Move P wraps Heard s s') (he : e ∈ s.signed) : e ∈ s'.signed := by
  cases h <;> first | exact he | exact mem_cons_of_mem _ he

theorem Moves.signed_subset (h : Moves P wraps Heard s s') :
    (∀ e ∈ s.signed, e ∈ s'.signed) ∧ s'.myPubKey = s.myPubKey ∧ s'.mySigningKey = s.mySigningKey := by
  induction h with
  | refl => exact ⟨fun _ => id, rfl, rfl⟩
  | tail _ hmove ih =>
    obtain ⟨hsigned, hkey, hsigning⟩ := ih
    obtain ⟨hkey', hsigning'⟩ := hmove.identity
    exact ⟨fun e he => hmove.signed_subset (hsigned e he), hkey'.trans hkey, hsigning'.trans hsigning⟩

end Crosslink.Tenderlink

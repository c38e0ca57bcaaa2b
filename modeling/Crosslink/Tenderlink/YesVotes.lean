import Crosslink.Tenderlink.ChunkGossip

/-!
# Yes votes are votes for the proposal

Votes are recorded before the proposal is known. The first chunk names the proposal and drops the votes for
other values, and later votes are compared with it. A flushed record that has not seen a chunk again would
keep its id and skip the purge, but a node that signs as `broadcast` does never meets such a record.
-/

namespace Crosslink.Tenderlink

open Codec Fallible List

variable {P : Params} {values : Set BlockValue} {s s' : TMState} {d d' : RoundData} {m : Msg}

/-- The signature is one that `broadcast` made for the chunk `i` of the proposal that the record announces. -/
def ByBroadcast (P : Params) (values : Set BlockValue) (s : TMState) (d : RoundData) (i : ℕ) (sig : TMSig) : Prop :=
  ∃ hdr data, Broadcast P values hdr data ∧ sig = P.sign s.mySigningKey (hdr.writeTo ++ data) ∧
    (hdr.height, hdr.round) = d.key ∧ hdr.chunkI = i ∧ hdr.proposalId = d.proposalId ∧
    hdr.validRound = d.proposalValidRound

structure VoteRecord (P : Params) (values : Set BlockValue) (s : TMState) (d : RoundData) : Prop where
  agreed : Agreed (fun _ => True) d
  fresh : d.proposalSigsN = 0 → d.proposalId = ValueId.nil
  own : ∀ o, proposerFromHeightRound P s.roster.members d.height d.round = .ok (o, s.myPubKey) →
    ∀ i sig, d.proposalSigs[i]? = some sig → sig ≠ TMSig.nil → ByBroadcast P values s d i sig

/-! ### Messages -/

/-- Two chunks that `broadcast` signed under one announcement are one chunk. -/
theorem ByBroadcast.eq (hinj : values.InjOn (idFromValue P)) (h : ByBroadcast P values s d i sig)
    (h' : ByBroadcast P values s d i sig') : sig = sig' := by
  obtain ⟨hdr, data, ⟨value, hvalue, -, vr, hhdr, hdata⟩, rfl, hkey, hi, hid, hvr⟩ := h
  obtain ⟨hdr', data', ⟨value', hvalue', -, vr', hhdr', hdata'⟩, rfl, hkey', hi', hid', hvr'⟩ := h'
  have hids : idFromValue P value = hdr.proposalId ∧ idFromValue P value' = hdr'.proposalId := by
    rw [hhdr, hhdr']
    exact ⟨rfl, rfl⟩
  obtain rfl := hinj hvalue hvalue' (by rw [hids.1, hids.2, hid, hid'])
  have hrounds : hdr.validRound = vr ∧ hdr'.validRound = vr' := by
    rw [hhdr, hhdr']
    exact ⟨rfl, rfl⟩
  obtain ⟨hheight, hround⟩ := Prod.mk.inj (hkey.trans hkey'.symm)
  have hsame : hdr = hdr' := by
    rw [hhdr, hhdr', hheight, hround, hi, hi', ← hrounds.1, ← hrounds.2, hvr, hvr']
  rw [hdata, hdata', hsame]

theorem OwnBroadcast.byBroadcast (h : OwnBroadcast P values s m) (hkey : d.key = (m.height, m.round))
    (hid : d.proposalId = m.valueId) (hvr : d.proposalValidRound = m.validRound) :
    ByBroadcast P values s d m.chunkI m.sig := by
  obtain ⟨hsig, hdr, data, hcast, -, hsigned, hheight, hround, hchunkI, hvalueId, hvalidRound⟩ := h
  exact ⟨hdr, data, hcast, by rw [hsig, hsigned], by rw [hkey, hheight, hround], hchunkI.symm, by rw [hid, hvalueId],
    by rw [hvr, hvalidRound]⟩

theorem VoteRecord.step {member : SortedRosterMember} (hinj : values.InjOn (idFromValue P))
    (hd : VoteRecord P values s d) (hshape : Shape s.roster d) (hkey : d.key = (m.height, m.round))
    (hformed : Formed P s.roster member m)
    (hm : m.packetType = packetTypeProposalChunk → member.pubKey = s.myPubKey → OwnBroadcast P values s m)
    (hstep : RecordStep P s.roster (member.pubKey = s.myPubKey) m d d') : VoteRecord P values s d' := by
  have hproposer : ∀ o, m.packetType = packetTypeProposalChunk →
      proposerFromHeightRound P s.roster.members d.height d.round = .ok (o, s.myPubKey) →
        member.pubKey = s.myPubKey := by
    intro o htype h
    obtain ⟨i, hi⟩ := hformed.chunk htype
    obtain ⟨hheight, hround⟩ := Prod.mk.inj hkey
    rw [hheight, hround, hi] at h
    exact congrArg Prod.snd (Except.ok.inj h)
  have hkey' := hstep.frame.1
  have hagreed := hstep.agreed hd.agreed fun hzero hne => absurd (hd.fresh hzero) hne
  cases hstep with
  | same => exact hd
  | vote => exact ⟨hagreed, hd.fresh, hd.own⟩
  | store htype hdr rest hread b hbase hnew hlen =>
    obtain ⟨-, hsigs, hn, hvr, hid⟩ := store_frame (P := P) (hbase.shape hshape) hnew hlen rfl
    obtain ⟨-, hbid, hbkey, -, hold⟩ := hbase.announced hd.fresh
    have hid' : _ = m.valueId := hid.trans (by rcases hbid with h | h <;> simp [h])
    refine ⟨hagreed, fun hzero => ?_, fun o ho i sig hi hne => ?_⟩
    · exact absurd (hn.symm.trans hzero) (Nat.succ_ne_zero _)
    · obtain ⟨hheight, hround⟩ := Prod.mk.inj hkey'
      rw [hheight, hround] at ho
      rw [hsigs, getElem?_set] at hi
      split_ifs at hi with hself hlt
      · obtain rfl := Option.some.inj hi
        subst hself
        exact (hm htype (hproposer o htype ho)).byBroadcast (hkey'.trans hkey) hid' hvr
      · rcases hold with hnil | ⟨rfl, hsame⟩
        · exact absurd (hnil sig (mem_of_getElem? hi)) hne
        · obtain ⟨hdr', data', hcast, hsig, hk, hci, hpid, hpvr⟩ := hd.own o ho i sig hi hne
          exact ⟨hdr', data', hcast, hsig, by rw [hk, hkey'], hci, by rw [hpid, hid', hsame.2.1],
            by rw [hpvr, hvr, hsame.2.2]⟩
  | flush htype hdr rest hread hmine hn hsame old hold hne hdiff =>
    have hme : member.pubKey = s.myPubKey := of_decide_eq_true hmine
    obtain ⟨o, ho⟩ := hformed.chunk htype
    obtain ⟨hheight, hround⟩ := Prod.mk.inj hkey
    rw [← hheight, ← hround, hme] at ho
    exact absurd ((hd.own o ho _ old hold hne).eq hinj
      ((hm htype hme).byBroadcast hkey hsame.2.1 hsame.2.2)) hdiff
  | faulty => exact ⟨hagreed, hd.fresh, hd.own⟩

/-! ### Moves -/

section Moves

variable {wraps : Prop} {Heard : Msg → PubKeyID → Prop}

theorem VoteRecord.of_eq (hd : VoteRecord P values s d) (hroster : s'.roster = s.roster)
    (hme : s'.myPubKey = s.myPubKey ∧ s'.mySigningKey = s.mySigningKey) : VoteRecord P values s' d := by
  refine ⟨hd.agreed, hd.fresh, ?_⟩
  unfold ByBroadcast
  rw [hroster, hme.1, hme.2]
  exact hd.own

theorem VoteRecord.emptyRound (P : Params) (values : Set BlockValue) (s : TMState) (round : ℕ) :
    VoteRecord P values s (emptyRound s.height round s.roster.members) where
  agreed hn := absurd hn (Nat.lt_irrefl 0)
  fresh _ := rfl
  own _ _ _ _ hi := absurd (mem_of_getElem? hi) not_mem_nil

abbrev VotesKnown (P : Params) (values : Set BlockValue) (s : TMState) : Prop :=
  Known (VoteRecord P values s) (Agreed fun _ => True) s

theorem Move.votesKnown (h : Move P wraps Heard s s') (hs : Wf s) (hinj : values.InjOn (idFromValue P))
    (hI : VotesKnown P values s)
    (hheard : ∀ m, Heard m s.myPubKey → m.packetType = packetTypeProposalChunk → OwnBroadcast P values s m)
    (hsigned : ∀ hdr data, Signed.chunk hdr data ∈ s.signed → Broadcast P values hdr data) :
    VotesKnown P values s' := by
  refine h.known hs hI (fun _ _ _ hd => hd.agreed) (fun d d' hheight hd hmove => ?_) fun hroster => ⟨?_, ?_⟩
  · cases hmove with
    | heard _ m member hkey => exact absurd (congrArg Prod.fst hkey) hheight
    | _ => exact hd
  · exact fun round => (VoteRecord.emptyRound P values s round).of_eq hroster h.identity
  · intro d d' hd hheight hrecord hmove
    refine VoteRecord.of_eq ?_ hroster h.identity
    cases hmove with
    | heard _ m member hkey hmheight _ _ _ hformed hsource hstep =>
      refine hrecord.step hinj (hs.shape d hd hheight) (by rw [hkey, hmheight]) hformed (fun htype hme => ?_) hstep
      rcases hsource with h | ⟨-, hsig, e, he, hcovers⟩
      · exact hheard m (hme ▸ h) htype
      · obtain ⟨hdr, data, rfl⟩ := Signed.covers_chunk hcovers htype
        exact ⟨hsig, hdr, data, hsigned hdr data he, hcovers⟩
    | _ => exact ⟨hrecord.agreed, hrecord.fresh, hrecord.own⟩

theorem Moves.votesKnown (h : Moves P True Heard s s') (hs : Inv P True s) (hinj : values.InjOn (idFromValue P))
    (hI : VotesKnown P values s)
    (hheard : ∀ m, Heard m s.myPubKey → m.packetType = packetTypeProposalChunk → OwnBroadcast P values s m)
    (hsigned : ∀ hdr data, Signed.chunk hdr data ∈ s'.signed → Broadcast P values hdr data) :
    VotesKnown P values s' := by
  induction h with
  | refl => exact hI
  | @tail s₁ s₂ hmoves hmove ih =>
    have hbefore : ∀ hdr data, Signed.chunk hdr data ∈ s₁.signed → Broadcast P values hdr data :=
      fun hdr data hmem => hsigned hdr data (hmove.signed_subset hmem)
    obtain ⟨-, hme⟩ := Moves.signed_subset hmoves
    refine hmove.votesKnown (Moves.inv hmoves hs).wf hinj (ih hbefore) (fun m hm htype => ?_) hbefore
    rw [hme.1] at hm
    unfold OwnBroadcast
    rw [hme.2]
    exact hheard m hm htype

end Moves

/-! ### Along a run -/

/-- The delivered chunks under the node's own key are signed by `broadcast`, in this life of the node or before. -/
def HonestChunks (P : Params) (values : Set BlockValue) (s : TMState) (input : Input) : Prop :=
  ∀ m, heardIn P s input m s.myPubKey → m.packetType = packetTypeProposalChunk → OwnBroadcast P values s m

/-- A slot holds a signed vote for the value. -/
def VoteSlots.isFor (valueId : ValueId) (isPrecommit : Bool) (v : VoteSlots) : Prop :=
  v.isYes isPrecommit ∧ (v.get isPrecommit).1 = valueId

instance (valueId : ValueId) (isPrecommit : Bool) : DecidablePred (VoteSlots.isFor valueId isPrecommit) := fun v =>
  inferInstanceAs (Decidable (v.isYes isPrecommit ∧ (v.get isPrecommit).1 = valueId))

theorem stakeWhere_isFor (hd : Agreed (fun _ => True) d) (hn : 0 < d.proposalSigsN) (R : SortedRoster) (k : Bool) :
    stakeWhere R.members (VoteSlots.isYes k) d.msgValSigs =
      stakeWhere R.members (VoteSlots.isFor d.proposalId k) d.msgValSigs := by
  refine Finset.sum_congr rfl fun i _ => if_congr ⟨fun h => ⟨h, ?_⟩, And.left⟩ rfl rfl
  exact hd hn i k _ _ trivial ⟨rfl, h.1⟩ h.2

/-- Every recorded vote for a value is for the proposal, as soon as a chunk has been seen; so the yes counts of
a complete proposal are the stake that votes for it. -/
theorem yes_votes_for_proposal {cl : Closures} {mySigningKey : SigningKey} {roster : SortedRoster}
    {startup : List RoundData} {now₀ : Instant} (hinj : values.InjOn (idFromValue P))
    (hstartup : ∀ d ∈ startup, Agreed (fun _ => True) d)
    (h : Reaches P cl (HonestChunks P values) (TMState.init P mySigningKey roster startup) now₀ (.ok () s))
    (hsigned : ∀ hdr data, Signed.chunk hdr data ∈ s.signed → Broadcast P values hdr data) :
    (∀ d, d ∈ s.roundsData ∨ d ∈ s.recentCommitRoundCache → Agreed (fun _ => True) d) ∧
      ∀ d ∈ s.roundsData, d.height = s.height → d.hasFullProposal = true →
        d.counts.yesPrevotes = stakeWhere s.roster.members (VoteSlots.isFor d.proposalId false) d.msgValSigs ∧
        d.counts.yesPrecommits = stakeWhere s.roster.members (VoteSlots.isFor d.proposalId true) d.msgValSigs := by
  have hinit : VotesKnown P values (TMState.init P mySigningKey roster startup) :=
    ⟨fun _ hd => absurd hd not_mem_nil, fun _ hd => absurd hd not_mem_nil, hstartup⟩
  obtain ⟨s', hs', hinv, hI⟩ := h.invariant True
    (I := fun s => (∀ hdr data, Signed.chunk hdr data ∈ s.signed → Broadcast P values hdr data) → VotesKnown P values s)
    (init_inv _ _ _) rfl (fun hfalse => absurd trivial hfalse)
    (fun s hmoves => hmoves.votesKnown (init_inv _ _ _) hinj hinit (fun _ hm => hm.elim))
    fun s input s' hok hinv hI hmoves hsigned =>
      hmoves.votesKnown hinv hinj (hI fun hdr data hmem => hsigned hdr data ((Moves.signed_subset hmoves).1 _ hmem)) hok
        hsigned
  cases hs'
  have hall : ∀ d, d ∈ s.roundsData ∨ d ∈ s.recentCommitRoundCache → Agreed (fun _ => True) d :=
    fun d => (hI hsigned).all fun _ _ _ hd => hd.agreed
  refine ⟨hall, fun d hd hheight hfull => ?_⟩
  have hn := (hasFullProposal_iff.mp hfull).1
  rw [(hinv.wf.shape d hd hheight).counts]
  exact ⟨stakeWhere_isFor (hall d (.inl hd)) hn _ false, stakeWhere_isFor (hall d (.inl hd)) hn _ true⟩

theorem yes_votes_for_proposal_decidedNode :
    decidedNode.recentCommitRoundCache.map RoundData.proposalSigsN = [1] ∧
      ∀ d, d ∈ decidedNode.roundsData ∨ d ∈ decidedNode.recentCommitRoundCache → Agreed (fun _ => True) d := by
  have hreaches : Reaches (Params.sample true) (.idle minorityRoster) (HonestChunks (Params.sample true) ∅)
      (TMState.init (Params.sample true) (keyNo 3).bytes minorityRoster []) 0 (.ok () decidedNode) := by
    have hhonest : ∀ s input, foreignChunk (Params.sample true) s input = true →
        HonestChunks (Params.sample true) ∅ s input :=
      fun s input hok m hm htype => (cleanChunks_of_foreignChunk s input hok m _ hm htype).2 rfl
    rw [decidedNode, ← eq_ok_of_isOk (by decide +kernel)]
    exact reaches_life_of hhonest (by decide +kernel)
  have hvotes : decidedNode.signed = [.vote false 0 0 (idFromValue (Params.sample true) [7])] := by decide +kernel
  refine ⟨by decide +kernel, (yes_votes_for_proposal (Set.injOn_empty _) (fun _ hd => absurd hd not_mem_nil) hreaches
    fun hdr data hmem => ?_).1⟩
  rw [hvotes] at hmem
  cases mem_singleton.mp hmem

end Crosslink.Tenderlink

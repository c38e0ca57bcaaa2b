import Crosslink.Tenderlink.Refine

/-!
# Starting a round makes only moves

A round is entered before anything of it is signed; the proposer then signs the chunks of one value.
-/

namespace Crosslink.Tenderlink

open Codec Fallible Search Refines

variable {P : Params} {wraps : Prop} {Heard : Msg → PubKeyID → Prop} {s s' : TMState} {cl : Closures}
  {now : Instant} {i : ℕ} {d : RoundData}

/-! ### Proposing -/

def ownChunk (P : Params) (s : TMState) (value : BlockValue) (validRound : ℤ) (rosterI chunkI : ℕ)
    (data : List UInt8) : Msg :=
  let hdr := chunkHeader P s.height s.round value validRound chunkI
  ⟨s.height, s.round, chunkI, hdr.proposalId, validRound, rosterI, packetTypeProposalChunk,
    hdr.writeTo ++ data, P.sign s.mySigningKey (hdr.writeTo ++ data)⟩

def chunkData (value : BlockValue) (chunkI : ℕ) : List UInt8 :=
  (value.drop (chunkI * proposalChunkDataSize)).take proposalChunkDataSize

theorem chunk_slice (value : BlockValue) (h : chunkI < chunksN value) :
    ∃ size, chunkOSize P value chunkI = .ok (chunkI * proposalChunkDataSize, size) ∧
      slice value (chunkI * proposalChunkDataSize) (chunkI * proposalChunkDataSize + size) =
        .ok (chunkData value chunkI) := by
  rw [lt_chunksN_iff] at h
  refine ⟨min proposalChunkDataSize (value.length - chunkI * proposalChunkDataSize), ?_, ?_⟩
  · simp only [chunkOSize, subU_ok h.le, ok_bind]
    rfl
  · rw [slice_ok (by omega) (by omega), Nat.add_sub_cancel_left, chunkData]
    congr 1
    rw [← List.length_drop, List.take_eq_take_iff]
    simp

theorem ownChunk_sourced
    (hproposer : proposerFromHeightRound P s.roster.members s.height s.round = .ok (o, s.myPubKey))
    (hme : s.roster.members[rosterI]? = some me) (hown : me.pubKey = s.myPubKey) (member : SortedRosterMember)
    (hsigned : Signed.chunk (chunkHeader P s.height s.round value validRound chunkI) (chunkData value chunkI) ∈ s.signed)
    (hacc : Accepted P s (ownChunk P s value validRound rosterI chunkI (chunkData value chunkI)) member) :
    Sourced P Heard s (ownChunk P s value validRound rosterI chunkI (chunkData value chunkI)) member := by
  obtain rfl : member = me := by
    have := hacc.here
    rw [show (ownChunk P s value validRound rosterI chunkI _).rosterI = rosterI from rfl, hme] at this
    exact (Option.some.inj this).symm
  refine ⟨⟨fun k hk => ?_, fun _ => ⟨o, by rw [hown]; exact hproposer⟩⟩, .inr ⟨hown, rfl, _, hsigned, ?_⟩⟩
  · cases k <;>
      simp [ownChunk, packetTypePrecommitSignatures, packetTypePrevoteSignatures, packetTypeProposalChunk] at hk
  · exact ⟨rfl, rfl, rfl, rfl, rfl, rfl, rfl⟩

/-- What holds while the proposer signs its chunks: it is in a round in which it has signed nothing but
chunks of this value. -/
structure Proposing (P : Params) (wraps : Prop) (value : BlockValue) (validRound : ℤ) (i : ℕ) (s : TMState) :
    Prop where
  inv : Inv P wraps s
  here : ∃ d, s.roundsData[i]? = some d ∧ d.key = (s.height, s.round)
  chunks : ¬ wraps → ∀ hdr data, Signed.chunk hdr data ∈ s.signed → (hdr.height, hdr.round) = (s.height, s.round) →
    (Signed.chunk hdr data).IsChunkOf P value validRound
  noVotes : ¬ wraps → ∀ e ∈ s.signed, e.IsVote → e.key ≠ (s.height, s.round)

theorem Incorporated.frame (h : Incorporated P m s s') :
    s'.height = s.height ∧ s'.round = s.round ∧ s'.roster = s.roster ∧ s'.myPubKey = s.myPubKey ∧
      s'.signed = s.signed := by
  cases h with
  | dropped => exact ⟨rfl, rfl, rfl, rfl, rfl⟩
  | taken member seen i s₁ d d' hacc hround hstep => cases hround <;> exact ⟨rfl, rfl, rfl, rfl, rfl⟩

theorem broadcastChunk_refines
    (hproposer : proposerFromHeightRound P s.roster.members s.height s.round = .ok (o, s.myPubKey))
    (hme : s.roster.members[rosterI]? = some me) (hown : me.pubKey = s.myPubKey) (hchunk : chunkI < chunksN value)
    (h : Proposing P wraps value validRound i s) :
    Refines P wraps Heard (broadcastChunk P s.height s.round rosterI value validRound chunkI)
      (fun _ s' => Local SameKey i s s' ∧ Proposing P wraps value validRound i s') s := by
  obtain ⟨size, hsize, hslice⟩ := chunk_slice (P := P) value hchunk
  set e : Signed := .chunk (chunkHeader P s.height s.round value validRound chunkI) (chunkData value chunkI) with he
  have hof : e.IsChunkOf P value validRound := ⟨rfl, rfl⟩
  have hmove : Move P wraps Heard s (s.sign e) :=
    .signChunk value validRound _ _ rfl hof h.chunks
  have hinv : Inv P wraps (s.sign e) := hmove.inv h.inv
  obtain ⟨d, hd, hkey⟩ := h.here
  unfold broadcastChunk
  simp only
  rw [hsize]
  refine lift_bind fun a ha => ?_
  cases ha
  simp only
  rw [hslice]
  refine lift_bind fun a ha => ?_
  cases ha
  refine get_bind ?_
  refine bind (R := fun _ s' => s' = s.sign e) ⟨.single hmove, rfl⟩ ?_
  rintro _ s₁ - rfl
  refine (checkAndIncorporateMsg_refines (ownChunk P s value validRound rosterI chunkI (chunkData value chunkI))
    hinv.wf fun member hacc => ?_).bind fun _ s₂ hmoves hinc => pure ?_
  · exact ownChunk_sourced (s := s.sign e) hproposer hme hown member (by simp [TMState.sign, he]) hacc
  · obtain ⟨hh, hr, -, -, hsig⟩ := hinc.frame
    have hlocal : Local SameKey i (s.sign e) s₂ :=
      hinc.local hinv.wf hd hkey fun member d' _ hstep => hstep.frame.1
    refine ⟨⟨hlocal.height, hlocal.round, hlocal.roster, hlocal.myPubKey, hlocal.length, hlocal.off, hlocal.here⟩,
      hmoves.inv hinv, ?_, fun hw hdr data hmem hk => ?_, fun hw e' hmem hv => ?_⟩
    · obtain ⟨d', hd', hk⟩ := hlocal.here d hd
      exact ⟨d', hd', by rw [hk, hkey, hh, hr]; rfl⟩
    · rw [hsig] at hmem
      rw [hh, hr] at hk
      rcases List.mem_cons.mp hmem with heq | hmem
      · rw [heq]
        exact hof
      · exact h.chunks hw hdr data hmem hk
    · rw [hsig] at hmem
      rw [hh, hr]
      rcases List.mem_cons.mp hmem with rfl | hmem
      · exact hv.elim
      · exact h.noVotes hw e' hmem hv

theorem broadcastChunks_refines
    (hproposer : proposerFromHeightRound P s.roster.members s.height s.round = .ok (o, s.myPubKey))
    (hme : s.roster.members[rosterI]? = some me) (hown : me.pubKey = s.myPubKey)
    (h : Proposing P wraps value validRound i s) :
    Refines P wraps Heard
      ((List.range (chunksN value)).forM (broadcastChunk P s.height s.round rosterI value validRound))
      (fun _ s' => Local SameKey i s s' ∧ Proposing P wraps value validRound i s') s := by
  refine forM (I := fun s₁ => Local SameKey i s s₁ ∧ Proposing P wraps value validRound i s₁) _
    ⟨Local.refl i s, h⟩ fun chunkI hchunk s₁ hs₁ => ?_
  obtain ⟨hlocal, hprop⟩ := hs₁
  have hstep : Refines P wraps Heard (broadcastChunk P s₁.height s₁.round rosterI value validRound chunkI) _ s₁ :=
    broadcastChunk_refines (o := o) (by rw [hlocal.roster, hlocal.height, hlocal.round, hlocal.myPubKey, hproposer])
      (by rw [hlocal.roster]; exact hme) (by rw [hlocal.myPubKey]; exact hown) (List.mem_range.mp hchunk) hprop
  rw [hlocal.height, hlocal.round] at hstep
  exact hstep.mono fun _ _ _ hr => ⟨hlocal.trans hr.1, hr.2⟩

/-- The start of a round: its record is there and nothing of it has been signed. -/
structure Entered (P : Params) (wraps : Prop) (i : ℕ) (s : TMState) : Prop where
  inv : Inv P wraps s
  here : ∃ d, s.roundsData[i]? = some d ∧ d.key = (s.height, s.round)
  nothing : ¬ wraps → ∀ e ∈ s.signed, e.key ≠ (s.height, s.round)

theorem Entered.proposing (h : Entered P wraps i s) (value : BlockValue) (validRound : ℤ) :
    Proposing P wraps value validRound i s :=
  ⟨h.inv, h.here, fun hw _ _ hmem hkey => absurd hkey (h.nothing hw _ hmem), fun hw e hmem _ => h.nothing hw e hmem⟩

theorem setPropose_refines (h : ¬ wraps → ∀ e ∈ s.signed, e.IsVote → e.key ≠ (s.height, s.round)) :
    Refines P wraps Heard (setStep .propose) (fun _ s' => Local SameKey i s s') s :=
  modify (.toPropose h) (Local.of_records rfl rfl rfl rfl rfl)

theorem proposal_refines
    (hproposer : proposerFromHeightRound P s.roster.members s.height s.round = .ok (o, s.myPubKey))
    (h : Entered P wraps i s) :
    Refines P wraps Heard (do setStep (← broadcast P i (.proposal value validRound)))
      (fun _ s' => Local SameKey i s s') s := by
  unfold broadcast
  obtain ⟨d, hd, hkey⟩ := h.here
  refine bind (R := fun step s' => Local SameKey i s s' ∧ (s' = s ∧ step = s.step ∨
    step = .propose ∧ Proposing P wraps value validRound i s')) ?_ ?_
  · refine roundAt_bind fun d₀ hd₀ => ?_
    obtain rfl : d₀ = d := by rw [hd] at hd₀; exact (Option.some.inj hd₀).symm
    refine get_bind ?_
    rw [show d₀.height = s.height from congrArg Prod.fst hkey, show d₀.round = s.round from congrArg Prod.snd hkey]
    cases hrosterI : rosterIFromPubKey s.active s.myPubKey with
    | none => exact pure ⟨Local.refl i s, .inl ⟨rfl, rfl⟩⟩
    | some rosterI =>
      obtain ⟨me, hactive, hown⟩ := rosterIFromPubKey_some hrosterI
      refine ite (fun _ => ⟨s, .refl, rfl, rfl, rfl, rfl⟩) fun _ => ?_
      refine (broadcastChunks_refines hproposer (active_getElem? hactive).2 hown
        (h.proposing value validRound)).bind fun _ s₁ _ hr => pure ⟨hr.1, .inr ⟨rfl, hr.2⟩⟩
  · rintro step s₁ - ⟨hlocal, ⟨rfl, rfl⟩ | ⟨rfl, hprop⟩⟩
    · exact ⟨.refl, Local.refl i s₁⟩
    · exact (setPropose_refines hprop.noVotes).mono fun _ _ _ hl => hlocal.trans hl

theorem proposeOrWait_refines (h : Entered P wraps i s) :
    Refines P wraps Heard (proposeOrWait P cl i) (fun _ s' => Local SameKey i s s') s := by
  have hwait : ∀ s₁, Entered P wraps i s₁ →
      Refines P wraps Heard (setStep .propose) (fun _ s' => Local SameKey i s₁ s') s₁ := fun s₁ h₁ =>
    setPropose_refines fun hw e hmem _ => h₁.nothing hw e hmem
  unfold proposeOrWait
  refine get_bind (lift_bind fun proposer hproposer => ?_)
  obtain ⟨o, key⟩ := proposer
  refine ite (fun hmine => ?_) fun _ => hwait s h
  obtain rfl : key = s.myPubKey := hmine
  have hchoose : Refines P wraps Heard (chooseProposal cl)
      (fun _ s' => Local SameKey i s s' ∧ Entered P wraps i s' ∧ s'.roster = s.roster) s := by
    unfold chooseProposal
    refine get_bind ?_
    cases s.validValueRound.1 with
    | some value => exact pure ⟨Local.refl i s, h, rfl⟩
    | none =>
      refine (callClosure_refines _).mono ?_
      rintro _ s' hmoves rfl
      exact ⟨Local.of_records rfl rfl rfl rfl rfl, ⟨hmoves.inv h.inv, h.here, h.nothing⟩, rfl⟩
  refine hchoose.bind fun proposal s₁ _ hr => ?_
  obtain ⟨hlocal, hent, -⟩ := hr
  cases proposal with
  | none => exact (hwait s₁ hent).mono fun _ _ _ hl => hlocal.trans hl
  | some value =>
    refine (proposal_refines (o := o) ?_ hent).mono fun _ _ _ hl => hlocal.trans hl
    rw [hlocal.roster, hlocal.height, hlocal.round, hlocal.myPubKey, hproposer]

/-! ### Starting -/

/-- What starting a round leaves behind: the round's record with a timeout in the future, and all other
records as they were. -/
structure Started (now : Instant) (round : ℕ) (s s' : TMState) : Prop where
  height : s'.height = s.height
  roster : s'.roster = s.roster
  myPubKey : s'.myPubKey = s.myPubKey
  round : s'.round = round
  length : s.roundsData.length ≤ s'.roundsData.length
  below : (∀ d ∈ s.roundsData, d.height < s.height) →
    ∀ j < s.roundsData.length, s'.roundsData[j]? = s.roundsData[j]?
  fresh : ∀ d ∈ s'.roundsData, d.key = (s'.height, s'.round) → ∀ t, d.activeTimeout = some t → now < t.time

theorem FoundRound.length_le {round : ℕ} (h : FoundRound s round seen i s₁ d) :
    s.roundsData.length ≤ s₁.roundsData.length := by
  cases h with
  | found => exact le_rfl
  | inserted i hi => exact List.length_le_length_insertIdx

theorem FoundRound.of_below {round : ℕ} (h : FoundRound s round seen i s₁ d)
    (hbelow : ∀ d ∈ s.roundsData, d.height < s.height) :
    i = s.roundsData.length ∧ ∀ j < s.roundsData.length, s₁.roundsData[j]? = s.roundsData[j]? := by
  cases h with
  | found i d hd hkey =>
    have := hbelow d (List.mem_of_getElem? hd)
    rw [show d.height = s.height from congrArg Prod.fst hkey] at this
    omega
  | inserted i hi =>
    obtain ⟨hlen, -⟩ := binarySearchBy_vacant hi
    have hall : s.roundsData.takeWhile (fun a => TMState.keyCmp (s.height, round) a == .lt) = s.roundsData := by
      refine List.takeWhile_eq_self_iff.mpr fun e he => ?_
      have : TMState.keyCmp (s.height, round) e = .lt := keyCmp_lt.mpr (.inl (hbelow e he))
      simp [this]
    rw [hall] at hlen
    refine ⟨hlen, fun j hj => ?_⟩
    simp only [TMState.insertRound]
    rw [List.getElem?_insertIdx_of_lt (by omega)]

theorem startRound_refines {round : ℕ} (hs : Inv P wraps s)
    (hnew : ¬ wraps → ∀ e ∈ s.signed, KeyLt e.key (s.height, round)) :
    Refines P wraps Heard (startRound P cl now round) (fun _ s' => Started now round s s') s := by
  unfold startRound
  have henter : Move P wraps Heard s { s with round } := .enter round hnew
  refine bind (R := fun _ s' => s' = { s with round }) ⟨.single henter, rfl⟩ ?_
  rintro _ s₀ - rfl
  have hinv₀ := henter.inv hs
  have hfind : Refines P wraps Heard (findOrInsertRound round)
      (fun r s₁ => ∃ d, FoundRound { s with round } round r.1 r.2 s₁ d) { s with round } :=
    ⟨wp_mono (findOrInsertRound_wp round) (fun _ _ h => ⟨h.elim fun _ h => h.moves, h⟩) fun _ _ h => h⟩
  refine hfind.bind ?_
  rintro ⟨seen, i⟩ s₁ hmoves ⟨d, hround⟩
  have hinv₁ := hmoves.inv hinv₀
  obtain ⟨hd, hkey⟩ := hround.getElem?
  have hframe : s₁.height = s.height ∧ s₁.round = round ∧ s₁.roster = s.roster ∧ s₁.myPubKey = s.myPubKey ∧
      s₁.signed = s.signed := by
    cases hround <;> exact ⟨rfl, rfl, rfl, rfl, rfl⟩
  obtain ⟨hh, hr, hR, hk, hsig⟩ := hframe
  have hent : Entered P wraps i s₁ := by
    refine ⟨hinv₁, ⟨d, hd, by rw [hkey, hh, hr]⟩, fun hw e he => ?_⟩
    rw [hsig] at he
    rw [hh, hr]
    exact (hnew hw e he).ne
  refine (proposeOrWait_refines hent).bind fun _ s₂ hmoves₂ hlocal => ?_
  obtain ⟨d₂, hd₂, hkey₂⟩ := hlocal.here d hd
  have hkey₂' : d₂.key = (s₂.height, s₂.round) := by rw [hkey₂, hkey, hlocal.height, hlocal.round, hh, hr]
  refine roundAt_bind fun d₃ hd₃ => ?_
  obtain rfl : d₃ = d₂ := by rw [hd₂] at hd₃; exact (Option.some.inj hd₃).symm
  refine get_bind ?_
  have hmove : Move P wraps Heard s₂ _ :=
    .timeout i d₃ (Timeout.new now s₂.height s₂.round .propose) d₃.timeoutTriggered hd₂ hkey₂'.symm
  refine modify hmove ?_
  have hwf := (hmove.inv (hmoves₂.inv hinv₁)).wf
  refine ⟨hlocal.height.trans hh, hlocal.roster.trans hR, hlocal.myPubKey.trans hk, hlocal.round.trans hr,
    ?_, fun hbelow j hj => ?_, fun e he hekey t ht => ?_⟩
  · simpa [TMState.setRound, hlocal.length] using hround.length_le
  · obtain ⟨hi, hsame⟩ := hround.of_below (s := { s with round }) hbelow
    change (s₂.roundsData.set i _)[j]? = _
    have hne : i ≠ j := fun hij => by
      have hlen : i = s.roundsData.length := hi
      omega
    rw [List.getElem?_set_ne hne, hlocal.off j hne.symm]
    exact hsame j hj
  · obtain ⟨j, hj⟩ := List.getElem?_of_mem he
    obtain ⟨-, rfl⟩ := hwf.index_unique (getElem?_setRound hd₂) hj (hkey₂'.trans hekey.symm)
    cases ht
    exact Nat.lt_add_of_pos_right (show 0 < 5000 + s₂.round * 1000 by omega)

end Crosslink.Tenderlink

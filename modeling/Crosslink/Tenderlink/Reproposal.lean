import Crosslink.Tenderlink.Robust

/-!
# The rule for a proposal with a valid round

Line 28 of the paper lets a node prevote a value that was proposed again with the round `vr` in which it had a quorum of
prevotes. The code asks for the quorum in the counts of the current round, so the rule fires when the other members have
already prevoted in this round, and not when they did in round `vr`.
-/

namespace Crosslink.Tenderlink

open Codec Fallible Search

variable {P : Params} {cl : Closures} {th : Thresholds} {s : TMState} {i : ℕ} {d : RoundData}

/-! ### The rule -/

/-- One turn of the loop up to the rule, with what it read at its start. -/
def turnTo28 (P : Params) (cl : Closures) (th : Thresholds) (i : ℕ) : NodeM TickView := do
  let view ← tickView i
  line22 P cl view i
  line28 P cl th view i
  return view

def VoteSlots.prevotesFor (valueId : ValueId) (v : VoteSlots) : Prop := v.prevote.2 ≠ TMSig.nil ∧ v.prevote.1 = valueId

instance (valueId : ValueId) : DecidablePred (VoteSlots.prevotesFor valueId) := fun v =>
  inferInstanceAs (Decidable (v.prevote.2 ≠ TMSig.nil ∧ v.prevote.1 = valueId))

/-- The prevotes for a value that are recorded in a round of the current height reach the big threshold. -/
def PrevoteQuorum (th : Thresholds) (s : TMState) (round : ℤ) (valueId : ValueId) : Prop :=
  ∃ d ∈ s.roundsData, d.height = s.height ∧ (d.round : ℤ) = round ∧
    th.big ≤ stakeWhere s.roster.members (VoteSlots.prevotesFor valueId) d.msgValSigs

instance (round : ℤ) (valueId : ValueId) : Decidable (PrevoteQuorum th s round valueId) :=
  inferInstanceAs (Decidable (∃ d ∈ s.roundsData, _))

/-- The lock is of no later round than the valid round of the proposal, or on the proposal. -/
def LockAllows (s : TMState) (d : RoundData) : Prop :=
  s.lockedValueRound.2 ≤ d.proposalValidRound ∨ s.lockedValueRound.1 = some d.proposal

instance : Decidable (LockAllows s d) := inferInstanceAs (Decidable (_ ∨ _))

/-- The turn for the record `d` prevotes as line 28 says, and in no other case. -/
def FollowsLine28 (P : Params) (cl : Closures) (th : Thresholds) (i : ℕ) (s : TMState) (d : RoundData) : Prop :=
  ∃ view s', turnTo28 P cl th i s = .ok view s' ∧
    (PrevoteQuorum th s d.proposalValidRound d.proposalId → LockAllows s d →
      s'.signed = .vote false s.height s.round d.proposalId :: s.signed ∧ s'.step = .prevote) ∧
    (PrevoteQuorum th s d.proposalValidRound d.proposalId → ¬ LockAllows s d →
      s'.signed = .vote false s.height s.round ValueId.nil :: s.signed ∧ s'.step = .prevote) ∧
    (¬ PrevoteQuorum th s d.proposalValidRound d.proposalId → s'.signed = s.signed ∧ s'.step = .propose)

/-- The proposal of a record passed validation, or passes it whenever it is asked for. -/
def Passes (cl : Closures) (d : RoundData) : Prop :=
  d.proposalCheckedValidity.1 = .pass ∨
    d.proposalCheckedValidity.1 = .indeterminate ∧ d.proposalIsFaulty = false ∧
      ∀ n, ∃ reason, cl.validate n d.proposal = .ok (.pass, reason)

/-! ### What the statements do -/

/-- A state that differs in nothing that a vote depends on. -/
structure Alike (i : ℕ) (d : RoundData) (s s' : TMState) : Prop where
  wf : Wf s'
  signed : s'.signed = s.signed
  height : s'.height = s.height
  round : s'.round = s.round
  roster : s'.roster = s.roster
  myPubKey : s'.myPubKey = s.myPubKey
  here : ∃ d', s'.roundsData[i]? = some d' ∧ d'.key = d.key

theorem wp_roundAt (hd : s.roundsData[i]? = some d) :
    wp (roundAt i) Q E s ↔ Q d s := by
  unfold roundAt
  rw [wp_bind, wp_get, getIdx_ok hd, wp_lift_ok]

theorem proposalIsValid_pass (hs : Wf s) (hd : s.roundsData[i]? = some d) (hfull : d.hasFullProposal = true)
    (hpass : Passes cl d) :
    wp (proposalIsValid cl i) (fun status s' => status = .pass ∧ Alike i d s s') (fun _ _ => False) s := by
  unfold proposalIsValid
  rw [wp_bind, wp_roundAt hd, wp_bind]
  unfold cacheValidity
  rcases hpass with hpass | ⟨hopen, hfaulty, hverdict⟩
  · rw [if_neg (by rw [hpass]; nofun), wp_pure, wp_bind, wp_roundAt hd, wp_pure]
    exact ⟨hpass, hs, rfl, rfl, rfl, rfl, rfl, d, hd, rfl⟩
  · obtain ⟨reason, hreason⟩ := hverdict s.calls
    rw [if_pos hopen, if_neg (by simp [hfaulty]), if_pos hfull]
    unfold callClosure
    simp only [wp_bind, wp_get, wp_modify, hreason, wp_lift_ok]
    have hcall : Move (Params.sample true) False (fun _ _ => False) s { s with calls := s.calls + 1 } := .call
    have hcheck : Move (Params.sample true) False (fun _ _ => False) { s with calls := s.calls + 1 } _ :=
      .check i d (.pass, reason) hd hopen (.inr ⟨hfaulty, hfull⟩)
    have hd' : ({ s with calls := s.calls + 1 } : TMState).roundsData[i]? = some d := hd
    rw [setRoundAt, wp_modify]
    refine (wp_roundAt (getElem?_setRound hd')).mpr ?_
    exact ⟨rfl, hcheck.wf (hcall.wf hs), rfl, rfl, rfl, rfl, rfl, _, getElem?_setRound hd', rfl⟩

theorem Incorporated.signed (h : Incorporated P m s s') : s'.signed = s.signed := by
  cases h with
  | dropped => rfl
  | taken member seen i s₁ d d' hacc hround hstep => exact hround.sameTrace.signed.symm

theorem ownVote_kind (P : Params) (s : TMState) (isPrecommit : Bool) (valueId : ValueId) (rosterI : ℕ)
    (signedData : List UInt8) :
    (ownVote P s isPrecommit valueId rosterI signedData).packetType = packetTypePrevoteSignatures ∨
      (ownVote P s isPrecommit valueId rosterI signedData).packetType = packetTypePrecommitSignatures := by
  cases isPrecommit
  · exact .inl rfl
  · exact .inr rfl

theorem castVote_runs (isPrecommit : Bool) (valueId : ValueId) (hs : Wf s) (hd : s.roundsData[i]? = some d)
    (hkey : d.key = (s.height, s.round)) (hon : (rosterIFromPubKey s.active s.myPubKey).isSome)
    (hword : voteRoundWord P isPrecommit s.round = .ok word) :
    wp (do setStep (← broadcast P i (voteData isPrecommit valueId)))
      (fun _ s' => ∃ rosterI signedData s₁,
        Incorporated P (ownVote P s isPrecommit valueId rosterI signedData)
          (s.sign (.vote isPrecommit s.height s.round valueId)) s₁ ∧ s' = { s₁ with step := voteStep isPrecommit })
      (fun _ _ => False) s := by
  obtain ⟨rosterI, hrosterI⟩ := Option.isSome_iff_exists.mp hon
  obtain ⟨me, hactive, -⟩ := rosterIFromPubKey_some hrosterI
  obtain ⟨-, hme⟩ := active_getElem? hactive
  have hh : d.height = s.height := congrArg Prod.fst hkey
  have hr : d.round = s.round := congrArg Prod.snd hkey
  have hs' : Wf (s.sign (.vote isPrecommit s.height s.round valueId)) :=
    ⟨hs.sorted, hs.height_le, hs.shape, hs.timeout⟩
  have hheard : wp (broadcastVote P s.height s.round rosterI isPrecommit valueId)
      (fun _ s₁ => Incorporated P
        (ownVote P s isPrecommit valueId rosterI (voteBytes me.pubKey valueId s.height word))
        (s.sign (.vote isPrecommit s.height s.round valueId)) s₁) (fun _ _ => False) s := by
    unfold broadcastVote
    rw [wp_bind, wp_get, wp_bind, getIdx_ok hme, wp_lift_ok, wp_bind, makeVoteSignDatas, hword]
    dsimp only [ok_bind]
    refine wp_lift_ok.mpr ?_
    dsimp only
    rw [wp_bind]
    change wp _ _ _ (s.sign (.vote isPrecommit s.height s.round valueId))
    refine wp_seq (wp_mono (wp_and (checkAndIncorporateMsg_wp _ hs') (checkAndIncorporateMsg_vote hs' (ownVote_kind P s isPrecommit valueId rosterI _)))
      (fun _ _ h => h.1) fun _ _ h => h.2) ?_
    exact fun _ _ hinc => hinc
  have hbroadcast : wp (broadcast P i (voteData isPrecommit valueId))
      (fun step s₁ => step = voteStep isPrecommit ∧ Incorporated P
        (ownVote P s isPrecommit valueId rosterI (voteBytes me.pubKey valueId s.height word))
        (s.sign (.vote isPrecommit s.height s.round valueId)) s₁) (fun _ _ => False) s := by
    unfold broadcast
    rw [wp_bind, wp_roundAt hd, wp_bind, wp_get, hrosterI, hh, hr]
    cases isPrecommit <;> exact wp_seq hheard fun _ _ h => ⟨rfl, h⟩
  refine wp_seq hbroadcast ?_
  rintro step s₁ ⟨rfl, hinc⟩
  exact ⟨rosterI, _, s₁, hinc, rfl⟩

theorem prevote_wp (valueId : ValueId) (hs : Wf s) (hd : s.roundsData[i]? = some d) (hkey : d.key = (s.height, s.round))
    (hon : (rosterIFromPubKey s.active s.myPubKey).isSome) (hround : s.round < 2 ^ 32) :
    wp (do setStep (← broadcast P i (.prevote valueId)))
      (fun _ s' => s'.signed = .vote false s.height s.round valueId :: s.signed ∧ s'.step = .prevote)
      (fun _ _ => False) s := by
  have hword : voteRoundWord P false s.round = .ok ((s.round + 0) % 2 ^ 32) := voteRoundWord_ok hround (by nofun)
  refine wp_mono (castVote_runs false valueId hs hd hkey hon hword) ?_ fun _ _ h => h
  rintro _ _ ⟨rosterI, signedData, s₁, hinc, rfl⟩
  exact ⟨hinc.signed, rfl⟩

/-! ### The rule and the code -/

def Fires (th : Thresholds) (s : TMState) (d : RoundData) : Prop :=
  (rosterIFromPubKey s.active s.myPubKey).isSome ∧ th.big ≤ d.counts.yesPrevotes

instance : Decidable (Fires th s d) := inferInstanceAs (Decidable (_ ∧ _))

theorem turnTo28_wp (th : Thresholds) (hs : Wf s) (hd : s.roundsData[i]? = some d) (hkey : d.key = (s.height, s.round))
    (hstep : s.step = .propose) (hround : s.round < 2 ^ 32) (hfull : d.hasFullProposal = true) (hpass : Passes cl d)
    (hvr : 0 ≤ d.proposalValidRound ∧ d.proposalValidRound < s.round) :
    wp (turnTo28 P cl th i) (fun _ s' =>
      if Fires th s d then
        s'.signed = .vote false s.height s.round (if LockAllows s d then d.proposalId else ValueId.nil) :: s.signed ∧
          s'.step = .prevote
      else s'.signed = s.signed ∧ s'.step = .propose) (fun _ _ => False) s := by
  have hinfo : d.hasEnoughInfoToDetermineValidity = true := by
    simp [RoundData.hasEnoughInfoToDetermineValidity, hfull]
  unfold turnTo28 tickView
  rw [wp_bind, wp_bind, wp_roundAt hd, wp_bind, wp_get, wp_pure, wp_bind]
  unfold line22
  rw [wp_bind, wp_roundAt hd, wp_bind, wp_get, if_neg (by omega), wp_pure, wp_bind]
  unfold line28
  rw [wp_bind, wp_roundAt hd, wp_bind, wp_get]
  by_cases hfires : Fires th s d
  · simp only [if_pos hfires]
    rw [if_pos ⟨hfires.1, decide_eq_true hkey.symm, hinfo, hfires.2, hstep, hvr⟩]
    refine wp_seq (proposalIsValid_pass hs hd hfull hpass) ?_
    rintro status s₁ ⟨rfl, hlike⟩
    obtain ⟨d₁, hd₁, hkey₁⟩ := hlike.here
    have hvote : ∀ valueId, wp (do setStep (← broadcast P i (.prevote valueId)))
        (fun _ s' => s'.signed = .vote false s.height s.round valueId :: s.signed ∧ s'.step = .prevote)
        (fun _ _ => False) s₁ := by
      intro valueId
      have hon₁ : (rosterIFromPubKey s₁.active s₁.myPubKey).isSome := by
        rw [TMState.active, hlike.roster, hlike.myPubKey]
        exact hfires.1
      have hkey' : d₁.key = (s₁.height, s₁.round) := by rw [hkey₁, hkey, hlike.height, hlike.round]
      have hwp := prevote_wp (P := P) valueId hlike.wf hd₁ hkey' hon₁ (hlike.round ▸ hround)
      rwa [hlike.signed, hlike.height, hlike.round] at hwp
    by_cases hlock : LockAllows s d
    · simp only [if_pos hlock]
      rw [if_pos ⟨trivial, hlock⟩]
      exact hvote d.proposalId
    · simp only [if_neg hlock]
      rw [if_neg fun h => hlock h.2]
      exact hvote ValueId.nil
  · simp only [if_neg hfires]
    rw [if_neg fun hcond => hfires ⟨hcond.1, hcond.2.2.2.1⟩]
    exact ⟨rfl, hstep⟩

def reproposal (P : Params) (rounds : List ℕ) : List Input :=
  let key := keyNo 2
  let id := idFromValue P [7]
  let hdr := chunkHeader P 0 1 [7] 0 0
  [.tick 5000] ++
    (rounds.map fun r => .recv (votePacket false 0 r id 0 (P.sign key.bytes (voteBytes key id 0 r)))) ++
    [.recv (votePacket true 0 1 ValueId.nil 0 (P.sign key.bytes (voteBytes key ValueId.nil 0 (2 ^ 31 + 1)))),
      .tick 5001,
      .recv (chunkPacket hdr [7] (P.sign key.bytes (hdr.writeTo ++ [7])))]

def reproposed (rounds : List ℕ) : TMState :=
  endState (life (Params.sample true) (.idle minorityRoster) 0 (reproposal (Params.sample true) rounds)
    (minorityNode (Params.sample true)))

theorem reproposed_reached
    (h : isOk (life (Params.sample true) (.idle minorityRoster) 0 (reproposal (Params.sample true) rounds) (minorityNode (Params.sample true))) = true) :
    Reaches (Params.sample true) (.idle minorityRoster) (fun _ _ => True) (minorityNode (Params.sample true)) 0
      (.ok () (reproposed rounds)) := by
  rw [reproposed, ← eq_ok_of_isOk h]
  exact reaches_life (fun _ _ => trivial) _ _ _

def reproposedRound (rounds : List ℕ) : RoundData := (reproposed rounds).roundsData.getD 1 RoundData.empty

def signedAfter {α : Type} : EStateM.Result Panic TMState α → List Signed
  | .ok _ s => s.signed
  | .error _ s => s.signed

end Crosslink.Tenderlink

import Crosslink.Tenderlink.RefineRound

/-!
# The tick makes only moves

The conditions of `bft_update` one by one. `Ctx` relates what a turn of the loop read at its start to
the record as it is now: until a decision or a change of round it has only grown, so thresholds that
were reached then are still reached.
-/

namespace Crosslink.Tenderlink

open Codec Fallible Search Refines

variable {P : Params} {wraps : Prop} {Heard : Msg → PubKeyID → Prop} {s s' : TMState} {cl : Closures}
  {now : Instant} {th : Thresholds} {view : TickView} {i : ℕ} {d : RoundData}

/-! ### Votes from the current round -/

theorem broadcast_absent_refines (msg : TMMsgData) (hd : s.roundsData[i]? = some d)
    (hoff : rosterIFromPubKey s.active s.myPubKey = none) :
    Refines P wraps Heard (do setStep (← broadcast P i msg)) (fun _ s' => Local (Grown now) i s s') s := by
  unfold broadcast
  refine bind (R := fun step s' => s' = s ∧ step = s.step) ?_ ?_
  · refine roundAt_bind fun _ _ => get_bind ?_
    rw [hoff]
    exact pure ⟨rfl, rfl⟩
  · rintro step s' - ⟨rfl, rfl⟩
    exact ⟨.refl, Local.refl i s'⟩

theorem vote_refines (isPrecommit : Bool) (valueId : ValueId) (hs : Wf s) (hd : s.roundsData[i]? = some d)
    (hkey : d.key = (s.height, s.round)) (hmove : Move P wraps Heard s (s.cast isPrecommit valueId)) :
    Refines P wraps Heard (do setStep (← broadcast P i (voteData isPrecommit valueId)))
      (fun _ s' => Local (Grown now) i s s') s := by
  cases hon : rosterIFromPubKey s.active s.myPubKey with
  | none => exact broadcast_absent_refines _ hd hon
  | some rosterI =>
    exact ⟨wp_mono (castVote_wp s now isPrecommit valueId hs hd hkey (by simp [hon]) ⟨rfl, rfl, rfl, rfl⟩
      (.single hmove)) (fun _ _ h => ⟨h.1, h.2.1⟩) fun _ _ h => h⟩

theorem prevote_refines (valueId : ValueId) (hs : Wf s) (hd : s.roundsData[i]? = some d)
    (hkey : d.key = (s.height, s.round)) (hstep : s.step = .propose) (hmay : MayPrevote P s d valueId) :
    Refines P wraps Heard (do setStep (← broadcast P i (.prevote valueId)))
      (fun _ s' => Local (Grown now) i s s') s :=
  vote_refines false valueId hs hd hkey (.prevote i d valueId hd hkey hstep hmay)

theorem precommitNil_refines (hs : Wf s) (hd : s.roundsData[i]? = some d)
    (hkey : d.key = (s.height, s.round)) (hstep : s.step = .prevote) :
    Refines P wraps Heard (do setStep (← broadcast P i (.precommit ValueId.nil)))
      (fun _ s' => Local (Grown now) i s s') s :=
  vote_refines true ValueId.nil hs hd hkey (.precommitNil hstep)

/-! ### The context of a turn -/

/-- How what the turn read relates to the record as it is now. -/
structure Ctx (P : Params) (wraps : Prop) (th : Thresholds) (view : TickView) (i : ℕ) (s : TMState)
    (d : RoundData) : Prop where
  inv : Inv P wraps s
  here : s.roundsData[i]? = some d
  current : view.isCurrent = true → d.key = (s.height, s.round)
  backed : d.height = s.height →
    thresholdsOf P s.roster.members = .ok th ∧ ∀ k, view.counts.get k ≤ d.counts.get k
  on : view.onRoster = true → d.height = s.height → (rosterIFromPubKey s.active s.myPubKey).isSome

theorem Ctx.local (h : Ctx P wraps th view i s d) (hmoves : Moves P wraps Heard s s') (hl : Local (Grown now) i s s') :
    ∃ d', Ctx P wraps th view i s' d' ∧ Grown now d d' := by
  obtain ⟨d', hd', hg⟩ := hl.here d h.here
  have hheight : d'.height = d.height := congrArg Prod.fst hg.key
  refine ⟨d', ⟨hmoves.inv h.inv, hd', fun hc => ?_, fun hh => ?_, fun ho hh => ?_⟩, hg⟩
  · rw [hg.key, h.current hc, hl.height, hl.round]
  · rw [hheight, hl.height] at hh
    obtain ⟨hth, hcounts⟩ := h.backed hh
    exact ⟨by rw [hl.roster, hth], fun k => (hcounts k).trans (hg.counts k)⟩
  · rw [hheight, hl.height] at hh
    have := h.on ho hh
    rwa [TMState.active, hl.roster, hl.myPubKey]

theorem Ctx.reachesBig (h : Ctx P wraps th view i s d) (hh : d.height = s.height) (hbig : th.big ≤ view.counts.get k) :
    ReachesBig P s d k :=
  ⟨th, (h.backed hh).1, hbig.trans ((h.backed hh).2 k)⟩

/-- The shape of every line up to 47: under its condition it works on record `i` only. -/
def LineOk (P : Params) (wraps : Prop) (Heard : Msg → PubKeyID → Prop) (now : Instant) (i : ℕ) (m : NodeM Unit)
    (s : TMState) : Prop :=
  Refines P wraps Heard m (fun _ s' => Local (Grown now) i s s') s

theorem LineOk.skip : LineOk P wraps Heard now i (pure ()) s := pure (Local.refl i s)

theorem prevoteLine_refines (h : Ctx P wraps th view i s d) (hcur : view.isCurrent = true) (hstep : s.step = .propose)
    [Decidable lockOk]
    (hlock : lockOk → s.lockedValueRound.2 = -1 ∨ s.lockedValueRound.1 = some d.proposal ∨ th.big ≤ view.counts.get .yesPrevote) :
    LineOk P wraps Heard now i (do
      let status ← proposalIsValid cl i
      if status = .pass ∧ lockOk then setStep (← broadcast P i (.prevote d.proposalId))
      else setStep (← broadcast P i (.prevote ValueId.nil))) s := by
  refine (proposalIsValid_refines cl now h.here).bind ?_
  rintro status s₁ hmoves ⟨d₁, hw, hstatus⟩
  obtain ⟨d₂, hctx, hg⟩ := h.local hmoves hw.loc
  obtain rfl : d₂ = d₁ := by have := hctx.here; rw [hw.here] at this; exact (Option.some.inj this).symm
  have hkey := hctx.current hcur
  refine Refines.ite (fun hpass => ?_) fun _ => ?_
  · refine (prevote_refines d.proposalId hctx.inv.wf hctx.here hkey (hw.step.trans hstep) (.inr ?_)).mono
      fun _ _ _ hl => hw.loc.trans hl
    refine ⟨hg.proposal.2.symm, hstatus.trans hpass.1, ?_⟩
    rw [hw.locked, hg.proposal.1]
    exact (hlock hpass.2).imp_right fun h' => h'.imp_right (hctx.reachesBig (congrArg Prod.fst hkey))
  · exact (prevote_refines ValueId.nil hctx.inv.wf hctx.here hkey (hw.step.trans hstep) (.inl rfl)).mono
      fun _ _ _ hl => hw.loc.trans hl

theorem line22_refines (h : Ctx P wraps th view i s d) : LineOk P wraps Heard now i (line22 P cl view i) s := by
  unfold line22
  refine roundAt_bind fun d₀ hd₀ => ?_
  obtain rfl : d₀ = d := by rw [h.here] at hd₀; exact (Option.some.inj hd₀).symm
  refine get_bind (ite (fun hc => ?_) fun _ => LineOk.skip)
  obtain ⟨-, hcur, -, -, hstep⟩ := hc
  exact prevoteLine_refines h hcur hstep fun hlock => hlock.imp_right .inl

theorem line28_refines (h : Ctx P wraps th view i s d) : LineOk P wraps Heard now i (line28 P cl th view i) s := by
  unfold line28
  refine roundAt_bind fun d₀ hd₀ => ?_
  obtain rfl : d₀ = d := by rw [h.here] at hd₀; exact (Option.some.inj hd₀).symm
  refine get_bind (ite (fun hc => ?_) fun _ => LineOk.skip)
  obtain ⟨-, hcur, -, hbig, hstep, -⟩ := hc
  exact prevoteLine_refines h hcur hstep fun _ => .inr (.inr hbig)

theorem timeout_fresh (now : Instant) (height round : ℕ) (step : TMStep) :
    now < (Timeout.new now height round step).time := by
  exact Nat.lt_add_of_pos_right (show 0 < 5000 + round * 1000 by omega)

theorem setTimeout_refines (step : TMStep) (triggered : Bool × Bool) (hd : s.roundsData[i]? = some d)
    (hkey : d.key = (s.height, s.round)) :
    LineOk P wraps Heard now i (setRoundAt i { d with
      timeoutTriggered := triggered, activeTimeout := some (Timeout.new now s.height s.round step) }) s :=
  modify (.timeout i d _ triggered hd hkey.symm)
    (Local.setRound hd ⟨rfl, fun _ => le_rfl, ⟨rfl, rfl⟩, .inr ⟨_, rfl, timeout_fresh _ _ _ _⟩⟩)

theorem line34_refines (h : Ctx P wraps th view i s d) : LineOk P wraps Heard now i (line34 now th view i) s := by
  unfold line34
  refine roundAt_bind fun d₀ hd₀ => ?_
  obtain rfl : d₀ = d := by rw [h.here] at hd₀; exact (Option.some.inj hd₀).symm
  refine get_bind (ite (fun hc => ?_) fun _ => LineOk.skip)
  exact setTimeout_refines .prevote _ h.here (h.current hc.2.1)

theorem line47_refines (h : Ctx P wraps th view i s d) : LineOk P wraps Heard now i (line47 now th view i) s := by
  unfold line47
  refine roundAt_bind fun d₀ hd₀ => ?_
  obtain rfl : d₀ = d := by rw [h.here] at hd₀; exact (Option.some.inj hd₀).symm
  refine get_bind (ite (fun hc => ?_) fun _ => LineOk.skip)
  exact setTimeout_refines .precommit _ h.here (h.current hc.2.1)

theorem line44_refines (h : Ctx P wraps th view i s d) : LineOk P wraps Heard now i (line44 P th view i) s := by
  unfold line44
  refine get_bind (ite (fun hc => ?_) fun _ => LineOk.skip)
  exact precommitNil_refines h.inv.wf h.here (h.current hc.2.1) hc.2.2.2

theorem lockAndPrecommit_refines (h : Ctx P wraps th view i s d) (hon : view.onRoster = true)
    (hcur : view.isCurrent = true) (hbig : th.big ≤ view.counts.get .yesPrevote)
    (hpass : d.proposalCheckedValidity.1 = .pass) :
    LineOk P wraps Heard now i (lockAndPrecommit P i d) s := by
  unfold lockAndPrecommit
  refine get_bind (ite (fun hstep => ?_) fun _ => LineOk.skip)
  have hkey := h.current hcur
  have hwf := h.inv.wf
  have hmove : Move P wraps Heard s _ :=
    .precommit i d h.here hkey hstep hpass (h.reachesBig (congrArg Prod.fst hkey) hbig)
  refine ⟨wp_bind.mpr ?_⟩
  rw [wp_modify]
  refine wp_mono (castVote_wp s now true d.proposalId ⟨hwf.sorted, hwf.height_le, hwf.shape, hwf.timeout⟩
    h.here hkey (h.on hon (congrArg Prod.fst hkey)) ⟨rfl, rfl, rfl, rfl⟩ (.single hmove))
    ?_ fun _ _ he => he
  rintro _ s' ⟨hmoves, hl, -⟩
  exact ⟨hmoves, hl.height, hl.round, hl.roster, hl.myPubKey, hl.length, hl.off, hl.here⟩

theorem line36_refines (h : Ctx P wraps th view i s d) : LineOk P wraps Heard now i (line36 P cl th view i) s := by
  unfold line36
  refine ite (fun hc => ?_) fun _ => LineOk.skip
  obtain ⟨hon, hcur, -, hbig⟩ := hc
  refine (proposalIsValid_refines cl now h.here).bind ?_
  rintro status s₁ hmoves ⟨d₁, hw, hstatus⟩
  obtain ⟨d₂, hctx, hg⟩ := h.local hmoves hw.loc
  obtain rfl : d₂ = d₁ := by have := hctx.here; rw [hw.here] at this; exact (Option.some.inj this).symm
  refine get_bind (ite (fun hpass => ?_) fun _ => pure hw.loc)
  refine roundAt_bind fun d₀ hd₀ => ?_
  obtain rfl : d₀ = d₂ := by rw [hctx.here] at hd₀; exact (Option.some.inj hd₀).symm
  have hlock : LineOk P wraps Heard now i (lockAndPrecommit P i d₀) s₁ :=
    lockAndPrecommit_refines hctx hon hcur hbig (hstatus.trans hpass.1)
  refine bind hlock fun _ s₂ _ hl => ?_
  refine roundAt_bind fun d₃ _ => modify (.setValid _) ?_
  exact (hw.loc.trans hl).trans (Local.of_records rfl rfl rfl rfl rfl)

/-! ### Turns of the loop -/

/-- What holds between the turns of a tick that started with `L` records: the thresholds are still those
of the roster, or a decision has left all `L` records behind; and the round counter cannot wrap, unless
the current round was already current when the tick started. -/
structure TickInv (P : Params) (wraps : Prop) (now : Instant) (th : Thresholds) (L : ℕ) (s : TMState) :
    Prop where
  inv : Inv P wraps s
  length : L ≤ s.roundsData.length
  phase : thresholdsOf P s.roster.members = .ok th ∨
    ∀ j < L, ∀ d, s.roundsData[j]? = some d → d.height < s.height
  calm : ¬ wraps → (P.overflowChecks = true ∨ s.round + 1 < 2 ^ 32) ∨
    ∀ d ∈ s.roundsData, d.key = (s.height, s.round) → ∀ t, d.activeTimeout = some t → now < t.time

variable {L : ℕ}

theorem TickInv.local (h : TickInv P wraps now th L s) (hmoves : Moves P wraps Heard s s')
    (hl : Local (Grown now) i s s') : TickInv P wraps now th L s' := by
  -- each record is the old one, or has grown from it
  have hback : ∀ (j : ℕ) (d' : RoundData), s'.roundsData[j]? = some d' → ∃ d, s.roundsData[j]? = some d ∧ Grown now d d' := by
    intro j d' hd'
    by_cases hj : j = i
    · subst hj
      obtain ⟨hlt, -⟩ := List.getElem?_eq_some_iff.mp hd'
      have hlt' : j < s.roundsData.length := hl.length ▸ hlt
      have hd : s.roundsData[j]? = some s.roundsData[j] := by simp
      obtain ⟨e, he, hg⟩ := hl.here _ hd
      rw [hd'] at he
      cases he
      exact ⟨_, hd, hg⟩
    · exact ⟨d', (hl.off j hj) ▸ hd', refl_of _ _⟩
  refine ⟨hmoves.inv h.inv, by rw [hl.length]; exact h.length, ?_, fun hw => ?_⟩
  · rw [hl.roster, hl.height]
    refine h.phase.imp_right fun hbelow j hj d' hd' => ?_
    obtain ⟨d, hd, hg⟩ := hback j d' hd'
    rw [show d'.height = d.height from congrArg Prod.fst hg.key]
    exact hbelow j hj d hd
  · rw [hl.height, hl.round]
    refine (h.calm hw).imp_right fun hfresh d' hd' hkey t ht => ?_
    obtain ⟨j, hj⟩ := List.getElem?_of_mem hd'
    obtain ⟨d, hd, hg⟩ := hback j d' hj
    rcases hg.fresh with hsame | ⟨t', ht', hlt⟩
    · exact hfresh d (List.mem_of_getElem? hd) (hg.key.symm.trans hkey) t (hsame ▸ ht)
    · rw [ht] at ht'
      cases ht'
      exact hlt

theorem TickInv.started {round : ℕ} (h : TickInv P wraps now th L s) (hmoves : Moves P wraps Heard s s')
    (hst : Started now round s s') (hi : i < L) (hd : s.roundsData[i]? = some d) (hh : d.height = s.height) :
    TickInv P wraps now th L s' := by
  refine ⟨hmoves.inv h.inv, h.length.trans hst.length, .inl ?_, fun _ => .inr hst.fresh⟩
  rcases h.phase with hth | hbelow
  · rw [hst.roster, hth]
  · exact absurd hh (hbelow i hi d hd).ne

theorem tickView_refines (h : TickInv P wraps now th L s) (hi : i < L) :
    Refines P wraps Heard (tickView i) (fun view s' => s' = s ∧ ∃ d, Ctx P wraps th view i s d) s := by
  unfold tickView
  refine roundAt_bind fun d hd => get_bind (pure ⟨rfl, d, h.inv, hd, ?_, ?_, ?_⟩)
  · intro hc
    exact (of_decide_eq_true hc).symm
  · intro hh
    refine ⟨h.phase.resolve_right fun hbelow => ?_, fun _ => le_rfl⟩
    exact absurd hh (hbelow i hi d hd).ne
  · exact fun hon _ => hon

/-! ### Decisions, catching up and timeouts -/

theorem filter_height (hs : Wf s) : s.roundsData.filter (fun r => r.height < s.height + 1) = s.roundsData := by
  refine List.filter_eq_self.mpr fun d hd => ?_
  have := hs.height_le d hd
  simp only [decide_eq_true_eq]
  omega

theorem pushDecided_refines (hd : s.roundsData[i]? = some d) (hh : d.height = s.height)
    (hpass : d.proposalCheckedValidity.1 = .pass) (hbig : ReachesBig P s d .yesPrecommit) :
    Refines P wraps Heard (pushDecided P cl d)
      (fun _ s' => s'.height = s.height ∧ s'.roundsData = s.roundsData ∧
        ∃ dec ∈ s'.pushed, dec.roster = s'.roster ∧ dec.roundData.height = s'.height) s := by
  unfold pushDecided
  refine get_bind (lift_bind fun fatPointer hfat => ?_)
  have hpush : Move P wraps Heard s _ := .push i d fatPointer hd hh hpass hbig hfat
  refine bind (R := fun _ s' => s' = _) ⟨.single hpush, rfl⟩ ?_
  intro _ s₁ _ hs₁
  refine (callClosure_refines _).mono fun _ s₂ _ hs₂ => ?_
  rw [hs₂, hs₁]
  exact ⟨rfl, rfl, _, List.mem_cons_self, rfl, hh⟩

theorem decideValue_refines (h : TickInv P wraps now th L s) (hd : s.roundsData[i]? = some d)
    (hh : d.height = s.height) (hpass : d.proposalCheckedValidity.1 = .pass)
    (hbig : ReachesBig P s d .yesPrecommit) :
    Refines P wraps Heard (decideValue P cl now i) (fun _ s' => TickInv P wraps now th L s') s := by
  unfold decideValue
  refine roundAt_bind fun d₀ hd₀ => ?_
  obtain rfl : d₀ = d := by rw [hd] at hd₀; exact (Option.some.inj hd₀).symm
  refine (pushDecided_refines hd hh hpass hbig).bind fun newRoster s₂ hmoves₂ hr => ?_
  obtain ⟨hheight₂, hrec₂, hpushed⟩ := hr
  have hinv₂ := hmoves₂.inv h.inv
  have hnew : Move P wraps Heard s₂ _ :=
    .newHeight newRoster d₀ hpushed (hrec₂ ▸ List.mem_of_getElem? hd) (hh.trans hheight₂.symm)
  refine bind (R := fun _ s' => s' = _) ⟨.single hnew, rfl⟩ ?_
  intro _ s₃ hmoves₃ hs₃
  have hinv₃ := hmoves₃.inv hinv₂
  have hheight₃ : s₃.height = s₂.height + 1 := by rw [hs₃]
  have hrec₃ : s₃.roundsData = s.roundsData := by
    rw [hs₃, ← hrec₂]
    exact filter_height hinv₂.wf
  have hbelow : ∀ d ∈ s₃.roundsData, d.height < s₃.height := by
    intro e he
    have hle := h.inv.wf.height_le e (hrec₃ ▸ he)
    omega
  refine (startRound_refines hinv₃ fun hw e he => ?_).mono fun _ s₄ hmoves₄ hst => ?_
  · have hle := (hinv₂.log hw).le e (by rw [hs₃] at he; exact he)
    rw [hheight₃]
    rcases hle with hlt | ⟨heq, -⟩
    · exact .inl (Nat.lt_succ_of_lt hlt)
    · exact .inl (by rw [heq]; exact Nat.lt_succ_self _)
  · refine ⟨hmoves₄.inv hinv₃, ?_, .inr fun j hj e he => ?_, fun _ => .inr hst.fresh⟩
    · exact (hrec₃ ▸ h.length).trans hst.length
    · rw [hst.below hbelow j (lt_of_lt_of_le hj (hrec₃ ▸ h.length))] at he
      rw [hst.height]
      exact hbelow e (List.mem_of_getElem? he)

theorem line49_refines (h : TickInv P wraps now th L s) (hctx : Ctx P wraps th view i s d) :
    Refines P wraps Heard (line49 P cl now th view i) (fun _ s' => TickInv P wraps now th L s') s := by
  unfold line49
  refine roundAt_bind fun d₀ hd₀ => ?_
  obtain rfl : d₀ = d := by have := hctx.here; rw [this] at hd₀; exact (Option.some.inj hd₀).symm
  refine get_bind (ite (fun hc => ?_) fun _ => pure h)
  obtain ⟨hh, -, hbig⟩ := hc
  refine (proposalIsValid_refines cl now hctx.here).bind ?_
  rintro status s₁ hmoves ⟨d₁, hw, hstatus⟩
  obtain ⟨d₂, hctx₁, hg⟩ := hctx.local hmoves hw.loc
  obtain rfl : d₂ = d₁ := by have := hctx₁.here; rw [hw.here] at this; exact (Option.some.inj this).symm
  have h₁ := h.local hmoves hw.loc
  have hh₁ : d₂.height = s₁.height := by
    rw [show d₂.height = d₀.height from congrArg Prod.fst hg.key, ← hh, hw.loc.height]
  refine ite (fun hpass => ?_) fun _ => pure h₁
  exact decideValue_refines h₁ hctx₁.here hh₁ (hstatus.trans hpass) (hctx₁.reachesBig hh₁ hbig)

theorem line55_refines (h : TickInv P wraps now th L s) (hi : i < L) :
    Refines P wraps Heard (line55 P cl now th view i) (fun _ s' => TickInv P wraps now th L s') s := by
  unfold line55
  refine roundAt_bind fun d hd => get_bind (ite (fun hc => ?_) fun _ => pure h)
  obtain ⟨-, hh, hlt, -⟩ := hc
  refine (startRound_refines h.inv fun hw e he => ?_).mono fun _ s' hmoves hst => h.started hmoves hst hi hd hh.symm
  exact ((h.inv.log hw).le e he).trans_lt (.inr ⟨rfl, hlt⟩)

theorem next_round {round : ℕ} (h : TickInv P wraps now th L s) (hw : ¬ wraps) (hd : s.roundsData[i]? = some d)
    (hkey : d.key = (s.height, s.round)) (ht : d.activeTimeout = some t) (hdue : t.time ≤ now)
    (hadd : addU P.overflowChecks 32 s.round 1 = .ok round) : s.round < round := by
  have hsmall : s.round + 1 < 2 ^ 32 → s.round < round := fun hlt => by
    rw [addU_ok hlt] at hadd
    cases hadd
    exact Nat.lt_succ_self _
  rcases h.calm hw with (hchecks | hlt) | hfresh
  · by_cases hlt : s.round + 1 < 2 ^ 32
    · exact hsmall hlt
    · rw [hchecks, addU_overflow (Nat.le_of_not_lt hlt)] at hadd
      cases hadd
  · exact hsmall hlt
  · have hlt := hfresh d (List.mem_of_getElem? hd) hkey t ht
    exact absurd hdue (Nat.not_le.mpr hlt)

theorem timeouts_refines (h : TickInv P wraps now th L s) (hi : i < L) :
    Refines P wraps Heard (timeouts P cl now view i) (fun _ s' => TickInv P wraps now th L s') s := by
  unfold timeouts
  refine roundAt_bind fun d hd => get_bind ?_
  cases ht : d.activeTimeout with
  | none => exact pure h
  | some t =>
    refine ite (fun hc => ?_) fun _ => pure h
    obtain ⟨hdue, hh, hr, -⟩ := hc
    have hkey : d.key = (s.height, s.round) := by
      rw [← h.inv.wf.timeout d (List.mem_of_getElem? hd) t ht, hh, hr]
    cases t.step with
    | propose =>
      refine ite (fun hstep => ?_) fun _ => pure h
      exact (prevote_refines ValueId.nil h.inv.wf hd hkey hstep (.inl rfl)).mono fun _ _ hm hl => h.local hm hl
    | prevote =>
      refine ite (fun hstep => ?_) fun _ => pure h
      exact (precommitNil_refines h.inv.wf hd hkey hstep).mono fun _ _ hm hl => h.local hm hl
    | precommit =>
      refine lift_bind fun round hadd => ?_
      refine (startRound_refines h.inv fun hw e he => ?_).mono fun _ s' hmoves hst =>
        h.started hmoves hst hi hd (congrArg Prod.fst hkey)
      exact ((h.inv.log hw).le e he).trans_lt (.inr ⟨rfl, next_round h hw hd hkey ht hdue hadd⟩)

/-! ### The tick -/

theorem LineOk.seq (hctx : Ctx P wraps th view i s d) (hline : LineOk P wraps Heard now i m s)
    (hrest : ∀ s₁ d₁, Ctx P wraps th view i s₁ d₁ → LineOk P wraps Heard now i m' s₁) :
    LineOk P wraps Heard now i (do m; m') s := by
  refine bind hline fun _ s₁ hmoves hl => ?_
  obtain ⟨d₁, hctx₁, -⟩ := hctx.local hmoves hl
  exact (hrest s₁ d₁ hctx₁).mono fun _ _ _ hl' => hl.trans hl'

def upTo47 (P : Params) (cl : Closures) (now : Instant) (th : Thresholds) (view : TickView) (i : ℕ) : NodeM Unit := do
  line22 P cl view i
  line28 P cl th view i
  line34 now th view i
  line36 P cl th view i
  line44 P th view i
  line47 now th view i

theorem bftUpdateRound_lines (P : Params) (cl : Closures) (now : Instant) (th : Thresholds) (i : ℕ) :
    bftUpdateRound P cl now th i = (do
      let view ← tickView i
      upTo47 P cl now th view i
      line49 P cl now th view i
      line55 P cl now th view i
      timeouts P cl now view i) := by
  simp only [bftUpdateRound, upTo47, bind_assoc]

theorem upTo47_refines (hctx : Ctx P wraps th view i s d) :
    LineOk P wraps Heard now i (upTo47 P cl now th view i) s := by
  refine LineOk.seq hctx (line22_refines hctx) fun s₁ d₁ hctx₁ => ?_
  refine LineOk.seq hctx₁ (line28_refines hctx₁) fun s₂ d₂ hctx₂ => ?_
  refine LineOk.seq hctx₂ (line34_refines hctx₂) fun s₃ d₃ hctx₃ => ?_
  refine LineOk.seq hctx₃ (line36_refines hctx₃) fun s₄ d₄ hctx₄ => ?_
  refine LineOk.seq hctx₄ (line44_refines hctx₄) fun s₅ d₅ hctx₅ => ?_
  exact line47_refines hctx₅

theorem bftUpdateRound_refines (h : TickInv P wraps now th L s) (hi : i < L) :
    Refines P wraps Heard (bftUpdateRound P cl now th i) (fun _ s' => TickInv P wraps now th L s') s := by
  rw [bftUpdateRound_lines]
  refine (tickView_refines h hi).bind ?_
  rintro view _ - ⟨rfl, d, hctx⟩
  refine bind (upTo47_refines hctx) fun _ s₁ hmoves hl => ?_
  obtain ⟨d₁, hctx₁, -⟩ := hctx.local hmoves hl
  refine (line49_refines (h.local hmoves hl) hctx₁).bind fun _ s₂ _ h₂ => ?_
  refine (line55_refines h₂ hi).bind fun _ s₃ _ h₃ => ?_
  exact timeouts_refines h₃ hi

theorem bftUpdate_refines (h : Inv P wraps s) (hcalm : ¬ wraps → P.overflowChecks = true ∨ s.round + 1 < 2 ^ 32) :
    Refines P wraps Heard (bftUpdate P cl now) (fun _ s' => Inv P wraps s') s := by
  unfold bftUpdate
  refine get_bind (lift_bind fun th hth => ?_)
  have hstart : TickInv P wraps now th s.roundsData.length s := ⟨h, le_rfl, .inl hth, fun hw => .inl (hcalm hw)⟩
  refine (forM _ hstart fun i hi s₁ h₁ => ?_).mono fun _ _ _ h' => h'.inv
  refine bftUpdateRound_refines h₁ ?_
  obtain ⟨j, hj, rfl⟩ := List.mem_range'.mp hi
  omega

end Crosslink.Tenderlink

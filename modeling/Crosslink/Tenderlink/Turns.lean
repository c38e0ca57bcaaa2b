import Crosslink.Tenderlink.Certificate
import Crosslink.Tenderlink.Reproposal

/-!
# Turns of the tick that run through

The moves of a tick say what can have happened when it returns. To know that a tick decides, its turns have to be
followed to their ends: while the closures answer and the round still has its bit for precommits, no line up to the
decision panics, the lines work on their own record only, and a record whose value is complete and passes stays so.
-/

namespace Crosslink.Tenderlink

open Codec Fallible Search List

variable {P : Params} {cl : Closures} {s s' : TMState} {d d' : RoundData} {now : Instant} {th : Thresholds}
  {view : TickView} {i : ℕ} {value : BlockValue}

/-! ### Records in a turn -/

/-- The record holds all of the value, and the value passes validation. -/
def Ready (cl : Closures) (value : BlockValue) (d : RoundData) : Prop :=
  d.hasFullProposal = true ∧ d.proposal = value ∧ Passes cl d

/-- What the lines of a turn do to its record, short of a decision. -/
structure Held (cl : Closures) (value : BlockValue) (now : Instant) (d d' : RoundData) : Prop extends
    Grown now d d' where
  ready : Ready cl value d → Ready cl value d'

instance : Std.Refl (Held cl value now) where
  refl d := ⟨refl_of (Grown now) d, id⟩

instance : IsTrans RoundData (Held cl value now) where
  trans _ _ _ h h' := ⟨trans_of (Grown now) h.toGrown h'.toGrown, fun hready => h'.ready (h.ready hready)⟩

theorem Held.of_grown (hg : Grown now d d') (hfull : d'.hasFullProposal = d.hasFullProposal)
    (hfaulty : d'.proposalIsFaulty = d.proposalIsFaulty)
    (hverdict : d'.proposalCheckedValidity = d.proposalCheckedValidity) : Held cl value now d d' := by
  refine ⟨hg, fun ⟨hd, hvalue, hpass⟩ => ⟨hfull.trans hd, hg.proposal.1.trans hvalue, ?_⟩⟩
  unfold Passes
  rw [hverdict, hfaulty, hg.proposal.1]
  exact hpass

theorem Wf.setRound (hs : Wf s) (hd : s.roundsData[i]? = some d) (hkey : d'.key = d.key)
    (hshape : d.height = s.height → Shape s.roster d') (htimeout : TimeoutOk d') : Wf (s.setRound i d') := by
  have hheight : d'.height = d.height := congrArg Prod.fst hkey
  refine ⟨pairwise_set hs.sorted hd hkey, fun e he => ?_, fun e he hh => ?_, fun e he => ?_⟩
  · rcases mem_setRound he with he | rfl
    · exact hs.height_le e he
    · rw [hheight]
      exact hs.height_le d (mem_of_getElem? hd)
  · rcases mem_setRound he with he | rfl
    · exact hs.shape e he hh
    · exact hshape (hheight.symm.trans hh)
  · rcases mem_setRound he with he | rfl
    · exact hs.timeout e he
    · exact htimeout

theorem FoundRound.wf {round : ℕ} (h : FoundRound s round seen i s₁ d) (hs : Wf s) :
    Wf s₁ := by
  have hmoves : Moves (Params.sample true) True (fun _ _ => True) s s₁ := h.moves
  exact (hmoves.inv ⟨hs, fun hw => absurd trivial hw⟩).wf

theorem Incorporated.wf (h : Incorporated P m s s') (hs : Wf s) : Wf s' := by
  cases h with
  | dropped => exact hs
  | taken member seen j s₁ d₁ d' hacc hround hstep =>
    obtain ⟨hd₁, -⟩ := hround.getElem?
    have hs₁ : Wf s₁ := hround.wf hs
    refine hs₁.setRound hd₁ hstep.frame.1 (fun _ => ?_) fun t ht => ?_
    · rw [← hround.sameTrace.roster]
      exact hstep.shape (hround.shape hs).1
    · rw [hstep.frame.1]
      exact hs₁.timeout d₁ (mem_of_getElem? hd₁) t (hstep.frame.2.1 ▸ ht)

/-! ### Statements of a line -/

/-- The record a turn is about, and how what the turn read relates to it. A vote of its round has a round word. -/
structure Turn (P : Params) (view : TickView) (i : ℕ) (s : TMState) (d : RoundData) : Prop where
  wf : Wf s
  here : s.roundsData[i]? = some d
  current : view.isCurrent = true ↔ d.key = (s.height, s.round)
  on : view.onRoster = true → (rosterIFromPubKey s.active s.myPubKey).isSome
  word : view.isCurrent = true → ∀ isPrecommit, ∃ word, voteRoundWord P isPrecommit d.round = .ok word

/-- The statement ends without a panic and has worked on record `i` only. -/
def Runs (cl : Closures) (value : BlockValue) (now : Instant) (i : ℕ) (m : NodeM Unit) (s : TMState) : Prop :=
  wp m (fun _ s' => Wf s' ∧ Local (Held cl value now) i s s') (fun _ _ => False) s

theorem Turn.local (h : Turn P view i s d) (hs' : Wf s') (hl : Local (Held cl value now) i s s') :
    ∃ d', Turn P view i s' d' ∧ Held cl value now d d' := by
  obtain ⟨d', hd', hheld⟩ := hl.here d h.here
  have hround : d'.round = d.round := congrArg Prod.snd hheld.key
  refine ⟨d', ⟨hs', hd', ?_, fun ho => ?_, fun hc => ?_⟩, hheld⟩
  · rw [hheld.key, hl.height, hl.round]
    exact h.current
  · rw [TMState.active, hl.roster, hl.myPubKey]
    exact h.on ho
  · rw [hround]
    exact h.word hc

theorem Turn.skip (h : Turn P view i s d) : Runs cl value now i (pure ()) s := ⟨h.wf, Local.refl i s⟩

theorem Runs.after (hl : Local (Held cl value now) i s s₁) (h : Runs cl value now i m s₁) :
    wp m (fun _ s' => Wf s' ∧ Local (Held cl value now) i s s') (fun _ _ => False) s₁ :=
  wp_mono h (fun _ _ ⟨hs', hl'⟩ => ⟨hs', hl.trans hl'⟩) fun _ _ hf => hf

theorem Turn.seq (h : Turn P view i s d) (hm : Runs cl value now i m s)
    (hm' : ∀ s₁ d₁, Turn P view i s₁ d₁ → Runs cl value now i m' s₁) : Runs cl value now i (do m; m') s := by
  refine wp_seq hm ?_
  intro _ s₁ ⟨hs₁, hl⟩
  obtain ⟨d₁, hturn, -⟩ := h.local hs₁ hl
  exact (hm' s₁ d₁ hturn).after hl

theorem Turn.setRound (h : Turn P view i s d) (hheld : Held cl value now d d')
    (hshape : d.height = s.height → Shape s.roster d') (htimeout : TimeoutOk d') :
    Runs cl value now i (setRoundAt i d') s := by
  unfold setRoundAt Runs
  rw [wp_modify]
  exact ⟨h.wf.setRound h.here hheld.key hshape htimeout, Local.setRound h.here hheld⟩

def Answers (cl : Closures) : Prop := ∀ n w, ∃ verdict, cl.validate n w = .ok verdict

theorem Turn.setVerdict (h : Turn P view i s d) (verdict : TMStatus × TMStatusReason)
    (hready : Ready cl value d → verdict.1 = .pass) :
    Runs cl value now i (setRoundAt i { d with proposalCheckedValidity := verdict }) s := by
  refine h.setRound ⟨⟨rfl, fun _ => le_rfl, ⟨rfl, rfl⟩, .inl rfl⟩, fun hr => ⟨hr.1, hr.2.1, .inl (hready hr)⟩⟩
    (fun hh => ?_) (h.wf.timeout d (mem_of_getElem? h.here))
  have hshape := h.wf.shape d (mem_of_getElem? h.here) hh
  exact ⟨hshape.slots, hshape.counts, hshape.sigs⟩

theorem Turn.cacheValidity_runs (h : Turn P view i s d) (hcl : Answers cl) :
    Runs cl value now i (cacheValidity cl i d) s := by
  unfold cacheValidity
  by_cases hopen : d.proposalCheckedValidity.1 = .indeterminate
  · rw [if_pos hopen]
    by_cases hfaulty : d.proposalIsFaulty = true
    · rw [if_pos hfaulty]
      refine h.setVerdict (.fail, .none) fun ⟨_, _, hpass⟩ => ?_
      simp [Passes, hopen, hfaulty] at hpass
    · rw [if_neg hfaulty]
      by_cases hfull : d.hasFullProposal = true
      · rw [if_pos hfull]
        obtain ⟨verdict, hverdict⟩ := hcl s.calls d.proposal
        unfold callClosure
        simp only [Runs, wp_bind, wp_get, wp_modify, hverdict, wp_lift_ok]
        have hcalls : Turn P view i { s with calls := s.calls + 1 } d :=
          ⟨⟨h.wf.sorted, h.wf.height_le, h.wf.shape, h.wf.timeout⟩, h.here, h.current, h.on, h.word⟩
        have hset : Runs cl value now i _ { s with calls := s.calls + 1 } := hcalls.setVerdict verdict ?_
        · exact hset.after (Local.of_records rfl rfl rfl rfl rfl)
        · rintro ⟨-, -, hpass | ⟨-, -, hpass⟩⟩
          · rw [hopen] at hpass
            cases hpass
          · obtain ⟨reason, hreason⟩ := hpass s.calls
            rw [hverdict] at hreason
            cases hreason
            rfl
      · rw [if_neg hfull]
        exact h.skip
  · rw [if_neg hopen]
    exact h.skip

theorem Turn.proposalIsValid_runs (value : BlockValue) (now : Instant) (h : Turn P view i s d) (hcl : Answers cl) :
    wp (proposalIsValid cl i)
      (fun status s' => (Ready cl value d → status = .pass) ∧ Wf s' ∧ Local (Held cl value now) i s s')
      (fun _ _ => False) s := by
  have hruns : wp (proposalIsValid cl i) (fun _ s' => Wf s' ∧ Local (Held cl value now) i s s')
      (fun _ _ => False) s := by
    unfold proposalIsValid
    rw [wp_bind, wp_roundAt h.here]
    have hcache : Runs cl value now i (cacheValidity cl i d) s := h.cacheValidity_runs hcl
    refine wp_seq hcache ?_
    intro _ s₁ ⟨hs₁, hl⟩
    obtain ⟨d₁, hd₁, -⟩ := hl.here d h.here
    rw [wp_bind, wp_roundAt hd₁, wp_pure]
    exact ⟨hs₁, hl⟩
  by_cases hready : Ready cl value d
  · refine wp_mono (wp_and hruns (proposalIsValid_pass h.wf h.here hready.1 hready.2.2)) ?_ fun _ _ hf => hf.1
    intro status s' ⟨hrun, hpass, _⟩
    exact ⟨fun _ => hpass, hrun⟩
  · exact wp_mono hruns (fun _ _ hrun => ⟨fun hr => absurd hr hready, hrun⟩) fun _ _ hf => hf

theorem RecordStep.held_of_vote (h : RecordStep P R isMyProposal m d d')
    (htype : m.packetType ≠ packetTypeProposalChunk) (hd : Shape R d) (hi : m.rosterI < activeRosterLen R.members) :
    Held cl value now d d' := by
  have hg : Grown now d d' := h.grown_of_vote now htype hd hi
  cases h with
  | same => exact refl_of _ d
  | vote k _ _ hacc => exact .of_grown hg rfl rfl rfl
  | store hchunk => exact absurd hchunk htype
  | flush hchunk => exact absurd hchunk htype
  | faulty hchunk => exact absurd hchunk htype

theorem Turn.vote (h : Turn P view i s d) (hon : view.onRoster = true) (hcur : view.isCurrent = true)
    (isPrecommit : Bool) (valueId : ValueId) :
    Runs cl value now i (do setStep (← broadcast P i (voteData isPrecommit valueId))) s := by
  have hkey := h.current.mp hcur
  have hround : d.round = s.round := congrArg Prod.snd hkey
  obtain ⟨word, hword⟩ := h.word hcur isPrecommit
  rw [hround] at hword
  refine wp_mono (castVote_runs isPrecommit valueId h.wf h.here hkey (h.on hon) hword) ?_ fun _ _ hf => hf
  rintro _ _ ⟨rosterI, signedData, s₁, hinc, rfl⟩
  have hs : Wf (s.sign (.vote isPrecommit s.height s.round valueId)) :=
    ⟨h.wf.sorted, h.wf.height_le, h.wf.shape, h.wf.timeout⟩
  have hshape := h.wf.shape d (mem_of_getElem? h.here) (congrArg Prod.fst hkey)
  have hs₁ : Wf s₁ := hinc.wf hs
  have hl : Local (Held cl value now) i _ s₁ := hinc.local hs h.here hkey fun member d' hacc hstep =>
    hstep.held_of_vote (ownVote_packetType _ _ _ _ _ _) hshape hacc.active
  exact ⟨⟨hs₁.sorted, hs₁.height_le, hs₁.shape, hs₁.timeout⟩,
    hl.height, hl.round, hl.roster, hl.myPubKey, hl.length, hl.off, hl.here⟩

/-! ### The lines -/

theorem Turn.prevote (h : Turn P view i s d) (hcl : Answers cl) (hon : view.onRoster = true)
    (hcur : view.isCurrent = true) (valueId : ValueId) [Decidable lockOk] :
    Runs cl value now i (do
      let status ← proposalIsValid cl i
      if status = .pass ∧ lockOk then setStep (← broadcast P i (.prevote valueId))
      else setStep (← broadcast P i (.prevote ValueId.nil))) s := by
  refine wp_seq (h.proposalIsValid_runs value now hcl) ?_
  intro status s₁ ⟨_, hs₁, hl⟩
  obtain ⟨d₁, hturn, -⟩ := h.local hs₁ hl
  split
  · exact (hturn.vote hon hcur false valueId).after hl
  · exact (hturn.vote hon hcur false ValueId.nil).after hl

theorem Turn.line22_runs (h : Turn P view i s d) (hcl : Answers cl) : Runs cl value now i (line22 P cl view i) s := by
  unfold line22 Runs
  rw [wp_bind, wp_roundAt h.here, wp_bind, wp_get]
  split
  · rename_i hc
    exact h.prevote hcl hc.1 hc.2.1 d.proposalId
  · exact h.skip

theorem Turn.line28_runs (h : Turn P view i s d) (hcl : Answers cl) : Runs cl value now i (line28 P cl th view i) s := by
  unfold line28 Runs
  rw [wp_bind, wp_roundAt h.here, wp_bind, wp_get]
  split
  · rename_i hc
    exact h.prevote hcl hc.1 hc.2.1 d.proposalId
  · exact h.skip

theorem Turn.setTimeout (h : Turn P view i s d) (hcur : view.isCurrent = true) (step : TMStep)
    (triggered : Bool × Bool) :
    Runs cl value now i (setRoundAt i { d with
      timeoutTriggered := triggered
      activeTimeout := some (Timeout.new now s.height s.round step) }) s := by
  have hkey := h.current.mp hcur
  refine h.setRound (.of_grown ⟨rfl, fun _ => le_rfl, ⟨rfl, rfl⟩, .inr ⟨_, rfl, timeout_fresh now _ _ step⟩⟩ rfl rfl rfl)
    (fun hh => ?_) fun t ht => ?_
  · have hshape := h.wf.shape d (mem_of_getElem? h.here) hh
    exact ⟨hshape.slots, hshape.counts, hshape.sigs⟩
  · cases ht
    exact hkey.symm

theorem Turn.line34_runs (h : Turn P view i s d) : Runs cl value now i (line34 now th view i) s := by
  unfold line34 Runs
  rw [wp_bind, wp_roundAt h.here, wp_bind, wp_get]
  split
  · rename_i hc
    exact h.setTimeout hc.2.1 .prevote _
  · exact h.skip

theorem Turn.line47_runs (h : Turn P view i s d) : Runs cl value now i (line47 now th view i) s := by
  unfold line47 Runs
  rw [wp_bind, wp_roundAt h.here, wp_bind, wp_get]
  split
  · rename_i hc
    exact h.setTimeout hc.2.1 .precommit _
  · exact h.skip

theorem Turn.line44_runs (h : Turn P view i s d) : Runs cl value now i (line44 P th view i) s := by
  unfold line44 Runs
  rw [wp_bind, wp_get]
  split
  · rename_i hc
    exact h.vote hc.1 hc.2.1 true ValueId.nil
  · exact h.skip

theorem Turn.lockAndPrecommit_runs (h : Turn P view i s d) (hon : view.onRoster = true)
    (hcur : view.isCurrent = true) : Runs cl value now i (lockAndPrecommit P i d) s := by
  unfold lockAndPrecommit Runs
  rw [wp_bind, wp_get]
  split
  · rw [wp_bind, wp_modify]
    have hlocked : Turn P view i { s with lockedValueRound := (some d.proposal, s.round) } d :=
      ⟨⟨h.wf.sorted, h.wf.height_le, h.wf.shape, h.wf.timeout⟩, h.here, h.current, h.on, h.word⟩
    exact (hlocked.vote hon hcur true d.proposalId).after (Local.of_records rfl rfl rfl rfl rfl)
  · exact h.skip

theorem Turn.line36_runs (h : Turn P view i s d) (hcl : Answers cl) : Runs cl value now i (line36 P cl th view i) s := by
  unfold line36 Runs
  by_cases hc : view.onRoster ∧ view.isCurrent ∧ view.hasEnoughInfo ∧ th.big ≤ view.counts.yesPrevotes
  · rw [if_pos hc]
    refine wp_seq (h.proposalIsValid_runs value now hcl) ?_
    intro status s₁ ⟨_, hs₁, hl⟩
    obtain ⟨d₁, hturn, -⟩ := h.local hs₁ hl
    rw [wp_bind, wp_get]
    split
    · rw [wp_bind, wp_roundAt hturn.here]
      have hlock : Runs cl value now i (lockAndPrecommit P i d₁) s₁ := hturn.lockAndPrecommit_runs hc.1 hc.2.1
      refine wp_seq hlock ?_
      intro _ s₂ ⟨hs₂, hl'⟩
      obtain ⟨d₂, hd₂, -⟩ := hl'.here d₁ hturn.here
      rw [wp_bind, wp_roundAt hd₂, wp_modify]
      exact ⟨⟨hs₂.sorted, hs₂.height_le, hs₂.shape, hs₂.timeout⟩,
        (hl.trans hl').trans (Local.of_records rfl rfl rfl rfl rfl)⟩
    · exact ⟨hs₁, hl⟩
  · rw [if_neg hc]
    exact h.skip

theorem Turn.upTo47_runs (h : Turn P view i s d) (hcl : Answers cl) :
    Runs cl value now i (upTo47 P cl now th view i) s := by
  refine h.seq (h.line22_runs hcl) fun s₁ d₁ h₁ => ?_
  refine h₁.seq (h₁.line28_runs hcl) fun s₂ d₂ h₂ => ?_
  refine h₂.seq h₂.line34_runs fun s₃ d₃ h₃ => ?_
  refine h₃.seq (h₃.line36_runs hcl) fun s₄ d₄ h₄ => ?_
  refine h₄.seq h₄.line44_runs fun s₅ d₅ h₅ => ?_
  exact h₅.line47_runs

/-! ### Turns without a decision -/

section Skips

variable {Q : Unit → TMState → Prop} {E : Panic → TMState → Prop}

theorem line49_skip (hd : s.roundsData[i]? = some d)
    (hquiet : d.height = s.height → view.hasEnoughInfo = true → view.counts.yesPrecommits < th.big) :
    wp (line49 P cl now th view i) Q E s ↔ Q () s := by
  unfold line49
  rw [wp_bind, wp_roundAt hd, wp_bind, wp_get, if_neg, wp_pure]
  intro ⟨hheight, hinfo, hbig⟩
  have := hquiet hheight.symm hinfo
  omega

theorem line55_skip (hd : s.roundsData[i]? = some d)
    (hquiet : view.onRoster = true → d.height = s.height → s.round < d.round → view.counts.anys < th.small) :
    wp (line55 P cl now th view i) Q E s ↔ Q () s := by
  unfold line55
  rw [wp_bind, wp_roundAt hd, wp_bind, wp_get, if_neg, wp_pure]
  intro ⟨hon, hheight, hround, hsmall⟩
  have := hquiet hon hheight.symm hround
  omega

end Skips

theorem Turn.timeouts_runs (h : Turn P view i s d)
    (hquiet : view.onRoster = true → d.key = (s.height, s.round) →
      ∀ t, d.activeTimeout = some t → t.step = .precommit → now < t.time) :
    Runs cl value now i (timeouts P cl now view i) s := by
  unfold timeouts Runs
  rw [wp_bind, wp_roundAt h.here, wp_bind, wp_get]
  cases ht : d.activeTimeout with
  | none => exact h.skip
  | some t =>
    dsimp only
    by_cases hc : t.time ≤ now ∧ s.height = t.height ∧ s.round = t.round ∧ view.onRoster = true
    · rw [if_pos hc]
      obtain ⟨hdue, hheight, hround, hon⟩ := hc
      have hkey : d.key = (s.height, s.round) := by
        rw [← h.wf.timeout d (mem_of_getElem? h.here) t ht, hheight, hround]
      have hcur := h.current.mpr hkey
      cases hstep : t.step with
      | propose =>
        dsimp only
        split
        · exact h.vote hon hcur false ValueId.nil
        · exact h.skip
      | prevote =>
        dsimp only
        split
        · exact h.vote hon hcur true ValueId.nil
        · exact h.skip
      | precommit =>
        have := hquiet hon hkey t ht hstep
        exact absurd hdue (Nat.not_le.mpr this)
    · rw [if_neg hc]
      exact h.skip

/-- The record neither decides nor lets the node leave its round in a tick at `now`. -/
structure Quiet (th : Thresholds) (now : Instant) (s : TMState) (d : RoundData) : Prop where
  undecided : d.height = s.height → d.hasEnoughInfoToDetermineValidity = true → d.counts.yesPrecommits < th.big
  behind : (rosterIFromPubKey s.active s.myPubKey).isSome → d.height = s.height → s.round < d.round →
    d.counts.anys < th.small
  waiting : (rosterIFromPubKey s.active s.myPubKey).isSome → d.key = (s.height, s.round) →
    ∀ t, d.activeTimeout = some t → t.step = .precommit → now < t.time

def viewOf (s : TMState) (d : RoundData) : TickView where
  onRoster := (rosterIFromPubKey s.active s.myPubKey).isSome
  counts := d.counts
  hasEnoughInfo := d.hasEnoughInfoToDetermineValidity
  isCurrent := (s.height, s.round) = d.key

theorem wp_tickView (hd : s.roundsData[i]? = some d) :
    wp (tickView i) Q E s ↔ Q (viewOf s d) s := by
  unfold tickView
  rw [wp_bind, wp_roundAt hd, wp_bind, wp_get, wp_pure]
  rfl

def Votable (P : Params) (round : ℕ) : Prop := ∀ isPrecommit, ∃ word, voteRoundWord P isPrecommit round = .ok word

theorem Turn.start (hs : Wf s) (hd : s.roundsData[i]? = some d)
    (hword : d.key = (s.height, s.round) → Votable P d.round) : Turn P (viewOf s d) i s d :=
  ⟨hs, hd, by simp [viewOf, eq_comm], fun hon => hon, fun hc => hword (by simpa [viewOf, eq_comm] using hc)⟩

theorem bftUpdateRound_quiet (hs : Wf s) (hcl : Answers cl) (hd : s.roundsData[i]? = some d)
    (hword : d.key = (s.height, s.round) → Votable P d.round) (hquiet : Quiet th now s d) :
    Runs cl value now i (bftUpdateRound P cl now th i) s := by
  have h : Turn P (viewOf s d) i s d := .start hs hd hword
  rw [bftUpdateRound_lines]
  unfold Runs
  rw [wp_bind, wp_tickView hd]
  have hlines : Runs cl value now i (upTo47 P cl now th (viewOf s d) i) s := h.upTo47_runs hcl
  refine wp_seq hlines ?_
  intro _ s₁ ⟨hs₁, hl⟩
  obtain ⟨d₁, h₁, hheld⟩ := h.local hs₁ hl
  have hheight : d₁.height = s₁.height ↔ d.height = s.height := by
    rw [hl.height, show d₁.height = d.height from congrArg Prod.fst hheld.key]
  have hround : d₁.round = d.round := congrArg Prod.snd hheld.key
  rw [wp_bind, line49_skip h₁.here fun hh hinfo => hquiet.undecided (hheight.mp hh) hinfo, wp_bind,
    line55_skip h₁.here fun hon hh hr => hquiet.behind hon (hheight.mp hh) (hround ▸ hl.round ▸ hr)]
  refine (h₁.timeouts_runs fun hon hkey t ht hstep => ?_).after hl
  rcases hheld.fresh with hsame | ⟨t', ht', hlt⟩
  · rw [hheld.key, hl.height, hl.round] at hkey
    exact hquiet.waiting hon hkey t (hsame ▸ ht) hstep
  · rw [ht] at ht'
    cases ht'
    exact hlt

/-! ### The turn that decides -/

def Decides (height : ℕ) (value : BlockValue) (s : TMState) : Prop :=
  ∃ dec ∈ s.pushed, dec.value = value ∧ dec.roundData.height = height

section

variable {Heard : Msg → PubKeyID → Prop} {wraps : Prop} {L height : ℕ}

theorem Moves.decides (h : Moves P wraps Heard s s') (hs : Decides height value s) : Decides height value s' := by
  induction h with
  | refl => exact hs
  | tail _ hmove ih =>
    cases hmove with
    | push i d fatPointer =>
      obtain ⟨dec, hdec, heq⟩ := ih
      exact ⟨dec, mem_cons_of_mem _ hdec, heq⟩
    | _ => exact ih

theorem Refines.decides (h : Refines P wraps Heard m R s) (hs : Decides height value s) :
    wp m (fun a s' => R a s' ∧ Decides height value s') (fun _ s' => Decides height value s') s := by
  refine wp_mono h.run (fun a s' ⟨hmoves, hR⟩ => ⟨hR, hmoves.decides hs⟩) ?_
  intro e s' ⟨s₁, hmoves, htrace⟩
  obtain ⟨dec, hdec, heq⟩ := hmoves.decides hs
  exact ⟨dec, htrace.pushed ▸ hdec, heq⟩

theorem roundDataToFatPointer_ok (hd : Shape R d) (hword : Votable P d.round) :
    ∃ fatPointer, roundDataToFatPointer P d R.members = .ok fatPointer := by
  obtain ⟨word, hword⟩ := hword true
  have hadd : addU P.overflowChecks 32 d.round (2 ^ 31) = .ok word := hword
  -- there is a slot for an active member only
  have hsig : ∀ x ∈ d.msgValSigs.zipIdx.filter fun x => x.1.precommit.1 = d.proposalId ∧ x.1.precommit.2 ≠ TMSig.nil,
      (do return ⟨(← getIdx R.members x.2).pubKey, x.1.precommit.2.bytes⟩ : Except Panic FatPointerSignature) =
        .ok ⟨keyAt R.members x.2, x.1.precommit.2.bytes⟩ := by
    intro x hx
    obtain ⟨hx, -⟩ := mem_filter.mp hx
    have hlt : x.2 < R.members.length := by
      have := snd_lt_of_mem_zipIdx hx
      have := activeRosterLen_le R.members
      have := hd.slots
      omega
    rw [getIdx_ok (getElem?_eq_getElem hlt), ok_bind]
    simp [keyAt, hlt, pure, Except.pure]
  unfold roundDataToFatPointer
  rw [hadd, ok_bind, mapM_ok hsig, ok_bind]
  exact ⟨_, rfl⟩

theorem decideValue_decides (hs : Wf s) (hd : s.roundsData[i]? = some d) (hh : d.height = s.height)
    (hword : Votable P d.round) :
    wp (decideValue P cl now i) (fun _ s' => Decides s.height d.proposal s')
      (fun _ s' => Decides s.height d.proposal s') s := by
  obtain ⟨fatPointer, hfat⟩ := roundDataToFatPointer_ok (hs.shape d (mem_of_getElem? hd) hh) hword
  unfold decideValue pushDecided
  rw [wp_bind, wp_roundAt hd, wp_bind, wp_bind, wp_get, wp_bind, hfat, wp_lift_ok, wp_bind, wp_modify]
  have hpushed : Decides s.height d.proposal
      { s with pushed := ⟨s.roster, d, d.proposal, fatPointer, d.proposalSigs⟩ :: s.pushed } :=
    ⟨_, mem_cons_self, rfl, hh⟩
  have hmem : d ∈ s.roundsData := mem_of_getElem? hd
  refine wp_mono (callClosure_wp _) ?_ fun _ s₁ hs₁ => hs₁ ▸ hpushed
  intro newRoster s₁ hs₁
  rw [wp_bind, wp_modify]
  have hwf : Wf s₁ := by
    rw [hs₁]
    exact ⟨hs.sorted, hs.height_le, hs.shape, hs.timeout⟩
  have hnew : Move P True (fun _ _ => True) s₁ _ := .newHeight newRoster d
    (by rw [hs₁]; exact ⟨_, mem_cons_self, rfl, hh⟩) (by rw [hs₁]; exact hmem) (by rw [hs₁]; exact hh)
  have hstart : Refines P True (fun _ _ => True) (startRound P cl now 0) _ _ :=
    startRound_refines ⟨hnew.wf hwf, fun hw => absurd trivial hw⟩ fun hw => absurd trivial hw
  refine wp_mono (hstart.decides ?_) (fun _ _ h => h.2) fun _ _ h => h
  rw [hs₁]
  exact hpushed

theorem Turn.line49_decides (h : Turn P view i s d) (hcl : Answers cl) (hh : d.height = s.height)
    (hword : Votable P d.round) (hready : Ready cl value d) (hinfo : view.hasEnoughInfo = true)
    (hbig : th.big ≤ view.counts.yesPrecommits) :
    wp (line49 P cl now th view i) (fun _ s' => Decides s.height value s') (fun _ s' => Decides s.height value s') s := by
  unfold line49
  rw [wp_bind, wp_roundAt h.here, wp_bind, wp_get, if_pos ⟨hh.symm, hinfo, hbig⟩]
  refine wp_seq (wp_mono (h.proposalIsValid_runs value now hcl) (fun _ _ h => h) fun _ _ hf => hf.elim) ?_
  intro status s₁ ⟨hpass, hs₁, hl⟩
  obtain ⟨d₁, h₁, hheld⟩ := h.local hs₁ hl
  have hheight : d₁.height = d.height := congrArg Prod.fst hheld.key
  have hround : d₁.round = d.round := congrArg Prod.snd hheld.key
  rw [if_pos (hpass hready)]
  have hdecide : wp (decideValue P cl now i) _ _ s₁ :=
    decideValue_decides hs₁ h₁.here (by rw [hheight, hh, hl.height]) (hround ▸ hword)
  rwa [hl.height, (hheld.ready hready).2.1] at hdecide

theorem bftUpdateRound_decides (h : TickInv P True now th L s) (hi : i < L) (hcl : Answers cl)
    (hd : s.roundsData[i]? = some d) (hh : d.height = s.height) (hword : Votable P d.round)
    (hready : Ready cl value d) (hbig : th.big ≤ d.counts.yesPrecommits) :
    wp (bftUpdateRound P cl now th i) (fun _ s' => Decides s.height value s') (fun _ s' => Decides s.height value s')
      s := by
  have hturn : Turn P (viewOf s d) i s d := .start h.inv.wf hd fun _ => hword
  have hinfo : d.hasEnoughInfoToDetermineValidity = true := by
    simp [RoundData.hasEnoughInfoToDetermineValidity, hready.1]
  have hview : Refines P True (fun _ _ => True) (tickView i) _ s := tickView_refines h hi
  obtain ⟨-, -, d₀, hctx⟩ := (wp_tickView hd).mp hview.run
  rw [bftUpdateRound_lines, wp_bind, wp_tickView hd]
  have hruns : Runs cl value now i (upTo47 P cl now th (viewOf s d) i) s := hturn.upTo47_runs hcl
  have hline : LineOk P True (fun _ _ => True) now i (upTo47 P cl now th (viewOf s d) i) s := upTo47_refines hctx
  refine wp_seq (wp_mono (wp_and hruns hline.run) (fun _ _ h => h) fun _ _ hf => hf.1.elim) ?_
  rintro _ s₁ ⟨⟨hs₁, hl⟩, hmoves, hgrown⟩
  obtain ⟨d₁, h₁, hheld⟩ := hturn.local hs₁ hl
  obtain ⟨d₂, hctx₁, -⟩ := hctx.local hmoves hgrown
  have hheight : d₁.height = d.height := congrArg Prod.fst hheld.key
  have hround : d₁.round = d.round := congrArg Prod.snd hheld.key
  have hdecides : wp (line49 P cl now th (viewOf s d) i) _ _ s₁ := h₁.line49_decides hcl
    (by rw [hheight, hh, hl.height]) (hround ▸ hword) (hheld.ready hready) hinfo hbig
  rw [hl.height] at hdecides
  have htick : Refines P True (fun _ _ => True) (line49 P cl now th (viewOf s d) i) _ s₁ :=
    line49_refines (h.local hmoves hgrown) hctx₁
  -- what is left of the turn keeps the decision
  refine wp_seq (wp_mono (wp_and hdecides htick.run) (fun _ _ h => h) fun _ _ h => h.1) ?_
  rintro _ s₂ ⟨hdec, _, htick₂⟩
  have hcatch : Refines P True (fun _ _ => True) (line55 P cl now th (viewOf s d) i) _ s₂ := line55_refines htick₂ hi
  refine wp_seq (hcatch.decides hdec) ?_
  rintro _ s₃ ⟨htick₃, hdec₃⟩
  have hlate : Refines P True (fun _ _ => True) (timeouts P cl now (viewOf s d) i) _ s₃ := timeouts_refines htick₃ hi
  exact wp_mono (hlate.decides hdec₃) (fun _ _ h => h.2) fun _ _ h => h

end

/-! ### The tick that decides -/

theorem Votable.mono {round round' : ℕ} (h : Votable P round') (hle : round ≤ round') : Votable P round := by
  intro isPrecommit
  obtain ⟨word, hword⟩ := h isPrecommit
  unfold voteRoundWord addU at hword ⊢
  split_ifs at hword ⊢ <;> first | exact ⟨_, rfl⟩ | omega

theorem Quiet.of_height_lt (h : d.height < s.height) : Quiet th now s d := by
  have hne : d.height ≠ s.height := h.ne
  refine ⟨fun hh => absurd hh hne, fun _ hh => absurd hh hne, fun _ hkey => ?_⟩
  exact absurd (congrArg Prod.fst hkey) hne

theorem Wf.key_lt (hs : Wf s) (hi : s.roundsData[i]? = some d) (hj : s.roundsData[j]? = some d') (hlt : i < j) :
    KeyLt d.key d'.key := by
  obtain ⟨hilt, rfl⟩ := List.getElem?_eq_some_iff.mp hi
  obtain ⟨hjlt, rfl⟩ := List.getElem?_eq_some_iff.mp hj
  exact List.pairwise_iff_getElem.mp hs.sorted i j hilt hjlt hlt

theorem bftUpdate_loop (hs : Wf s) (hth : thresholdsOf P s.roster.members = .ok th) (hd : s.roundsData[i]? = some d)
    (hh : d.height = s.height)
    (h : ∀ a ≤ i, wp ((List.range' a (s.roundsData.length - a)).forM (bftUpdateRound P cl now th)) Q E s) :
    wp (bftUpdate P cl now) Q E s := by
  unfold bftUpdate
  rw [wp_bind, wp_get, wp_bind, hth, wp_lift_ok]
  cases hsearch : s.searchRound (s.height, 0) with
  | vacant => exact h 0 (Nat.zero_le i)
  | found j =>
    refine h j ?_
    obtain ⟨e, he, heq⟩ := binarySearchBy_found hsearch
    have hkey : e.key = (s.height, 0) := keyCmp_eq.mp heq
    by_contra hlt
    have hbefore := hs.key_lt hd he (Nat.lt_of_not_le hlt)
    rw [hkey] at hbefore
    rcases hbefore with hheight | ⟨-, hround⟩
    · exact absurd hh hheight.ne
    · exact absurd hround (Nat.not_lt_zero _)

theorem Quiet.frame (h : Quiet th now s d) (hheight : s'.height = s.height) (hround : s'.round = s.round)
    (hroster : s'.roster = s.roster) (hkey : s'.myPubKey = s.myPubKey) : Quiet th now s' d := by
  have hactive : s'.active = s.active := by rw [TMState.active, TMState.active, hroster]
  refine ⟨?_, ?_, ?_⟩
  · rw [hheight]
    exact h.undecided
  · rw [hheight, hround, hactive, hkey]
    exact h.behind
  · rw [hheight, hround, hactive, hkey]
    exact h.waiting

/-- The states between the first turns of a tick, up to the turn of record `j`. -/
structure Pending (s : TMState) (j : ℕ) (s' : TMState) : Prop where
  height : s'.height = s.height
  round : s'.round = s.round
  roster : s'.roster = s.roster
  myPubKey : s'.myPubKey = s.myPubKey
  ahead : ∀ m, j ≤ m → s'.roundsData[m]? = s.roundsData[m]?

theorem Pending.turn (h : Pending s j s₁) (hl : Local (Held cl value now) j s₁ s') :
    Pending s (j + 1) s' := by
  refine ⟨hl.height.trans h.height, hl.round.trans h.round, hl.roster.trans h.roster, hl.myPubKey.trans h.myPubKey, ?_⟩
  intro m hm
  rw [hl.off m (by omega), h.ahead m (by omega)]

theorem Pending.quiet (h : Pending s j s₁) (hs : Wf s) (hs₁ : Wf s₁) (hcl : Answers cl)
    (hd : s.roundsData[k]? = some d) (hh : d.height = s.height) (hword : Votable P d.round) (hjk : j < k)
    (hquiet : ∀ e ∈ s.roundsData, e.height = s.height → e.round < d.round → Quiet th now s e) :
    Runs cl value now j (bftUpdateRound P cl now th j) s₁ := by
  obtain ⟨hlt, -⟩ := List.getElem?_eq_some_iff.mp hd
  obtain ⟨e, he⟩ : ∃ e, s.roundsData[j]? = some e := ⟨_, List.getElem?_eq_getElem (hjk.trans hlt)⟩
  have he₁ : s₁.roundsData[j]? = some e := (h.ahead j le_rfl).trans he
  have hq : Quiet th now s e := by
    rcases hs.key_lt he hd hjk with hheight | ⟨hheight, hround⟩
    · exact .of_height_lt (lt_of_lt_of_eq hheight hh)
    · exact hquiet e (mem_of_getElem? he) (hheight.trans hh) hround
  refine bftUpdateRound_quiet hs₁ hcl he₁ (fun hkey => ?_) (hq.frame h.height h.round h.roster h.myPubKey)
  have hheight : e.height = d.height := by
    rw [hh, ← h.height]
    exact congrArg Prod.fst hkey
  refine hword.mono ?_
  rcases hs.key_lt he hd hjk with hlt | ⟨-, hround⟩
  · exact absurd hheight hlt.ne
  · exact hround.le

/-- A record that holds a passing value and its precommits decides in the next tick, whatever the records behind it
do, if no record of a lower round is in the way. -/
theorem bftUpdate_decides {k : ℕ} (hs : Wf s) (hth : thresholdsOf P s.roster.members = .ok th) (hcl : Answers cl)
    (hd : s.roundsData[k]? = some d) (hh : d.height = s.height) (hword : Votable P d.round)
    (hready : Ready cl value d) (hbig : th.big ≤ d.counts.yesPrecommits)
    (hquiet : ∀ e ∈ s.roundsData, e.height = s.height → e.round < d.round → Quiet th now s e) :
    wp (bftUpdate P cl now) (fun _ s' => Decides s.height value s') (fun _ s' => Decides s.height value s') s := by
  obtain ⟨hlt, -⟩ := List.getElem?_eq_some_iff.mp hd
  refine bftUpdate_loop hs hth hd hh fun a hak => ?_
  have htick : TickInv P True now th s.roundsData.length s :=
    ⟨⟨hs, fun hw => absurd trivial hw⟩, le_rfl, .inl hth, fun hw => absurd trivial hw⟩
  refine wp_mono (wp_forM_range' (I := fun j s₁ => TickInv P True now th s.roundsData.length s₁ ∧
    (j ≤ k → Pending s j s₁) ∧ (k < j → Decides s.height value s₁)) a (s.roundsData.length - a) ?_
      ⟨htick, fun _ => ⟨rfl, rfl, rfl, rfl, fun _ _ => rfl⟩, fun hka => absurd hak (Nat.not_le.mpr hka)⟩)
    (fun _ _ h => h.2.2 (by omega)) fun _ _ h => h
  · intro j haj hj s₁ ⟨htick₁, hpending, hdecided⟩
    have hturn : Refines P True (fun _ _ => True) (bftUpdateRound P cl now th j) _ s₁ :=
      bftUpdateRound_refines htick₁ (by omega)
    rcases Nat.lt_trichotomy j k with hjk | rfl | hjk
    · have hruns : Runs cl value now j (bftUpdateRound P cl now th j) s₁ :=
        (hpending hjk.le).quiet hs htick₁.inv.wf hcl hd hh hword hjk hquiet
      refine wp_mono (wp_and hruns hturn.run) (fun _ s₂ ⟨⟨_, hl⟩, _, htick₂⟩ => ?_) fun _ _ hf => hf.1.elim
      exact ⟨htick₂, fun _ => (hpending hjk.le).turn hl, fun hkj => absurd hkj (by omega)⟩
    · have hp := hpending le_rfl
      have hdecides := bftUpdateRound_decides htick₁ (by omega) hcl ((hp.ahead j le_rfl).trans hd) (hh.trans hp.height.symm)
        hword hready hbig
      rw [hp.height] at hdecides
      refine wp_mono (wp_and hdecides hturn.run) (fun _ s₂ ⟨hdec, _, htick₂⟩ => ?_) fun _ _ h => h.1
      exact ⟨htick₂, fun hle => absurd hle (by omega), fun _ => hdec⟩
    · refine wp_mono (hturn.decides (hdecided hjk)) (fun _ s₂ ⟨htick₂, hdec⟩ => ?_) fun _ _ h => h
      exact ⟨htick₂, fun hle => absurd hle (by omega), fun _ => hdec⟩

end Crosslink.Tenderlink

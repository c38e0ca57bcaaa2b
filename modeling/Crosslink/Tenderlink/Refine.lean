import Crosslink.Tenderlink.Invariant

/-!
# The code makes only moves

Statement by statement, from the message path up to the tick: each function of the state machine, run
from a state that satisfies the invariant, ends in a state reached by moves. A panic in between may
leave a state with a half-finished move, so there only what was signed, pushed and adopted is compared
(`Halted`).
-/

namespace Crosslink.Tenderlink

open Codec Fallible Search

variable {P : Params} {wraps : Prop} {Heard : Msg → PubKeyID → Prop} {s s' : TMState}

/-- The two states agree on what the rest of the world can see of the node. -/
structure SameTrace (s s' : TMState) : Prop where
  signed : s.signed = s'.signed
  pushed : s.pushed = s'.pushed
  roster : s.roster = s'.roster
  height : s.height = s'.height

/-- The state in which a run from `s` panicked. -/
def Halted (P : Params) (wraps : Prop) (Heard : Msg → PubKeyID → Prop) (s : TMState) (_ : Panic) (s' : TMState) : Prop :=
  ∃ s₁, Moves P wraps Heard s s₁ ∧ SameTrace s₁ s'

/-- Run from `s`, the program ends after moves, in a state and with a result in `Q`. -/
structure Refines {α : Type} (P : Params) (wraps : Prop) (Heard : Msg → PubKeyID → Prop) (m : NodeM α)
    (Q : α → TMState → Prop) (s : TMState) : Prop where
  run : wp m (fun a s' => Moves P wraps Heard s s' ∧ Q a s') (Halted P wraps Heard s) s

section Rules

variable {α β : Type} {m : NodeM α} {Q R : α → TMState → Prop}

theorem Halted.of_moves (h : Moves P wraps Heard s s₁) (h' : Halted P wraps Heard s₁ e s') :
    Halted P wraps Heard s e s' := by
  obtain ⟨s₂, hmoves, hsame⟩ := h'
  exact ⟨s₂, h.trans hmoves, hsame⟩

theorem Refines.bind {Q : β → TMState → Prop} (h : Refines P wraps Heard m R s)
    (hf : ∀ a s', Moves P wraps Heard s s' → R a s' → Refines P wraps Heard (f a) Q s') :
    Refines P wraps Heard (m >>= f) Q s := by
  refine ⟨wp_seq h.run fun a s' hR => ?_⟩
  exact wp_mono (hf a s' hR.1 hR.2).run (fun _ _ hq => ⟨hR.1.trans hq.1, hq.2⟩)
    fun _ _ he => he.of_moves hR.1

theorem Refines.mono (h : Refines P wraps Heard m R s)
    (hQ : ∀ a s', Moves P wraps Heard s s' → R a s' → Q a s') : Refines P wraps Heard m Q s :=
  ⟨wp_mono h.run (fun a s' hR => ⟨hR.1, hQ a s' hR.1 hR.2⟩) fun _ _ he => he⟩

theorem Refines.pure {a : α} (h : Q a s) : Refines P wraps Heard (pure a : NodeM α) Q s :=
  ⟨⟨.refl, h⟩⟩

theorem Refines.get_bind (h : Refines P wraps Heard (f s) Q s) : Refines P wraps Heard (get >>= f) Q s :=
  ⟨h.run⟩

theorem Refines.lift_bind {x : Except Panic α} {f : α → NodeM β} {Q : β → TMState → Prop}
    (h : ∀ a, x = .ok a → Refines P wraps Heard (f a) Q s) :
    Refines P wraps Heard (lift x >>= f) Q s := by
  cases x with
  | ok a => exact ⟨(h a rfl).run⟩
  | error e => exact ⟨s, .refl, rfl, rfl, rfl, rfl⟩

theorem Refines.roundAt_bind (h : ∀ d, s.roundsData[i]? = some d → Refines P wraps Heard (f d) Q s) :
    Refines P wraps Heard (roundAt i >>= f) Q s := by
  have hget : Refines P wraps Heard (lift (getIdx s.roundsData i) >>= f) Q s :=
    Refines.lift_bind fun d hd => h d (getIdx_eq_ok.mp hd)
  exact ⟨hget.run⟩

theorem Refines.modify {f : TMState → TMState} {Q : Unit → TMState → Prop}
    (h : Move P wraps Heard s (f s)) (hq : Q () (f s)) :
    Refines P wraps Heard (modify f : NodeM Unit) Q s :=
  ⟨⟨.single h, hq⟩⟩

theorem Refines.ite [Decidable c] (ht : c → Refines P wraps Heard m Q s) (hf : ¬ c → Refines P wraps Heard m' Q s) :
    Refines P wraps Heard (if c then m else m') Q s := by
  split
  · exact ht ‹_›
  · exact hf ‹_›

theorem Refines.forM (l : List α) (h : I s)
    (hbody : ∀ a ∈ l, ∀ s₁, I s₁ → Refines P wraps Heard (body a) (fun _ => I) s₁) :
    Refines P wraps Heard (l.forM body) (fun _ => I) s := by
  refine ⟨wp_forM (I := fun s₁ => Moves P wraps Heard s s₁ ∧ I s₁) l (fun a ha s₁ hs₁ => ?_) ⟨.refl, h⟩⟩
  exact wp_mono (hbody a ha s₁ hs₁.2).run (fun _ _ hr => ⟨hs₁.1.trans hr.1, hr.2⟩)
    fun _ _ he => he.of_moves hs₁.1

end Rules

/-! ### Messages -/

def TMState.insertRound (s : TMState) (i round : ℕ) : TMState :=
  { s with roundsData := s.roundsData.insertIdx i (emptyRound s.height round s.roster.members) }

/-- `findOrInsertRound` ends here: the record was there, or the search left a vacant place. -/
inductive FoundRound (s : TMState) (round : ℕ) : Bool → ℕ → TMState → RoundData → Prop where
  | found (i : ℕ) (d : RoundData) (hd : s.roundsData[i]? = some d) (hkey : d.key = (s.height, round)) :
      FoundRound s round true i s d
  | inserted (i : ℕ) (hi : s.searchRound (s.height, round) = .vacant i) :
      FoundRound s round false i (s.insertRound i round) (emptyRound s.height round s.roster.members)

theorem FoundRound.getElem? {round i : ℕ} (h : FoundRound s round seen i s₁ d) :
    s₁.roundsData[i]? = some d ∧ d.key = (s.height, round) := by
  cases h with
  | found i d hd hkey => exact ⟨hd, hkey⟩
  | inserted i hi =>
    obtain ⟨hlen, -⟩ := binarySearchBy_vacant hi
    have hle : i ≤ s.roundsData.length := by
      rw [hlen]
      exact ( List.takeWhile_prefix _).length_le
    refine ⟨?_, rfl⟩
    simp only [TMState.insertRound, List.getElem?_insertIdx_self, hle, if_true]

theorem findOrInsertRound_wp (round : ℕ) :
    wp (findOrInsertRound round) (fun r s₁ => ∃ d, FoundRound s round r.1 r.2 s₁ d) E s := by
  unfold findOrInsertRound
  rw [wp_bind, wp_get]
  cases hsearch : s.searchRound (s.height, round) with
  | found i =>
    obtain ⟨d, hd, heq⟩ := binarySearchBy_found hsearch
    exact ⟨d, .found i d hd (keyCmp_eq.mp heq)⟩
  | vacant i => exact ⟨_, .inserted i hsearch⟩

/-- The message passed every check up to the round record. -/
structure Accepted (P : Params) (s : TMState) (m : Msg) (member : SortedRosterMember) : Prop where
  height : m.height = s.height
  active : m.rosterI < activeRosterLen s.roster.members
  here : s.roster.members[m.rosterI]? = some member
  verify : P.verify m.sig member.pubKey m.signedData = true

/-- What `check_and_incorporate_msg` can do. -/
inductive Incorporated (P : Params) (m : Msg) (s : TMState) : TMState → Prop where
  | dropped : Incorporated P m s s
  | taken (member : SortedRosterMember) (seen : Bool) (i : ℕ) (s₁ : TMState) (d d' : RoundData)
      (hacc : Accepted P s m member) (hround : FoundRound s m.round seen i s₁ d)
      (hstep : RecordStep P s.roster (member.pubKey = s.myPubKey) m d d') :
      Incorporated P m s (s₁.setRound i d')

theorem FoundRound.sameTrace {round i : ℕ} (h : FoundRound s round seen i s₁ d) : SameTrace s s₁ := by
  cases h <;> exact ⟨rfl, rfl, rfl, rfl⟩

theorem FoundRound.moves {round i : ℕ} (h : FoundRound s round seen i s₁ d) : Moves P wraps Heard s s₁ := by
  cases h with
  | found => exact .refl
  | inserted i hi => exact .single (.insert i round hi)

theorem FoundRound.shape {round i : ℕ} (hs : Wf s) (h : FoundRound s round seen i s₁ d) :
    Shape s.roster d ∧ (seen = true ∨ d.proposalSigsN = 0) := by
  cases h with
  | found i d hd hkey =>
    exact ⟨hs.shape d (List.mem_of_getElem? hd) (congrArg Prod.fst hkey), .inl rfl⟩
  | inserted i hi => exact ⟨Shape.emptyRound _ _ _, .inr rfl⟩

theorem checkAndIncorporateMsg_rule (hdrop : (∀ member, ¬ Accepted P s m member) → Q .fail s)
    (htake : ∀ member seen i s₁ d, Accepted P s m member → FoundRound s m.round seen i s₁ d → (∀ r, incorporate P s.roster.members seen (member.pubKey = s.myPubKey) m d = .ok r → Q r.2 (s₁.setRound i r.1)) ∧ ∀ e, incorporate P s.roster.members seen (member.pubKey = s.myPubKey) m d = .error e → E e s₁) :
    wp (checkAndIncorporateMsg P m) Q E s := by
  unfold checkAndIncorporateMsg
  rw [wp_bind, wp_get]
  refine wp_ite (fun hne => hdrop fun _ hacc => hne hacc.height) fun hheight => ?_
  refine wp_ite (fun hle => hdrop fun _ hacc => Nat.not_lt.mpr hle hacc.active) fun hactive => ?_
  have hlen : m.rosterI < s.roster.members.length := by
    unfold activeRosterLen at hactive
    omega
  have hmember : s.roster.members[m.rosterI]? = some s.roster.members[m.rosterI] := by simp [hlen]
  rw [wp_bind, getIdx_ok hmember, wp_lift_ok]
  refine wp_ite (fun hfalse => hdrop fun member hacc => ?_) fun hverify => ?_
  · obtain rfl : s.roster.members[m.rosterI] = member := Option.some.inj (hmember.symm.trans hacc.here)
    exact Bool.false_ne_true (hfalse.symm.trans hacc.verify)
  have hacc : Accepted P s m s.roster.members[m.rosterI] :=
    ⟨not_not.mp hheight, by omega, hmember, by simpa using hverify⟩
  refine wp_seq (findOrInsertRound_wp m.round) ?_
  rintro ⟨seen, i⟩ s₁ ⟨d, hround⟩
  obtain ⟨hd, -⟩ := hround.getElem?
  obtain ⟨hok, herror⟩ := htake _ seen i s₁ d hacc hround
  unfold roundAt
  rw [wp_bind, wp_bind, wp_get, getIdx_ok hd, wp_lift_ok, wp_bind]
  exact wp_lift hok herror

theorem checkAndIncorporateMsg_wp (m : Msg) (hs : Wf s) :
    wp (checkAndIncorporateMsg P m) (fun _ s' => Incorporated P m s s') (fun _ s' => SameTrace s s') s := by
  refine checkAndIncorporateMsg_rule (fun _ => .dropped) fun member seen i s₁ d hacc hround => ⟨fun r hr => ?_, fun _ _ => ?_⟩
  · obtain ⟨hshape, hseen⟩ := hround.shape hs
    have hstep := incorporate_cases hshape hseen hacc.active hr
    exact .taken member seen i s₁ d r.1 hacc hround hstep
  · exact hround.sameTrace

/-- Where a message may come from: another party, or this node's own signature. -/
def Sourced (P : Params) (Heard : Msg → PubKeyID → Prop) (s : TMState) (m : Msg) (member : SortedRosterMember) : Prop :=
  Formed P s.roster member m ∧
    (Heard m member.pubKey ∨ (member.pubKey = s.myPubKey ∧ m.sig = P.sign s.mySigningKey m.signedData ∧
      ∃ e ∈ s.signed, e.Covers m))

theorem Incorporated.moves (h : Incorporated P m s s')
    (hsrc : ∀ member, Accepted P s m member → Sourced P Heard s m member) : Moves P wraps Heard s s' := by
  cases h with
  | dropped => exact .refl
  | taken member seen i s₁ d d' hacc hround hstep =>
    obtain ⟨hformed, hsource⟩ := hsrc member hacc
    obtain ⟨hd, hkey⟩ := hround.getElem?
    refine hround.moves.tail ?_
    cases hround with
    | found => exact .hear i d d' m member hd hkey hacc.height hacc.active hacc.here hacc.verify hformed hsource hstep
    | inserted =>
      exact .hear (s := s.insertRound i m.round) i _ d' m member hd hkey hacc.height hacc.active hacc.here
        hacc.verify hformed hsource hstep

theorem checkAndIncorporateMsg_refines (m : Msg) (hs : Wf s)
    (hsrc : ∀ member, Accepted P s m member → Sourced P Heard s m member) :
    Refines P wraps Heard (checkAndIncorporateMsg P m) (fun _ s' => Incorporated P m s s') s :=
  ⟨wp_mono (checkAndIncorporateMsg_wp m hs) (fun _ _ h => ⟨h.moves hsrc, h⟩)
    fun _ _ h => ⟨s, .refl, h⟩⟩

/-! ### Changes to one record -/

/-- The record has only gained votes, a verdict or a timeout in the future. -/
structure Grown (now : Instant) (d d' : RoundData) : Prop where
  key : d'.key = d.key
  counts : ∀ k, d.counts.get k ≤ d'.counts.get k
  proposal : d'.proposal = d.proposal ∧ d'.proposalId = d.proposalId
  fresh : d'.activeTimeout = d.activeTimeout ∨ ∃ t, d'.activeTimeout = some t ∧ now < t.time

instance (now : Instant) : Std.Refl (Grown now) where
  refl _ := ⟨rfl, fun _ => le_rfl, ⟨rfl, rfl⟩, .inl rfl⟩

instance (now : Instant) : IsTrans RoundData (Grown now) where
  trans _ _ _ h h' := by
    refine ⟨h'.key.trans h.key, fun k => (h.counts k).trans (h'.counts k),
      ⟨h'.proposal.1.trans h.proposal.1, h'.proposal.2.trans h.proposal.2⟩, ?_⟩
    rcases h'.fresh with h₂ | h₂
    · rw [h₂]
      exact h.fresh
    · exact .inr h₂

def SameKey (d d' : RoundData) : Prop := d'.key = d.key

instance : Std.Refl SameKey where
  refl _ := rfl

instance : IsTrans RoundData SameKey where
  trans _ _ _ h h' := Eq.trans h' h

/-- Nothing but the record at `i`, which changes by `r`, the step, the lock and the logs has changed. -/
structure Local (r : RoundData → RoundData → Prop) (i : ℕ) (s s' : TMState) : Prop where
  height : s'.height = s.height
  round : s'.round = s.round
  roster : s'.roster = s.roster
  myPubKey : s'.myPubKey = s.myPubKey
  length : s'.roundsData.length = s.roundsData.length
  off : ∀ j, j ≠ i → s'.roundsData[j]? = s.roundsData[j]?
  here : ∀ d, s.roundsData[i]? = some d → ∃ d', s'.roundsData[i]? = some d' ∧ r d d'

section Local

variable {r : RoundData → RoundData → Prop}

theorem Local.of_records [Std.Refl r] (hh : s'.height = s.height) (hr : s'.round = s.round)
    (hR : s'.roster = s.roster) (hk : s'.myPubKey = s.myPubKey) (hrec : s'.roundsData = s.roundsData) :
    Local r i s s' :=
  ⟨hh, hr, hR, hk, by rw [hrec], fun _ _ => by rw [hrec], fun d hd => ⟨d, by rw [hrec, hd], refl_of r d⟩⟩

theorem Local.refl [Std.Refl r] (i : ℕ) (s : TMState) : Local r i s s :=
  .of_records rfl rfl rfl rfl rfl

theorem Local.trans [IsTrans RoundData r] (h : Local r i s₁ s₂) (h' : Local r i s₂ s₃) : Local r i s₁ s₃ := by
  refine ⟨h'.height.trans h.height, h'.round.trans h.round, h'.roster.trans h.roster,
    h'.myPubKey.trans h.myPubKey, h'.length.trans h.length, fun j hj => (h'.off j hj).trans (h.off j hj),
    fun d hd => ?_⟩
  obtain ⟨d₂, hd₂, hg₂⟩ := h.here d hd
  obtain ⟨d₃, hd₃, hg₃⟩ := h'.here d₂ hd₂
  exact ⟨d₃, hd₃, trans_of r hg₂ hg₃⟩

theorem getElem?_setRound (hd : s.roundsData[i]? = some d) :
    (s.setRound i d').roundsData[i]? = some d' := by
  obtain ⟨hlt, -⟩ := List.getElem?_eq_some_iff.mp hd
  simp [TMState.setRound, hlt]

theorem Local.setRound (hd : s.roundsData[i]? = some d) (hg : r d d') :
    Local r i s (s.setRound i d') := by
  refine ⟨rfl, rfl, rfl, rfl, by simp [TMState.setRound], fun j hj => ?_, fun e he => ?_⟩
  · exact List.getElem?_set_ne (Ne.symm hj)
  · rw [hd] at he
    cases he
    exact ⟨d', getElem?_setRound hd, hg⟩

theorem Incorporated.local [Std.Refl r] (h : Incorporated P m s s') (hs : Wf s) (hd : s.roundsData[i]? = some d)
    (hkey : d.key = (s.height, m.round))
    (hr : ∀ member d', Accepted P s m member → RecordStep P s.roster (member.pubKey = s.myPubKey) m d d' → r d d') :
    Local r i s s' := by
  cases h with
  | dropped => exact Local.refl i s
  | taken member seen j s₁ d₁ d' hacc hround hstep =>
    cases hround with
    | found j d₁ hd₁ hkey₁ =>
      obtain ⟨rfl, rfl⟩ := hs.index_unique hd hd₁ (hkey.trans hkey₁.symm)
      exact Local.setRound hd (hr member d' hacc hstep)
    | inserted j hj =>
      exact absurd (keyCmp_eq.mpr hkey) ((binarySearchBy_vacant hj).2 d (List.mem_of_getElem? hd))

end Local

/-! ### Voting -/

def TMState.sign (s : TMState) (e : Signed) : TMState := { s with signed := e :: s.signed }

def voteStep (isPrecommit : Bool) : TMStep := if isPrecommit then .precommit else .prevote

def voteData (isPrecommit : Bool) (valueId : ValueId) : TMMsgData :=
  if isPrecommit then .precommit valueId else .prevote valueId

theorem RecordStep.grown_of_vote (now : Instant) (h : RecordStep P R isMyProposal m d d')
    (htype : m.packetType ≠ packetTypeProposalChunk) (hd : Shape R d) (hi : m.rosterI < activeRosterLen R.members) :
    Grown now d d' := by
  cases h with
  | same => exact refl_of (Grown now) d
  | vote k _ _ hacc => exact ⟨rfl, counts_le_recordVote hd hi hacc, ⟨rfl, rfl⟩, .inl rfl⟩
  | store hchunk => exact absurd hchunk htype
  | flush hchunk => exact absurd hchunk htype
  | faulty hchunk => exact absurd hchunk htype

theorem rosterIFromPubKey_some (h : rosterIFromPubKey roster key = some i) :
    ∃ member, roster[i]? = some member ∧ member.pubKey = key := by
  obtain ⟨hlt, hp, -⟩ := List.findIdx?_eq_some_iff_getElem.mp h
  exact ⟨roster[i], by simp [hlt], by simpa using hp⟩

theorem active_getElem? (h : s.active[i]? = some member) :
    i < activeRosterLen s.roster.members ∧ s.roster.members[i]? = some member := by
  unfold TMState.active at h
  rw [List.getElem?_take] at h
  split at h
  · exact ⟨‹_›, h⟩
  · cases h

def ownVote (P : Params) (s : TMState) (isPrecommit : Bool) (valueId : ValueId) (rosterI : ℕ)
    (signedData : List UInt8) : Msg :=
  ⟨s.height, s.round, 0, valueId, -2, rosterI,
    if isPrecommit then packetTypePrecommitSignatures else packetTypePrevoteSignatures, signedData,
    P.sign s.mySigningKey signedData⟩

theorem ownVote_packetType (P : Params) (s : TMState) (isPrecommit : Bool) (valueId : ValueId) (rosterI : ℕ)
    (signedData : List UInt8) :
    (ownVote P s isPrecommit valueId rosterI signedData).packetType ≠ packetTypeProposalChunk := by
  cases isPrecommit <;>
    simp [ownVote, packetTypePrecommitSignatures, packetTypePrevoteSignatures, packetTypeProposalChunk]

theorem ownVote_sourced (hword : voteRoundWord P isPrecommit s.round = .ok word)
    (hme : s.roster.members[rosterI]? = some me) (hown : me.pubKey = s.myPubKey)
    (hs₁ : s₁.roster = s.roster ∧ s₁.myPubKey = s.myPubKey ∧ s₁.mySigningKey = s.mySigningKey)
    (hsigned : Signed.vote isPrecommit s.height s.round valueId ∈ s₁.signed) (member : SortedRosterMember)
    (hacc : Accepted P s₁ (ownVote P s isPrecommit valueId rosterI (voteBytes me.pubKey valueId s.height word)) member) :
    Sourced P Heard s₁ (ownVote P s isPrecommit valueId rosterI
      (voteBytes me.pubKey valueId s.height word)) member := by
  obtain rfl : member = me := by
    have := hacc.here
    rw [hs₁.1, show (ownVote P s isPrecommit valueId rosterI _).rosterI = rosterI from rfl, hme] at this
    exact (Option.some.inj this).symm
  refine ⟨⟨fun k hk => ?_, fun hk => ?_⟩, .inr ⟨by rw [hown, hs₁.2.1], by rw [hs₁.2.2]; rfl, _, hsigned, ?_⟩⟩
  · obtain rfl : k = isPrecommit := by
      cases k <;> cases isPrecommit <;>
        first | rfl | simp [ownVote, packetTypePrecommitSignatures, packetTypePrevoteSignatures] at hk
    exact ⟨word, hword, rfl⟩
  · exact absurd hk (ownVote_packetType _ _ _ _ _ _)
  · exact ⟨rfl, rfl, rfl, rfl⟩

def TMState.cast (s : TMState) (isPrecommit : Bool) (valueId : ValueId) : TMState :=
  { s with signed := .vote isPrecommit s.height s.round valueId :: s.signed, step := voteStep isPrecommit }

theorem Incorporated.with_step (h : Incorporated P m s s') (step : TMStep) :
    Incorporated P m { s with step } { s' with step } := by
  cases h with
  | dropped => exact .dropped
  | taken member seen i s₁ d d' hacc hround hstep =>
    have hacc' : Accepted P { s with step } m member := ⟨hacc.height, hacc.active, hacc.here, hacc.verify⟩
    cases hround with
    | found i d hd hkey =>
      exact .taken (s := { s with step }) member true i { s with step } d d' hacc' (.found i d hd hkey) hstep
    | inserted i hi =>
      exact .taken (s := { s with step }) member false i _ _ d' hacc' (.inserted i hi) hstep

theorem broadcastVote_wp (isPrecommit : Bool) (valueId : ValueId) (hs : Wf s)
    (hme : s.roster.members[rosterI]? = some me) :
    wp (broadcastVote P s.height s.round rosterI isPrecommit valueId)
      (fun _ s' => ∃ word, voteRoundWord P isPrecommit s.round = .ok word ∧
        Incorporated P (ownVote P s isPrecommit valueId rosterI (voteBytes me.pubKey valueId s.height word))
          (s.sign (.vote isPrecommit s.height s.round valueId)) s')
      (fun _ s' => SameTrace s s' ∨ SameTrace (s.sign (.vote isPrecommit s.height s.round valueId)) s') s := by
  unfold broadcastVote
  rw [wp_bind, wp_get, wp_bind, getIdx_ok hme, wp_lift_ok, wp_bind]
  refine wp_lift (fun datas hdatas => ?_) fun _ _ => .inl ⟨rfl, rfl, rfl, rfl⟩
  obtain ⟨word, hword, rfl⟩ : ∃ word, voteRoundWord P isPrecommit s.round = .ok word ∧
      datas = (voteBytes me.pubKey ValueId.nil s.height word, voteBytes me.pubKey valueId s.height word) := by
    obtain ⟨word, hword, hpure⟩ := bind_eq_ok.mp hdatas
    exact ⟨word, hword, (pure_eq_ok.mp hpure).symm⟩
  dsimp only
  rw [wp_bind]
  change wp _ _ _ (s.sign (.vote isPrecommit s.height s.round valueId))
  have hs' : Wf (s.sign (.vote isPrecommit s.height s.round valueId)) :=
    ⟨hs.sorted, hs.height_le, hs.shape, hs.timeout⟩
  refine wp_seq (wp_mono (checkAndIncorporateMsg_wp _ hs') (fun _ _ h => h) fun _ _ h => .inr h) ?_
  exact fun _ s' h => ⟨word, hword, h⟩

/-- Signing a vote of the current round and hearing it, given the move that signing it is. `base` is the
state the moves started from; it may differ from `s` in what the vote brings along. -/
theorem castVote_wp (base : TMState) (now : Instant) (isPrecommit : Bool) (valueId : ValueId) (hs : Wf s)
    (hd : s.roundsData[i]? = some d) (hkey : d.key = (s.height, s.round))
    (hon : (rosterIFromPubKey s.active s.myPubKey).isSome) (htrace : SameTrace base s)
    (hmoves : Moves P wraps Heard base (s.cast isPrecommit valueId)) :
    wp (do setStep (← broadcast P i (voteData isPrecommit valueId)))
      (fun _ s' => Moves P wraps Heard base s' ∧ Local (Grown now) i s s' ∧ s'.step = voteStep isPrecommit ∧
        s'.lockedValueRound = s.lockedValueRound)
      (Halted P wraps Heard base) s := by
  obtain ⟨rosterI, hrosterI⟩ := Option.isSome_iff_exists.mp hon
  obtain ⟨me, hactive, hown⟩ := rosterIFromPubKey_some hrosterI
  obtain ⟨hlt, hme⟩ := active_getElem? hactive
  have hh : d.height = s.height := congrArg Prod.fst hkey
  have hr : d.round = s.round := congrArg Prod.snd hkey
  have hhalt : ∀ e s', SameTrace s s' ∨ SameTrace (s.sign (.vote isPrecommit s.height s.round valueId)) s' →
      Halted P wraps Heard base e s' := by
    rintro e s' (h | h)
    · exact ⟨base, .refl, htrace.signed.trans h.signed, htrace.pushed.trans h.pushed,
        htrace.roster.trans h.roster, htrace.height.trans h.height⟩
    · exact ⟨_, hmoves, h.signed, h.pushed, h.roster, h.height⟩
  have hvote := wp_mono (broadcastVote_wp (P := P) isPrecommit valueId hs hme) (fun _ _ h => h) hhalt
  have hbroadcast : wp (broadcast P i (voteData isPrecommit valueId))
      (fun step s' => step = voteStep isPrecommit ∧ ∃ word, voteRoundWord P isPrecommit s.round = .ok word ∧
        Incorporated P (ownVote P s isPrecommit valueId rosterI (voteBytes me.pubKey valueId s.height word))
          (s.sign (.vote isPrecommit s.height s.round valueId)) s') (Halted P wraps Heard base) s := by
    unfold broadcast roundAt
    rw [wp_bind, wp_bind, wp_get, getIdx_ok hd, wp_lift_ok, wp_bind, wp_get, hrosterI, hh, hr]
    cases isPrecommit <;> exact wp_seq hvote fun _ _ h => ⟨rfl, h⟩
  refine wp_seq hbroadcast ?_
  rintro step s₁ ⟨rfl, word, hword, hinc⟩
  change _ ∧ _ ∧ _ ∧ _
  have hshape := hs.shape d (List.mem_of_getElem? hd) hh
  have hlocal : Local (Grown now) i _ s₁ := hinc.local ⟨hs.sorted, hs.height_le, hs.shape, hs.timeout⟩ hd hkey
    fun member d' hacc hstep => hstep.grown_of_vote now (ownVote_packetType _ _ _ _ _ _) hshape hacc.active
  have hstep := hinc.with_step (voteStep isPrecommit)
  refine ⟨hmoves.trans (hstep.moves (ownVote_sourced hword hme hown ⟨rfl, rfl, rfl⟩ (by simp [TMState.sign]))),
    ⟨hlocal.height, hlocal.round, hlocal.roster, hlocal.myPubKey, hlocal.length, hlocal.off, hlocal.here⟩,
    rfl, ?_⟩
  cases hinc with
  | dropped => rfl
  | taken member seen i s₁ d d' hacc hround hstep => cases hround <;> rfl

/-! ### Validity -/

theorem callClosure_wp (f : ℕ → Except Panic α) :
    wp (callClosure f) (fun _ s' => s' = { s with calls := s.calls + 1 })
      (fun _ s' => s' = { s with calls := s.calls + 1 }) s := by
  unfold callClosure
  rw [wp_bind, wp_get, wp_bind, wp_modify]
  exact wp_lift (fun _ _ => rfl) fun _ _ => rfl

theorem callClosure_refines (f : ℕ → Except Panic α) :
    Refines P wraps Heard (callClosure f) (fun _ s' => s' = { s with calls := s.calls + 1 }) s :=
  ⟨wp_mono (callClosure_wp f) (fun _ _ h => ⟨h ▸ .single .call, h⟩)
    fun _ _ h => ⟨_, .single .call, by rw [h], by rw [h], by rw [h], by rw [h]⟩⟩

/-- The record at `i` has grown into `d'`, and the step and the lock are as before. -/
structure Waited (now : Instant) (i : ℕ) (d : RoundData) (s s' : TMState) (d' : RoundData) : Prop where
  loc : Local (Grown now) i s s'
  step : s'.step = s.step
  locked : s'.lockedValueRound = s.lockedValueRound
  here : s'.roundsData[i]? = some d'
  grown : Grown now d d'

theorem cacheValidity_refines (cl : Closures) (now : Instant) (hd : s.roundsData[i]? = some d) :
    Refines P wraps Heard (cacheValidity cl i d) (fun _ s' => ∃ d', Waited now i d s s' d') s := by
  have hstay : ∃ d', Waited now i d s s d' := ⟨d, Local.refl i s, rfl, rfl, hd, refl_of _ d⟩
  have hg : ∀ verdict, Grown now d { d with proposalCheckedValidity := verdict } := fun verdict =>
    ⟨rfl, fun _ => le_rfl, ⟨rfl, rfl⟩, .inl rfl⟩
  unfold cacheValidity
  refine Refines.ite (fun hopen => ?_) fun _ => Refines.pure hstay
  refine Refines.ite (fun hfaulty => ?_) fun hfaulty => ?_
  · exact Refines.modify (.check i d _ hd hopen (.inl ⟨hfaulty, rfl⟩))
      ⟨_, Local.setRound hd (hg _), rfl, rfl, getElem?_setRound hd, hg _⟩
  refine Refines.ite (fun hfull => ?_) fun _ => Refines.pure hstay
  refine (callClosure_refines _).bind ?_
  intro verdict s₁ _ hs₁
  have hloc : Local (Grown now) i s s₁ := by
    rw [hs₁]
    exact Local.of_records rfl rfl rfl rfl rfl
  have hd₁ : s₁.roundsData[i]? = some d := by rw [hs₁]; exact hd
  exact Refines.modify (.check i d verdict hd₁ hopen (.inr ⟨by simpa using hfaulty, hfull⟩))
    ⟨_, hloc.trans (Local.setRound hd₁ (hg _)), by rw [hs₁], by rw [hs₁], getElem?_setRound hd₁, hg _⟩

theorem proposalIsValid_refines (cl : Closures) (now : Instant) (hd : s.roundsData[i]? = some d) :
    Refines P wraps Heard (proposalIsValid cl i)
      (fun status s' => ∃ d', Waited now i d s s' d' ∧ d'.proposalCheckedValidity.1 = status) s := by
  unfold proposalIsValid
  refine Refines.roundAt_bind fun d₀ hd₀ => ?_
  obtain rfl : d₀ = d := by rw [hd] at hd₀; exact (Option.some.inj hd₀).symm
  refine (cacheValidity_refines cl now hd).bind ?_
  rintro _ s₁ - ⟨d', hw⟩
  refine Refines.roundAt_bind fun e he => ?_
  obtain rfl : e = d' := by rw [hw.here] at he; exact (Option.some.inj he).symm
  exact Refines.pure ⟨e, hw, rfl⟩

end Crosslink.Tenderlink

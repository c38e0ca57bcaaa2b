import Crosslink.Tenderlink.Certificate

/-!
# Honest nodes in one network

Any number of honest nodes, each with its own closures, clock and start; the network delivers whatever
packets it likes. One list keeps what all honest nodes have signed, newest first. Relative to it, `NodeInv`
says what one node knows: its counted votes of honest members were cast, its lock is its last precommit
for a value, and its decisions rest on quorums.
-/

namespace Crosslink.Tenderlink

open Codec Fallible List

variable {P : Params} {wraps : Prop} {Heard : Msg → PubKeyID → Prop} {s s' : TMState} {d d' : RoundData} {m : Msg}

/-! ### The network -/

structure Net (P : Params) where
  honest : Finset PubKeyID
  signingKey : PubKeyID → SigningKey
  closures : PubKeyID → Closures
  roster : PubKeyID → SortedRoster
  startup : PubKeyID → List RoundData
  startTime : PubKeyID → Instant
  keys : ∀ k ∈ honest, P.verificationKey (signingKey k) = k
  signs : ∀ k ∈ honest, ∀ data, P.sign (signingKey k) data ≠ TMSig.nil

/-- How each node stands; `none` before its start. -/
abbrev World := PubKeyID → Option (EStateM.Result Panic TMState Unit)

namespace Net

variable (N : Net P)

def initial (k : PubKeyID) : TMState := TMState.init P (N.signingKey k) (N.roster k) (N.startup k)

def stateOf (w : World) (k : PubKeyID) : TMState := (w k).elim (N.initial k) endState

/-- The worlds that honest nodes can be in: each starts once, and then handles inputs that `Ok` allows,
in any interleaving. -/
inductive Reaches (Ok : World → PubKeyID → Input → Prop) : World → Prop where
  | start : Reaches Ok fun _ => none
  | boot {w : World} {k : PubKeyID} (hw : Reaches Ok w) (hk : k ∈ N.honest) (hnew : w k = none) :
      Reaches Ok (Function.update w k (some (startRound P (N.closures k) (N.startTime k) 0 (N.initial k))))
  | step {w : World} {k : PubKeyID} {s : TMState} (input : Input) (hw : Reaches Ok w) (hk : k ∈ N.honest)
      (hs : w k = some (.ok () s)) (hok : Ok w k input) :
      Reaches Ok (Function.update w k (some (handle P (N.closures k) input s)))

/-- A signature under an honest key is accepted only when the owner made it, for exactly this vote or chunk. -/
def Authentic (w : World) (k : PubKeyID) (input : Input) : Prop :=
  ∀ m key, heardIn P (N.stateOf w k) input m key → key ∈ N.honest → OwnSigned P (N.stateOf w key) m

/-- No accepted chunk has the all-zero signature, and the round counter does not wrap. -/
def Calm (w : World) (k : PubKeyID) (input : Input) : Prop :=
  NoWrap P (N.stateOf w k) input ∧
    ∀ m key, heardIn P (N.stateOf w k) input m key → m.packetType = packetTypeProposalChunk → m.sig ≠ TMSig.nil

/-! ### Runs that can be evaluated -/

/-- A node starts (`none`) or handles an input; nothing happens when it cannot. -/
def next (w : World) : PubKeyID × Option Input → World
  | (k, none) =>
    match w k with
    | none => Function.update w k (some (startRound P (N.closures k) (N.startTime k) 0 (N.initial k)))
    | some _ => w
  | (k, some input) =>
    match w k with
    | some (.ok _ s) => Function.update w k (some (handle P (N.closures k) input s))
    | _ => w

/-- Every node that moves is honest and every input satisfies `ok`. -/
def runOk (ok : World → PubKeyID → Input → Bool) : List (PubKeyID × Option Input) → World → Bool
  | [], _ => true
  | (k, input) :: events, w =>
    k ∈ N.honest && input.all (ok w k) && runOk ok events (N.next w (k, input))

theorem reaches_run (hok : ∀ w k input, ok w k input = true → Ok w k input) (events : List (PubKeyID × Option Input))
    (hw : N.Reaches Ok w) (h : N.runOk ok events w = true) : N.Reaches Ok (events.foldl N.next w) := by
  induction events generalizing w with
  | nil => exact hw
  | cons event events ih =>
    obtain ⟨k, input⟩ := event
    simp only [runOk, Bool.and_eq_true, decide_eq_true_eq] at h
    obtain ⟨⟨hk, hinput⟩, hrest⟩ := h
    refine ih ?_ hrest
    cases input with
    | none =>
      cases hwk : w k with
      | none => simpa only [next, hwk] using .boot hw hk hwk
      | some r => simpa only [next, hwk] using hw
    | some input =>
      rcases hwk : w k with _ | ⟨_, s⟩ | _
      · simpa only [next, hwk] using hw
      · simpa only [next, hwk] using .step input hw hk hwk (hok w k input hinput)
      · simpa only [next, hwk] using hw

/-- `Authentic`, evaluated on the messages of a packet. -/
def authenticOk (w : World) (k : PubKeyID) : Input → Bool
  | .tick _ => true
  | .recv packet =>
    let roster := (N.stateOf w k).roster.members
    (carried P roster packet).all fun m =>
      let sender := N.stateOf w (keyAt roster m.rosterI)
      keyAt roster m.rosterI ∉ N.honest ||
        (m.sig == P.sign sender.mySigningKey m.signedData && sender.signed.any fun e => e.Covers m)

theorem authentic_of_authenticOk (w : World) (k : PubKeyID) (input : Input) (h : N.authenticOk w k input = true) :
    N.Authentic w k input := by
  cases input with
  | tick now => exact fun _ _ hm => hm.elim
  | recv packet =>
    rintro m key ⟨hcarries, member, hacc, rfl⟩ hhonest
    have hm := all_eq_true.mp h m hcarries.mem_carried
    simp only [keyAt_eq hacc.here, hhonest, not_true_eq_false, decide_false, Bool.false_or, Bool.and_eq_true,
      beq_iff_eq, any_eq_true, decide_eq_true_eq] at hm
    exact hm

/-- `Calm`, evaluated on the messages of a packet. -/
def calmOk (w : World) (k : PubKeyID) : Input → Bool
  | .tick _ => P.overflowChecks
  | .recv packet => (carried P (N.stateOf w k).roster.members packet).all fun m =>
    m.packetType != packetTypeProposalChunk || m.sig != TMSig.nil

theorem calm_of_calmOk (w : World) (k : PubKeyID) (input : Input) (h : N.calmOk w k input = true) :
    N.Calm w k input := by
  cases input with
  | tick now => exact ⟨.inl h, fun _ _ hm => hm.elim⟩
  | recv packet =>
    refine ⟨trivial, ?_⟩
    rintro m key ⟨hcarries, -⟩ htype
    have hm := all_eq_true.mp h m hcarries.mem_carried
    simpa [htype] using hm

theorem authentic_calm_of_ok (w : World) (k : PubKeyID) (input : Input)
    (h : (N.authenticOk w k input && N.calmOk w k input) = true) : N.Authentic w k input ∧ N.Calm w k input :=
  ⟨N.authentic_of_authenticOk w k input (Bool.and_eq_true_iff.mp h).1,
    N.calm_of_calmOk w k input (Bool.and_eq_true_iff.mp h).2⟩

end Net

/-- The rosters that the node has used and uses are those of `ra`. -/
structure RosterOk (ra : ℕ → SortedRoster) (s : TMState) : Prop where
  current : s.roster = ra s.height
  past : ∀ dec ∈ s.pushed, dec.roster = ra dec.roundData.height

theorem Move.rosterOk_back (h : Move P wraps Heard s s') (hs : RosterOk ra s') :
    RosterOk ra s := by
  cases h with
  | push i d p => exact ⟨hs.current, fun dec hdec => hs.past dec (mem_cons_of_mem _ hdec)⟩
  | newHeight roster d hpushed =>
    obtain ⟨dec, hdec, hroster, hheight⟩ := hpushed
    exact ⟨by rw [← hroster, hs.past dec hdec, hheight], hs.past⟩
  | _ => exact ⟨hs.current, hs.past⟩

/-! ### What one node knows of the others -/

abbrev GlobalLog := List (PubKeyID × Signed)

def Logged (honest : Finset PubKeyID) (G : GlobalLog) (R : SortedRoster) (d : RoundData) : Prop :=
  ∀ i isPrecommit valueId sig member, R.members[i]? = some member → member.pubKey ∈ honest →
    d.Voted i isPrecommit valueId sig → (member.pubKey, .vote isPrecommit d.height d.round valueId) ∈ G

def HasQuorum (P : Params) (honest : Finset PubKeyID) (G : GlobalLog) (R : SortedRoster) (isPrecommit : Bool)
    (key : ℕ × ℕ) (valueId : ValueId) : Prop :=
  ∃ I, IsQuorum P R I ∧ ∀ i ∈ I, valueId ≠ ValueId.nil ∧ ∀ member, R.members[i]? = some member →
    member.pubKey ∈ honest → (member.pubKey, .vote isPrecommit key.1 key.2 valueId) ∈ G

/-- The lock is the last precommit for a value at the current height. -/
def LockOk (P : Params) (s : TMState) : Prop :=
  (s.lockedValueRound.2 = -1 ∧ ∀ round valueId, .vote true s.height round valueId ∈ s.signed → valueId = ValueId.nil) ∨
    ∃ value, ∃ round : ℕ, s.lockedValueRound = (some value, (round : ℤ)) ∧
      .vote true s.height round (idFromValue P value) ∈ s.signed ∧
      ∀ round' valueId, .vote true s.height round' valueId ∈ s.signed → valueId ≠ ValueId.nil → round' ≤ round

structure NodeInv (P : Params) (honest : Finset PubKeyID) (G : GlobalLog) (k : PubKeyID) (s : TMState) : Prop where
  inv : Inv P False s
  me : s.myPubKey = k
  log : ∀ e, (k, e) ∈ G ↔ e ∈ s.signed
  certifying : Certifying P s
  logged : ∀ d ∈ s.roundsData, d.height = s.height → Logged honest G s.roster d
  lock : LockOk P s
  decided : ∀ dec ∈ s.pushed,
    HasQuorum P honest G dec.roster true dec.roundData.key (idFromValue P dec.value)

section

variable {honest : Finset PubKeyID} {G G' : GlobalLog} {k : PubKeyID} {R : SortedRoster}

theorem Logged.mono (hG : ∀ x ∈ G, x ∈ G') (h : Logged honest G R d) : Logged honest G' R d :=
  fun i kind x sig member hmember hhonest hvoted => hG _ (h i kind x sig member hmember hhonest hvoted)

theorem HasQuorum.mono (hG : ∀ x ∈ G, x ∈ G') (h : HasQuorum P honest G R isPrecommit key valueId) :
    HasQuorum P honest G' R isPrecommit key valueId := by
  obtain ⟨I, hI, hall⟩ := h
  exact ⟨I, hI, fun i hi => ⟨(hall i hi).1, fun member hm hh => hG _ ((hall i hi).2 member hm hh)⟩⟩

def yesKind (isPrecommit : Bool) : CountKind := if isPrecommit then .yesPrecommit else .yesPrevote

theorem yesKind_counts : (yesKind isPrecommit).counts v ↔ v.isYes isPrecommit := by
  cases isPrecommit <;> exact Iff.rfl

theorem CertRecord.hasQuorum (hd : CertRecord P s d) (hshape : Shape s.roster d) (hlogged : Logged honest G s.roster d)
    (hvalid : d.proposalCheckedValidity.1 = .pass) (isPrecommit : Bool) (hbig : ReachesBig P s d (yesKind isPrecommit)) :
    HasQuorum P honest G s.roster isPrecommit d.key (idFromValue P d.proposal) := by
  obtain ⟨hfull, hhash⟩ := hd.proposal.pass hvalid
  obtain ⟨th, hth, hle⟩ := hbig
  rw [hshape.counts, tally, ConsensusCounts.get_ofFn, stakeWhere_eq_stakeOf, hshape.slots] at hle
  refine ⟨_, ⟨Finset.filter_subset _ _, th, hth, hle⟩, fun i hi => ?_⟩
  obtain ⟨hvote, hyes⟩ := yesKind_counts.mp (Finset.mem_filter.mp hi).2
  have hvoted : d.Voted i isPrecommit _ _ := ⟨rfl, hvote⟩
  rw [hhash, ← hd.agreed (hasFullProposal_iff.mp hfull).1 i isPrecommit _ _ trivial hvoted hyes]
  exact ⟨hyes, fun member hmember hhonest => hlogged i isPrecommit _ _ member hmember hhonest hvoted⟩

/-! ### What a move of the node keeps -/

/-- The common log after a move of `k` from `s` to `s'`. -/
def Grows (k : PubKeyID) (s s' : TMState) (G G' : GlobalLog) : Prop :=
  (s'.signed = s.signed ∧ G' = G) ∨ ∃ e, s'.signed = e :: s.signed ∧ G' = (k, e) :: G

theorem Grows.subset (h : Grows k s s' G G') : ∀ x ∈ G, x ∈ G' := by
  rcases h with ⟨-, rfl⟩ | ⟨e, -, rfl⟩
  · exact fun _ => id
  · exact fun _ => mem_cons_of_mem _

theorem Move.exists_grows (h : Move P wraps Heard s s') (k : PubKeyID) (G : GlobalLog) : ∃ G', Grows k s s' G G' := by
  have hcases : s'.signed = s.signed ∨ ∃ e, s'.signed = e :: s.signed := by
    cases h <;> first | exact .inl rfl | exact .inr ⟨_, rfl⟩
  rcases hcases with heq | ⟨e, heq⟩
  · exact ⟨G, .inl ⟨heq, rfl⟩⟩
  · exact ⟨(k, e) :: G, .inr ⟨e, heq, rfl⟩⟩

theorem Signed.covers_vote {e : Signed} (h : e.Covers m) (hkind : m.IsVote isPrecommit) :
    e = .vote isPrecommit m.height m.round m.valueId := by
  unfold Msg.IsVote at hkind
  cases e with
  | chunk hdr data =>
    have hchunk := h.1
    rw [hkind] at hchunk
    cases isPrecommit <;> cases hchunk
  | vote k height round valueId =>
    obtain ⟨htype, rfl, rfl, rfl⟩ := h
    rw [hkind] at htype
    cases k <;> cases isPrecommit <;> first | rfl | cases htype

theorem RecordMove.logged (h : RecordMove P Heard s d d') (hd : Logged honest G s.roster d)
    (hheard : ∀ m key, Heard m key → key ∈ honest → ∃ e, (key, e) ∈ G ∧ e.Covers m)
    (hown : ∀ e ∈ s.signed, (s.myPubKey, e) ∈ G) : Logged honest G s.roster d' := by
  cases h with
  | heard _ m member hkey hheight _ hmember _ _ hsource hstep =>
    intro i kind x sig member' hmember' hhonest hvoted
    obtain ⟨h₁, h₂⟩ := Prod.mk.inj hstep.frame.1
    rw [h₁, h₂]
    rcases hstep.voted hvoted with hold | ⟨hkind, rfl, rfl, rfl⟩
    · exact hd i kind x sig member' hmember' hhonest hold
    · rw [hmember] at hmember'
      cases hmember'
      obtain ⟨h₃, h₄⟩ := Prod.mk.inj hkey
      rw [h₃, h₄, ← hheight]
      rcases hsource with hm | ⟨hme, -, e, he, hcovers⟩
      · obtain ⟨e, he, hcovers⟩ := hheard m _ hm hhonest
        exact Signed.covers_vote hcovers hkind ▸ he
      · rw [hme, ← Signed.covers_vote hcovers hkind]
        exact hown e he
  | _ => exact hd

theorem LockOk.sign (h : LockOk P s) (hheight : s'.height = s.height)
    (hlocked : s'.lockedValueRound = s.lockedValueRound) (hsub : ∀ e ∈ s.signed, e ∈ s'.signed)
    (hnew : ∀ round valueId, .vote true s.height round valueId ∈ s'.signed → valueId ≠ ValueId.nil →
      .vote true s.height round valueId ∈ s.signed) : LockOk P s' := by
  unfold LockOk at h ⊢
  rw [hheight, hlocked]
  rcases h with ⟨hnone, hall⟩ | ⟨value, round, heq, hmem, hlast⟩
  · refine .inl ⟨hnone, fun round valueId hvote => ?_⟩
    by_contra hne
    exact hne (hall round valueId (hnew round valueId hvote hne))
  · exact .inr ⟨value, round, heq, hsub _ hmem, fun r x hx hne => hlast r x (hnew r x hx hne) hne⟩

theorem Move.lockOk (h : Move P False Heard s s') (hs : Inv P False s) (hI : Certifying P s) (hlock : LockOk P s) :
    LockOk P s' := by
  cases h with
  | signChunk =>
    refine hlock.sign rfl rfl (fun _ => mem_cons_of_mem _) fun r x hx _ => ?_
    rcases mem_cons.mp hx with heq | hx
    · cases heq
    · exact hx
  | prevote =>
    refine hlock.sign rfl rfl (fun _ => mem_cons_of_mem _) fun r x hx _ => ?_
    rcases mem_cons.mp hx with heq | hx
    · cases heq
    · exact hx
  | precommitNil =>
    refine hlock.sign rfl rfl (fun _ => mem_cons_of_mem _) fun r x hx hne => ?_
    rcases mem_cons.mp hx with heq | hx
    · cases heq
      exact absurd rfl hne
    · exact hx
  | precommit i d hd hkey _ hvalid =>
    have hcert := hI.records d (mem_of_getElem? hd) (congrArg Prod.fst hkey)
    refine .inr ⟨d.proposal, s.round, rfl, ?_, fun r x hx _ => ?_⟩
    · rw [(hcert.proposal.pass hvalid).2]
      exact mem_cons_self
    · rcases mem_cons.mp hx with heq | hx
      · cases heq
        exact le_rfl
      · rcases (hs.log id).le _ hx with hlt | ⟨-, hle⟩
        · exact absurd hlt (Nat.lt_irrefl _)
        · exact hle
  | newHeight =>
    refine .inl ⟨rfl, fun r x hx => ?_⟩
    -- nothing is signed at a new height yet
    rcases (hs.log id).le _ hx with hlt | ⟨heq, -⟩
    · exact absurd (Nat.lt_of_succ_lt hlt) (Nat.lt_irrefl _)
    · exact absurd heq (Nat.succ_ne_self _)
  | _ => exact hlock

theorem NodeInv.move (h : Move P False Heard s s') (hs : NodeInv P honest G k s) (hgrows : Grows k s s' G G')
    (hclean : ∀ m key, Heard m key → CleanMsg P s m key)
    (hheard : ∀ m key, Heard m key → key ∈ honest → ∃ e, (key, e) ∈ G ∧ e.Covers m) : NodeInv P honest G' k s' := by
  have hown : ∀ e ∈ s.signed, (s.myPubKey, e) ∈ G := fun e he => hs.me ▸ (hs.log e).mpr he
  refine ⟨h.inv hs.inv, h.identity.1.trans hs.me, fun e => ?_, h.certifying hs.inv hs.certifying hclean, ?_,
    h.lockOk hs.inv hs.certifying hs.lock, ?_⟩
  · rcases hgrows with ⟨heq, rfl⟩ | ⟨e', heq, rfl⟩
    · rw [heq, hs.log]
    · rw [heq, mem_cons, mem_cons, hs.log, Prod.mk.injEq, and_iff_right rfl]
  · refine h.current_records hs.inv.wf hs.logged fun hroster => ⟨fun round => ?_, fun d d' _ _ hd hmove => ?_⟩
    · exact fun _ _ _ _ _ _ _ hvoted => absurd hvoted (not_voted_of_replicate rfl)
    · rw [hroster]
      exact (hmove.logged hd hheard hown).mono hgrows.subset
  · have hold : ∀ dec ∈ s.pushed, HasQuorum P honest G' dec.roster true dec.roundData.key (idFromValue P dec.value) :=
      fun dec hdec => (hs.decided dec hdec).mono hgrows.subset
    cases h with
    | push i d p hd hheight hvalid hbig =>
      intro dec hdec
      rcases mem_cons.mp hdec with rfl | hdec
      · have hmem := mem_of_getElem? hd
        have hcert := hs.certifying.records d hmem hheight
        have hshape := hs.inv.wf.shape d hmem hheight
        exact (hcert.hasQuorum hshape (hs.logged d hmem hheight) hvalid true hbig).mono hgrows.subset
      · exact hold dec hdec
    | _ => exact hold

end

end Crosslink.Tenderlink

import Crosslink.Lib.LockedVoting
import Crosslink.Tenderlink.Network

/-!
# Agreement

The votes of the honest nodes at one height, read off the common log, follow the rules of voting with
locks: the honest parts of vote sets that reach the big threshold are the quorums, and a decision is a
quorum of second votes. So two honest nodes decide the same value, in every run in which no chunk with
the all-zero signature is accepted and no round counter wraps.
-/

namespace Crosslink.Tenderlink

open Codec Fallible LockedVoting List

variable {P : Params} {Heard : Msg → PubKeyID → Prop} {s s' : TMState} {honest : Finset PubKeyID} {G G' : GlobalLog}
  {k : PubKeyID} {R : SortedRoster} {ra : ℕ → SortedRoster} {height : ℕ}

/-! ### Ballots of one height -/

def stageOf (isPrecommit : Bool) : Stage := if isPrecommit then .second else .first

def ballotValue (valueId : ValueId) : Option ValueId := if valueId = ValueId.nil then none else some valueId

def ballotAt (height : ℕ) : PubKeyID × Signed → Option (Ballot PubKeyID ValueId)
  | (k, .vote isPrecommit h round valueId) =>
    if h = height then some ⟨k, stageOf isPrecommit, round, ballotValue valueId⟩ else none
  | (_, .chunk _ _) => none

def ballots (height : ℕ) (G : GlobalLog) : List (Ballot PubKeyID ValueId) := G.filterMap (ballotAt height)

theorem stageOf_inj (h : stageOf a = stageOf b) : a = b := by
  cases a <;> cases b <;> first | rfl | cases h

theorem ballotValue_eq_some : ballotValue valueId = some x ↔ valueId = x ∧ x ≠ ValueId.nil := by
  unfold ballotValue
  split
  · simp_all
  · simp only [Option.some.injEq]
    exact ⟨fun h => ⟨h, h ▸ ‹_›⟩, fun h => h.1⟩

theorem mem_ballots (h : b ∈ ballots height G) :
    ∃ isPrecommit valueId, (b.voter, .vote isPrecommit height b.round valueId) ∈ G ∧ b.stage = stageOf isPrecommit ∧
      b.value = ballotValue valueId := by
  obtain ⟨⟨k, e⟩, hmem, hb⟩ := mem_filterMap.mp h
  cases e with
  | chunk => cases hb
  | vote isPrecommit h round valueId =>
    simp only [ballotAt, Option.ite_none_right_eq_some, Option.some.injEq] at hb
    obtain ⟨rfl, rfl⟩ := hb
    exact ⟨isPrecommit, valueId, hmem, rfl, rfl⟩

theorem mem_ballots_some (isPrecommit : Bool) {round : ℕ} :
    ⟨k, stageOf isPrecommit, round, some x⟩ ∈ ballots height G ↔
      (k, .vote isPrecommit height round x) ∈ G ∧ x ≠ ValueId.nil := by
  constructor
  · intro h
    obtain ⟨isPrecommit', valueId, hmem, hstage, hvalue⟩ := mem_ballots h
    obtain ⟨rfl, hne⟩ := ballotValue_eq_some.mp hvalue.symm
    obtain rfl := stageOf_inj hstage
    exact ⟨hmem, hne⟩
  · rintro ⟨hmem, hne⟩
    refine mem_filterMap.mpr ⟨_, hmem, ?_⟩
    simp [ballotAt, ballotValue_eq_some.mpr ⟨rfl, hne⟩]

/-! ### Quorums -/

def honestOf (honest : Finset PubKeyID) (R : SortedRoster) (I : Finset ℕ) : Set PubKeyID :=
  {k | k ∈ honest ∧ ∃ i ∈ I, ∃ member, R.members[i]? = some member ∧ member.pubKey = k}

def quorums (P : Params) (honest : Finset PubKeyID) (R : SortedRoster) : Set (Set PubKeyID) :=
  {S | ∃ I, IsQuorum P R I ∧ S = honestOf honest R I}

/-- Any two vote sets that reach the big threshold share stake of an honest member. -/
def SharesHonest (P : Params) (honest : Finset PubKeyID) (R : SortedRoster) : Prop :=
  ∀ I J, IsQuorum P R I → IsQuorum P R J → ∃ i ∈ I ∩ J, ∃ member, R.members[i]? = some member ∧
    member.pubKey ∈ honest ∧ 0 < member.stake

theorem SharesHonest.meet (h : SharesHonest P honest R) :
    ∀ S ∈ quorums P honest R, ∀ T ∈ quorums P honest R, (S ∩ T).Nonempty := by
  rintro S ⟨I, hI, rfl⟩ T ⟨J, hJ, rfl⟩
  obtain ⟨i, hi, member, hmember, hhonest, -⟩ := h I J hI hJ
  obtain ⟨hiI, hiJ⟩ := Finset.mem_inter.mp hi
  exact ⟨member.pubKey, ⟨hhonest, i, hiI, member, hmember, rfl⟩, hhonest, i, hiJ, member, hmember, rfl⟩

theorem HasQuorum.ballots {isPrecommit : Bool} {round : ℕ} {x : ValueId}
    (h : HasQuorum P honest G R isPrecommit (height, round) x) :
    ∃ S ∈ quorums P honest R, ∀ p ∈ S, ⟨p, stageOf isPrecommit, round, some x⟩ ∈ ballots height G := by
  obtain ⟨I, hI, hall⟩ := h
  refine ⟨honestOf honest R I, ⟨I, hI, rfl⟩, ?_⟩
  rintro p ⟨hhonest, i, hi, member, hmember, rfl⟩
  obtain ⟨hne, hvote⟩ := hall i hi
  exact (mem_ballots_some _).mpr ⟨hvote member hmember hhonest, hne⟩

/-! ### Every vote is allowed -/

theorem Move.signs_vote (h : Move P False Heard s s') (heq : s'.signed = .vote isPrecommit h₀ r₀ x :: s.signed) :
    h₀ = s.height ∧ (x ≠ ValueId.nil → ∃ d ∈ s.roundsData, d.key = (h₀, r₀) ∧
      d.proposalCheckedValidity.1 = .pass ∧ x = d.proposalId ∧
      (ReachesBig P s d .yesPrevote ∨ (isPrecommit = false ∧
        (s.lockedValueRound.2 = -1 ∨ s.lockedValueRound.1 = some d.proposal)))) := by
  cases h with
  | prevote i d valueId hd hkey _ hmay =>
    cases (List.cons.inj heq).1
    refine ⟨rfl, fun hne => ?_⟩
    rcases hmay with hnil | ⟨hid, hvalid, hlock⟩
    · exact absurd hnil hne
    · exact ⟨d, mem_of_getElem? hd, hkey, hvalid, hid, by tauto⟩
  | precommitNil =>
    cases (List.cons.inj heq).1
    exact ⟨rfl, fun hne => absurd rfl hne⟩
  | precommit i d hd hkey _ hvalid hbig =>
    cases (List.cons.inj heq).1
    exact ⟨rfl, fun _ => ⟨d, mem_of_getElem? hd, hkey, hvalid, rfl, .inl hbig⟩⟩
  | signChunk => cases (List.cons.inj heq).1
  | _ => exact absurd heq.symm (cons_ne_self _ _)

theorem NodeInv.locked (hs : NodeInv P honest G k s) (hheight : s.height = height)
    (h : s.lockedValueRound.2 = -1 ∨ s.lockedValueRound.1 = some value) :
    (∀ r y, ⟨k, .second, r, some y⟩ ∉ ballots height G) ∨
      ∃ r, (idFromValue P value ≠ ValueId.nil → ⟨k, .second, r, some (idFromValue P value)⟩ ∈ ballots height G) ∧
        ∀ r' y, ⟨k, .second, r', some y⟩ ∈ ballots height G → r' ≤ r := by
  subst hheight
  have hsigned : ∀ {r y}, ⟨k, .second, r, some y⟩ ∈ ballots s.height G →
      .vote true s.height r y ∈ s.signed ∧ y ≠ ValueId.nil := fun hb =>
    have hvote := (mem_ballots_some true).mp hb
    ⟨(hs.log _).mp hvote.1, hvote.2⟩
  rcases hs.lock with ⟨-, hnone⟩ | ⟨value', round, hlocked, hmem, hlast⟩
  · exact .inl fun r y hb => (hsigned hb).2 (hnone r y (hsigned hb).1)
  · rw [hlocked] at h
    rcases h with h | h
    · exact absurd h (by simp)
    · cases h
      exact .inr ⟨round, fun hne => (mem_ballots_some true).mpr ⟨(hs.log _).mpr hmem, hne⟩,
        fun r' y hb => hlast r' y (hsigned hb).1 (hsigned hb).2⟩

theorem NodeInv.allowed (h : Move P False Heard s s') (hs : NodeInv P honest G k s) (hroster : RosterOk ra s)
    {round : ℕ} (heq : s'.signed = .vote isPrecommit height round x :: s.signed) :
    Allowed (quorums P honest (ra height)) (ballots height G) ⟨k, stageOf isPrecommit, round, ballotValue x⟩ := by
  obtain ⟨rfl, hjust⟩ := h.signs_vote heq
  have hafter : ∀ e ∈ s.signed, Signed.After (.vote isPrecommit s.height round x) e := by
    have hpair := ((h.inv hs.inv).log id).after
    rw [heq] at hpair
    exact (pairwise_cons.mp hpair).1
  -- a vote for a value comes from a valid proposal, for which a counted quorum is a quorum of ballots
  have hvote : ∀ {y}, ballotValue x = some y → ∃ d : RoundData, y = idFromValue P d.proposal ∧ y ≠ ValueId.nil ∧
      (Backed (quorums P honest (ra s.height)) (ballots s.height G) round y ∨ (isPrecommit = false ∧
        (s.lockedValueRound.2 = -1 ∨ s.lockedValueRound.1 = some d.proposal))) := by
    intro y hy
    obtain ⟨rfl, hne⟩ := ballotValue_eq_some.mp hy
    obtain ⟨d, hd, hkey, hvalid, rfl, hwhy⟩ := hjust hne
    have hheight : d.height = s.height := congrArg Prod.fst hkey
    have hcert := hs.certifying.records d hd hheight
    have hid := (hcert.proposal.pass hvalid).2
    refine ⟨d, hid.symm, hne, hwhy.imp_left fun hbig => ?_⟩
    have hquorum := hcert.hasQuorum (hs.inv.wf.shape d hd hheight) (hs.logged d hd hheight) hvalid false hbig
    rw [hkey, hid, hroster.current] at hquorum
    exact hquorum.ballots
  refine ⟨fun b hb hvoter => ?_, fun b hb hvoter hstage hround => ?_, fun y hstage hy => ?_, fun y hstage hy => ?_⟩
  · obtain ⟨kind, valueId, hmem, -⟩ := mem_ballots hb
    rw [hvoter] at hmem
    rcases (hafter _ ((hs.log _).mp hmem)).1 with hlt | ⟨-, hle⟩
    · exact absurd hlt (Nat.lt_irrefl _)
    · exact hle
  · obtain ⟨kind, valueId, hmem, hkind, -⟩ := mem_ballots hb
    obtain rfl := stageOf_inj (hkind.symm.trans hstage)
    rw [hvoter, hround] at hmem
    exact (hafter _ ((hs.log _).mp hmem)).2 _ _ _ _ _ rfl rfl
  · obtain ⟨d, -, -, hback | ⟨rfl, -⟩⟩ := hvote hy
    · exact hback
    · cases hstage
  · obtain ⟨d, rfl, hne, hback | ⟨-, hlock⟩⟩ := hvote hy
    · exact .inr (.inr hback)
    · rcases hs.locked rfl hlock with hnone | ⟨r, hr, hlast⟩
      · exact .inl hnone
      · exact .inr (.inl ⟨r, hr hne, hlast⟩)

theorem NodeInv.valid (h : Move P False Heard s s') (hs : NodeInv P honest G k s) (hroster : RosterOk ra s)
    (hgrows : Grows k s s' G G') (hvalid : Valid (quorums P honest (ra height)) (ballots height G)) :
    Valid (quorums P honest (ra height)) (ballots height G') := by
  rcases hgrows with ⟨-, rfl⟩ | ⟨e, heq, rfl⟩
  · exact hvalid
  · cases e with
    | chunk => exact hvalid
    | vote isPrecommit h₀ round x =>
      by_cases hh : h₀ = height
      · subst hh
        have hballots : ballots h₀ ((k, .vote isPrecommit h₀ round x) :: G) =
            ⟨k, stageOf isPrecommit, round, ballotValue x⟩ :: ballots h₀ G := by
          simp [ballots, ballotAt]
        rw [hballots]
        exact hvalid.cons (hs.allowed h hroster heq)
      · have hballots : ballots height ((k, .vote isPrecommit h₀ round x) :: G) = ballots height G :=
          filterMap_cons_none (if_neg hh)
        rw [hballots]
        exact hvalid

/-! ### All nodes -/

/-- The roster condition is asked of the present only: it then held all along. -/
structure NetInv (N : Net P) (ra : ℕ → SortedRoster) (height : ℕ) (nodes : PubKeyID → TMState) (G : GlobalLog) :
    Prop where
  node : ∀ k ∈ N.honest, NodeInv P N.honest G k (nodes k)
  valid : (∀ k ∈ N.honest, RosterOk ra (nodes k)) → Valid (quorums P N.honest (ra height)) (ballots height G)

variable {N : Net P} {nodes : PubKeyID → TMState}

theorem NodeInv.grow (hs : NodeInv P honest G k s) (hgrows : Grows k' t t' G G') (hne : k ≠ k') :
    NodeInv P honest G' k s := by
  refine ⟨hs.inv, hs.me, fun e => ?_, hs.certifying, fun d hd hheight => (hs.logged d hd hheight).mono hgrows.subset,
    hs.lock, fun dec hdec => (hs.decided dec hdec).mono hgrows.subset⟩
  rcases hgrows with ⟨-, rfl⟩ | ⟨e', -, rfl⟩
  · exact hs.log e
  · rw [mem_cons, Prod.mk.injEq, ← hs.log]
    exact or_iff_right fun h => hne h.1

theorem NetInv.move (hI : NetInv N ra height nodes G) (hk : k ∈ N.honest) (h : Move P False Heard (nodes k) s')
    (hclean : ∀ m key, Heard m key → CleanMsg P (nodes k) m key)
    (hheard : ∀ m key, Heard m key → key ∈ N.honest → ∃ e, (key, e) ∈ G ∧ e.Covers m) :
    ∃ G', (∀ x ∈ G, x ∈ G') ∧ NetInv N ra height (Function.update nodes k s') G' := by
  have hs := hI.node k hk
  obtain ⟨G', hgrows⟩ := h.exists_grows k G
  refine ⟨G', hgrows.subset, fun k' hk' => ?_, fun hrosters => ?_⟩
  · by_cases hkk : k' = k
    · subst hkk
      rw [Function.update_self]
      exact hs.move h hgrows hclean hheard
    · rw [Function.update_of_ne hkk]
      exact (hI.node k' hk').grow hgrows hkk
  · have hback : ∀ k' ∈ N.honest, RosterOk ra (nodes k') := by
      intro k' hk'
      have hr := hrosters k' hk'
      by_cases hkk : k' = k
      · subst hkk
        rw [Function.update_self] at hr
        exact h.rosterOk_back hr
      · rwa [Function.update_of_ne hkk] at hr
    exact hs.valid h (hback k hk) hgrows (hI.valid hback)

theorem NetInv.moves (hI : NetInv N ra height nodes G) (hk : k ∈ N.honest) (h : Moves P False Heard (nodes k) s')
    (hclean : ∀ m key, Heard m key → CleanMsg P (nodes k) m key)
    (hheard : ∀ m key, Heard m key → key ∈ N.honest → ∃ e, (key, e) ∈ G ∧ e.Covers m) :
    ∃ G', (∀ x ∈ G, x ∈ G') ∧ NetInv N ra height (Function.update nodes k s') G' := by
  induction h with
  | refl => exact ⟨G, fun _ => id, by rwa [Function.update_eq_self]⟩
  | @tail s₁ s₂ hmoves hmove ih =>
    obtain ⟨G₁, hsub, hI₁⟩ := ih
    have hgrown := Moves.signed_subset hmoves
    have hnode : Function.update nodes k s₁ k = s₁ := Function.update_self ..
    rw [← hnode] at hmove hgrown
    obtain ⟨G₂, hsub₂, hI₂⟩ := hI₁.move hk hmove
      (fun m key hm => (hclean m key hm).later hgrown.1 hgrown.2) fun m key hm hkey => by
        obtain ⟨e, he, hcovers⟩ := hheard m key hm hkey
        exact ⟨e, hsub _ he, hcovers⟩
    rw [Function.update_idem] at hI₂
    exact ⟨G₂, fun x hx => hsub₂ x (hsub x hx), hI₂⟩

theorem NetInv.initial (N : Net P) (ra : ℕ → SortedRoster) (height : ℕ) : NetInv N ra height N.initial [] where
  node k hk := by
    refine ⟨init_inv _ _ _, N.keys k hk, fun e => ?_, init_certifying (N.signs k hk), fun _ hd => ?_,
      .inl ⟨rfl, fun _ _ h => ?_⟩, fun _ hdec => ?_⟩
    · exact iff_of_false not_mem_nil not_mem_nil
    · exact absurd hd not_mem_nil
    · exact absurd h not_mem_nil
    · exact absurd hdec not_mem_nil
  valid _ := .nil

def Net.Stands (N : Net P) (w : World) (k : PubKeyID) (s : TMState) : Prop :=
  (w k).elim (s = N.initial k) fun r => StandsAt r s

theorem Net.Stands.sameTrace (h : N.Stands w k s) : SameTrace s (N.stateOf w k) := by
  unfold Net.Stands at h
  unfold Net.stateOf
  cases hw : w k with
  | none =>
    rw [hw] at h
    exact h ▸ ⟨rfl, rfl, rfl, rfl⟩
  | some r =>
    rw [hw] at h
    exact StandsAt.sameTrace h

theorem RosterOk.of_sameTrace (h : SameTrace s s') (hs : RosterOk ra s') : RosterOk ra s :=
  ⟨by rw [h.roster, h.height, hs.current], by rw [h.pushed]; exact hs.past⟩

theorem Net.stands_update (hstands : ∀ k ∈ N.honest, N.Stands w k (nodes k)) (hs' : StandsAt r s') :
    ∀ k' ∈ N.honest, N.Stands (Function.update w k (some r)) k' (Function.update nodes k s' k') := by
  intro k' hk'
  unfold Net.Stands
  by_cases hkk : k' = k
  · subst hkk
    rwa [Function.update_self, Function.update_self]
  · rw [Function.update_of_ne hkk, Function.update_of_ne hkk]
    exact hstands k' hk'

theorem Net.Reaches.netInv (h : N.Reaches (fun w k input => N.Authentic w k input ∧ N.Calm w k input) w)
    (ra : ℕ → SortedRoster) (height : ℕ) :
    ∃ nodes G, (∀ k ∈ N.honest, N.Stands w k (nodes k)) ∧ NetInv N ra height nodes G := by
  induction h with
  | start => exact ⟨N.initial, [], fun _ _ => rfl, .initial N ra height⟩
  | @boot w k _ hk hnew ih =>
    obtain ⟨nodes, G, hstands, hI⟩ := ih
    have hnode : nodes k = N.initial k := by
      have h := hstands k hk
      rwa [Net.Stands, hnew] at h
    have hrefines : Refines P False (fun _ _ => False) (startRound P (N.closures k) (N.startTime k) 0) _ (N.initial k) :=
      startRound_refines (init_inv _ _ _) fun _ e he => absurd he not_mem_nil
    obtain ⟨s', hmoves, hs'⟩ := hrefines.standsAt
    rw [← hnode] at hmoves
    obtain ⟨G', -, hI'⟩ := hI.moves hk hmoves (fun _ _ h => h.elim) fun _ _ h => h.elim
    exact ⟨_, G', Net.stands_update hstands hs', hI'⟩
  | @step w k s input _ hk hs hok ih =>
    obtain ⟨nodes, G, hstands, hI⟩ := ih
    obtain ⟨hauth, hcalm, hsig⟩ := hok
    obtain rfl : nodes k = s := by
      have h := hstands k hk
      rw [Net.Stands, hs] at h
      cases h
      rfl
    have hstate : N.stateOf w k = nodes k := by rw [Net.stateOf, hs]; rfl
    rw [Net.Authentic, hstate] at hauth
    rw [hstate] at hcalm hsig
    have hrefines : Refines P False _ (handle P (N.closures k) input) _ (nodes k) :=
      handle_refines input (hI.node k hk).inv fun _ => hcalm
    obtain ⟨s', hmoves, hs'⟩ := hrefines.standsAt
    have hclean : ∀ m key, heardIn P (nodes k) input m key → CleanMsg P (nodes k) m key := by
      refine fun m key hm htype => ⟨hsig m key hm htype, fun hkey => ?_⟩
      rw [(hI.node k hk).me] at hkey
      subst hkey
      exact hstate ▸ hauth m key hm hk
    have hheard : ∀ m key, heardIn P (nodes k) input m key → key ∈ N.honest → ∃ e, (key, e) ∈ G ∧ e.Covers m := by
      intro m key hm hkey
      obtain ⟨-, e, he, hcovers⟩ := hauth m key hm hkey
      rw [← (hstands key hkey).sameTrace.signed] at he
      exact ⟨e, ((hI.node key hkey).log e).mpr he, hcovers⟩
    obtain ⟨G', -, hI'⟩ := hI.moves hk hmoves hclean hheard
    exact ⟨_, G', Net.stands_update hstands hs', hI'⟩

/-- No two honest nodes have decided different values at the height. -/
def Net.Agreement (N : Net P) (w : World) (height : ℕ) : Prop :=
  ∀ k ∈ N.honest, ∀ k' ∈ N.honest, ∀ dec ∈ (N.stateOf w k).pushed, ∀ dec' ∈ (N.stateOf w k').pushed,
    dec.roundData.height = height → dec'.roundData.height = height → dec.value = dec'.value

/-- The ids of the values that honest nodes have decided do not collide. -/
def Net.NoCollision (N : Net P) (w : World) : Prop :=
  ∀ k ∈ N.honest, ∀ k' ∈ N.honest, ∀ dec ∈ (N.stateOf w k).pushed, ∀ dec' ∈ (N.stateOf w k').pushed,
    idFromValue P dec.value = idFromValue P dec'.value → dec.value = dec'.value

theorem agreement_of_reaches {w : World}
    (h : N.Reaches (fun w k input => N.Authentic w k input ∧ N.Calm w k input) w)
    (hrosters : ∀ k ∈ N.honest, RosterOk ra (N.stateOf w k)) (hshare : SharesHonest P N.honest (ra height))
    (hids : N.NoCollision w) : N.Agreement w height := by
  obtain ⟨nodes, G, hstands, hI⟩ := h.netInv ra height
  have hvalid := hI.valid fun k hk => .of_sameTrace (hstands k hk).sameTrace (hrosters k hk)
  -- each decision is a quorum of second votes
  have hquorum : ∀ k ∈ N.honest, ∀ dec ∈ (N.stateOf w k).pushed, dec.roundData.height = height →
      ∃ S ∈ quorums P N.honest (ra height), ∀ p ∈ S,
        ⟨p, .second, dec.roundData.round, some (idFromValue P dec.value)⟩ ∈ ballots height G := by
    intro k hk dec hdec hheight
    have hroster := (hrosters k hk).past dec hdec
    rw [← (hstands k hk).sameTrace.pushed] at hdec
    have hdecided := (hI.node k hk).decided dec hdec
    rw [hroster, RoundData.key, hheight] at hdecided
    exact hdecided.ballots
  intro k hk k' hk' dec hdec dec' hdec' hheight hheight'
  obtain ⟨S, hS, hx⟩ := hquorum k hk dec hdec hheight
  obtain ⟨T, hT, hy⟩ := hquorum k' hk' dec' hdec' hheight'
  exact hids k hk k' hk' dec hdec dec' hdec' (hvalid.second_eq hshare.meet hS hT hx hy)

/-! ### Two honest nodes and a proposer with a key of small order

All three members have stake one, so a quorum needs all of them. -/

def weakProposerRoster : SortedRoster := threeMembersFrom 1 1 1 1 (by decide)

def twoHonest : Net (Params.sample true) where
  honest := {keyNo 3, keyNo 4}
  signingKey k := k.bytes
  closures _ := .idle weakProposerRoster
  roster _ := weakProposerRoster
  startup _ := []
  startTime _ := 0
  keys _ _ := rfl
  signs k hk := sampleSign_ne_nil (by
    revert k
    decide)

theorem weakProposerRoster_shares : SharesHonest (Params.sample true) twoHonest.honest weakProposerRoster := by
  have hmem : ∀ I, IsQuorum (Params.sample true) weakProposerRoster I → 1 ∈ I := by
    rintro I ⟨hI, th, hth, hbig⟩
    have hthree : thresholdsOf (Params.sample true) weakProposerRoster.members = .ok ⟨3, 3⟩ := by decide
    rw [hthree] at hth
    cases hth
    have hall : ∀ I ∈ (Finset.range 3).powerset, 3 ≤ stakeOf weakProposerRoster.members I → 1 ∈ I := by decide
    exact hall I (Finset.mem_powerset.mpr hI) hbig
  exact fun I J hI hJ => ⟨1, Finset.mem_inter.mpr ⟨hmem I hI, hmem J hJ⟩, _, rfl, by decide, by decide⟩

/-- Both nodes get the proposer's chunk for `[7]`, the first one with the given signature, and all votes;
the first gets `late` before it decides. -/
def exchange (sig : TMSig) (late : List Input) : List (PubKeyID × Option Input) :=
  let P := Params.sample true
  let a := keyNo 3
  let c := keyNo 4
  let hdr := chunkHeader P 0 0 [7] (-1) 0
  let id := idFromValue P [7]
  let vote (isPrecommit : Bool) (i : ℕ) (sig : TMSig) := some (Input.recv (votePacket isPrecommit 0 0 id i sig))
  let signedBy (k : PubKeyID) (word : ℕ) := P.sign k.bytes (voteBytes k id 0 word)
  [(a, none), (c, none), (a, some (.recv (chunkPacket hdr [7] sig))), (c, some (.recv (chunkPacket hdr [7] (sigNo 1)))),
    (a, some (.tick 1)), (c, some (.tick 1)),
    (a, vote false 0 (sigNo 1)), (c, vote false 0 (sigNo 1)), (a, vote false 2 (signedBy c 0)),
    (c, vote false 1 (signedBy a 0)), (a, some (.tick 2)), (c, some (.tick 2)),
    (a, vote true 0 (sigNo 1)), (c, vote true 0 (sigNo 1)), (a, vote true 2 (signedBy c (2 ^ 31))),
    (c, vote true 1 (signedBy a (2 ^ 31)))] ++
  late.map (fun input => (a, some input)) ++ [(a, some (.tick 3)), (c, some (.tick 3))]

def exchanged (sig : TMSig) (late : List Input) : World := (exchange sig late).foldl twoHonest.next fun _ => none

theorem exchanged_rosters
    (h : ∀ k ∈ twoHonest.honest, (twoHonest.stateOf w k).roster = weakProposerRoster ∧ ∀ dec ∈ (twoHonest.stateOf w k).pushed, dec.roster = weakProposerRoster) :
    ∀ k ∈ twoHonest.honest, RosterOk (fun _ => weakProposerRoster) (twoHonest.stateOf w k) :=
  fun k hk => ⟨(h k hk).1, (h k hk).2⟩

theorem agreement_of_exchange :
    let w := exchanged (sigNo 1) []
    ((twoHonest.stateOf w (keyNo 3)).pushed ++ (twoHonest.stateOf w (keyNo 4)).pushed).map Decision.value = [[7], [7]] ∧
      twoHonest.Agreement w 0 := by
  intro w
  have hrosters := exchanged_rosters (w := w) (by decide +kernel)
  have hids : twoHonest.NoCollision w := by
    unfold Net.NoCollision
    decide +kernel
  have hreach := twoHonest.reaches_run twoHonest.authentic_calm_of_ok (exchange (sigNo 1) []) .start (by decide +kernel)
  exact ⟨by decide +kernel, agreement_of_reaches hreach hrosters weakProposerRoster_shares hids⟩

/-- Two more chunks 0 of the proposer, under the header of `[7]`. -/
def lateChunks : List Input :=
  let hdr := chunkHeader (Params.sample true) 0 0 [7] (-1) 0
  [.recv (chunkPacket hdr [9] (sigNo 1)), .recv (chunkPacket hdr [9] (sigNo (2 ^ 255 - 20)))]

/-- The node whose first chunk came with the all-zero signature decides `[9]`, the other decides `[7]`. -/
theorem overwritten_proposal_splits_decision :
    let w := exchanged TMSig.nil lateChunks
    twoHonest.Reaches twoHonest.Authentic w ∧
      (∀ k ∈ twoHonest.honest, RosterOk (fun _ => weakProposerRoster) (twoHonest.stateOf w k)) ∧
      SharesHonest (Params.sample true) twoHonest.honest weakProposerRoster ∧ twoHonest.NoCollision w ∧
      ((twoHonest.stateOf w (keyNo 3)).pushed ++ (twoHonest.stateOf w (keyNo 4)).pushed).map Decision.value = [[9], [7]] ∧
      ¬ twoHonest.Agreement w 0 := by
  refine ⟨twoHonest.reaches_run twoHonest.authentic_of_authenticOk _ .start (by decide +kernel),
    exchanged_rosters (by decide +kernel), weakProposerRoster_shares, ?_, by decide +kernel, ?_⟩
  · unfold Net.NoCollision
    decide +kernel
  · unfold Net.Agreement
    decide +kernel

end Crosslink.Tenderlink

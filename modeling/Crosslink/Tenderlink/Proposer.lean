import Crosslink.Tenderlink.Thresholds

/-!
# The proposer of a round

`proposer_from_height_round` takes a number from a keyed hash, reduces it modulo the stake of the included members and
looks it up in the running sums of the stakes. The search runs over the whole roster, also past the included members;
the running sums put the result below them, on a member with stake, and each member takes as many residues as it has
stake.
-/

namespace Crosslink.Tenderlink

open Codec Fallible Search

variable {P : Params} {R : SortedRoster}

/-! ### Where the search ends -/

def memberAbove (roster : List SortedRosterMember) (x : ℕ) : ℕ := partitionPoint (fun m => m.cumulativeStake ≤ x) roster

theorem SortedRoster.member? (R : SortedRoster) (hi : i < R.members.length) :
    ∃ m, R.members[i]? = some m ∧ m.stake = stakeAt R.members i ∧ m.cumulativeStake = stakeBefore R.members (i + 1) := by
  have hm : R.members[i]? = some R.members[i] := by simp [hi]
  exact ⟨R.members[i], hm, (stakeAt_of_getElem? hm).symm, R.cumulative_eq i _ hm⟩

theorem memberAbove_eq_iff (hi : i < R.members.length) :
    memberAbove R.members x = i ↔ stakeBefore R.members i ≤ x ∧ x < stakeBefore R.members (i + 1) := by
  obtain ⟨m, hm, -, hcumulative⟩ := R.member? hi
  have hcut : memberAbove R.members x = i ↔
      (∀ j < i, ∀ m', R.members[j]? = some m' → m'.cumulativeStake ≤ x) ∧ x < m.cumulativeStake := by
    simpa [memberAbove] using partitionPoint_eq_iff (p := fun m : SortedRosterMember => decide (m.cumulativeStake ≤ x)) hm
  rw [hcut, hcumulative]
  refine and_congr_left fun _ => ?_
  constructor
  · intro hbelow
    cases i with
    | zero => simp [stakeBefore]
    | succ i =>
      obtain ⟨m', hm', -, hcumulative'⟩ := R.member? (Nat.lt_of_succ_lt hi)
      rw [← hcumulative']
      exact hbelow i (Nat.lt_succ_self i) m' hm'
  · intro hle j hj m' hm'
    rw [R.cumulative_eq j m' hm']
    exact (stakeBefore_le_of_le _ hj).trans hle

theorem memberAbove_lt (hx : x < R.activeStake) :
    memberAbove R.members x < activeRosterLen R.members ∧ 0 < stakeAt R.members (memberAbove R.members x) := by
  have hne : 0 < activeRosterLen R.members := by
    by_contra hcon
    have hzero : R.activeStake = 0 := by
      rw [SortedRoster.activeStake, Nat.eq_zero_of_not_pos hcon]
      rfl
    omega
  have hlen := activeRosterLen_le R.members
  obtain ⟨m, hm, -, hcumulative⟩ := R.member? (i := activeRosterLen R.members - 1) (by omega)
  rw [Nat.sub_add_cancel hne] at hcumulative
  have hle : memberAbove R.members x ≤ activeRosterLen R.members - 1 := by
    apply partitionPoint_le hm
    rw [hcumulative]
    exact decide_eq_false (not_le.mpr hx)
  refine ⟨by omega, ?_⟩
  obtain ⟨hbefore, hupTo⟩ := (memberAbove_eq_iff (R := R) (i := memberAbove R.members x) (x := x) (by omega)).mp rfl
  rw [stakeBefore_succ] at hupTo
  omega

/-! ### The proposer -/

def hashStake (P : Params) (height round : ℕ) : ℕ :=
  leNat ((P.proposerHash (leBytes 8 height ++ leBytes 4 round)).toList.take 8)

theorem proposerFromHeightRound_none (h : R.members = [] ∨ R.activeStake = 0) (height round : ℕ) :
    proposerFromHeightRound P R.members height round = .ok (none, PubKeyID.nil) := by
  unfold proposerFromHeightRound
  split_ifs with hempty
  · rfl
  · have hstake : R.activeStake = 0 := h.resolve_left fun hnil => hempty (by rw [hnil]; rfl)
    have hne : 0 < activeRosterLen R.members := by
      unfold activeRosterLen rosterMaxN
      omega
    have hlen := activeRosterLen_le R.members
    obtain ⟨m, hm, -, hcumulative⟩ := R.member? (i := activeRosterLen R.members - 1) (by omega)
    rw [Nat.sub_add_cancel hne] at hcumulative
    dsimp only
    rw [getIdx_ok hm, ok_bind, if_pos (hcumulative.trans hstake)]
    rfl

theorem proposerFromHeightRound_eq (h : 0 < R.activeStake) (height round : ℕ) :
    ∃ m, R.members[memberAbove R.members (hashStake P height round % R.activeStake)]? = some m ∧
      proposerFromHeightRound P R.members height round =
        .ok (some (memberAbove R.members (hashStake P height round % R.activeStake)), m.pubKey) := by
  obtain ⟨hlt, -⟩ := memberAbove_lt (Nat.mod_lt (hashStake P height round) h)
  have hlen := activeRosterLen_le R.members
  obtain ⟨last, hlast, -, hcumulative⟩ := R.member? (i := activeRosterLen R.members - 1) (by omega)
  rw [Nat.sub_add_cancel (by omega)] at hcumulative
  obtain ⟨m, hm, -⟩ := R.member? (hlt.trans_le hlen)
  refine ⟨m, hm, ?_⟩
  unfold proposerFromHeightRound
  rw [if_neg (by omega)]
  dsimp only
  rw [getIdx_ok hlast, ok_bind, hcumulative]
  change (if R.activeStake = 0 then _ else _) = _
  rw [if_neg h.ne']
  change getIdx R.members (memberAbove R.members (hashStake P height round % R.activeStake)) >>= _ = _
  rw [getIdx_ok hm]
  rfl

theorem proposer_active {height round rosterI : ℕ}
    (h : proposerFromHeightRound P R.members height round = .ok (some rosterI, key)) :
    rosterI < activeRosterLen R.members := by
  have hpos : 0 < R.activeStake := by
    refine Nat.pos_of_ne_zero fun hzero => ?_
    rw [proposerFromHeightRound_none (.inr hzero)] at h
    cases h
  obtain ⟨m, -, hm⟩ := proposerFromHeightRound_eq (P := P) hpos height round
  rw [h] at hm
  rw [Option.some.inj (Prod.mk.inj (Except.ok.inj hm)).1]
  exact (memberAbove_lt (Nat.mod_lt _ hpos)).1

/-! ### The included members alone -/

def SortedRoster.included (R : SortedRoster) : SortedRoster where
  members := R.members.take (activeRosterLen R.members)
  cumulative_eq i m hm := by
    rw [List.getElem?_take] at hm
    split_ifs at hm with hi
    rw [R.cumulative_eq i m hm, stakeBefore, stakeBefore, List.take_take, min_eq_left hi]
  total_lt := by
    rw [stakeBefore, List.take_length]
    exact R.stakeBefore_lt _

theorem SortedRoster.included_len (R : SortedRoster) : R.included.members.length = activeRosterLen R.members := by
  rw [SortedRoster.included, List.length_take, min_eq_left (activeRosterLen_le _)]

theorem SortedRoster.activeRosterLen_included (R : SortedRoster) :
    activeRosterLen R.included.members = activeRosterLen R.members := by
  rw [activeRosterLen, R.included_len]
  unfold activeRosterLen
  omega

theorem SortedRoster.stakeBefore_included (R : SortedRoster) (h : n ≤ activeRosterLen R.members) :
    stakeBefore R.included.members n = stakeBefore R.members n := by
  rw [stakeBefore, stakeBefore, SortedRoster.included, List.take_take, min_eq_left h]

theorem proposerFromHeightRound_included (R : SortedRoster) (height round : ℕ) :
    proposerFromHeightRound P R.included.members height round = proposerFromHeightRound P R.members height round := by
  have hstake : R.included.activeStake = R.activeStake := by
    rw [SortedRoster.activeStake, R.activeRosterLen_included, R.stakeBefore_included le_rfl]
    rfl
  rcases Nat.eq_zero_or_pos R.activeStake with hzero | hpos
  · rw [proposerFromHeightRound_none (.inr hzero), proposerFromHeightRound_none (.inr (hstake.trans hzero))]
  · obtain ⟨m, hm, hproposer⟩ := proposerFromHeightRound_eq (P := P) hpos height round
    obtain ⟨m', hm', hproposer'⟩ := proposerFromHeightRound_eq (P := P) (hstake ▸ hpos) height round
    rw [hstake] at hm' hproposer'
    obtain ⟨hlt, -⟩ := memberAbove_lt (Nat.mod_lt (hashStake P height round) hpos)
    generalize hashStake P height round % R.activeStake = x at *
    have hsame : memberAbove R.included.members x = memberAbove R.members x := by
      rw [memberAbove_eq_iff (by rw [R.included_len]; exact hlt), R.stakeBefore_included hlt.le, R.stakeBefore_included hlt]
      exact (memberAbove_eq_iff (hlt.trans_le (activeRosterLen_le _))).mp rfl
    rw [hsame, SortedRoster.included, List.getElem?_take_of_lt hlt, hm] at hm'
    rw [hproposer, hproposer', hsame, Option.some.inj hm']

/-- The parameters with a hash that gives one number, whatever is hashed. -/
def Params.withHashStake (P : Params) (x : ℕ) : Params :=
  { P with proposerHash := fun _ => ⟨leBytes 32 x, leBytes_length32 x⟩ }

theorem hashStake_withHashStake (hx : x < 2 ^ 64) (height round : ℕ) :
    hashStake (P.withHashStake x) height round = x := by
  show leNat ((leBytes 32 x).take 8) = x
  rw [leBytes_take (by omega), leNat_leBytes]
  exact Nat.mod_eq_of_lt hx

def proposerIndex (P : Params) (roster : List SortedRosterMember) (height round : ℕ) : Option ℕ :=
  (proposerFromHeightRound P roster height round).toOption.bind Prod.fst

theorem card_choosing (hi : i < activeRosterLen R.members) (height round : ℕ) :
    ((Finset.range R.activeStake).filter fun x =>
      proposerIndex (P.withHashStake x) R.members height round = some i).card = stakeAt R.members i := by
  have hlen := activeRosterLen_le R.members
  have hchosen : (Finset.range R.activeStake).filter (fun x =>
      proposerIndex (P.withHashStake x) R.members height round = some i) =
        Finset.Ico (stakeBefore R.members i) (stakeBefore R.members (i + 1)) := by
    ext x
    have hupTo : stakeBefore R.members (i + 1) ≤ R.activeStake := stakeBefore_le_of_le _ hi
    rw [Finset.mem_filter, Finset.mem_range, Finset.mem_Ico]
    constructor
    · rintro ⟨hx, hindex⟩
      obtain ⟨m, -, hproposer⟩ := proposerFromHeightRound_eq (P := P.withHashStake x) (R := R) (by omega) height round
      have hword : x < 2 ^ 64 := hx.trans (R.stakeBefore_lt _)
      rw [proposerIndex, hproposer, hashStake_withHashStake hword, Nat.mod_eq_of_lt hx] at hindex
      exact (memberAbove_eq_iff (hi.trans_le hlen)).mp (Option.some.inj hindex)
    · intro hx
      have hlt : x < R.activeStake := by omega
      obtain ⟨m, -, hproposer⟩ := proposerFromHeightRound_eq (P := P.withHashStake x) (R := R) (by omega) height round
      refine ⟨hlt, ?_⟩
      rw [proposerIndex, hproposer, hashStake_withHashStake (hlt.trans (R.stakeBefore_lt _)), Nat.mod_eq_of_lt hlt,
        (memberAbove_eq_iff (hi.trans_le hlen)).mpr hx]
      rfl
  rw [hchosen, Nat.card_Ico, stakeBefore_succ]
  omega

/-- The proposer is missing just when there is no included stake. Otherwise it is an included member with stake, and the
members are chosen in proportion to their stakes. -/
theorem proposer_stakeWeighted (P : Params) (R : SortedRoster) (height round : ℕ) :
    ∃ proposer pubKey, proposerFromHeightRound P R.members height round = .ok (proposer, pubKey) ∧
      (proposer = none ↔ R.members = [] ∨ stakeBefore R.members (min 100 R.members.length) = 0) ∧
      (∀ i, proposer = some i → i < min 100 R.members.length ∧
        ∃ m, R.members[i]? = some m ∧ 0 < m.stake ∧ m.pubKey = pubKey) ∧
      ∀ i < min 100 R.members.length, ((Finset.range (stakeBefore R.members (min 100 R.members.length))).filter fun x =>
        proposerIndex (P.withHashStake x) R.members height round = some i).card = stakeAt R.members i := by
  change ∃ proposer pubKey, _ ∧ (_ ↔ _ ∨ R.activeStake = 0) ∧ (∀ i, _ → i < activeRosterLen R.members ∧ _) ∧
    ∀ i < activeRosterLen R.members, ((Finset.range R.activeStake).filter _).card = _
  by_cases hnone : R.members = [] ∨ R.activeStake = 0
  · exact ⟨none, _, proposerFromHeightRound_none hnone height round, by simpa using hnone, nofun,
      fun i hi => card_choosing hi height round⟩
  · have hpos : 0 < R.activeStake := Nat.pos_of_ne_zero fun h => hnone (.inr h)
    obtain ⟨m, hm, hproposer⟩ := proposerFromHeightRound_eq (P := P) hpos height round
    obtain ⟨hlt, hstake⟩ := memberAbove_lt (Nat.mod_lt (hashStake P height round) hpos)
    refine ⟨_, _, hproposer, by simpa using hnone, ?_, fun i hi => card_choosing hi height round⟩
    rintro i ⟨⟩
    exact ⟨hlt, m, hm, stakeAt_of_getElem? hm ▸ hstake, rfl⟩

end Crosslink.Tenderlink

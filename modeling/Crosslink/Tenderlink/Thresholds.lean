import Crosslink.Lib.Weighted
import Crosslink.Tenderlink.Machine

/-!
# Stake and thresholds

What `bft_update` computes from a roster: the active stake, the fault bound and the two thresholds.
Two sets of active members that both reach the big threshold share more than the fault bound exactly
when the active stake is at most three or one more than a multiple of three.
-/

namespace Crosslink.Tenderlink

open Fallible

/-! ### Stake of members -/

def stakeAt (roster : List SortedRosterMember) (i : ℕ) : ℕ := (roster[i]?.map SortedRosterMember.stake).getD 0

theorem stakeAt_of_getElem? (h : roster[i]? = some m) : stakeAt roster i = m.stake := by
  simp [stakeAt, h]

theorem stakeBefore_succ (roster : List SortedRosterMember) (n : ℕ) :
    stakeBefore roster (n + 1) = stakeBefore roster n + stakeAt roster n := by
  unfold stakeBefore stakeAt
  rw [List.take_add_one, List.map_append, List.sum_append]
  cases roster[n]? <;> simp

theorem stakeBefore_eq_sum (roster : List SortedRosterMember) (n : ℕ) :
    stakeBefore roster n = ∑ i ∈ Finset.range n, stakeAt roster i := by
  induction n with
  | zero => simp [stakeBefore]
  | succ n ih => rw [stakeBefore_succ, Finset.sum_range_succ, ih]

theorem stakeBefore_le_of_le (roster : List SortedRosterMember) (h : m ≤ n) :
    stakeBefore roster m ≤ stakeBefore roster n := by
  rw [stakeBefore_eq_sum, stakeBefore_eq_sum]
  exact Finset.sum_le_sum_of_subset (Finset.range_subset_range.mpr h)

theorem stakeBefore_min (roster : List SortedRosterMember) (n : ℕ) :
    stakeBefore roster (min n roster.length) = stakeBefore roster n := by
  rcases Nat.le_total n roster.length with h | h
  · rw [min_eq_left h]
  · rw [min_eq_right h]
    simp [stakeBefore, List.take_of_length_le h]

theorem SortedRoster.stakeBefore_lt (R : SortedRoster) (n : ℕ) : stakeBefore R.members n < 2 ^ 64 := by
  rw [← stakeBefore_min]
  exact lt_of_le_of_lt (stakeBefore_le_of_le _ (min_le_right _ _)) R.total_lt

/-- The stake `bft_update` adds up. -/
def SortedRoster.activeStake (R : SortedRoster) : ℕ := stakeBefore R.members (activeRosterLen R.members)

theorem activeRosterLen_le (roster : List SortedRosterMember) : activeRosterLen roster ≤ roster.length :=
  min_le_right _ _

theorem foldlM_addU (checks : Bool) (l : List SortedRosterMember) (acc : ℕ)
    (h : acc + (l.map SortedRosterMember.stake).sum < 2 ^ 64) :
    l.foldlM (fun acc m => addU checks 64 acc m.stake) acc =
      .ok (acc + (l.map SortedRosterMember.stake).sum) := by
  induction l generalizing acc with
  | nil => simp [pure, Except.pure]
  | cons m l ih =>
    simp only [List.map_cons, List.sum_cons] at h ⊢
    rw [List.foldlM_cons, addU_ok (by omega), ok_bind, ih _ (by omega)]
    congr 1
    omega

theorem totalActiveStake_eq (P : Params) (R : SortedRoster) :
    totalActiveStake P R.members = .ok R.activeStake := by
  have h := R.stakeBefore_lt (activeRosterLen R.members)
  unfold totalActiveStake
  rw [foldlM_addU _ _ _ (by simpa [stakeBefore] using h)]
  simp [SortedRoster.activeStake, stakeBefore]

/-! ### Thresholds -/

theorem fFromN_eq (P : Params) (h : 1 ≤ n) : fFromN P n = .ok ((n - 1) / 3) := by
  rw [fFromN, subU_ok h]
  rfl

theorem thresholdsOf_eq (P : Params) (R : SortedRoster) (h : 1 ≤ R.activeStake) :
    thresholdsOf P R.members =
      .ok (if (R.activeStake - 1) / 3 = 0 then ⟨R.activeStake, R.activeStake⟩
        else ⟨2 * ((R.activeStake - 1) / 3) + 1, (R.activeStake - 1) / 3 + 1⟩) := by
  rw [thresholdsOf, totalActiveStake_eq, ok_bind, thresholds, fFromN_eq P h]
  rfl

/-! ### Quorums -/

def stakeOf (roster : List SortedRosterMember) (S : Finset ℕ) : ℕ := ∑ i ∈ S, stakeAt roster i

/-- A set of active members that reaches the big threshold. -/
structure IsQuorum (P : Params) (R : SortedRoster) (S : Finset ℕ) : Prop where
  active : S ⊆ Finset.range (activeRosterLen R.members)
  big : ∃ th, thresholdsOf P R.members = .ok th ∧ th.big ≤ stakeOf R.members S

theorem stakeOf_add_le (R : SortedRoster) (hS : S ⊆ Finset.range (activeRosterLen R.members))
    (hT : T ⊆ Finset.range (activeRosterLen R.members)) :
    stakeOf R.members S + stakeOf R.members T ≤ stakeOf R.members (S ∩ T) + R.activeStake := by
  rw [SortedRoster.activeStake, stakeBefore_eq_sum]
  exact Weighted.sum_add_sum_le_inter hS hT

/-- Any two quorums of any roster with active stake `n` share more than the fault bound of `n`. -/
def QuorumsIntersect (P : Params) (n : ℕ) : Prop :=
  ∀ R : SortedRoster, R.activeStake = n → ∀ S T, IsQuorum P R S → IsQuorum P R T →
    ∀ f, fFromN P n = .ok f → f < stakeOf R.members (S ∩ T)

theorem quorumsIntersect_of (P : Params) (h : n ≤ 3 ∨ n % 3 = 1) (hpos : 1 ≤ n) :
    QuorumsIntersect P n := by
  rintro R rfl S T ⟨hS, thS, hthS, hbigS⟩ ⟨hT, thT, hthT, hbigT⟩ f hf
  have hsum := stakeOf_add_le R hS hT
  rw [fFromN_eq P hpos] at hf
  cases hf
  rw [thresholdsOf_eq P R hpos] at hthS hthT
  cases hthS
  cases hthT
  split_ifs at hbigS hbigT with hf0 <;> simp only at hbigS hbigT <;> omega

def threeMembersFrom (key a b c : ℕ) (h : a + b + c < 2 ^ 64) : SortedRoster where
  members := [⟨keyNo key, a, a⟩, ⟨keyNo 3, b, a + b⟩, ⟨keyNo 4, c, a + b + c⟩]
  cumulative_eq := by
    intro i m hm
    rcases i with _ | _ | _ | i <;> simp at hm <;> subst hm <;> simp [stakeBefore]
    omega
  total_lt := by simp [stakeBefore]; omega

abbrev threeMembers (a b c : ℕ) (h : a + b + c < 2 ^ 64) : SortedRoster := threeMembersFrom 2 a b c h

theorem threeMembers_activeStake (h : a + b + c < 2 ^ 64) :
    (threeMembers a b c h).activeStake = a + b + c := by
  change ([a, b, c] : List ℕ).sum = a + b + c
  simp [add_assoc]

theorem threeMembers_stakeOf (h : a + b + c < 2 ^ 64) :
    stakeOf (threeMembers a b c h).members {0, 1} = a + b ∧
      stakeOf (threeMembers a b c h).members {1, 2} = b + c ∧
      stakeOf (threeMembers a b c h).members ({0, 1} ∩ {1, 2}) = b := by
  refine ⟨?_, ?_, ?_⟩
  · simp [stakeOf, stakeAt, threeMembersFrom]
  · simp [stakeOf, stakeAt, threeMembersFrom]
  · rw [show ({0, 1} ∩ {1, 2} : Finset ℕ) = {1} by decide]
    simp [stakeOf, stakeAt, threeMembersFrom]

theorem not_quorumsIntersect (P : Params) (h : a + b + c < 2 ^ 64) (hf : (a + b + c - 1) / 3 = f) (hpos : 1 ≤ f)
    (hab : 2 * f + 1 ≤ a + b) (hbc : 2 * f + 1 ≤ b + c) (hb : b ≤ f) : ¬ QuorumsIntersect P (a + b + c) := by
  intro hall
  have hstake := threeMembers_activeStake h
  obtain ⟨h01, h12, h1⟩ := threeMembers_stakeOf h
  have hth := thresholdsOf_eq P (threeMembers a b c h) (by omega)
  rw [hstake, hf, if_neg (by omega)] at hth
  have hquorum : ∀ S ⊆ Finset.range 3, 2 * f + 1 ≤ stakeOf (threeMembers a b c h).members S →
      IsQuorum P (threeMembers a b c h) S := fun S hS hbig => ⟨hS, _, hth, hbig⟩
  have := hall _ hstake {0, 1} {1, 2} (hquorum _ (by decide) (by omega)) (hquorum _ (by decide) (by omega))
    f (by rw [fFromN_eq P (by omega), hf])
  omega

/-- Quorum intersection, for every active stake: it holds exactly up to three and at one more than a
multiple of three. -/
theorem quorumsIntersect_iff (P : Params) (n : ℕ) (hpos : 1 ≤ n) (hn : n < 2 ^ 64) :
    QuorumsIntersect P n ↔ n ≤ 3 ∨ n % 3 = 1 := by
  refine ⟨fun hall => ?_, fun h => quorumsIntersect_of P h hpos⟩
  by_contra hcon
  obtain ⟨hbig, hmod⟩ := not_or.mp hcon
  obtain ⟨f, hf⟩ : ∃ f, (n - 1) / 3 = f := ⟨_, rfl⟩
  have hcase : n = (f + 1) + f + (f + 1) ∨ n = (f + 2) + (f - 1) + (f + 2) := by omega
  rcases hcase with h | h
  · rw [h] at hall hn hf
    exact not_quorumsIntersect P hn hf (by omega) (by omega) (by omega) (by omega) hall
  · rw [h] at hall hn hf
    exact not_quorumsIntersect P hn hf (by omega) (by omega) (by omega) (by omega) hall

theorem quorumsIntersect_four : (1 ≤ 4 ∧ 4 < 2 ^ 64) ∧
    (QuorumsIntersect (Params.sample true) 4 ↔ 4 ≤ 3 ∨ 4 % 3 = 1) :=
  ⟨by decide, quorumsIntersect_iff _ 4 (by decide) (by decide)⟩

/-- With stakes 2, 1 and 2 one unit may be faulty, three make a quorum, and the two quorums below share
one unit. -/
theorem quorums_of_five_share_one :
    let R := threeMembers 2 1 2 (by decide)
    R.activeStake = 5 ∧ IsQuorum (Params.sample true) R {0, 1} ∧ IsQuorum (Params.sample true) R {1, 2} ∧
      fFromN (Params.sample true) 5 = .ok 1 ∧ stakeOf R.members ({0, 1} ∩ {1, 2}) = 1 := by
  refine ⟨by decide, ⟨by decide, ⟨3, 2⟩, by decide, by decide⟩, ⟨by decide, ⟨3, 2⟩, by decide, by decide⟩,
    by decide, by decide⟩

end Crosslink.Tenderlink

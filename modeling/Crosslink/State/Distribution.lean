import Crosslink.Staking.Rewards
import Crosslink.State.Chain

/-!
# How the reward of a block is distributed

The reward is paid in two passes over a hash map: the first finds the largest active bond and the sum of all
of them, the second pays every other active bond its share, rounded down, and the largest gets the rest. The
map may be iterated in any order, so the step is stated here over the two orders (`payBlockRewardIn`); what it
does to the bonds and the pools depends on neither (`rewards_distributed_iff`).
-/

namespace Crosslink.Staking

open Codec Fallible List Amount
open Std (ExtTreeMap)

namespace Ledger

variable {checks : Bool} {l l' : Ledger} {bonds bonds' bonds₁ bonds₂ : Bonds} {turns turns' : List (BondKey × DelegationBond)}
  {kb kb' : BondKey × DelegationBond} {record record' : List (BondKey × ℕ)}

/-- The reward step, with the active bonds in the order in which the first and the second pass meet them. -/
def payBlockRewardIn (checks : Bool) (pass₁ pass₂ : List (BondKey × DelegationBond)) (l : Ledger) :
    Except Panic Ledger :=
  match pass₁ with
  | [] => return { l with bondRewards := [] :: l.bondRewards }
  | first :: others => do
    let totalStaked ← others.foldlM (fun sum kb => addU checks 64 sum kb.2.amount.zatoshis.toNat)
      first.2.amount.zatoshis.toNat
    let maxStaker := (others.foldl biggerBond first).1
    let (bonds, soFarPaid, record) ← (pass₂.filter fun kb => kb.1 ≠ maxStaker).foldlM
      (rewardTurn checks totalStaked) (l.delegationBonds, 0, [])
    let reward ← subU checks 64 bondRewardTotal soFarPaid
    let bonds ← payReward bonds maxStaker reward
    let bonded ← ((l.chainValuePools .stakingBonded).add (← Amount.new bondRewardTotal)).mapError fun _ => .unwrap
    return { l with
      delegationBonds := bonds
      chainValuePools := l.chainValuePools.setAmount .stakingBonded bonded
      bondRewards := (record ++ [(maxStaker, reward)]) :: l.bondRewards }

/-! ### Shares -/

def fairShare (turns : List (BondKey × DelegationBond)) (kb : BondKey × DelegationBond) : ℕ :=
  kb.2.amount.zatoshis.toNat * bondRewardTotal / staked turns

def others (key : BondKey) (turns : List (BondKey × DelegationBond)) : List (BondKey × DelegationBond) :=
  turns.filter fun kb => kb.1 ≠ key

def remainder (turns : List (BondKey × DelegationBond)) (key : BondKey) : ℕ :=
  bondRewardTotal - ((others key turns).map (fairShare turns)).sum

theorem staked_perm (h : turns'.Perm turns) : staked turns' = staked turns := (h.map _).sum_eq

theorem perm_cons_others (hnodup : (turns.map Prod.fst).Nodup) (hmem : kb ∈ turns) :
    turns.Perm (kb :: others kb.1 turns) := by
  induction turns with
  | nil => cases hmem
  | cons t turns ih =>
    rw [map_cons, nodup_cons] at hnodup
    by_cases hkey : t.1 = kb.1
    · have hrest : others kb.1 turns = turns := by
        refine filter_eq_self.mpr fun o ho => ?_
        have hne : o.1 ≠ kb.1 := fun heq => hnodup.1 (hkey ▸ heq ▸ mem_map_of_mem ho)
        simpa using hne
      have ht : t = kb := by
        rcases mem_cons.mp hmem with rfl | hmem
        · rfl
        · exact absurd (hkey ▸ mem_map_of_mem hmem) hnodup.1
      rw [others, filter_cons_of_neg (by simpa using hkey), ← others, hrest, ht]
    · have hmem' : kb ∈ turns := (mem_cons.mp hmem).resolve_left fun heq => hkey (by rw [heq])
      rw [others, filter_cons_of_pos (by simpa using hkey), ← others]
      exact ((ih hnodup.2 hmem').cons t).trans (List.Perm.swap _ _ _)

theorem sum_fairShare_le (part turns : List (BondKey × DelegationBond)) :
    (part.map (fairShare turns)).sum ≤ staked part * bondRewardTotal / staked turns := by
  induction part with
  | nil => exact Nat.zero_le _
  | cons t part ih =>
    rw [map_cons, sum_cons, staked_cons, add_mul]
    exact (Nat.add_le_add_left ih _).trans Nat.div_add_div_le_add_div

theorem fairShare_add_others_le (hnodup : (turns.map Prod.fst).Nodup) (hmem : kb ∈ turns) :
    fairShare turns kb + ((others kb.1 turns).map (fairShare turns)).sum ≤ bondRewardTotal := by
  have hperm := perm_cons_others hnodup hmem
  have hall := sum_fairShare_le turns turns
  rw [(hperm.map (fairShare turns)).sum_eq, map_cons, sum_cons] at hall
  exact hall.trans (Nat.div_le_of_le_mul le_rfl)

theorem fairShare_le_remainder (hnodup : (turns.map Prod.fst).Nodup) (hmem : kb ∈ turns) :
    fairShare turns kb ≤ remainder turns kb.1 := by
  have := fairShare_add_others_le hnodup hmem
  unfold remainder
  omega

/-! ### The largest bond -/

/-- The largest of some bonds; among equals the one with the smallest key. -/
def IsLargest (turns : List (BondKey × DelegationBond)) (kb : BondKey × DelegationBond) : Prop :=
  kb ∈ turns ∧ ∀ o ∈ turns, o.2.amount.zatoshis < kb.2.amount.zatoshis ∨
    o.2.amount.zatoshis = kb.2.amount.zatoshis ∧ kb.1 ≤ o.1

theorem foldl_biggerBond_isLargest (first : BondKey × DelegationBond) (turns : List (BondKey × DelegationBond)) :
    IsLargest (first :: turns) (turns.foldl biggerBond first) := by
  refine ⟨foldl_biggerBond_mem first turns, ?_⟩
  induction turns using List.reverseRecOn with
  | nil => simp
  | append_singleton turns t ih =>
    rw [foldl_append, foldl_cons, foldl_nil]
    intro o ho
    rw [← cons_append, mem_append, mem_singleton] at ho
    generalize turns.foldl biggerBond first = best at ih ⊢
    unfold biggerBond
    split_ifs with hbigger
    · rcases ho with ho | rfl
      · rcases hbigger with hlt | ⟨heq, hkey⟩ <;> rcases ih o ho with hlt' | ⟨heq', hkey'⟩
        · exact .inl (by omega)
        · exact .inl (by omega)
        · exact .inl (by omega)
        · exact .inr ⟨by omega, hkey.le.trans hkey'⟩
      · exact .inr ⟨rfl, le_rfl⟩
    · rcases ho with ho | rfl
      · exact ih o ho
      · rw [not_or, not_and, not_lt, not_lt] at hbigger
        rcases hbigger.1.lt_or_eq with hlt | heq
        · exact .inl hlt
        · exact .inr ⟨heq, hbigger.2 heq⟩

theorem IsLargest.unique (hnodup : (turns.map Prod.fst).Nodup) (h : IsLargest turns kb) (h' : IsLargest turns kb') :
    kb = kb' := by
  have hkey : kb.1 = kb'.1 := by
    rcases h.2 kb' h'.1 with hlt | ⟨heq, hle⟩ <;> rcases h'.2 kb h.1 with hlt' | ⟨heq', hle'⟩
    · omega
    · omega
    · omega
    · exact le_antisymm hle hle'
  exact inj_on_of_nodup_map hnodup h.1 h'.1 hkey

theorem IsLargest.perm (h : IsLargest turns' kb) (hperm : turns'.Perm turns) : IsLargest turns kb :=
  ⟨hperm.mem_iff.mp h.1, fun o ho => h.2 o (hperm.mem_iff.mpr ho)⟩

theorem IsLargest.amount_le (h : IsLargest turns kb) (hmem : kb' ∈ turns) :
    kb'.2.amount.zatoshis ≤ kb.2.amount.zatoshis := by
  rcases h.2 kb' hmem with hlt | ⟨heq, -⟩
  · exact hlt.le
  · exact heq.le

theorem IsLargest.add_fairShare_le (hnodup : (turns.map Prod.fst).Nodup) (h : IsLargest turns kb) (hmem : kb' ∈ turns) :
    kb'.2.amount.zatoshis + fairShare turns kb' ≤ kb.2.amount.zatoshis + remainder turns kb.1 := by
  have hamount := h.amount_le hmem
  have hshare : fairShare turns kb' ≤ fairShare turns kb :=
    Nat.div_le_div_right (Nat.mul_le_mul_right _ (Int.toNat_le_toNat hamount))
  have hrest := fairShare_le_remainder hnodup h.1
  omega

/-! ### The two passes -/

theorem foldlM_addU_ok (h : start + staked turns < 2 ^ 64) :
    turns.foldlM (fun sum kb => addU checks 64 sum kb.2.amount.zatoshis.toNat) start = .ok (start + staked turns) := by
  induction turns generalizing start with
  | nil => rfl
  | cons t turns ih =>
    rw [staked_cons] at h ⊢
    rw [foldlM_cons, addU_ok (by omega), ok_bind, ih (by omega), Nat.add_assoc]

theorem lt_of_foldlM_addU (hstart : start < 2 ^ 64)
    (h : turns.foldlM (fun sum kb => addU true 64 sum kb.2.amount.zatoshis.toNat) start = .ok total) :
    start + staked turns < 2 ^ 64 := by
  induction turns generalizing start with
  | nil => exact hstart
  | cons t turns ih =>
    obtain ⟨next, hnext, h⟩ := foldlM_cons_eq_ok.mp h
    have hlt : start + t.2.amount.zatoshis.toNat < 2 ^ 64 := by
      by_contra hge
      rw [addU_overflow (by omega)] at hnext
      cases hnext
    rw [addU_ok hlt] at hnext
    obtain rfl := Except.ok.inj hnext
    have := ih hlt h
    rw [staked_cons]
    omega

theorem payReward_ok {reward : ℕ} (hbond : bonds[key]? = some (bond, status))
    (hfit : bond.amount.zatoshis + reward ≤ maxMoney) :
    ∃ bonds', payReward bonds key reward = .ok bonds' := by
  have hnonneg := bond.amount.zatoshis_nonneg
  have hle : (reward : ℤ) ≤ maxMoney := by omega
  have hreward : new (asI64 reward) = .ok ⟨reward, Int.natCast_nonneg _, hle⟩ := by
    rw [new_eq_ok, asI64_of_le hle]
  let amount : Amount .nonNegative := ⟨bond.amount.zatoshis + reward, by simp only [Constraint.low]; omega, hfit⟩
  have hadd : bond.amount.add ⟨reward, Int.natCast_nonneg _, hle⟩ = .ok amount := add_eq_ok.mpr rfl
  refine ⟨bonds.insert key ({ bond with amount }, status), ?_⟩
  simp only [payReward, hbond, unwrap, ok_bind, hreward, hadd]
  rfl

theorem share_snd_le (turns : List (BondKey × DelegationBond)) (kb : BondKey × DelegationBond) :
    (share (staked turns) kb).2 ≤ fairShare turns kb := by
  unfold share fairShare
  exact Nat.mod_le _ _

theorem rewardTurn_ok (hpos : staked turns ≠ 0) (hlt : s.2.1 + fairShare turns kb < 2 ^ 64)
    (hpay : payReward s.1 kb.1 (fairShare turns kb) = .ok bonds') :
    rewardTurn checks (staked turns) s kb =
      .ok (bonds', s.2.1 + fairShare turns kb, s.2.2 ++ [(kb.1, fairShare turns kb)]) := by
  have hmod : kb.2.amount.zatoshis.toNat * bondRewardTotal / staked turns % 2 ^ 64 = fairShare turns kb := by
    rw [← fairShare, Nat.mod_eq_of_lt (by omega)]
  rw [rewardTurn, if_neg hpos]
  dsimp only
  rw [hmod, addU_ok hlt, ok_bind, hpay]
  rfl

theorem sum_share_le (turns part : List (BondKey × DelegationBond)) :
    ((part.map (share (staked turns))).map Prod.snd).sum ≤ (part.map (fairShare turns)).sum := by
  induction part with
  | nil => exact Nat.zero_le _
  | cons t part ih =>
    simp only [map_cons, sum_cons]
    exact add_le_add (share_snd_le turns t) ih

theorem rewardTurns_ok (hnodup : (part.map Prod.fst).Nodup) (hpos : part ≠ [] → staked turns ≠ 0)
    (hbonds : ∀ kb ∈ part, ∃ status, bonds[kb.1]? = some (kb.2, status))
    (hfit : ∀ kb ∈ part, kb.2.amount.zatoshis + fairShare turns kb ≤ maxMoney)
    (hsum : (part.map (fairShare turns)).sum < 2 ^ 64) :
    ∃ s, part.foldlM (rewardTurn checks (staked turns)) (bonds, 0, []) = .ok s := by
  induction part using List.reverseRecOn with
  | nil => exact ⟨_, rfl⟩
  | append_singleton part kb ih =>
    rw [map_append, nodup_append'] at hnodup
    rw [map_append, sum_append, map_singleton, sum_singleton] at hsum
    have hmem {o : BondKey × DelegationBond} (ho : o ∈ part) : o ∈ part ++ [kb] := mem_append_left _ ho
    obtain ⟨s, hs⟩ := ih hnodup.1 (fun _ => hpos (by simp)) (fun o ho => hbonds o (hmem ho))
      (fun o ho => hfit o (hmem ho)) (by omega)
    have hdone := rewardTurns hnodup.1 hs
    have hkb : kb ∈ part ++ [kb] := by simp
    -- the bond has not been paid yet
    have hkey : kb.1 ∉ s.2.2.map Prod.fst := by
      intro h
      rw [hdone.record, map_fst_share] at h
      exact hnodup.2.2 h (by simp)
    obtain ⟨status, hstatus⟩ := hbonds kb hkb
    obtain ⟨bonds', hpay⟩ := payReward_ok ((hdone.paid.frame kb.1 hkey).trans hstatus) (hfit kb hkb)
    have hrecord : (s.2.2.map Prod.snd).sum ≤ (part.map (fairShare turns)).sum :=
      hdone.record ▸ sum_share_le turns part
    have hsoFar : s.2.1 ≤ (s.2.2.map Prod.snd).sum := by
      rw [hdone.sum]
      exact Nat.mod_le _ _
    have hturn : rewardTurn checks (staked turns) s kb = .ok _ := rewardTurn_ok (hpos (by simp)) (by omega) hpay
    exact ⟨_, foldlM_append_eq_ok.mpr ⟨s, hs, foldlM_cons_eq_ok.mpr ⟨_, hturn, foldlM_nil_eq_ok.mpr rfl⟩⟩⟩

/-- The rewards by bond: the share of every other one, and the rest for the one under `key`. -/
def rewardRecord (turns : List (BondKey × DelegationBond)) (key : BondKey) : List (BondKey × ℕ) :=
  (others key turns).map (fun kb => (kb.1, fairShare turns kb)) ++ [(key, remainder turns key)]

theorem mem_rewardRecord :
    kr ∈ rewardRecord turns key ↔
      (∃ o ∈ turns, o.1 ≠ key ∧ kr = (o.1, fairShare turns o)) ∨ kr = (key, remainder turns key) := by
  rw [rewardRecord, mem_append, mem_map, mem_singleton]
  refine or_congr_left (exists_congr fun o => ?_)
  rw [others, mem_filter, decide_eq_true_iff, and_assoc, eq_comm (a := kr)]

theorem sum_rewardRecord (hnodup : (turns.map Prod.fst).Nodup) (hmem : kb ∈ turns) :
    ((rewardRecord turns kb.1).map Prod.snd).sum = bondRewardTotal := by
  have hle := fairShare_add_others_le hnodup hmem
  rw [rewardRecord, map_append, sum_append, map_map]
  have hshares : ((others kb.1 turns).map (Prod.snd ∘ fun o => (o.1, fairShare turns o))).sum =
      ((others kb.1 turns).map (fairShare turns)).sum := rfl
  rw [hshares, map_singleton, sum_singleton, remainder]
  omega

theorem Paid.unique (h₁ : Paid bonds record bonds₁) (h₂ : Paid bonds record' bonds₂) (hperm : record.Perm record') :
    bonds₁ = bonds₂ := by
  refine ExtTreeMap.ext_getElem? fun k => ?_
  by_cases hk : k ∈ record.map Prod.fst
  · obtain ⟨kr, hkr, rfl⟩ := mem_map.mp hk
    obtain ⟨bond, status, amount, hbond, hbond₁, hamount⟩ := h₁.paid kr hkr
    obtain ⟨bond', status', amount', hbond', hbond₂, hamount'⟩ := h₂.paid kr (hperm.mem_iff.mp hkr)
    obtain ⟨rfl, rfl⟩ := Prod.mk.inj (Option.some.inj (hbond.symm.trans hbond'))
    rw [hbond₁, hbond₂, show amount = amount' from Amount.ext (hamount.trans hamount'.symm)]
  · rw [h₁.frame k hk, h₂.frame k fun hk' => hk ((hperm.map Prod.fst).mem_iff.mpr hk')]

/-! ### When the reward can be paid -/

/-- The sum of the active bonds fits in 64 bits, no share is a division by zero, and neither the largest bond
nor the pool exceeds the limit for amounts. -/
structure Payable (l : Ledger) : Prop where
  sum : staked (activeBonds l.delegationBonds) < 2 ^ 64
  divides : staked (activeBonds l.delegationBonds) ≠ 0 ∨ (activeBonds l.delegationBonds).length = 1
  largest : ∀ kb, IsLargest (activeBonds l.delegationBonds) kb →
    kb.2.amount.zatoshis + remainder (activeBonds l.delegationBonds) kb.1 ≤ maxMoney
  pool : (l.chainValuePools .stakingBonded).zatoshis + bondRewardTotal ≤ maxMoney

/-- What the reward of a block should do to the bonds and the pools. -/
structure Distributed (l : Ledger) (biggest : BondKey × DelegationBond) (bonds : Bonds)
    (pools : ValueBalance .nonNegative) : Prop where
  largest : IsLargest (activeBonds l.delegationBonds) biggest
  rest : fairShare (activeBonds l.delegationBonds) biggest ≤ remainder (activeBonds l.delegationBonds) biggest.1
  paid : ∀ o ∈ activeBonds l.delegationBonds, ∃ amount, bonds[o.1]? = some ({ o.2 with amount }, .active) ∧
    amount.zatoshis = o.2.amount.zatoshis + if o.1 = biggest.1 then remainder (activeBonds l.delegationBonds) o.1
      else fairShare (activeBonds l.delegationBonds) o
  frame : ∀ k : BondKey, (∀ bond, l.delegationBonds[k]? ≠ some (bond, .active)) → bonds[k]? = l.delegationBonds[k]?
  bonded : stakeTotal BondStatusInChain.active bonds = stakeTotal BondStatusInChain.active l.delegationBonds + bondRewardTotal
  pool : (pools .stakingBonded).zatoshis = (l.chainValuePools .stakingBonded).zatoshis + bondRewardTotal
  pools : ∀ p, p ≠ .stakingBonded → pools p = l.chainValuePools p

def rewarded (l : Ledger) (bonds : Bonds) (bonded : Amount .nonNegative) (record : List (BondKey × ℕ)) : Ledger :=
  { l with
    delegationBonds := bonds
    chainValuePools := l.chainValuePools.setAmount .stakingBonded bonded
    bondRewards := record :: l.bondRewards }

theorem others_eq_nil (h : turns.length = 1) (hmem : kb ∈ turns) : others kb.1 turns = [] := by
  obtain ⟨t, rfl⟩ := length_eq_one_iff.mp h
  obtain rfl := mem_singleton.mp hmem
  simp [others]

theorem sum_others_le (hnodup : (turns.map Prod.fst).Nodup) (hmem : kb ∈ turns) :
    ((others kb.1 turns).map (fairShare turns)).sum ≤ bondRewardTotal :=
  (Nat.le_add_left _ _).trans (fairShare_add_others_le hnodup hmem)

theorem map_share_eq {part : List (BondKey × DelegationBond)} (h : (part.map (fairShare turns)).sum < 2 ^ 64) :
    part.map (share (staked turns)) = part.map fun kb => (kb.1, fairShare turns kb) := by
  refine map_congr_left fun o ho => ?_
  have hle := single_le_sum (fun _ _ => Nat.zero_le _) (fairShare turns o) (mem_map_of_mem ho)
  unfold share
  rw [← fairShare, Nat.mod_eq_of_lt (by omega)]

theorem Payable.payOthers (checks : Bool) (h : Payable l) (h₂ : pass₂.Perm (activeBonds l.delegationBonds))
    (hlargest : IsLargest (activeBonds l.delegationBonds) kb) :
    ∃ bonds record, (others kb.1 pass₂).foldlM (rewardTurn checks (staked (activeBonds l.delegationBonds)))
        (l.delegationBonds, 0, []) = .ok (bonds, (record.map Prod.snd).sum, record) ∧
      Paid l.delegationBonds record bonds ∧
      record.Perm ((others kb.1 (activeBonds l.delegationBonds)).map fun o =>
        (o.1, fairShare (activeBonds l.delegationBonds) o)) := by
  have hnodup := activeBonds_nodup l.delegationBonds
  have hperm : (others kb.1 pass₂).Perm (others kb.1 (activeBonds l.delegationBonds)) := h₂.filter _
  have hmem {o : BondKey × DelegationBond} (ho : o ∈ others kb.1 pass₂) : o ∈ activeBonds l.delegationBonds :=
    mem_of_mem_filter (hperm.mem_iff.mp ho)
  have hpartNodup : ((others kb.1 pass₂).map Prod.fst).Nodup :=
    ((hperm.map Prod.fst).nodup_iff).mpr ((filter_sublist.map _).nodup hnodup)
  have hsum : ((others kb.1 pass₂).map (fairShare (activeBonds l.delegationBonds))).sum < 2 ^ 64 := by
    rw [(hperm.map _).sum_eq]
    exact (sum_others_le hnodup hlargest.1).trans_lt (by decide)
  have hpos : others kb.1 pass₂ ≠ [] → staked (activeBonds l.delegationBonds) ≠ 0 := by
    intro hne hzero
    have hone := h.divides.resolve_left (not_not.mpr hzero)
    exact hne (List.Perm.eq_nil (others_eq_nil hone hlargest.1 ▸ hperm))
  obtain ⟨⟨bonds, soFar, record⟩, hs⟩ : ∃ s, (others kb.1 pass₂).foldlM
      (rewardTurn checks (staked (activeBonds l.delegationBonds))) (l.delegationBonds, 0, []) = .ok s :=
    rewardTurns_ok hpartNodup hpos (fun o ho => ⟨.active, mem_activeBonds.mp (hmem ho)⟩)
      (fun o ho => (hlargest.add_fairShare_le hnodup (hmem ho)).trans (h.largest kb hlargest)) hsum
  have hdone := rewardTurns hpartNodup hs
  have hrecord : record = _ := hdone.record.trans (map_share_eq hsum)
  have hsoFar : soFar = (record.map Prod.snd).sum := by
    have hmod : soFar = (record.map Prod.snd).sum % 2 ^ 64 := hdone.sum
    rw [hmod, Nat.mod_eq_of_lt]
    rwa [hrecord, map_map]
  exact ⟨bonds, record, hsoFar ▸ hs, hdone.paid, hrecord ▸ hperm.map _⟩

theorem Payable.pay (checks : Bool) (h : Payable l) (h₁ : pass₁.Perm (activeBonds l.delegationBonds))
    (h₂ : pass₂.Perm (activeBonds l.delegationBonds)) (hlargest : IsLargest (activeBonds l.delegationBonds) kb) :
    ∃ bonds bonded record, payBlockRewardIn checks pass₁ pass₂ l = .ok (rewarded l bonds bonded record) ∧
      bonded.zatoshis = (l.chainValuePools .stakingBonded).zatoshis + bondRewardTotal ∧
      record.Perm (rewardRecord (activeBonds l.delegationBonds) kb.1) ∧ Paid l.delegationBonds record bonds := by
  have hnodup := activeBonds_nodup l.delegationBonds
  obtain ⟨first, rest, rfl⟩ := exists_cons_of_ne_nil (ne_nil_of_mem (h₁.mem_iff.mpr hlargest.1))
  have hmax : rest.foldl biggerBond first = kb :=
    ((foldl_biggerBond_isLargest first rest).perm h₁).unique hnodup hlargest
  have hstaked : rest.foldlM (fun sum kb => addU checks 64 sum kb.2.amount.zatoshis.toNat) first.2.amount.zatoshis.toNat =
      .ok (staked (activeBonds l.delegationBonds)) := by
    rw [← staked_perm h₁]
    exact foldlM_addU_ok (by rw [← staked_cons, staked_perm h₁]; exact h.sum)
  obtain ⟨bonds₁, record, hturns, hpaid, hrecord⟩ := h.payOthers checks h₂ hlargest
  have hsum : (record.map Prod.snd).sum = ((others kb.1 (activeBonds l.delegationBonds)).map
      (fairShare (activeBonds l.delegationBonds))).sum := by
    rw [(hrecord.map Prod.snd).sum_eq, map_map]
    rfl
  have hreward : subU checks 64 bondRewardTotal (record.map Prod.snd).sum =
      .ok (remainder (activeBonds l.delegationBonds) kb.1) := by
    rw [subU_ok (hsum ▸ sum_others_le hnodup hlargest.1), hsum, remainder]
  have hkey : kb.1 ∉ record.map Prod.fst := by
    intro hmem
    obtain ⟨kr, hkr, heq⟩ := mem_map.mp hmem
    obtain ⟨o, ho, rfl⟩ := mem_map.mp (hrecord.mem_iff.mp hkr)
    exact absurd heq (by simpa using (mem_filter.mp ho).2)
  have hbond : bonds₁[kb.1]? = some (kb.2, .active) := (hpaid.frame kb.1 hkey).trans (mem_activeBonds.mp hlargest.1)
  obtain ⟨bonds, hpay⟩ := payReward_ok hbond (h.largest kb hlargest)
  let reward : Amount .nonNegative := ⟨bondRewardTotal, by decide, by decide⟩
  let bonded : Amount .nonNegative := ⟨(l.chainValuePools .stakingBonded).zatoshis + bondRewardTotal,
    add_nonneg (zatoshis_nonneg _) (by decide), h.pool⟩
  have hnew : new bondRewardTotal = .ok reward := new_eq_ok.mpr rfl
  have hbonded : (l.chainValuePools .stakingBonded).add reward = .ok bonded := add_eq_ok.mpr rfl
  refine ⟨bonds, bonded, record ++ [(kb.1, remainder (activeBonds l.delegationBonds) kb.1)], ?_, rfl,
    hrecord.append_right _, hpaid.snoc hkey hpay ?_⟩
  · simp only [payBlockRewardIn, hstaked, ok_bind, hmax]
    rw [← others, hturns, ok_bind]
    simp only [hreward, ok_bind, hpay, hnew, hbonded]
    rfl
  · exact (Nat.sub_le _ _).trans_lt (by decide)

theorem rewardTurn_zero : rewardTurn checks 0 s kb = .error .divide := if_pos rfl

theorem sum_and_divides_of_pay (h : payBlockRewardIn true turns turns l = .ok l') (hnodup : (turns.map Prod.fst).Nodup)
    (hmem : kb ∈ turns) : staked turns < 2 ^ 64 ∧ (staked turns ≠ 0 ∨ turns.length = 1) := by
  obtain ⟨first, rest, rfl⟩ := exists_cons_of_ne_nil (ne_nil_of_mem hmem)
  obtain ⟨total, hstaked, h⟩ := bind_eq_ok.mp h
  obtain ⟨s, hturns, -⟩ := bind_eq_ok.mp h
  have hfirst : first.2.amount.zatoshis.toNat < 2 ^ 64 := by
    have hmax : first.2.amount.zatoshis ≤ 2100000000000000 := first.2.amount.le_max
    omega
  have hsum := lt_of_foldlM_addU hfirst hstaked
  have htotal := foldlM_addU hstaked hsum
  rw [← staked_cons] at hsum htotal
  refine ⟨hsum, or_iff_not_imp_left.mpr fun hzero => ?_⟩
  rw [htotal, not_not.mp hzero] at hturns
  -- a turn would divide by zero, so there is none
  have hmax := (foldl_biggerBond_isLargest first rest).1
  have hnone : others (rest.foldl biggerBond first).1 (first :: rest) = [] := by
    refine eq_nil_iff_forall_not_mem.mpr fun o ho => ?_
    obtain ⟨s₁, s₂, hturn⟩ := foldlM_turn hturns ho
    rw [rewardTurn_zero] at hturn
    cases hturn
  rw [(perm_cons_others hnodup hmax).length_eq, hnone, length_singleton]

theorem distributed_of_paid (hlargest : IsLargest (activeBonds l.delegationBonds) kb)
    (hpaid : Paid l.delegationBonds record bonds)
    (hrecord : record.Perm (rewardRecord (activeBonds l.delegationBonds) kb.1))
    (hbonded : bonded.zatoshis = (l.chainValuePools .stakingBonded).zatoshis + bondRewardTotal) :
    Distributed l kb bonds (l.chainValuePools.setAmount .stakingBonded bonded) := by
  have hnodup := activeBonds_nodup l.delegationBonds
  have hactive : ∀ kr ∈ record, ∃ bond, l.delegationBonds[kr.1]? = some (bond, .active) := by
    intro kr hkr
    rcases mem_rewardRecord.mp (hrecord.mem_iff.mp hkr) with ⟨o, ho, -, rfl⟩ | rfl
    · exact ⟨o.2, mem_activeBonds.mp ho⟩
    · exact ⟨kb.2, mem_activeBonds.mp hlargest.1⟩
  refine ⟨hlargest, fairShare_le_remainder hnodup hlargest.1, fun o ho => ?_, fun k hk => ?_, ?_, ?_, fun p hp => ?_⟩
  · obtain ⟨reward, hmem, hreward⟩ : ∃ reward, (o.1, reward) ∈ record ∧ reward = if o.1 = kb.1 then
        remainder (activeBonds l.delegationBonds) o.1 else fairShare (activeBonds l.delegationBonds) o := by
      refine ⟨_, hrecord.mem_iff.mpr (mem_rewardRecord.mpr ?_), rfl⟩
      split_ifs with hkey
      · exact .inr (by rw [hkey])
      · exact .inl ⟨o, ho, hkey, rfl⟩
    obtain ⟨bond, status, amount, hbond, hbond', hamount⟩ := hpaid.paid _ hmem
    have hsame := Option.some.inj (hbond.symm.trans (mem_activeBonds.mp ho))
    obtain ⟨rfl, rfl⟩ := Prod.mk.inj hsame
    exact ⟨amount, hbond', by rw [hamount, ← hreward]⟩
  · refine hpaid.frame k fun hmem => ?_
    obtain ⟨kr, hkr, rfl⟩ := mem_map.mp hmem
    obtain ⟨bond, hbond⟩ := hactive kr hkr
    exact hk bond hbond
  · rw [hpaid.stakeTotal_eq hactive, if_pos rfl, (hrecord.map Prod.snd).sum_eq, sum_rewardRecord hnodup hlargest.1]
  · rw [ValueBalance.setAmount, Function.update_self, hbonded]
  · exact Function.update_of_ne hp _ _

/-- With an active bond, the reward is distributed, in both builds and whatever the orders of iteration, exactly
when the sum of the active bonds is a 64-bit number other than zero (or there is only one such bond) and the
largest bond with its reward and the pool with the reward stay within the limit for amounts. -/
theorem rewards_distributed_iff (hactive : ∃ (key : BondKey) (bond : DelegationBond), l.delegationBonds[key]? = some (bond, .active)) :
    (∃ biggest bonds pools, Distributed l biggest bonds pools ∧ ∀ checks pass₁ pass₂,
      pass₁.Perm (activeBonds l.delegationBonds) → pass₂.Perm (activeBonds l.delegationBonds) →
      ∃ record, record.Perm (rewardRecord (activeBonds l.delegationBonds) biggest.1) ∧
        payBlockRewardIn checks pass₁ pass₂ l = .ok { l with
          delegationBonds := bonds
          chainValuePools := pools
          bondRewards := record :: l.bondRewards }) ↔ Payable l := by
  have hnodup := activeBonds_nodup l.delegationBonds
  constructor
  · rintro ⟨kb, bonds, pools, hd, hall⟩
    obtain ⟨record, -, hpay⟩ := hall true _ _ (List.Perm.refl _) (List.Perm.refl _)
    obtain ⟨hsum, hdivides⟩ := sum_and_divides_of_pay hpay hnodup hd.largest.1
    refine ⟨hsum, hdivides, fun kb' hkb' => ?_, hd.pool ▸ (pools .stakingBonded).le_max⟩
    obtain rfl := hd.largest.unique hnodup hkb'
    obtain ⟨amount, -, hamount⟩ := hd.paid kb hd.largest.1
    rw [if_pos rfl] at hamount
    exact hamount ▸ amount.le_max
  · intro h
    obtain ⟨key, bond, hbond⟩ := hactive
    obtain ⟨first, rest, hcons⟩ := exists_cons_of_ne_nil (ne_nil_of_mem (mem_activeBonds.mpr hbond))
    have hlargest : IsLargest (activeBonds l.delegationBonds) (rest.foldl biggerBond first) :=
      hcons ▸ foldl_biggerBond_isLargest first rest
    obtain ⟨bonds, bonded, record, -, hbonded, hrecord, hpaid⟩ :=
      h.pay true (List.Perm.refl _) (List.Perm.refl _) hlargest
    refine ⟨_, bonds, _, distributed_of_paid hlargest hpaid hrecord hbonded, fun checks pass₁ pass₂ h₁ h₂ => ?_⟩
    obtain ⟨bonds', bonded', record', hpay', hbonded', hrecord', hpaid'⟩ := h.pay checks h₁ h₂ hlargest
    obtain rfl := hpaid.unique hpaid' (hrecord.trans hrecord'.symm)
    obtain rfl : bonded = bonded' := Amount.ext (hbonded.trans hbonded'.symm)
    exact ⟨record', hrecord', hpay'⟩

end Ledger

end Crosslink.Staking

namespace Crosslink.State

open Codec Fallible Staking

def twoActiveBonds : Ledger := (Chain.new (sampleDb 10 .active [(1, 300), (2, 700)])).toLedger

theorem rewards_distributed_twoActiveBonds : ∃ biggest bonds pools,
    Ledger.Distributed twoActiveBonds biggest bonds pools := by
  have hfits : ∀ kb ∈ Ledger.activeBonds twoActiveBonds.delegationBonds, kb.2.amount.zatoshis +
      Ledger.remainder (Ledger.activeBonds twoActiveBonds.delegationBonds) kb.1 ≤ maxMoney := by decide +kernel
  have hbond : (bytesNo 32 1, ⟨zats 300, bytesNo 32 0, ⟨1, 1⟩⟩) ∈ Ledger.activeBonds twoActiveBonds.delegationBonds := by
    decide +kernel
  have hpayable : Ledger.Payable twoActiveBonds :=
    ⟨by decide +kernel, .inl (by decide +kernel), fun kb hkb => hfits kb hkb.1, by decide +kernel⟩
  obtain ⟨biggest, bonds, pools, h, -⟩ :=
    (Ledger.rewards_distributed_iff ⟨_, _, Ledger.mem_activeBonds.mp hbond⟩).mpr hpayable
  exact ⟨biggest, bonds, pools, h⟩

def createTwoEmpty : Offer := ⟨sampleDb 149 .active [],
  sampleBlock 150 [stakingTx .createNewDelegationBond 1 0, stakingTx .createNewDelegationBond 2 0], Table.empty⟩

/-- The validator lets the block pass, and pushing it divides by the sum of the two bonds. -/
theorem empty_bonds_divide_by_zero :
    (Chain.new createTwoEmpty.db).accept true createTwoEmpty = .error (.panic .divide) ∧
    (Chain.new createTwoEmpty.db).accept false createTwoEmpty = .error (.panic .divide) :=
  ⟨errorOf_eq_some.mp (by decide +kernel), errorOf_eq_some.mp (by decide +kernel)⟩

end Crosslink.State

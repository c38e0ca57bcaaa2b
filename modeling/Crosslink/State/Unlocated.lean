import Crosslink.State.Storage

/-!
# Bonds without their locations

The location of the last action on a bond is written and never read by the ledger: what a block does to the other
data, the value pools and the records of the block does not depend on it. So the effect of a block is a function on
snapshots without locations (`Snapshot.enter`). Chains that took blocks off again, and the database, keep locations
that are out of date, but agree with this function.
-/

namespace Crosslink.State

open Codec Fallible Staking Ledger
open Std (ExtTreeMap)

/-! ### Forgetting locations -/

def unlocateBond (bond : DelegationBond) : DelegationBond := { bond with createdAt := ⟨0, 0⟩ }

def unlocateEntry (bs : DelegationBond × BondStatusInChain) : DelegationBond × BondStatusInChain :=
  (unlocateBond bs.1, bs.2)

def unlocate (bonds : Bonds) : Bonds := bonds.map fun _ bs => unlocateEntry bs

variable {bonds bonds' : Bonds} {key : BondKey} {bs : DelegationBond × BondStatusInChain}

theorem unlocate_getElem? (bonds : Bonds) (key : BondKey) : (unlocate bonds)[key]? = bonds[key]?.map unlocateEntry :=
  ExtTreeMap.getElem?_map

theorem unlocate_of_getElem? (h : bonds[key]? = some bs) : (unlocate bonds)[key]? = some (unlocateEntry bs) := by
  rw [unlocate_getElem?, h]
  rfl

theorem unlocate_eq_iff : unlocate bonds = unlocate bonds' ↔
    ∀ key : BondKey, bonds[key]?.map unlocateEntry = bonds'[key]?.map unlocateEntry := by
  constructor
  · intro h key
    rw [← unlocate_getElem?, h, unlocate_getElem?]
  · intro h
    refine ExtTreeMap.ext_getElem? fun key => ?_
    rw [unlocate_getElem?, unlocate_getElem?, h key]

theorem unlocate_insert (bonds : Bonds) (key : BondKey) (bs : DelegationBond × BondStatusInChain) :
    unlocate (bonds.insert key bs) = (unlocate bonds).insert key (unlocateEntry bs) := by
  refine ExtTreeMap.ext_getElem? fun k => ?_
  rw [unlocate_getElem?, ExtTreeMap.getElem?_insert, ExtTreeMap.getElem?_insert, unlocate_getElem?]
  split_ifs <;> rfl

theorem stakeTotal_unlocate (status : BondStatusInChain) (bonds : Bonds) :
    stakeTotal status (unlocate bonds) = stakeTotal status bonds := by
  unfold stakeTotal Table.total unlocate
  rw [ExtTreeMap.toList_map, List.map_map]
  rfl

theorem activeBonds_unlocate (bonds : Bonds) :
    Ledger.activeBonds (unlocate bonds) = (Ledger.activeBonds bonds).map fun kb => (kb.1, unlocateBond kb.2) := by
  unfold activeBonds unlocate
  rw [ExtTreeMap.toList_map, List.filterMap_map, List.map_filterMap]
  refine List.filterMap_congr fun kb _ => ?_
  simp only [Function.comp_apply, unlocateEntry]
  split_ifs <;> rfl

def Snapshot.unlocate (s : Snapshot) : Snapshot := ⟨State.unlocate s.bonds, s.pools⟩

/-! ### The actions of a block -/

def bare (l : Ledger) : Ledger where
  delegationBonds := unlocate l.delegationBonds
  bondRewards := []
  bondRetargets := l.bondRetargets.take 1
  chainValuePools := l.chainValuePools
  blockInfoByHeight := Table.empty

variable {l l' : Ledger} {action : StakingAction} {location : TransactionLocation} {checks : Bool}

theorem Acts.bare (h : l.Acts action location l') : (bare l).Acts action ⟨0, 0⟩ (bare l') := by
  cases h with
  | create amount hk hamount hnew =>
    unfold State.bare
    rw [unlocate_insert]
    exact .create amount hk hamount ((unlocate_getElem? _ _).trans (by rw [hnew]; rfl))
  | unbond bond status bonded unbonded hk hbond hbonded hunbonded =>
    unfold State.bare
    rw [unlocate_insert]
    exact .unbond (unlocateBond bond) status bonded unbonded hk (unlocate_of_getElem? hbond) hbonded hunbonded
  | withdraw bond status hk hbond =>
    unfold State.bare
    rw [unlocate_insert]
    exact .withdraw (unlocateBond bond) status hk (unlocate_of_getElem? hbond)
  | retarget bond status retargets hk hbond hretargets =>
    obtain ⟨rest, hrest⟩ := List.head?_eq_some_iff.mp hretargets
    have hact : (bare l).Acts action ⟨0, 0⟩ _ := .retarget (unlocateBond bond) status retargets hk
      (unlocate_of_getElem? hbond) (by rw [bare, hrest]; rfl)
    simp only [bare, hrest, unlocate_insert] at hact ⊢
    exact hact
  | other hk => exact .other hk

/-- What a block leaves in the records of a chain. -/
structure Entry where
  record : List (BondKey × ℕ)
  retargets : ExtTreeMap BondKey (Bytes 32)
  info : BlockInfo

def Snapshot.openLedger (s : Snapshot) : Ledger := ⟨s.bonds, [], [∅], s.pools, Table.empty⟩

def Snapshot.enter (checks : Bool) (s : Snapshot) (b : ContextuallyVerifiedBlock) :
    Except (Stop ValidateContextError) (Entry × Snapshot) := do
  let l ← b.actions.foldlM (fun l a => l.updateChainTipWithDelegationBond a.1 ⟨0, 0⟩) s.openLedger
  let retargets := l.bondRetargets.head?.getD ∅
  let pools ← (l.chainValuePools.addChainValuePoolChange b.poolChange).mapError fun e => .error (.addValuePool e)
  let l ← ({ l with chainValuePools := pools }.payBlockReward checks).mapError .panic
  return (⟨l.bondRewards.head?.getD [], retargets, ⟨pools, b.size % 2 ^ 32⟩⟩, ⟨l.delegationBonds, l.chainValuePools⟩)

theorem actAll_bare (h : actAll height l actions = .ok l') :
    actions.foldlM (fun l a => l.updateChainTipWithDelegationBond a.1 ⟨0, 0⟩) (bare l) = .ok (bare l') := by
  refine foldlM_project (π := bare) (fun l a l' hstep => ?_) h
  exact updateChainTipWithDelegationBond_eq_ok.mpr
    (Acts.bare (updateChainTipWithDelegationBond_eq_ok.mp hstep))

/-! ### The reward -/

theorem payReward_unlocate (h : Ledger.payReward bonds key reward = .ok bonds') :
    Ledger.payReward (unlocate bonds) key reward = .ok (unlocate bonds') := by
  unfold payReward at h ⊢
  obtain ⟨⟨bond, status⟩, hbond, h⟩ := bind_eq_ok.mp h
  obtain ⟨a, ha, h⟩ := bind_eq_ok.mp h
  obtain ⟨amount, hamount, h⟩ := bind_eq_ok.mp h
  obtain rfl := pure_eq_ok.mp h
  refine bind_eq_ok.mpr ⟨unlocateEntry (bond, status), ?_, ?_⟩
  · rw [unlocate_of_getElem? (unwrap_eq_ok.mp hbond)]
    rfl
  · refine bind_eq_ok.mpr ⟨a, ha, bind_eq_ok.mpr ⟨amount, hamount, ?_⟩⟩
    rw [unlocate_insert]
    rfl

theorem rewardTurn_unlocate (h : Ledger.rewardTurn checks totalStaked s kb = .ok s') :
    Ledger.rewardTurn checks totalStaked (unlocate s.1, s.2) (kb.1, unlocateBond kb.2) = .ok (unlocate s'.1, s'.2) := by
  unfold rewardTurn at h ⊢
  split_ifs at h ⊢ with hzero
  dsimp only at h ⊢
  obtain ⟨soFar, hsoFar, h⟩ := bind_eq_ok.mp h
  obtain ⟨bonds', hpay, h⟩ := bind_eq_ok.mp h
  obtain rfl := pure_eq_ok.mp h
  exact bind_eq_ok.mpr ⟨soFar, hsoFar, bind_eq_ok.mpr ⟨_, payReward_unlocate hpay, rfl⟩⟩

theorem rewardTurns_unlocate {turns : List (BondKey × DelegationBond)}
    (h : turns.foldlM (Ledger.rewardTurn checks totalStaked) s = .ok s') :
    (turns.map fun kb => (kb.1, unlocateBond kb.2)).foldlM (Ledger.rewardTurn checks totalStaked) (unlocate s.1, s.2) =
      .ok (unlocate s'.1, s'.2) := by
  induction turns generalizing s with
  | nil =>
    obtain rfl := foldlM_nil_eq_ok.mp h
    rfl
  | cons kb turns ih =>
    obtain ⟨s₁, h₁, h₂⟩ := foldlM_cons_eq_ok.mp h
    exact foldlM_cons_eq_ok.mpr ⟨_, rewardTurn_unlocate h₁, ih h₂⟩

theorem biggerBond_unlocate (best other : BondKey × DelegationBond) :
    Ledger.biggerBond (best.1, unlocateBond best.2) (other.1, unlocateBond other.2) =
      ((Ledger.biggerBond best other).1, unlocateBond (Ledger.biggerBond best other).2) := by
  unfold biggerBond
  by_cases h : other.2.amount.zatoshis > best.2.amount.zatoshis ∨
      other.2.amount.zatoshis = best.2.amount.zatoshis ∧ other.1 < best.1
  · rw [if_pos h, if_pos (by exact h)]
  · rw [if_neg h, if_neg (by exact h)]

theorem foldl_biggerBond_unlocate (first : BondKey × DelegationBond) (others : List (BondKey × DelegationBond)) :
    (others.map fun kb => (kb.1, unlocateBond kb.2)).foldl Ledger.biggerBond (first.1, unlocateBond first.2) =
      ((others.foldl Ledger.biggerBond first).1, unlocateBond (others.foldl Ledger.biggerBond first).2) := by
  induction others generalizing first with
  | nil => rfl
  | cons other others ih => rw [List.map_cons, List.foldl_cons, List.foldl_cons, biggerBond_unlocate, ih]

theorem payBlockReward_bare (h : l.payBlockReward checks = .ok l') : ∃ record, l'.bondRewards = record :: l.bondRewards ∧
    (bare l).payBlockReward checks = .ok { bare l' with bondRewards := [record] } := by
  have hactive := activeBonds_unlocate l.delegationBonds
  unfold payBlockReward at h ⊢
  rw [show (bare l).delegationBonds = unlocate l.delegationBonds from rfl, hactive]
  split at h
  next hnil =>
    obtain rfl := pure_eq_ok.mp h
    refine ⟨[], rfl, ?_⟩
    rw [hnil]
    rfl
  next first others hcons =>
    rw [hcons, List.map_cons]
    obtain ⟨totalStaked, hstaked, h⟩ := bind_eq_ok.mp h
    dsimp only at h ⊢
    obtain ⟨⟨bonds, soFar, record⟩, hturns, h⟩ := bind_eq_ok.mp h
    obtain ⟨reward, hreward, h⟩ := bind_eq_ok.mp h
    obtain ⟨bonds', hpay, h⟩ := bind_eq_ok.mp h
    obtain ⟨total, htotal, h⟩ := bind_eq_ok.mp h
    obtain ⟨bonded, hbonded, h⟩ := bind_eq_ok.mp h
    obtain rfl := pure_eq_ok.mp h
    refine ⟨_, rfl, ?_⟩
    rw [foldl_biggerBond_unlocate]
    have hfilter : (((first.1, unlocateBond first.2) :: others.map fun kb => (kb.1, unlocateBond kb.2)).filter
        fun kb => kb.1 ≠ (others.foldl biggerBond first).1) =
        ((first :: others).filter fun kb => kb.1 ≠ (others.foldl biggerBond first).1).map
          fun kb => (kb.1, unlocateBond kb.2) := by
      change ((first :: others).map fun kb => (kb.1, unlocateBond kb.2)).filter _ = _
      rw [List.filter_map]
      rfl
    refine bind_eq_ok.mpr ⟨totalStaked, ?_, bind_eq_ok.mpr ⟨(unlocate bonds, soFar, record), ?_, ?_⟩⟩
    · rw [List.foldlM_map]
      exact hstaked
    · rw [hfilter]
      exact rewardTurns_unlocate hturns
    refine bind_eq_ok.mpr ⟨reward, hreward, bind_eq_ok.mpr ⟨_, payReward_unlocate hpay, ?_⟩⟩
    exact bind_eq_ok.mpr ⟨total, htotal, bind_eq_ok.mpr ⟨bonded, hbonded, rfl⟩⟩

/-! ### The effect of a block -/

variable {c c' : Chain} {offer : Offer}

theorem actAll_frame (h : actAll height (openLedger l) actions = .ok l') :
    l'.bondRewards = l.bondRewards ∧ l'.blockInfoByHeight = l.blockInfoByHeight ∧
      ∃ retargets, l'.bondRetargets = retargets :: l.bondRetargets := by
  refine foldlM_induction (R := fun _ l' => l'.bondRewards = l.bondRewards ∧
    l'.blockInfoByHeight = l.blockInfoByHeight ∧ ∃ retargets, l'.bondRetargets = retargets :: l.bondRetargets) h
    ⟨rfl, rfl, ∅, rfl⟩ ?_
  rintro _ x l₁ l₂ ⟨hrewards, hinfo, retargets, hretargets⟩ hstep
  cases updateChainTipWithDelegationBond_eq_ok.mp hstep with
  | retarget bond status retargets' hk hbond hhead => exact ⟨hrewards, hinfo, _, by rw [hretargets]; rfl⟩
  | _ => exact ⟨hrewards, hinfo, retargets, hretargets⟩

def Ledger.snapshot (l : Ledger) : Snapshot := ⟨l.delegationBonds, l.chainValuePools⟩

theorem enter_of_actAll (hact : actAll b.height (openLedger l) b.actions = .ok filled)
    (hclose : Chain.closeLedger checks filled b = .ok l') :
    ∃ e, (Ledger.snapshot l).unlocate.enter checks b = .ok (e, (Ledger.snapshot l').unlocate) ∧
      l'.bondRewards = e.record :: l.bondRewards ∧ l'.bondRetargets = e.retargets :: l.bondRetargets ∧
      l'.blockInfoByHeight = Function.update l.blockInfoByHeight b.height (some e.info) := by
  obtain ⟨hrewards, hinfo, retargets, hretargets⟩ := actAll_frame hact
  have hacts : b.actions.foldlM (fun l a => l.updateChainTipWithDelegationBond a.1 ⟨0, 0⟩)
      (Ledger.snapshot l).unlocate.openLedger = .ok (bare filled) := actAll_bare hact
  unfold Chain.closeLedger Ledger.updateChainValuePools at hclose
  obtain ⟨l₁, h₁, hclose⟩ := bind_eq_ok.mp hclose
  obtain ⟨pools, hpools, h₁⟩ := bind_eq_ok.mp h₁
  obtain rfl := pure_eq_ok.mp h₁
  obtain ⟨record, hrecord, hpay⟩ := payBlockReward_bare (mapError_eq_ok.mp hclose)
  obtain ⟨record', hrewarded⟩ := payBlockReward_eq_ok (mapError_eq_ok.mp hclose)
  refine ⟨⟨record, retargets, ⟨pools, b.size % 2 ^ 32⟩⟩, ?_, ?_, ?_, ?_⟩
  · unfold Snapshot.enter
    refine bind_eq_ok.mpr ⟨_, hacts, bind_eq_ok.mpr ⟨pools, hpools, bind_eq_ok.mpr ⟨_, mapError_eq_ok.mpr hpay, ?_⟩⟩⟩
    have hhead : (bare filled).bondRetargets.head?.getD ∅ = retargets := by
      rw [bare, hretargets]
      rfl
    rw [hhead]
    rfl
  · rw [hrecord, ← hrewards]
  · exact hrewarded.retargets.trans hretargets
  · rw [hrewarded.info, ← hinfo]

theorem Accepted.enter (a : Accepted checks c offer c') : ∃ e,
    c.snapshot.unlocate.enter checks a.block = .ok (e, c'.snapshot.unlocate) ∧
      c'.bondRewards = e.record :: c.bondRewards ∧ c'.bondRetargets = e.retargets :: c.bondRetargets ∧
      c'.blockInfoByHeight = Function.update c.blockInfoByHeight a.block.height (some e.info) := by
  have hact : State.actAll a.block.height (openLedger c.toLedger) a.block.actions = .ok a.filled.toLedger := by
    rw [a.actions_eq.1, a.actions_eq.2]
    exact a.actAll
  exact enter_of_actAll hact a.close_eq

theorem Snapshot.enter_unique {s s₁ s₂ : Snapshot} (h₁ : s.enter checks b = .ok (e₁, s₁))
    (h₂ : s.enter checks b = .ok (e₂, s₂)) : e₁ = e₂ ∧ s₁ = s₂ :=
  Prod.mk.inj (Except.ok.inj (h₁.symm.trans h₂))

/-! ### Taking actions back -/

def unlocateLedger (l : Ledger) : Ledger := { l with delegationBonds := unlocate l.delegationBonds }

theorem revertReward_unlocate (h : l.revertReward kr = .ok l') :
    (unlocateLedger l).revertReward kr = .ok (unlocateLedger l') := by
  unfold revertReward at h ⊢
  obtain ⟨⟨bond, status⟩, hbond, h⟩ := bind_eq_ok.mp h
  obtain ⟨reward, hreward, h⟩ := bind_eq_ok.mp h
  obtain ⟨amount, hamount, h⟩ := bind_eq_ok.mp h
  obtain ⟨bonded, hbonded, h⟩ := bind_eq_ok.mp h
  obtain rfl := pure_eq_ok.mp h
  refine bind_eq_ok.mpr ⟨unlocateEntry (bond, status), unwrap_eq_ok.mpr (unlocate_of_getElem? (unwrap_eq_ok.mp hbond)), ?_⟩
  refine bind_eq_ok.mpr ⟨reward, hreward, bind_eq_ok.mpr ⟨amount, hamount, bind_eq_ok.mpr ⟨bonded, hbonded, ?_⟩⟩⟩
  rw [unlocateLedger, unlocateLedger, unlocate_insert]
  rfl

theorem revertRewards_unlocate (h : l.revertRewards = .ok l') :
    (unlocateLedger l).revertRewards = .ok (unlocateLedger l') := by
  unfold revertRewards at h ⊢
  obtain ⟨rewards, hrewards, h⟩ := bind_eq_ok.mp h
  exact bind_eq_ok.mpr ⟨rewards, hrewards, foldlM_project (fun _ _ _ hstep => revertReward_unlocate hstep) h⟩

theorem revertRetarget_unlocate (h : l.revertRetarget kt = .ok l') :
    (unlocateLedger l).revertRetarget kt = .ok (unlocateLedger l') := by
  unfold revertRetarget at h ⊢
  obtain ⟨⟨bond, status⟩, hbond, h⟩ := bind_eq_ok.mp h
  obtain rfl := pure_eq_ok.mp h
  refine bind_eq_ok.mpr ⟨unlocateEntry (bond, status), unwrap_eq_ok.mpr (unlocate_of_getElem? (unwrap_eq_ok.mp hbond)), ?_⟩
  rw [unlocateLedger, unlocateLedger, unlocate_insert]
  rfl

theorem revertRetargets_unlocate (h : l.revertRetargets = .ok l') :
    (unlocateLedger l).revertRetargets = .ok (unlocateLedger l') := by
  unfold revertRetargets at h ⊢
  obtain ⟨retargets, hretargets, h⟩ := bind_eq_ok.mp h
  exact bind_eq_ok.mpr ⟨retargets, hretargets, foldlM_project (fun _ _ _ hstep => revertRetarget_unlocate hstep) h⟩

/-- What taking back an action does when it does not fail. -/
inductive Reverts (l : Ledger) (action : StakingAction) : Ledger → Prop
  | create (hk : action.kind = .createNewDelegationBond) (hbond : l.delegationBonds[action.arg32_0]? ≠ none) :
      Reverts l action { l with delegationBonds := l.delegationBonds.erase action.arg32_0 }
  | unbond (bond : DelegationBond) (bonded unbonded : Amount .nonNegative)
      (hk : action.kind = .beginDelegationUnbonding)
      (hbond : l.delegationBonds[action.arg32_0]? = some (bond, .unbonding))
      (hbonded : bonded.zatoshis = (l.chainValuePools .stakingBonded).zatoshis + bond.amount.zatoshis)
      (hunbonded : unbonded.zatoshis = (l.chainValuePools .stakingUnbonded).zatoshis - bond.amount.zatoshis) :
      Reverts l action { l with
        delegationBonds := l.delegationBonds.insert action.arg32_0 (bond, .active)
        chainValuePools := (l.chainValuePools.setAmount .stakingBonded bonded).setAmount .stakingUnbonded unbonded }
  | withdraw (bond : DelegationBond) (hk : action.kind = .withdrawDelegationBond)
      (hbond : l.delegationBonds[action.arg32_0]? = some (bond, .withdrawn)) :
      Reverts l action { l with delegationBonds := l.delegationBonds.insert action.arg32_0 (bond, .unbonding) }
  | other (hk : action.kind ≠ .createNewDelegationBond) (hexit : ¬ Exits action) : Reverts l action l

theorem revertDelegationBond_eq_ok (h : l.revertDelegationBond action = .ok l') : Reverts l action l' := by
  unfold revertDelegationBond at h
  dsimp only at h
  split at h
  next hk =>
    obtain ⟨⟨⟩, hbond, h⟩ := bind_eq_ok.mp h
    obtain rfl := pure_eq_ok.mp h
    exact .create hk (Option.isSome_iff_ne_none.mp (ensure_eq_ok.mp hbond))
  next hk =>
    obtain ⟨⟨bond, status⟩, hbond, h⟩ := bind_eq_ok.mp h
    obtain ⟨⟨⟩, hstatus, h⟩ := bind_eq_ok.mp h
    obtain ⟨bonded, hbonded, h⟩ := bind_eq_ok.mp h
    obtain ⟨unbonded, hunbonded, h⟩ := bind_eq_ok.mp h
    obtain rfl := pure_eq_ok.mp h
    obtain rfl : status = .unbonding := ensure_eq_ok.mp hstatus
    exact .unbond bond bonded unbonded hk (unwrap_eq_ok.mp hbond) (Amount.add_eq_ok.mp (mapError_eq_ok.mp hbonded))
      (Amount.sub_eq_ok.mp (mapError_eq_ok.mp hunbonded))
  next hk =>
    obtain ⟨⟨bond, status⟩, hbond, h⟩ := bind_eq_ok.mp h
    obtain ⟨⟨⟩, hstatus, h⟩ := bind_eq_ok.mp h
    obtain rfl := pure_eq_ok.mp h
    obtain rfl : status = .withdrawn := ensure_eq_ok.mp hstatus
    exact .withdraw bond hk (unwrap_eq_ok.mp hbond)
  next hcreate hunbond hwithdraw =>
    obtain rfl := pure_eq_ok.mp h
    exact .other hcreate fun hexit => hexit.elim hunbond hwithdraw

end Crosslink.State

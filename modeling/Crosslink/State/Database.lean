import Crosslink.State.Fork

/-!
# Writing a block to the database

When the lowest block of a chain is finalized, a batch of writes is prepared for it: the bonds that its actions create
or retarget, the statuses of the bonds it unbonds or withdraws, the rewards, and the value pools. The statuses and the
bonds are read from the database before the block, apart from the bonds that the block itself created or retargeted.
The location of a bond is written when it is created and never again.
-/

namespace Crosslink.State

open Codec Fallible Staking List Option
open Std (ExtTreeMap)

/-! ### The batch -/

inductive BatchError where
  | amount (e : AmountError)
  | value (e : ValueBalanceError)
  | notFound (key : BondKey)
  | notActive (key : BondKey)
  | notUnbonding (key : BondKey)
  | notFoundForRetarget (key : BondKey)
  deriving DecidableEq

/-- A batch in preparation. -/
structure BondBatch where
  bondsCreatedInBlock : ExtTreeMap BondKey DelegationBond
  /-- The database with the batch written to it. -/
  written : FinalizedBonds

section Batch

variable (db : FinalizedBonds)

/-- A bond as it is after the actions so far, or as it is in the database. -/
def currentBond (created : ExtTreeMap BondKey DelegationBond) (key : BondKey) : Option DelegationBond :=
  created[key]?.or db.delegationBondByKey[key]?

/-- Changes a status that the database has and that passes a check. -/
def prepareStatus (batch : BondBatch) (key : BondKey) (check : BondStatus → Bool) (e : BatchError)
    (status : BondStatus) : Except BatchError BondBatch :=
  match db.bondStatusByKey[key]? with
  | none => .error (.notFound key)
  | some current =>
    if check current then
      .ok { batch with written := { batch.written with
        bondStatusByKey := batch.written.bondStatusByKey.insert key status } }
    else .error e

def prepareUnbondingDelegationBond (batch : BondBatch) (key : BondKey) (location : TransactionLocation) :
    Except BatchError BondBatch :=
  prepareStatus db batch key BondStatus.isActive (.notActive key) (.unbonding location)

def prepareWithdrawnDelegationBond (batch : BondBatch) (key : BondKey) (location : TransactionLocation) :
    Except BatchError BondBatch :=
  prepareStatus db batch key BondStatus.isUnbonding (.notUnbonding key) (.withdrawn location)

def prepareNewDelegationBond (batch : BondBatch) (key : BondKey) (bond : DelegationBond) : BondBatch where
  bondsCreatedInBlock := batch.bondsCreatedInBlock.insert key bond
  written :=
    { delegationBondByKey := batch.written.delegationBondByKey.insert key bond
      bondStatusByKey := batch.written.bondStatusByKey.insert key .active }

def prepareRetargetDelegationBond (batch : BondBatch) (key : BondKey) (newTarget : Bytes 32) :
    Except BatchError BondBatch :=
  match currentBond db batch.bondsCreatedInBlock key with
  | none => .error (.notFoundForRetarget key)
  | some bond =>
    let bond := { bond with targetFinalizer := newTarget }
    .ok
      { bondsCreatedInBlock := batch.bondsCreatedInBlock.insert key bond
        written := { batch.written with
          delegationBondByKey := batch.written.delegationBondByKey.insert key bond } }

/-- One turn of the loop over the transactions, for the action of one. -/
def prepareAction (height : ℕ) (batch : BondBatch) (a : StakingAction × ℕ) : Except BatchError BondBatch :=
  match a.1.kind with
  | .createNewDelegationBond => do
    let amount ← (Amount.tryFromU64 a.1.amountZats).mapError .amount
    return prepareNewDelegationBond batch a.1.arg32_0 ⟨amount, a.1.arg32_2, ⟨height, a.2⟩⟩
  | .beginDelegationUnbonding => prepareUnbondingDelegationBond db batch a.1.arg32_0 ⟨height, a.2⟩
  | .withdrawDelegationBond => prepareWithdrawnDelegationBond db batch a.1.arg32_0 ⟨height, a.2⟩
  | .retargetDelegationBond => prepareRetargetDelegationBond db batch a.1.arg32_0 a.1.arg32_2
  | _ => .ok batch

/-- A reward is added to the bond as it was before the rewards; a bond that is not found is passed over. -/
def prepareReward (created : ExtTreeMap BondKey DelegationBond) (written : FinalizedBonds) (kr : BondKey × ℕ) :
    Except BatchError FinalizedBonds :=
  match currentBond db created kr.1 with
  | none => .ok written
  | some bond => do
    let reward ← (Amount.tryFrom (asI64 kr.2)).mapError .amount
    let amount ← (bond.amount.add reward).mapError .amount
    return { written with
      delegationBondByKey := written.delegationBondByKey.insert kr.1 { bond with amount } }

def prepareDelegationBondsBatch (popped : Chain.PoppedRoot) : Except BatchError FinalizedBonds := do
  let batch ← popped.block.actions.foldlM (prepareAction db popped.block.height) ⟨∅, db⟩
  popped.bondRewards.foldlM (prepareReward db batch.bondsCreatedInBlock) batch.written

end Batch

/-- Moves the amount of a bond from the bonded to the unbonded pool. -/
def prepareUnbondingAmount (pools : ValueBalance .nonNegative) (ka : BondKey × ℕ) :
    Except (Stop BatchError) (ValueBalance .nonNegative) := do
  let amount ← (Amount.tryFrom (asI64 ka.2)).mapError fun e => .error (.amount e)
  let bonded ← ((pools .stakingBonded).sub amount).mapError fun _ => .panic .unwrap
  let pools := pools.setAmount .stakingBonded bonded
  let unbonded ← ((pools .stakingUnbonded).add amount).mapError fun _ => .panic .unwrap
  return pools.setAmount .stakingUnbonded unbonded

/-- The pools after the block: its change, the rewards, and then the bonds it unbonded. -/
def prepareChainValuePoolsBatch (checks : Bool) (pools : ValueBalance .nonNegative) (popped : Chain.PoppedRoot) :
    Except (Stop BatchError) (ValueBalance .nonNegative) := do
  let change ← (popped.block.chainValuePoolChange popped.block.spent).mapError (Stop.mapErr .value)
  let pools ← (pools.addChainValuePoolChange change).mapError fun e => .error (.value e)
  let totalRewards ← (popped.bondRewards.foldlM (fun sum kr => addU checks 64 sum kr.2) 0).mapError .panic
  let pools ← if 0 < totalRewards then do
      let reward ← (Amount.tryFrom (asI64 totalRewards)).mapError fun e => .error (.amount e)
      let bonded ← ((pools .stakingBonded).add reward).mapError fun _ => .panic .unwrap
      pure (pools.setAmount .stakingBonded bonded)
    else pure pools
  popped.unbondingAmounts.foldlM prepareUnbondingAmount pools

/-- `write_block`: bonds are not looked at in the genesis block. -/
def ZebraDb.writeBlock (checks : Bool) (db : ZebraDb) (popped : Chain.PoppedRoot) :
    Except (Stop BatchError) ZebraDb := do
  let bonds ← (if popped.block.height = 0 then pure db.toFinalizedBonds
    else (prepareDelegationBondsBatch db.toFinalizedBonds popped).mapError .error)
  let valuePool ← prepareChainValuePoolsBatch checks db.valuePool popped
  return {
    toFinalizedBonds := bonds
    blocks := db.blocks ++ [popped.block.toBlock]
    valuePool
    blockInfo := Function.update db.blockInfo popped.block.height (some ⟨valuePool, popped.block.size % 2 ^ 32⟩) }

/-! ### The bonds of the database and of a chain -/

/-- The database holds the bonds with their statuses, and no others. -/
def Mirrored (db : FinalizedBonds) (bonds : Bonds) : Prop :=
  ∀ key : BondKey, db.delegationBondByKey[key]? = bonds[key]?.map Prod.fst ∧
    db.bondStatusByKey[key]?.map Chain.chainStatus = bonds[key]?.map Prod.snd

def Paired (db : FinalizedBonds) : Prop :=
  ∀ key : BondKey, db.delegationBondByKey[key]? = none ↔ db.bondStatusByKey[key]? = none

variable {db w : FinalizedBonds} {bonds : Bonds} {key : BondKey}

theorem finalizedBonds_getElem? (db : FinalizedBonds) (key : BondKey) : (Chain.finalizedBonds db)[key]? =
    db.bondStatusByKey[key]?.bind fun status => db.delegationBondByKey[key]?.map (·, Chain.chainStatus status) := by
  rw [Chain.finalizedBonds, ExtTreeMap.getElem?_filterMap']

theorem bond_of_finalizedBonds (h : (Chain.finalizedBonds db)[key]? = some bs) :
    db.delegationBondByKey[key]? = some bs.1 := by
  rw [finalizedBonds_getElem?] at h
  obtain ⟨status, -, h⟩ := bind_eq_some_iff.mp h
  obtain ⟨bond, hbond, rfl⟩ := map_eq_some_iff.mp h
  exact hbond

theorem mirrored_iff : Mirrored db bonds ↔ Paired db ∧ Chain.finalizedBonds db = bonds := by
  constructor
  · intro h
    refine ⟨?_, ?_⟩
    · intro key
      rw [(h key).1, map_eq_none_iff, ← map_eq_none_iff (f := Chain.chainStatus), (h key).2,
        map_eq_none_iff]
    · apply ExtTreeMap.ext_getElem?
      intro key
      obtain ⟨hbond, hstatus⟩ := h key
      rw [finalizedBonds_getElem?, hbond]
      cases hs : db.bondStatusByKey[key]? <;> cases hb : bonds[key]? <;> simp_all
  · rintro ⟨hpaired, rfl⟩ key
    rw [finalizedBonds_getElem?]
    have hkey := hpaired key
    cases hs : db.bondStatusByKey[key]? <;> cases hb : db.delegationBondByKey[key]? <;> simp_all

theorem Mirrored.bond (h : Mirrored db bonds) (hbs : bonds[key]? = some bs) :
    db.delegationBondByKey[key]? = some bs.1 := by
  rw [(h key).1, hbs]
  rfl

theorem Mirrored.none (h : Mirrored db bonds) (hnone : bonds[key]? = none) : db.bondStatusByKey[key]? = none := by
  have hstatus := (h key).2
  rw [hnone, map_none, map_eq_none_iff] at hstatus
  exact hstatus

/-! ### Bonds that only come in -/

/-- A batch over a database and the bonds in the middle of a block. -/
structure Batched (db : FinalizedBonds) (bonds : Bonds) (batch : BondBatch) : Prop where
  mirrored : Mirrored batch.written bonds
  current : ∀ key, currentBond db batch.bondsCreatedInBlock key = batch.written.delegationBondByKey[key]?

variable {chain : Bonds} {pre : List (StakingAction × ℕ)} {x : StakingAction × ℕ} {height : ℕ} {l l' : Ledger}
  {batch : BondBatch}

theorem Batched.insert (h : Batched db bonds batch) {key : BondKey} {b : DelegationBond} {status : BondStatusInChain}
    {statuses : ExtTreeMap BondKey BondStatus}
    (hstatus : ∀ k : BondKey, statuses[k]?.map Chain.chainStatus =
      if key = k then some status else batch.written.bondStatusByKey[k]?.map Chain.chainStatus) :
    Batched db (bonds.insert key (b, status))
      ⟨batch.bondsCreatedInBlock.insert key b, ⟨batch.written.delegationBondByKey.insert key b, statuses⟩⟩ := by
  refine ⟨?_, ?_⟩
  · intro k
    obtain ⟨hb, hs⟩ := h.mirrored k
    simp only [hstatus, ExtTreeMap.getElem?_insert, compare_eq_iff_eq]
    split_ifs <;> simp [hb, hs]
  · intro k
    have hk := h.current k
    unfold currentBond at hk ⊢
    simp only [ExtTreeMap.getElem?_insert, compare_eq_iff_eq]
    split_ifs
    · rfl
    · exact hk

theorem Batched.step (h : Batched db l.delegationBonds batch) (hexit : ¬ Exits x.1)
    (hmoves : Moves chain pre l x.1 ⟨height, x.2⟩ l') :
    ∃ batch', prepareAction db height batch x = .ok batch' ∧ Batched db l'.delegationBonds batch' := by
  cases hmoves with
  | create amount hk hamount hchain hnew =>
    refine ⟨prepareNewDelegationBond batch x.1.arg32_0 ⟨amount, x.1.arg32_2, ⟨height, x.2⟩⟩, ?_, h.insert ?_⟩
    · unfold prepareAction
      simp only [hk, Amount.tryFromU64_eq_ok.mpr hamount, mapError_ok, ok_bind, pure_eq_ok]
    · intro k
      rw [ExtTreeMap.getElem?_insert]
      simp only [compare_eq_iff_eq]
      split_ifs <;> rfl
  | unbond _ _ _ hk => exact absurd (.inl hk) hexit
  | withdraw _ _ hk => exact absurd (.inr hk) hexit
  | retarget bond status retargets hk hbond =>
    have hcurrent : currentBond db batch.bondsCreatedInBlock x.1.arg32_0 = some bond := by
      rw [h.current, h.mirrored.bond hbond]
    have hb : Batched db (l.delegationBonds.insert x.1.arg32_0 ({ bond with targetFinalizer := x.1.arg32_2 }, status))
        ⟨_, ⟨_, batch.written.bondStatusByKey⟩⟩ := h.insert (b := { bond with targetFinalizer := x.1.arg32_2 }) ?_
    · refine ⟨_, ?_, hb⟩
      unfold prepareAction prepareRetargetDelegationBond
      simp only [hk, hcurrent]
    · intro k
      split_ifs with heq
      · rw [← heq, (h.mirrored x.1.arg32_0).2, hbond]
        rfl
      · rfl
  | other hk =>
    refine ⟨batch, ?_, h⟩
    unfold prepareAction
    split <;> simp_all [StakingActionKind.actsOnBond]

theorem tryFrom_asI64 {n : ℕ} (h : (n : ℤ) ≤ maxMoney) :
    ∃ a : Amount .nonNegative, Amount.tryFrom (asI64 n) = .ok a ∧ a.zatoshis = n :=
  ⟨⟨n, Int.natCast_nonneg n, h⟩, Amount.tryFrom_eq_ok.mpr (Amount.asI64_of_le h).symm, rfl⟩

theorem prepareRewards_eq_ok (h : Batched db bonds batch) (hpaid : Ledger.Paid bonds record bonds') :
    ∃ w, record.foldlM (prepareReward db batch.bondsCreatedInBlock) batch.written =
      .ok w ∧ Mirrored w bonds' := by
  -- the bonds that are still to be rewarded are as the actions left them, the others are as they end up
  have hrun : ∀ (rest : List (BondKey × ℕ)) (w : FinalizedBonds), rest <:+ record →
      w.bondStatusByKey = batch.written.bondStatusByKey →
      (∀ key ∉ rest.map Prod.fst, w.delegationBondByKey[key]? = bonds'[key]?.map Prod.fst) →
      ∃ w', rest.foldlM (prepareReward db batch.bondsCreatedInBlock) w = .ok w' ∧
        w'.bondStatusByKey = batch.written.bondStatusByKey ∧
        ∀ key : BondKey, w'.delegationBondByKey[key]? = bonds'[key]?.map Prod.fst := by
    intro rest
    induction rest with
    | nil => exact fun w _ hstatus hw => ⟨w, rfl, hstatus, fun key => hw key (by simp)⟩
    | cons kr rest ih =>
      intro w hsuffix hstatus hw
      obtain ⟨bond, status, amount, hbond, hbond', hamount⟩ := hpaid.paid kr (hsuffix.mem mem_cons_self)
      have hcurrent : currentBond db batch.bondsCreatedInBlock kr.1 = some bond := by
        rw [h.current, h.mirrored.bond hbond]
      obtain ⟨reward, hreward, hzats⟩ := tryFrom_asI64 (n := kr.2) (by
        have hmax := amount.le_max
        have hlow := bond.amount.zatoshis_nonneg
        omega)
      have hadd : bond.amount.add reward = .ok amount := Amount.add_eq_ok.mpr (by rw [hamount, hzats])
      obtain ⟨w', hfold, hstatus', hall⟩ := ih { w with
          delegationBondByKey := w.delegationBondByKey.insert kr.1 { bond with amount } }
        ((suffix_cons kr rest).trans hsuffix) hstatus (by
          intro key hkey
          rw [ExtTreeMap.getElem?_insert]
          split_ifs with heq
          · rw [← compare_eq_iff_eq.mp heq, hbond']
            rfl
          · refine hw key ?_
            rw [map_cons, mem_cons, not_or]
            exact ⟨fun hk => heq (compare_eq_iff_eq.mpr hk.symm), hkey⟩)
      refine ⟨w', foldlM_cons_eq_ok.mpr ⟨_, ?_, hfold⟩, hstatus', hall⟩
      unfold prepareReward
      simp only [hcurrent, hreward, hadd, mapError_ok, ok_bind, pure_eq_ok]
  obtain ⟨w, hfold, hstatus, hall⟩ := hrun record batch.written suffix_rfl rfl fun key hkey => by
    rw [hpaid.frame key hkey, (h.mirrored key).1]
  refine ⟨w, hfold, fun key => ⟨hall key, ?_⟩⟩
  rw [hstatus, (h.mirrored key).2]
  rcases hpaid.lookup key with ⟨hnone, hnone'⟩ | ⟨bond, status, amount, hbond, hbond'⟩
  · rw [hnone, hnone']
  · rw [hbond, hbond']
    rfl

theorem foldlM_addU_rewards {record : List (BondKey × ℕ)} (h : start + (record.map Prod.snd).sum < 2 ^ 64) :
    record.foldlM (fun sum kr => addU checks 64 sum kr.2) start = .ok (start + (record.map Prod.snd).sum) := by
  induction record generalizing start with
  | nil => rfl
  | cons kr record ih =>
    rw [map_cons, sum_cons] at h ⊢
    rw [foldlM_cons, addU_ok (by omega), ok_bind, ih (by omega), add_assoc]

/-! ### A block -/

variable {checks : Bool} {c c' : Chain} {offer : Offer}

theorem Accepted.actions_eq (a : Accepted checks c offer c') :
    a.block.actions = offer.block.actions ∧ a.block.height = offer.block.height := by
  rw [(Chain.withBlockAndSpentUtxos_eq_ok a.block_eq).1]
  exact ⟨rfl, rfl⟩

theorem Accepted.batch_eq_ok (a : Accepted checks c offer c') (hmirror : Mirrored db c.delegationBonds)
    (hexit : NoExit offer.block.actions) (hblock : popped.block = a.block)
    (hrewards : c'.bondRewards.head? = some popped.bondRewards) :
    ∃ w, prepareDelegationBondsBatch db popped = .ok w ∧ Mirrored w c'.delegationBonds := by
  obtain ⟨batch, hfold, hbatch⟩ := accepted_induction a (R := fun pre l => NoExit pre →
    ∃ batch, pre.foldlM (prepareAction db offer.block.height) ⟨∅, db⟩ = .ok batch ∧
      Batched db l.delegationBonds batch)
    (fun _ => ⟨⟨∅, db⟩, rfl, hmirror, fun key => by simp [currentBond]⟩)
    (fun pre x l l' hR _ hmoves hpre => by
      obtain ⟨batch, hfold, hbatch⟩ := hR fun y hy => hpre y (mem_append_left _ hy)
      obtain ⟨batch', hstep, hbatch'⟩ := hbatch.step (hpre x (by simp)) hmoves
      exact ⟨batch', foldlM_append_eq_ok.mpr ⟨batch, hfold, foldlM_cons_eq_ok.mpr ⟨batch', hstep, rfl⟩⟩, hbatch'⟩) hexit
  obtain ⟨pools, record, -, hrewarded⟩ := a.closed
  have hrecord : popped.bondRewards = record := by
    rw [hrewarded.rewards] at hrewards
    exact (some.inj hrewards).symm
  obtain ⟨w, hw, hmirror'⟩ := prepareRewards_eq_ok hbatch hrewarded.paid
  refine ⟨w, ?_, hmirror'⟩
  unfold prepareDelegationBondsBatch
  rw [hblock, a.actions_eq.1, a.actions_eq.2, hfold, ok_bind, hrecord, hw]

theorem Accepted.pools_eq_ok (a : Accepted checks c offer c') (hc : BondedBacked c.toLedger)
    (hall : offer.ValuesVerified) (hexit : NoExit offer.block.actions) (hblock : popped.block = a.block)
    (hrewards : c'.bondRewards.head? = some popped.bondRewards) (hamounts : popped.unbondingAmounts = []) :
    prepareChainValuePoolsBatch checks c.chainValuePools popped = .ok c'.chainValuePools := by
  obtain ⟨pools, record, hpools, hrewarded⟩ := a.closed
  obtain ⟨retargets, hunmoved⟩ := a.unmoved hexit
  have hrecord : popped.bondRewards = record := by
    rw [hrewarded.rewards] at hrewards
    exact (some.inj hrewards).symm
  have hlt := (a.active_lt hc hall hpools).2
  have hsum := hrewarded.sum hlt
  have hsmall : 0 + (record.map Prod.snd).sum < 2 ^ 64 := by
    rw [hsum]
    unfold Ledger.bondRewardTotal
    split_ifs <;> norm_num
  have hchange : popped.block.chainValuePoolChange popped.block.spent = .ok a.block.poolChange := by
    obtain ⟨htoBlock, hspent, hchange⟩ := Chain.withBlockAndSpentUtxos_eq_ok a.block_eq
    rw [hblock, htoBlock, hspent]
    exact hchange
  have hadd : c.chainValuePools.addChainValuePoolChange a.block.poolChange = .ok pools := by
    rw [ValueBalance.addChainValuePoolChange_eq_ok]
    intro p
    rw [hpools, hunmoved.pools]
  unfold prepareChainValuePoolsBatch
  rw [hchange, hamounts, hrecord, foldlM_addU_rewards hsmall, zero_add]
  simp only [mapError_ok, ok_bind, hadd]
  by_cases hempty : record = []
  · rw [hsum, if_pos hempty, if_neg (lt_irrefl 0)]
    refine congrArg Except.ok (funext fun p => ?_)
    by_cases hp : p = .stakingBonded
    · rw [hp]
      exact Amount.ext (by simpa [hempty] using hrewarded.pool.symm)
    · exact (hrewarded.pools p hp).symm
  · obtain ⟨reward, hreward, hzats⟩ := tryFrom_asI64 (n := Ledger.bondRewardTotal) (by decide)
    have hbonded : (pools .stakingBonded).add reward = .ok (c'.chainValuePools .stakingBonded) := by
      rw [Amount.add_eq_ok, hzats]
      simpa [hempty] using hrewarded.pool
    rw [hsum, if_neg hempty, if_pos (by decide), hreward]
    simp only [mapError_ok, ok_bind, hbonded]
    refine congrArg Except.ok (funext fun p => ?_)
    by_cases hp : p = .stakingBonded
    · rw [hp]
      simp [ValueBalance.setAmount]
    · simp only [ValueBalance.setAmount, Function.update_of_ne hp]
      exact (hrewarded.pools p hp).symm

/-! ### Locations -/

/-- What a batch knows of a bond that the database has and the block does not create: its location stays. -/
structure KeepsRow (location : TransactionLocation) (key : BondKey) (created written : ExtTreeMap BondKey DelegationBond) :
    Prop where
  created : ∀ bond, created[key]? = some bond → bond.createdAt = location
  written : ∃ bond, written[key]? = some bond ∧ bond.createdAt = location

variable {location : TransactionLocation} {row : DelegationBond}

theorem currentBond_createdAt (hrow : db.delegationBondByKey[key]? = some row)
    (h : KeepsRow row.createdAt key created written) (hbond : currentBond db created key = some bond) :
    bond.createdAt = row.createdAt := by
  unfold currentBond at hbond
  cases hc : created[key]? with
  | none =>
    rw [hc, none_or, hrow] at hbond
    rw [← some.inj hbond]
  | some r =>
    rw [hc, some_or] at hbond
    rw [← some.inj hbond]
    exact h.created r hc

theorem KeepsRow.insert {created written : ExtTreeMap BondKey DelegationBond} (h : KeepsRow location key created written)
    {k : BondKey} {b : DelegationBond} (hbond : k = key → b.createdAt = location) :
    KeepsRow location key (created.insert k b) (written.insert k b) ∧
      KeepsRow location key created (written.insert k b) := by
  have hwritten : ∃ r, (written.insert k b)[key]? = some r ∧ r.createdAt = location := by
    rw [ExtTreeMap.getElem?_insert]
    split_ifs with heq
    · exact ⟨b, rfl, hbond (compare_eq_iff_eq.mp heq)⟩
    · exact h.written
  refine ⟨⟨?_, hwritten⟩, h.created, hwritten⟩
  intro r hr
  rw [ExtTreeMap.getElem?_insert] at hr
  split_ifs at hr with heq
  · rw [← some.inj hr]
    exact hbond (compare_eq_iff_eq.mp heq)
  · exact h.created r hr

theorem prepareStatus_eq_ok (h : prepareStatus db batch key check e status = .ok batch') :
    db.bondStatusByKey[key]? ≠ none ∧ batch' = { batch with
      written := { batch.written with bondStatusByKey := batch.written.bondStatusByKey.insert key status } } := by
  unfold prepareStatus at h
  split at h
  · cases h
  next current hcurrent =>
    split_ifs at h
    obtain rfl := Except.ok.inj h
    exact ⟨by simp [hcurrent], rfl⟩

theorem prepareAction_keepsRow (hrow : db.delegationBondByKey[key]? = some row)
    (h : KeepsRow row.createdAt key batch.bondsCreatedInBlock batch.written.delegationBondByKey)
    (hnew : x.1.kind = .createNewDelegationBond → x.1.arg32_0 ≠ key)
    (hstep : prepareAction db height batch x = .ok batch') :
    KeepsRow row.createdAt key batch'.bondsCreatedInBlock batch'.written.delegationBondByKey := by
  unfold prepareAction at hstep
  split at hstep
  next hk =>
    obtain ⟨amount, -, hstep⟩ := bind_eq_ok.mp hstep
    obtain rfl := pure_eq_ok.mp hstep
    exact (h.insert fun heq => absurd heq (hnew hk)).1
  next hk =>
    obtain ⟨-, rfl⟩ := prepareStatus_eq_ok hstep
    exact h
  next hk =>
    obtain ⟨-, rfl⟩ := prepareStatus_eq_ok hstep
    exact h
  next hk =>
    unfold prepareRetargetDelegationBond at hstep
    split at hstep
    · cases hstep
    next bond hbond =>
      obtain rfl := Except.ok.inj hstep
      have hsame : x.1.arg32_0 = key → bond.createdAt = row.createdAt := fun heq =>
        currentBond_createdAt hrow h (heq ▸ hbond)
      exact (h.insert (b := { bond with targetFinalizer := x.1.arg32_2 }) hsame).1
  next =>
    obtain rfl := Except.ok.inj hstep
    exact h

theorem prepareAction_exits (hexit : Exits x.1) (hstep : prepareAction db height batch x = .ok batch') :
    db.bondStatusByKey[x.1.arg32_0]? ≠ none := by
  unfold prepareAction at hstep
  rcases hexit with hk | hk
  · simp only [hk] at hstep
    exact (prepareStatus_eq_ok hstep).1
  · simp only [hk] at hstep
    exact (prepareStatus_eq_ok hstep).1

theorem prepareReward_keepsRow (hrow : db.delegationBondByKey[key]? = some row)
    (h : KeepsRow row.createdAt key created w.delegationBondByKey) (hstep : prepareReward db created w kr = .ok w') :
    KeepsRow row.createdAt key created w'.delegationBondByKey := by
  unfold prepareReward at hstep
  split at hstep
  · obtain rfl := Except.ok.inj hstep
    exact h
  next bond hbond =>
    obtain ⟨reward, -, hstep⟩ := bind_eq_ok.mp hstep
    obtain ⟨amount, -, hstep⟩ := bind_eq_ok.mp hstep
    obtain rfl := pure_eq_ok.mp hstep
    have hsame : kr.1 = key → bond.createdAt = row.createdAt := fun heq =>
      currentBond_createdAt hrow h (heq ▸ hbond)
    exact (h.insert (b := { bond with amount }) hsame).2

theorem batch_keepsRow (h : prepareDelegationBondsBatch db popped = .ok w)
    (hrow : db.delegationBondByKey[key]? = some row) (hnew : key ∉ createdKeys popped.block.actions) :
    ∃ bond, w.delegationBondByKey[key]? = some bond ∧ bond.createdAt = row.createdAt := by
  unfold prepareDelegationBondsBatch at h
  obtain ⟨batch, hactions, hrewards⟩ := bind_eq_ok.mp h
  have hbatch : KeepsRow row.createdAt key batch.bondsCreatedInBlock batch.written.delegationBondByKey := by
    refine foldlM_induction (R := fun pre batch => key ∉ createdKeys pre →
      KeepsRow row.createdAt key batch.bondsCreatedInBlock batch.written.delegationBondByKey) hactions
      (fun _ => ⟨by simp, row, hrow, rfl⟩) ?_ hnew
    intro pre x batch₁ batch₂ hpre hstep hnot
    rw [createdKeys_append, mem_append, not_or] at hnot
    refine prepareAction_keepsRow hrow (hpre hnot.1) ?_ hstep
    intro hk heq
    exact hnot.2 (by simp [createdKeys_create hk, heq])
  exact (foldlM_induction (R := fun _ w => KeepsRow row.createdAt key batch.bondsCreatedInBlock w.delegationBondByKey)
    hrewards hbatch fun _ kr w₁ w₂ hw hstep => prepareReward_keepsRow hrow hw hstep).written

theorem Accepted.created_fresh (a : Accepted checks c offer c') :
    ∀ key ∈ createdKeys offer.block.actions, c.delegationBonds[key]? = none := by
  refine accepted_induction a (R := fun pre _ => ∀ key ∈ createdKeys pre, c.delegationBonds[key]? = none)
    (by simp [createdKeys]) ?_
  intro pre x l l' hR _ hmoves key hkey
  rw [createdKeys_append, mem_append] at hkey
  rcases hkey with hkey | hkey
  · exact hR key hkey
  · by_cases hk : x.1.kind = .createNewDelegationBond
    · rw [createdKeys_create hk, mem_singleton] at hkey
      cases hmoves with
      | create amount _ hamount hchain => rwa [hkey]
      | _ => simp_all [StakingActionKind.actsOnBond]
    · simp [createdKeys_other hk] at hkey

/-- A block in which a bond is unbonded or withdrawn does not reach the database as it is in the chain: the batch
fails, or the bond keeps its old location. -/
theorem Accepted.batch_exits (a : Accepted checks c offer c') (hmirror : Mirrored db c.delegationBonds)
    (hlocated : ∀ key location, c.location? key = some location → location.height < offer.block.height)
    (hblock : popped.block = a.block) (h : prepareDelegationBondsBatch db popped = .ok w)
    (hafter : Chain.finalizedBonds w = c'.delegationBonds) :
    NoExit offer.block.actions := by
  intro x hx hexit
  obtain ⟨p, s, hsplit⟩ := append_of_mem hx
  obtain ⟨-, location, hlocation, hheight⟩ := a.locates.exited p x s hsplit hexit
  have hactions : popped.block.actions = offer.block.actions := by rw [hblock, a.actions_eq.1]
  have hstatus : db.bondStatusByKey[x.1.arg32_0]? ≠ none := by
    unfold prepareDelegationBondsBatch at h
    obtain ⟨batch, hfold, -⟩ := bind_eq_ok.mp h
    rw [hactions, hsplit] at hfold
    obtain ⟨batch₁, -, hfold⟩ := foldlM_append_eq_ok.mp hfold
    obtain ⟨batch₂, hstep, -⟩ := foldlM_cons_eq_ok.mp hfold
    exact prepareAction_exits hexit hstep
  have hbond : c.delegationBonds[x.1.arg32_0]? ≠ none := fun hnone => hstatus (hmirror.none hnone)
  obtain ⟨bs, hbs⟩ := ne_none_iff_exists'.mp hbond
  obtain ⟨bond, hbond', hsame⟩ := batch_keepsRow h (hmirror.bond hbs) fun hmem => by
    rw [a.created_fresh _ (hactions ▸ hmem)] at hbs
    cases hbs
  have hbefore := hlocated x.1.arg32_0 bs.1.createdAt (by simp [Ledger.location?, hbs])
  obtain ⟨bs', hbs', rfl⟩ := map_eq_some_iff.mp hlocation
  rw [bond_of_finalizedBonds (hafter ▸ hbs')] at hbond'
  obtain rfl := some.inj hbond'
  rw [hsame] at hheight
  omega

section Write

variable {db : ZebraDb} {popped : Chain.PoppedRoot}

theorem Accepted.writeBlock_eq_ok (a : Accepted checks c offer c') (popped : Chain.PoppedRoot) (hc : BondedBacked c.toLedger)
    (hall : offer.ValuesVerified) (hpos : 0 < offer.block.height) (hmirror : Mirrored db.toFinalizedBonds c.delegationBonds)
    (hpools : db.valuePool = c.chainValuePools) (hblock : popped.block = a.block)
    (hrewards : c'.bondRewards.head? = some popped.bondRewards) (hamounts : popped.unbondingAmounts = [])
    (hexit : NoExit offer.block.actions) : ∃ db', db.writeBlock checks popped = .ok db' ∧
      Mirrored db'.toFinalizedBonds c'.delegationBonds ∧ db'.valuePool = c'.chainValuePools := by
  have hheight : popped.block.height ≠ 0 := by
    rw [hblock, a.actions_eq.2]
    omega
  obtain ⟨w, hbatch, hmirror'⟩ := a.batch_eq_ok hmirror hexit hblock hrewards
  have hpool := a.pools_eq_ok hc hall hexit hblock hrewards hamounts
  unfold ZebraDb.writeBlock
  rw [if_neg hheight, hbatch, hpools, hpool]
  exact ⟨_, rfl, hmirror', rfl⟩

theorem Accepted.writeBlock_noExit (a : Accepted checks c offer c')
    (hlocated : ∀ key location, c.location? key = some location → location.height < offer.block.height)
    (hpos : 0 < offer.block.height) (hmirror : Mirrored db.toFinalizedBonds c.delegationBonds)
    (hblock : popped.block = a.block) (hwrite : db.writeBlock checks popped = .ok db')
    (hafter : Chain.finalizedBonds db'.toFinalizedBonds = c'.delegationBonds) : NoExit offer.block.actions := by
  have hheight : popped.block.height ≠ 0 := by
    rw [hblock, a.actions_eq.2]
    omega
  unfold ZebraDb.writeBlock at hwrite
  rw [if_neg hheight] at hwrite
  obtain ⟨bonds, hbatch, hwrite⟩ := bind_eq_ok.mp hwrite
  obtain ⟨pool, -, hwrite⟩ := bind_eq_ok.mp hwrite
  obtain rfl := pure_eq_ok.mp hwrite
  exact a.batch_exits hmirror hlocated hblock (mapError_eq_ok.mp hbatch) hafter

end Write

end Crosslink.State

import Crosslink.State.Undo

/-!
# What the database gets of a block

A block that unbonds or withdraws bonds reaches the database with the old locations of those bonds, or not at all.
Whenever it is written, though, the bonds up to locations and the pools are those that the chains had right after the
block (`Entered.written`). The amounts of the bonds that the block unbonds are read off a chain that is further up; they
are the same there, since a bond that is not active stays as it is (`Entered.frozen`).
-/

namespace Crosslink.State

open Codec Fallible Staking List ValueBalance
open Std (ExtTreeMap)

/-! ### Bonds -/

variable {bonds bonds' other : Bonds} {key : BondKey} {db : FinalizedBonds} {batch batch' : BondBatch}

theorem exists_of_unlocate_eq (h : unlocate bonds = unlocate bonds') (hbond : bonds'[key]? = some (bond, status)) :
    ∃ bond₁, bonds[key]? = some (bond₁, status) ∧ unlocateBond bond₁ = unlocateBond bond := by
  have hkey := unlocate_eq_iff.mp h key
  rw [hbond] at hkey
  obtain ⟨⟨bond₁, status₁⟩, hbs, heq⟩ := Option.map_eq_some_iff.mp hkey
  obtain ⟨hbond₁, rfl⟩ := Prod.mk.inj heq
  exact ⟨bond₁, hbs, hbond₁⟩

theorem amount_eq_of_unlocateBond (h : unlocateBond bond = unlocateBond bond') :
    bond.amount = bond'.amount :=
  (DelegationBond.mk.inj h).1

theorem targetFinalizer_eq_of_unlocateBond (h : unlocateBond bond = unlocateBond bond') :
    bond.targetFinalizer = bond'.targetFinalizer :=
  (DelegationBond.mk.inj h).2.1

theorem Batched.setStatus (h : Batched db bonds batch) (hbond : bonds[key]? = some (bond, status))
    (written : BondStatus) :
    Batched db (bonds.insert key (bond, Chain.chainStatus written)) { batch with written := { batch.written with
      bondStatusByKey := batch.written.bondStatusByKey.insert key written } } := by
  refine ⟨?_, h.current⟩
  intro k
  obtain ⟨hb, hs⟩ := h.mirrored k
  simp only [ExtTreeMap.getElem?_insert, compare_eq_iff_eq]
  split_ifs with heq
  · subst heq
    simp [hb, hbond]
  · exact ⟨hb, hs⟩

variable {chain : Bonds} {pre : List (StakingAction × ℕ)} {x : StakingAction × ℕ} {height : ℕ} {l l' : Ledger}

theorem Batched.stepUnlocated (h : Batched db bonds batch) (hsame : unlocate bonds = unlocate l.delegationBonds)
    (hmoves : Moves chain pre l x.1 ⟨height, x.2⟩ l') (hstep : prepareAction db height batch x = .ok batch') :
    ∃ bonds', Batched db bonds' batch' ∧ unlocate bonds' = unlocate l'.delegationBonds := by
  unfold prepareAction at hstep
  cases hmoves with
  | create amount hk hamount hchain hnew =>
    simp only [hk, Amount.tryFromU64_eq_ok.mpr hamount, mapError_ok, ok_bind, pure_eq_ok] at hstep
    obtain rfl := hstep
    refine ⟨bonds.insert x.1.arg32_0 (⟨amount, x.1.arg32_2, ⟨height, x.2⟩⟩, .active), h.insert ?_, ?_⟩
    · intro k
      rw [ExtTreeMap.getElem?_insert]
      simp only [compare_eq_iff_eq]
      split_ifs <;> rfl
    · rw [unlocate_insert, unlocate_insert, hsame]
  | unbond bond bonded unbonded hk hbond =>
    simp only [hk] at hstep
    obtain ⟨-, rfl⟩ := prepareStatus_eq_ok hstep
    obtain ⟨bond₁, hbond₁, heq⟩ := exists_of_unlocate_eq hsame hbond
    refine ⟨_, h.setStatus hbond₁ _, ?_⟩
    rw [unlocate_insert, unlocate_insert, hsame]
    exact congrArg (ExtTreeMap.insert _ _) (Prod.ext heq rfl)
  | withdraw bond bond₀ hk hbond =>
    simp only [hk] at hstep
    obtain ⟨-, rfl⟩ := prepareStatus_eq_ok hstep
    obtain ⟨bond₁, hbond₁, heq⟩ := exists_of_unlocate_eq hsame hbond
    refine ⟨_, h.setStatus hbond₁ _, ?_⟩
    rw [unlocate_insert, unlocate_insert, hsame]
    exact congrArg (ExtTreeMap.insert _ _) (Prod.ext heq rfl)
  | retarget bond status retargets hk hbond =>
    obtain ⟨bond₁, hbond₁, heq⟩ := exists_of_unlocate_eq hsame hbond
    have hcurrent : currentBond db batch.bondsCreatedInBlock x.1.arg32_0 = some bond₁ := by
      rw [h.current, h.mirrored.bond hbond₁]
    simp only [hk, prepareRetargetDelegationBond, hcurrent, Except.ok.injEq] at hstep
    obtain rfl := hstep
    refine ⟨bonds.insert x.1.arg32_0 ({ bond₁ with targetFinalizer := x.1.arg32_2 }, status), h.insert ?_, ?_⟩
    · intro k
      split_ifs with hkey
      · rw [← hkey, (h.mirrored x.1.arg32_0).2, hbond₁]
        rfl
      · rfl
    · rw [unlocate_insert, unlocate_insert, hsame]
      refine congrArg (ExtTreeMap.insert _ _) (Prod.ext ?_ rfl)
      simp [unlocateEntry, unlocateBond, amount_eq_of_unlocateBond heq]
  | other hk =>
    refine ⟨bonds, ?_, hsame⟩
    split at hstep <;> simp_all [StakingActionKind.actsOnBond]

theorem paid_transfer (h : Ledger.Paid bonds record bonds') (hsame : unlocate other = unlocate bonds) :
    ∃ other', Ledger.Paid other record other' ∧ unlocate other' = unlocate bonds' := by
  let other' : Bonds := other.map fun k bs =>
    ({ bs.1 with amount := (bonds'[k]?.map fun bs' => bs'.1.amount).getD bs.1.amount }, bs.2)
  have hlookup : ∀ k : BondKey, other'[k]? = other[k]?.map fun bs =>
      ({ bs.1 with amount := (bonds'[k]?.map fun bs' => bs'.1.amount).getD bs.1.amount }, bs.2) := fun k =>
    ExtTreeMap.getElem?_map
  refine ⟨other', ⟨h.nodup, ?_, ?_⟩, ?_⟩
  · intro kr hkr
    obtain ⟨bond, status, amount, hbond, hbond', hamount⟩ := h.paid kr hkr
    obtain ⟨bond₁, hbond₁, heq⟩ := exists_of_unlocate_eq hsame hbond
    refine ⟨bond₁, status, amount, hbond₁, by rw [hlookup, hbond₁, hbond']; rfl, ?_⟩
    rw [hamount, amount_eq_of_unlocateBond heq]
  · intro k hk
    rw [hlookup, h.frame k hk]
    cases hbs : other[k]? with
    | none => rfl
    | some bs =>
      obtain ⟨bond₁, hbond₁, heq⟩ := exists_of_unlocate_eq hsame.symm hbs
      simp [hbond₁, amount_eq_of_unlocateBond heq]
  · rw [unlocate_eq_iff]
    intro k
    rw [hlookup]
    have hk := unlocate_eq_iff.mp hsame k
    rcases h.lookup k with ⟨hnone, hnone'⟩ | ⟨bond, status, amount, hbond, hbond'⟩
    · rw [hnone, Option.map_none, Option.map_eq_none_iff] at hk
      rw [hk, hnone']
      rfl
    · obtain ⟨bond₁, hbond₁, heq⟩ := exists_of_unlocate_eq hsame hbond
      rw [hbond₁, hbond']
      simp [unlocateEntry, unlocateBond, targetFinalizer_eq_of_unlocateBond heq]

variable {checks : Bool} {before after : Snapshot} {b : ContextuallyVerifiedBlock} {e : Entry}
  {popped : Chain.PoppedRoot} {w : FinalizedBonds}

theorem Entered.bonds_written (h : Entered checks before b e after) (hmirror : Mirrored db bonds)
    (hsame : unlocate bonds = before.bonds) (hblock : popped.block = b) (hrewards : popped.bondRewards = e.record)
    (hw : prepareDelegationBondsBatch db popped = .ok w) :
    ∃ bonds', Mirrored w bonds' ∧ unlocate bonds' = after.bonds := by
  obtain ⟨c, offer, c', a, pools, rfl, hby, rfl, rfl, -⟩ := h.filled
  unfold prepareDelegationBondsBatch at hw
  obtain ⟨batch, hfold, hw⟩ := bind_eq_ok.mp hw
  rw [hblock, a.actions_eq.1, a.actions_eq.2] at hfold
  obtain ⟨bonds₁, hbatch, hbonds₁⟩ := accepted_induction a (R := fun pre l => ∀ batch,
      pre.foldlM (prepareAction db offer.block.height) ⟨∅, db⟩ = .ok batch →
        ∃ bonds', Batched db bonds' batch ∧ unlocate bonds' = unlocate l.delegationBonds)
    (fun batch hnil => by
      obtain rfl := foldlM_nil_eq_ok.mp hnil
      exact ⟨bonds, ⟨hmirror, fun key => by simp [currentBond]⟩, hsame⟩)
    (fun pre x l l' hR _ hmoves batch' hsnoc => by
      obtain ⟨batch, hpre, hlast⟩ := foldlM_append_eq_ok.mp hsnoc
      obtain ⟨batch₁, hstep, hnil⟩ := foldlM_cons_eq_ok.mp hlast
      obtain rfl := foldlM_nil_eq_ok.mp hnil
      obtain ⟨bonds', hbatch, hbonds'⟩ := hR batch hpre
      exact hbatch.stepUnlocated hbonds' hmoves hstep) batch hfold
  obtain ⟨info, hrewarded⟩ := hby.rewarded
  obtain ⟨bonds', hpaid, hbonds'⟩ := paid_transfer hrewarded.paid hbonds₁
  obtain ⟨w', hw', hmirror'⟩ := prepareRewards_eq_ok hbatch hpaid
  rw [hrewards, hw'] at hw
  obtain rfl := Except.ok.inj hw
  exact ⟨bonds', hmirror', hbonds'⟩

/-! ### Pools -/

theorem zatoshis_of_tryFrom_asI64 {a : Amount .nonNegative} (h : Amount.tryFrom (asI64 n) = .ok a) (hlt : n < 2 ^ 64) :
    a.zatoshis = n := by
  have hz := Amount.tryFrom_eq_ok.mp h
  have hlow := a.zatoshis_nonneg
  unfold asI64 at hz
  split_ifs at hz <;> omega

theorem prepareUnbondingAmounts_eq_ok {amounts : List (BondKey × ℕ)} (hlt : ∀ ka ∈ amounts, ka.2 < 2 ^ 64)
    (h : amounts.foldlM prepareUnbondingAmount pools = .ok pools') :
    Shifted ((amounts.map fun ka => (ka.2 : ℤ)).sum) pools pools' := by
  induction amounts generalizing pools with
  | nil =>
    obtain rfl := foldlM_nil_eq_ok.mp h
    exact Shifted.refl _
  | cons ka amounts ih =>
    obtain ⟨pools₁, hstep, h⟩ := foldlM_cons_eq_ok.mp h
    unfold prepareUnbondingAmount at hstep
    obtain ⟨amount, hamount, hstep⟩ := bind_eq_ok.mp hstep
    obtain ⟨bonded, hbonded, hstep⟩ := bind_eq_ok.mp hstep
    obtain ⟨unbonded, hunbonded, hstep⟩ := bind_eq_ok.mp hstep
    obtain rfl := pure_eq_ok.mp hstep
    have hzats := zatoshis_of_tryFrom_asI64 (mapError_eq_ok.mp hamount) (hlt ka mem_cons_self)
    have hb := Amount.sub_eq_ok.mp (mapError_eq_ok.mp hbonded)
    have hu := Amount.add_eq_ok.mp (mapError_eq_ok.mp hunbonded)
    rw [map_cons, sum_cons]
    refine Shifted.trans (shifted_setAmount (by rw [hb, hzats]) ?_)
      (ih (fun ka' hka' => hlt ka' (mem_cons_of_mem ka hka')) h)
    simpa [setAmount, hzats] using hu

theorem prepareChainValuePoolsBatch_eq_ok
    (hchange : popped.block.chainValuePoolChange popped.block.spent = .ok change)
    (hsum : (popped.bondRewards.map Prod.snd).sum = if popped.bondRewards = [] then 0 else Ledger.bondRewardTotal) :
    prepareChainValuePoolsBatch checks start popped = .ok pools' ↔ ∃ pools₁ pools₂ : ValueBalance .nonNegative,
      (∀ p, (pools₁ p).zatoshis = (start p).zatoshis + (change p).zatoshis) ∧
      (pools₂ .stakingBonded).zatoshis = (pools₁ .stakingBonded).zatoshis +
        (if popped.bondRewards = [] then 0 else (Ledger.bondRewardTotal : ℤ)) ∧
      (∀ p, p ≠ .stakingBonded → pools₂ p = pools₁ p) ∧
      popped.unbondingAmounts.foldlM prepareUnbondingAmount pools₂ = .ok pools' := by
  have hsmall : 0 + (popped.bondRewards.map Prod.snd).sum < 2 ^ 64 := by
    rw [hsum]
    unfold Ledger.bondRewardTotal
    split_ifs <;> norm_num
  have hset : ∀ {pools₁ pools₂ : ValueBalance .nonNegative}, (∀ p, p ≠ .stakingBonded → pools₂ p = pools₁ p) →
      pools₂ = pools₁.setAmount .stakingBonded (pools₂ .stakingBonded) := by
    intro pools₁ pools₂ hframe
    refine ext fun p => ?_
    by_cases hp : p = .stakingBonded
    · simp [setAmount, hp]
    · simp [setAmount, hp, hframe p hp]
  unfold prepareChainValuePoolsBatch
  rw [hchange, foldlM_addU_rewards hsmall, zero_add, hsum]
  simp only [mapError_ok, ok_bind]
  by_cases hempty : popped.bondRewards = []
  · simp only [if_pos hempty, lt_irrefl, if_false, add_zero]
    constructor
    · intro h
      obtain ⟨pools₁, hadd, h⟩ := bind_eq_ok.mp h
      exact ⟨pools₁, pools₁, addChainValuePoolChange_eq_ok.mp (mapError_eq_ok.mp hadd), rfl, fun _ _ => rfl, h⟩
    · rintro ⟨pools₁, pools₂, hadd, hbonded, hframe, hfold⟩
      refine bind_eq_ok.mpr ⟨pools₁, mapError_eq_ok.mpr (addChainValuePoolChange_eq_ok.mpr hadd), ?_⟩
      obtain rfl : pools₂ = pools₁ := by
        refine ext fun p => ?_
        by_cases hp : p = .stakingBonded
        · rw [hp, hbonded]
        · rw [hframe p hp]
      exact hfold
  · simp only [if_neg hempty, show (0 < Ledger.bondRewardTotal) from by decide, if_true]
    obtain ⟨reward, hreward, hzats⟩ := tryFrom_asI64 (n := Ledger.bondRewardTotal) (by decide)
    constructor
    · intro h
      obtain ⟨pools₁, hadd, h⟩ := bind_eq_ok.mp h
      rw [hreward, mapError_ok, ok_bind] at h
      obtain ⟨bonded, hbonded, h⟩ := bind_eq_ok.mp h
      have hb := Amount.add_eq_ok.mp (mapError_eq_ok.mp hbonded)
      refine ⟨pools₁, pools₁.setAmount .stakingBonded bonded,
        addChainValuePoolChange_eq_ok.mp (mapError_eq_ok.mp hadd), ?_,
        fun p hp => by simp [setAmount, hp], h⟩
      simpa [setAmount, hzats] using hb
    · rintro ⟨pools₁, pools₂, hadd, hbonded, hframe, hfold⟩
      refine bind_eq_ok.mpr ⟨pools₁, mapError_eq_ok.mpr (addChainValuePoolChange_eq_ok.mpr hadd), ?_⟩
      rw [hreward, mapError_ok, ok_bind]
      rw [hset hframe] at hfold
      refine bind_eq_ok.mpr ⟨pools₂ .stakingBonded, ?_, hfold⟩
      rw [mapError_eq_ok, Amount.add_eq_ok, hbonded, hzats]

theorem unbondingAmounts_eq_ok (h : Chain.unbondingAmounts bonds actions = .ok amounts) :
    amounts = (unbondedBy actions).map fun k => (k, (amountOf bonds k).toNat) := by
  unfold Chain.unbondingAmounts at h
  unfold unbondedBy
  generalize (actions.filter fun a => a.1.kind = .beginDelegationUnbonding) = exits at h ⊢
  induction exits generalizing amounts with
  | nil => exact (pure_eq_ok.mp h).symm
  | cons x exits ih =>
    rw [mapM_cons] at h
    obtain ⟨ka, hka, h⟩ := bind_eq_ok.mp h
    obtain ⟨rest, hrest, h⟩ := bind_eq_ok.mp h
    obtain rfl := pure_eq_ok.mp h
    obtain ⟨⟨bond, status⟩, hbond, hka⟩ := bind_eq_ok.mp hka
    obtain rfl := pure_eq_ok.mp hka
    rw [ih hrest, map_cons, map_cons, amountOf_of_getElem? (unwrap_eq_ok.mp hbond)]

theorem amountOf_nonneg (bonds : Bonds) (key : BondKey) : 0 ≤ amountOf bonds key := by
  unfold amountOf
  cases bonds[key]? with
  | none => exact le_rfl
  | some bs => exact bs.1.amount.zatoshis_nonneg

theorem amountOf_lt (bonds : Bonds) (key : BondKey) : (amountOf bonds key).toNat < 2 ^ 64 := by
  unfold amountOf
  cases bonds[key]? with
  | none => decide
  | some bs =>
    have hmax := bs.1.amount.le_max
    have hlow := bs.1.amount.zatoshis_nonneg
    have : maxMoney < 2 ^ 63 := by decide
    simp only [Option.map_some, Option.getD_some]
    omega

theorem sum_unbondingAmounts (bonds : Bonds) (actions : List (StakingAction × ℕ)) :
    (((unbondedBy actions).map fun k => (k, (amountOf bonds k).toNat)).map fun ka => (ka.2 : ℤ)).sum =
      unbondedSum bonds actions := by
  rw [unbondedSum, map_map]
  refine congrArg List.sum (map_congr_left fun k _ => ?_)
  exact Int.toNat_of_nonneg (amountOf_nonneg bonds k)

theorem amountOf_unlocate (bonds : Bonds) (key : BondKey) : amountOf (unlocate bonds) key = amountOf bonds key := by
  unfold amountOf
  rw [unlocate_getElem?, Option.map_map]
  rfl

/-! ### Bonds that are not active -/

section Filled

variable {c c' : Chain} {filled : Ledger} {pools : ValueBalance .nonNegative}

theorem EnteredBy.kept (h : EnteredBy c b e c' filled pools) (hbs : filled.delegationBonds[key]? = some bs)
    (hactive : bs.2 ≠ .active) : c'.delegationBonds[key]? = some bs := by
  obtain ⟨info, hrewarded⟩ := h.rewarded
  rw [hrewarded.paid.frame key ?_]
  · exact hbs
  · intro hmem
    obtain ⟨kr, hkr, rfl⟩ := mem_map.mp hmem
    obtain ⟨bond, hbond⟩ := hrewarded.active kr hkr
    exact hactive (congrArg Prod.snd (Option.some.inj (hbs.symm.trans hbond)))

theorem EnteredBy.amountOf_eq (h : EnteredBy c b e c' filled pools) (hkey : key ∈ unbondedBy b.actions) :
    amountOf c'.delegationBonds key = amountOf filled.delegationBonds key := by
  obtain ⟨bs, hbs, hactive⟩ := h.touched.exited key (.inl hkey)
  rw [amountOf_of_getElem? hbs, amountOf_of_getElem? (h.kept hbs hactive)]

theorem EnteredBy.activeBonds_eq_nil (h : EnteredBy c b e c' filled pools) :
    e.record = [] ↔ Ledger.activeBonds c'.delegationBonds = [] := by
  obtain ⟨info, hrewarded⟩ := h.rewarded
  rw [hrewarded.nonempty, eq_nil_iff_forall_not_mem, eq_nil_iff_forall_not_mem]
  have hiff : ∀ k : BondKey, (∃ bond, filled.delegationBonds[k]? = some (bond, .active)) ↔
      ∃ bond, c'.delegationBonds[k]? = some (bond, .active) := by
    intro k
    rcases hrewarded.paid.lookup k with ⟨hnone, hnone'⟩ | ⟨bond, status, amount, hbond, hbond'⟩
    · rw [show filled.delegationBonds[k]? = none from hnone, hnone']
    · rw [show filled.delegationBonds[k]? = some (bond, status) from hbond, hbond']
      simp
  constructor
  · rintro hnone ⟨k, bond⟩ hmem
    obtain ⟨bond', hbond'⟩ := (hiff k).mpr ⟨bond, Ledger.mem_activeBonds.mp hmem⟩
    exact hnone (k, bond') (Ledger.mem_activeBonds.mpr hbond')
  · rintro hnone ⟨k, bond⟩ hmem
    obtain ⟨bond', hbond'⟩ := (hiff k).mp ⟨bond, Ledger.mem_activeBonds.mp hmem⟩
    exact hnone (k, bond') (Ledger.mem_activeBonds.mpr hbond')

theorem EnteredBy.record_eq_nil (h : EnteredBy c b e c' filled pools) :
    Ledger.activeBonds c'.snapshot.unlocate.bonds = [] ↔ e.record = [] := by
  rw [h.activeBonds_eq_nil]
  exact (congrArg (· = []) (activeBonds_unlocate c'.delegationBonds)).to_iff.trans map_eq_nil_iff

end Filled

theorem Entered.frozen (h : Entered checks before b e after) (hbs : before.bonds[key]? = some bs)
    (hactive : bs.2 ≠ .active) :
    ∃ bs', after.bonds[key]? = some bs' ∧ bs'.2 ≠ .active ∧ bs'.1.amount = bs.1.amount := by
  obtain ⟨c, offer, c', a, pools, -, hby, rfl, rfl, -⟩ := h.filled
  obtain ⟨bs₀, hbs₀, rfl⟩ := Option.map_eq_some_iff.mp ((unlocate_getElem? _ _).symm.trans hbs)
  obtain ⟨bs₁, hbs₁, hamount, -, hstatus⟩ := hby.touched.old key bs₀ hbs₀
  have hactive₁ : bs₁.2 ≠ .active := by
    by_cases hexit : key ∈ unbondedBy b.actions ∨ key ∈ withdrawnBy b.actions
    · obtain ⟨bs₂, hbs₂, hactive₂⟩ := hby.touched.exited key hexit
      rwa [Option.some.inj (hbs₁.symm.trans hbs₂)]
    · rw [not_or] at hexit
      rw [hstatus hexit.1 hexit.2]
      exact hactive
  exact ⟨unlocateEntry bs₁, unlocate_of_getElem? (hby.kept hbs₁ hactive₁), hactive₁, hamount⟩

theorem Entered.exited (h : Entered checks before b e after) (hkey : key ∈ unbondedBy b.actions) :
    ∃ bs, after.bonds[key]? = some bs ∧ bs.2 ≠ .active := by
  obtain ⟨c, offer, c', a, pools, -, hby, rfl, rfl, -⟩ := h.filled
  obtain ⟨bs, hbs, hactive⟩ := hby.touched.exited key (.inl hkey)
  exact ⟨unlocateEntry bs, unlocate_of_getElem? (hby.kept hbs hactive), hactive⟩

/-! ### The block -/

theorem Entered.pools_written (h : Entered checks before b e after) (hblock : popped.block = b)
    (hrewards : popped.bondRewards = e.record)
    (hamounts : popped.unbondingAmounts = (unbondedBy b.actions).map fun k => (k, (amountOf after.bonds k).toNat))
    (hpools : prepareChainValuePoolsBatch checks before.pools popped = .ok pools') :
    pools' = after.pools := by
  obtain ⟨c, offer, c', a, pools, rfl, hby, rfl, rfl, -⟩ := h.filled
  obtain ⟨info, hrewarded⟩ := hby.rewarded
  have hchange : popped.block.chainValuePoolChange popped.block.spent = .ok a.block.poolChange := by
    obtain ⟨htoBlock, hspent, hchange⟩ := Chain.withBlockAndSpentUtxos_eq_ok a.block_eq
    rw [hblock, htoBlock, hspent]
    exact hchange
  have hsame : unbondedSum c'.snapshot.unlocate.bonds a.block.actions =
      unbondedSum a.filled.delegationBonds a.block.actions :=
    unbondedSum_congr fun k hk => (amountOf_unlocate _ k).trans (hby.amountOf_eq hk)
  have hsum := hrewarded.sum hby.small
  rw [← hrewards] at hsum
  obtain ⟨pools₁, pools₂, hadd', hbonded₂, hframe₂, hfold⟩ := (prepareChainValuePoolsBatch_eq_ok hchange hsum).mp hpools
  rw [hamounts] at hfold
  rw [hrewards] at hbonded₂
  have hshift := prepareUnbondingAmounts_eq_ok (fun ka hka => by
    obtain ⟨k, -, rfl⟩ := mem_map.mp hka
    exact amountOf_lt _ k) hfold
  rw [sum_unbondingAmounts, hsame] at hshift
  have htouched := hby.touched.pools
  have hpool : (c'.chainValuePools .stakingBonded).zatoshis =
      (pools .stakingBonded).zatoshis + (if e.record = [] then 0 else (Ledger.bondRewardTotal : ℤ)) := hrewarded.pool
  refine ext fun p => ?_
  change _ = (c'.chainValuePools p).zatoshis
  have hp := hadd' p
  have hp' := hby.pools_eq p
  change (pools₁ p).zatoshis = (c.chainValuePools p).zatoshis + _ at hp
  by_cases hbonded : p = .stakingBonded
  · subst hbonded
    have := hshift.bonded
    have := htouched.bonded
    omega
  · have hafter : c'.chainValuePools p = pools p := hrewarded.pools p hbonded
    have hframe := hframe₂ p hbonded
    by_cases hunbonded : p = .stakingUnbonded
    · subst hunbonded
      have hu := hshift.unbonded
      have := htouched.unbonded
      rw [hframe] at hu
      rw [hafter]
      omega
    · rw [hshift.others p hbonded hunbonded, hframe, hafter, hp, hp', htouched.others p hbonded hunbonded]

variable {db db' : ZebraDb}

theorem Entered.written (h : Entered checks before b e after) (hpos : 0 < b.height) (hpaired : Paired db.toFinalizedBonds)
    (hdb : (Chain.new db).snapshot.unlocate = before) (hblock : popped.block = b) (hrewards : popped.bondRewards = e.record)
    (hamounts : popped.unbondingAmounts = (unbondedBy b.actions).map fun k => (k, (amountOf after.bonds k).toNat))
    (hwrite : db.writeBlock checks popped = .ok db') :
    Paired db'.toFinalizedBonds ∧ (Chain.new db').snapshot.unlocate = after ∧
      db'.blockInfo = Function.update db.blockInfo b.height (some ⟨after.pools, b.size % 2 ^ 32⟩) := by
  unfold ZebraDb.writeBlock at hwrite
  rw [if_neg (by rw [hblock]; omega)] at hwrite
  obtain ⟨w, hbatch, hwrite⟩ := bind_eq_ok.mp hwrite
  obtain ⟨pools', hpools, hwrite⟩ := bind_eq_ok.mp hwrite
  obtain rfl := pure_eq_ok.mp hwrite
  rw [show db.valuePool = before.pools from congrArg Snapshot.pools hdb] at hpools
  obtain rfl := h.pools_written hblock hrewards hamounts hpools
  obtain ⟨bonds', hmirror, hbonds'⟩ := h.bonds_written (mirrored_iff.mpr ⟨hpaired, rfl⟩) (congrArg Snapshot.bonds hdb)
    hblock hrewards (mapError_eq_ok.mp hbatch)
  obtain ⟨hpaired', rfl⟩ := mirrored_iff.mp hmirror
  exact ⟨hpaired', congrArg₂ Snapshot.mk hbonds' rfl, by rw [hblock]⟩

end Crosslink.State

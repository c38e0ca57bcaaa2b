import Crosslink.State.Moves
import Crosslink.Consensus.Verifier

/-!
# Backing of the staking pools

The bonded pool should hold what the active bonds add up to, and the unbonded pool what the unbonding bonds add up to.
Creating and withdrawing a bond reach the pools through the value balances of the block's transactions, unbonding and
the reward change them directly. From a state where both equations hold, an accepted block keeps them exactly when it
does not withdraw a bond that is worth something for a second time: each such withdrawal takes the amount of the bond
out of the pool once more, while the bond is withdrawn already.
-/

namespace Crosslink.State

open Codec Fallible Staking List ValueBalance

/-- The staking pools hold what the bonds add up to. -/
structure Backed (l : Ledger) : Prop where
  bonded : (l.chainValuePools .stakingBonded).zatoshis = stakeTotal .active l.delegationBonds
  unbonded : (l.chainValuePools .stakingUnbonded).zatoshis = stakeTotal .unbonding l.delegationBonds

/-! ### The pool change of a block -/

def paidIn (actions : List (StakingAction × ℕ)) : ℤ := (actions.map fun a => paysIn a.1).sum

def paidOut (actions : List (StakingAction × ℕ)) : ℤ := (actions.map fun a => paysOut a.1).sum

section ValueBalance

variable {outputs : Table OutPoint Output}

theorem sum_actions (f : StakingAction → ℤ) (txs : List (TxHash × Transaction)) (n : ℕ) :
    (((txs.zipIdx n).filterMap fun t => t.1.2.stakingAction.map (·, t.2)).map fun a => f a.1).sum =
      (txs.map fun t => (t.2.stakingAction.map f).getD 0).sum := by
  induction txs generalizing n with
  | nil => rfl
  | cons t txs ih =>
    rw [zipIdx_cons, filterMap_cons, map_cons, sum_cons, ← ih (n + 1)]
    cases t.2.stakingAction <;> simp

theorem valueBalances_staking (hall : ∀ t ∈ txs, ∃ v, t.2.valueBalance outputs = .ok v)
    (h : Block.valueBalances outputs txs = .ok vs) :
    (vs.map fun v => (v .stakingBonded).zatoshis).sum =
        -(txs.map fun t => (t.2.stakingAction.map paysIn).getD 0).sum ∧
      (vs.map fun v => (v .stakingUnbonded).zatoshis).sum =
        (txs.map fun t => (t.2.stakingAction.map paysOut).getD 0).sum := by
  induction txs generalizing vs with
  | nil =>
    obtain rfl := Except.ok.inj h
    simp
  | cons t txs ih =>
    obtain ⟨v, hv⟩ := hall t mem_cons_self
    rw [Block.valueBalances, hv] at h
    dsimp only at h
    cases hrest : Block.valueBalances outputs txs with
    | error e =>
      rw [hrest] at h
      cases h
    | ok rest =>
      rw [hrest] at h
      obtain rfl := Except.ok.inj h
      obtain ⟨hbonded, hunbonded⟩ := ih (fun t' ht' => hall t' (mem_cons_of_mem t ht')) hrest
      obtain ⟨hb, hu⟩ := valueBalance_staking hv
      simp only [map_cons, sum_cons, hbonded, hunbonded, hb, hu, neg_add, and_self]

end ValueBalance

/-- The values in the block of an offer went through the verifiers. -/
def Offer.ValuesVerified (offer : Offer) : Prop :=
  Consensus.ValuesVerified offer.block fun outpoint =>
    (offer.block.spentOutputs offer.spent outpoint).map Utxo.output

theorem chainValuePoolChange_staking {offer : Offer} (hall : offer.ValuesVerified)
    (h : offer.block.chainValuePoolChange (offer.block.spentOutputs offer.spent) = .ok change) :
    (change .stakingBonded).zatoshis = paidIn offer.block.actions ∧
      (change .stakingUnbonded).zatoshis = -paidOut offer.block.actions := by
  unfold Block.chainValuePoolChange at h
  obtain ⟨vs, hvs, h⟩ := bind_eq_ok.mp h
  obtain ⟨sum, hsum, h⟩ := bind_eq_ok.mp h
  obtain rfl := pure_eq_ok.mp h
  obtain ⟨hbonded, hunbonded⟩ := valueBalances_staking (fun t ht => hall.valueBalance ht) hvs
  have hpool : ∀ p, p ≠ .deferred → ∀ a, (sum.neg.setAmount .deferred a p).zatoshis = -(sum p).zatoshis := by
    intro p hp a
    rw [setAmount, Function.update_of_ne hp]
    rfl
  rw [hpool _ (by decide), hpool _ (by decide), sum_eq_ok (mapError_eq_ok.mp hsum), hbonded,
    sum_eq_ok (mapError_eq_ok.mp hsum), hunbonded, paidIn, paidOut, Block.actions, sum_actions, sum_actions,
    neg_neg]
  exact ⟨rfl, rfl⟩

/-! ### The actions of a block -/

/-- What the actions take out of the unbonded pool for bonds in `seen`, or bonds that they withdrew before. -/
def overdraft (seen : List BondKey) : List (StakingAction × ℕ) → ℤ
  | [] => 0
  | a :: actions => (if a.1.arg32_0 ∈ seen then paysOut a.1 else 0) + overdraft (seen ++ withdrawnBy [a]) actions

theorem overdraft_snoc (seen : List BondKey) (pre : List (StakingAction × ℕ)) (x : StakingAction × ℕ) :
    overdraft seen (pre ++ [x]) =
      overdraft seen pre + if x.1.arg32_0 ∈ seen ++ withdrawnBy pre then paysOut x.1 else 0 := by
  induction pre generalizing seen with
  | nil => simp [overdraft, withdrawnBy]
  | cons a pre ih =>
    have hcons : withdrawnBy (a :: pre) = withdrawnBy [a] ++ withdrawnBy pre := by
      unfold withdrawnBy
      rw [← map_append, ← filter_append]
      rfl
    rw [cons_append, overdraft, overdraft, ih, hcons, append_assoc, add_assoc]

def surplus (l : Ledger) : ℤ :=
  (l.chainValuePools .stakingUnbonded).zatoshis - stakeTotal .unbonding l.delegationBonds

/-- The pools and the bonds in the middle of a block that began with a surplus. -/
structure MidBlock (before : ℤ) (pre : List (StakingAction × ℕ)) (l : Ledger) : Prop where
  bonded : (l.chainValuePools .stakingBonded).zatoshis + paidIn pre = stakeTotal .active l.delegationBonds
  unbonded : (l.chainValuePools .stakingUnbonded).zatoshis + overdraft [] pre =
    stakeTotal .unbonding l.delegationBonds + paidOut pre + before

theorem paidIn_snoc (pre : List (StakingAction × ℕ)) (x : StakingAction × ℕ) :
    paidIn (pre ++ [x]) = paidIn pre + paysIn x.1 := by
  simp [paidIn]

theorem paidOut_snoc (pre : List (StakingAction × ℕ)) (x : StakingAction × ℕ) :
    paidOut (pre ++ [x]) = paidOut pre + paysOut x.1 := by
  simp [paidOut]

theorem asI64_of_amount {n : ℕ} {a : Amount .nonNegative} (h : a.zatoshis = n) : asI64 n = a.zatoshis := by
  rw [h]
  exact Amount.asI64_of_le (h ▸ a.le_max)

theorem MidBlock.step {before : ℤ} {chain : Bonds} {pre : List (StakingAction × ℕ)} {x : StakingAction × ℕ} {l l' : Ledger}
    {location : TransactionLocation} (h : MidBlock before pre l) (hmoves : Moves chain pre l x.1 location l') :
    MidBlock before (pre ++ [x]) l' := by
  obtain ⟨hbonded, hunbonded⟩ := h
  have hover : overdraft [] (pre ++ [x]) =
      overdraft [] pre + if x.1.arg32_0 ∈ withdrawnBy pre then paysOut x.1 else 0 := overdraft_snoc [] pre x
  cases hmoves with
  | create amount hk hamount hchain hnew =>
    have hin : paysIn x.1 = amount.zatoshis := by rw [paysIn, if_pos hk, asI64_of_amount hamount]
    have hout : paysOut x.1 = 0 := by simp [paysOut, hk]
    constructor
    · rw [paidIn_snoc, hin, stakeTotal_insert_new hnew, stakeOf, if_pos rfl]
      dsimp only
      omega
    · rw [paidOut_snoc, hover, hout, ite_self, stakeTotal_insert_new hnew, stakeOf, if_neg (by simp)]
      dsimp only
      omega
  | unbond bond bonded unbonded hk hbond hchain hb hu =>
    have hin : paysIn x.1 = 0 := by simp [paysIn, hk]
    have hout : paysOut x.1 = 0 := by simp [paysOut, hk]
    constructor
    · simp only [setAmount, Function.update_of_ne (show Pool.stakingBonded ≠ .stakingUnbonded by decide),
        Function.update_self]
      rw [paidIn_snoc, hin, stakeTotal_insert_old hbond, stakeOf, if_pos rfl, stakeOf, if_neg (by simp)]
      dsimp only
      omega
    · simp only [setAmount, Function.update_self]
      rw [paidOut_snoc, hover, hout, ite_self, stakeTotal_insert_old hbond, stakeOf, if_neg (by simp), stakeOf,
        if_pos rfl]
      dsimp only
      omega
  | withdraw bond bond₀ hk hbond hchain hamount =>
    have hin : paysIn x.1 = 0 := by simp [paysIn, hk]
    have hout : paysOut x.1 = bond.amount.zatoshis := by rw [paysOut, if_pos hk, asI64_of_amount hamount]
    -- a bond that the block withdrew before no longer counts as unbonding, but its amount is paid out again
    by_cases hmem : x.1.arg32_0 ∈ withdrawnBy pre
    · rw [if_pos hmem] at hbond
      constructor
      · rw [paidIn_snoc, hin, stakeTotal_insert_old hbond]
        simp only [stakeOf, reduceCtorEq, if_false]
        omega
      · rw [paidOut_snoc, hover, if_pos hmem, hout, stakeTotal_insert_old hbond]
        simp only [stakeOf, reduceCtorEq, if_false]
        omega
    · rw [if_neg hmem] at hbond
      constructor
      · rw [paidIn_snoc, hin, stakeTotal_insert_old hbond]
        simp only [stakeOf, reduceCtorEq, if_false]
        omega
      · rw [paidOut_snoc, hover, if_neg hmem, hout, stakeTotal_insert_old hbond]
        simp only [stakeOf, reduceCtorEq, if_true, if_false]
        omega
  | retarget bond status retargets hk hbond hstatus hchain hretargets =>
    have hin : paysIn x.1 = 0 := by simp [paysIn, hk]
    have hout : paysOut x.1 = 0 := by simp [paysOut, hk]
    constructor
    · rw [paidIn_snoc, hin, stakeTotal_insert_old hbond]
      simp only [stakeOf]
      omega
    · rw [paidOut_snoc, hover, hout, ite_self, stakeTotal_insert_old hbond]
      simp only [stakeOf]
      omega
  | other hk =>
    have hin : paysIn x.1 = 0 := if_neg (by intro h; rw [h] at hk; cases hk)
    have hout : paysOut x.1 = 0 := if_neg (by intro h; rw [h] at hk; cases hk)
    constructor
    · rw [paidIn_snoc, hin, add_zero]
      exact hbonded
    · rw [paidOut_snoc, hover, hout, ite_self, add_zero, add_zero]
      exact hunbonded

/-! ### Accepted blocks -/

variable {checks : Bool} {c c' : Chain} {offer : Offer}

def BondedBacked (l : Ledger) : Prop :=
  (l.chainValuePools .stakingBonded).zatoshis = stakeTotal .active l.delegationBonds

theorem Accepted.midBlock (a : Accepted checks c offer c') (hc : BondedBacked c.toLedger) :
    MidBlock (surplus c.toLedger) offer.block.actions a.filled.toLedger := by
  refine accepted_induction a (R := MidBlock (surplus c.toLedger)) ⟨?_, ?_⟩ fun pre x l l' hR _ hmoves =>
    hR.step hmoves
  · simpa [BondedBacked, paidIn, openLedger] using hc
  · simp [surplus, paidOut, overdraft, openLedger]

theorem Accepted.closed (a : Accepted checks c offer c') : ∃ pools record,
    (∀ p, (pools p).zatoshis = (a.filled.chainValuePools p).zatoshis + (a.block.poolChange p).zatoshis) ∧
      Ledger.Rewarded { a.filled.toLedger with
        chainValuePools := pools
        blockInfoByHeight := Function.update a.filled.blockInfoByHeight offer.block.height
          (some ⟨pools, offer.block.size % 2 ^ 32⟩) } record c'.toLedger := by
  have hclose := a.close_eq
  unfold Chain.closeLedger Ledger.updateChainValuePools at hclose
  rw [(Chain.withBlockAndSpentUtxos_eq_ok a.block_eq).1] at hclose
  obtain ⟨l₁, h₁, hclose⟩ := bind_eq_ok.mp hclose
  obtain ⟨pools, hpools, h₁⟩ := bind_eq_ok.mp h₁
  obtain rfl := pure_eq_ok.mp h₁
  obtain ⟨record, hrewarded⟩ := Ledger.payBlockReward_eq_ok (mapError_eq_ok.mp hclose)
  exact ⟨pools, record, addChainValuePoolChange_eq_ok.mp (mapError_eq_ok.mp hpools), hrewarded⟩

theorem Accepted.active_lt (a : Accepted checks c offer c') (hc : BondedBacked c.toLedger)
    (hall : offer.ValuesVerified) {pools : ValueBalance .nonNegative}
    (hpools : ∀ p, (pools p).zatoshis = (a.filled.chainValuePools p).zatoshis + (a.block.poolChange p).zatoshis) :
    (pools .stakingBonded).zatoshis = stakeTotal .active a.filled.delegationBonds ∧
      stakeTotal .active a.filled.delegationBonds < 2 ^ 64 := by
  have hbonded : (pools .stakingBonded).zatoshis = stakeTotal .active a.filled.delegationBonds := by
    rw [hpools, (chainValuePoolChange_staking hall (Chain.withBlockAndSpentUtxos_eq_ok a.block_eq).2.2).1,
      (a.midBlock hc).bonded]
  refine ⟨hbonded, ?_⟩
  rw [← hbonded]
  exact lt_of_le_of_lt (pools .stakingBonded).le_max (by decide)

theorem accept_pools (hc : BondedBacked c.toLedger) (hall : offer.ValuesVerified)
    (h : c.accept checks offer = .ok c') :
    BondedBacked c'.toLedger ∧ surplus c'.toLedger + overdraft [] offer.block.actions = surplus c.toLedger := by
  obtain ⟨a⟩ := Chain.accept_eq_ok h
  obtain ⟨pools, record, hpools, hrewarded⟩ := a.closed
  obtain ⟨hbonded, hlt⟩ := a.active_lt hc hall hpools
  have hout := (chainValuePoolChange_staking hall (Chain.withBlockAndSpentUtxos_eq_ok a.block_eq).2.2).2
  have hmid := (a.midBlock hc).unbonded
  constructor
  · rw [BondedBacked, hrewarded.pool, hrewarded.paid.stakeTotal_eq hrewarded.active, if_pos rfl, hrewarded.sum hlt]
    simp only [hbonded]
    split_ifs <;> simp
  · rw [surplus, hrewarded.pools _ (by decide), hrewarded.paid.stakeTotal_eq hrewarded.active, if_neg (by decide),
      add_zero]
    simp only [hpools .stakingUnbonded, hout]
    omega

/-- No bond that is worth something is withdrawn after the same block withdrew it. -/
def WithdrawsOnce (actions : List (StakingAction × ℕ)) : Prop :=
  actions.Pairwise fun a b => a.1.kind = .withdrawDelegationBond → b.1.kind = .withdrawDelegationBond →
    a.1.arg32_0 = b.1.arg32_0 → b.1.amountZats = 0

instance (actions : List (StakingAction × ℕ)) : Decidable (WithdrawsOnce actions) :=
  inferInstanceAs (Decidable (List.Pairwise _ _))

def SmallWithdrawals (actions : List (StakingAction × ℕ)) : Prop :=
  ∀ a ∈ actions, a.1.kind = .withdrawDelegationBond → (a.1.amountZats : ℤ) ≤ maxMoney

theorem paysOut_nonneg (h : SmallWithdrawals actions) (ha : a ∈ actions) : 0 ≤ paysOut a.1 := by
  unfold paysOut
  split_ifs with hk
  · rw [Amount.asI64_of_le (h a ha hk)]
    omega
  · exact le_rfl

theorem paysOut_eq_zero (h : SmallWithdrawals actions) (ha : a ∈ actions) :
    paysOut a.1 = 0 ↔ (a.1.kind = .withdrawDelegationBond → a.1.amountZats = 0) := by
  unfold paysOut
  split_ifs with hk
  · rw [Amount.asI64_of_le (h a ha hk)]
    simp [hk]
  · simp [hk]

theorem overdraft_nonneg (seen : List BondKey) (h : SmallWithdrawals actions) :
    0 ≤ overdraft seen actions := by
  induction actions generalizing seen with
  | nil => exact le_rfl
  | cons a actions ih =>
    have hhead : 0 ≤ if a.1.arg32_0 ∈ seen then paysOut a.1 else 0 := by
      split_ifs
      · exact paysOut_nonneg h mem_cons_self
      · exact le_rfl
    exact add_nonneg hhead (ih _ fun x hx => h x (mem_cons_of_mem a hx))

theorem overdraft_eq_zero (seen : List BondKey) (h : SmallWithdrawals actions) :
    overdraft seen actions = 0 ↔ (∀ a ∈ actions, a.1.arg32_0 ∈ seen → paysOut a.1 = 0) ∧ WithdrawsOnce actions := by
  induction actions generalizing seen with
  | nil => simp [overdraft, WithdrawsOnce]
  | cons a actions ih =>
    have hrest : SmallWithdrawals actions := fun x hx => h x (mem_cons_of_mem a hx)
    have hhead : 0 ≤ if a.1.arg32_0 ∈ seen then paysOut a.1 else 0 := by
      split_ifs
      · exact paysOut_nonneg h mem_cons_self
      · exact le_rfl
    have hcons : WithdrawsOnce (a :: actions) ↔ (∀ b ∈ actions, a.1.kind = .withdrawDelegationBond →
        b.1.kind = .withdrawDelegationBond → a.1.arg32_0 = b.1.arg32_0 → b.1.amountZats = 0) ∧
          WithdrawsOnce actions := pairwise_cons
    rw [overdraft, add_eq_zero_iff_of_nonneg hhead (overdraft_nonneg _ hrest), ih _ hrest, hcons]
    have hseen : ∀ key, key ∈ seen ++ withdrawnBy [a] ↔
        key ∈ seen ∨ a.1.kind = .withdrawDelegationBond ∧ a.1.arg32_0 = key := by
      intro key
      rw [mem_append, ← nil_append [a], mem_withdrawnBy_snoc]
      simp [withdrawnBy]
    have hzero : ∀ x ∈ actions, (paysOut x.1 = 0 ↔ (x.1.kind = .withdrawDelegationBond → x.1.amountZats = 0)) :=
      fun x hx => paysOut_eq_zero hrest hx
    simp only [hseen, forall_mem_cons]
    grind

theorem Accepted.smallWithdrawals (a : Accepted checks c offer c') : SmallWithdrawals offer.block.actions := by
  refine accepted_induction a (R := fun pre _ => SmallWithdrawals pre) (by simp [SmallWithdrawals]) ?_
  intro pre x l l' hR _ hmoves y hy hk
  rcases mem_append.mp hy with hy | hy
  · exact hR y hy hk
  · obtain rfl := mem_singleton.mp hy
    cases hmoves with
    | withdraw bond bond₀ _ hbond hchain hamount =>
      rw [← hamount]
      exact bond.amount.le_max
    | _ => simp_all [StakingActionKind.actsOnBond]

theorem accept_backed (hc : Backed c.toLedger) (hall : offer.ValuesVerified) (h : c.accept checks offer = .ok c') :
    Backed c'.toLedger ↔ WithdrawsOnce offer.block.actions := by
  obtain ⟨hbonded, hunbonded⟩ := accept_pools hc.bonded hall h
  obtain ⟨a⟩ := Chain.accept_eq_ok h
  have hbefore := hc.unbonded
  unfold surplus at hunbonded
  have hzero := overdraft_eq_zero [] a.smallWithdrawals
  simp only [not_mem_nil, false_implies, implies_true, true_and] at hzero
  rw [← hzero]
  constructor
  · intro hbacked
    have := hbacked.unbonded
    omega
  · intro hover
    exact ⟨hbonded, by omega⟩

/-- Along accepted blocks the pools are backed at every block just when no block withdraws a bond of some worth twice. -/
theorem backed_iff_withdrawsOnce {offers : List Offer} (hc : Backed c.toLedger)
    (hall : ∀ offer ∈ offers, offer.ValuesVerified) (h : offers.foldlM (Chain.accept checks) c = .ok c') :
    (∀ pre, pre <+: offers → ∀ c₁, pre.foldlM (Chain.accept checks) c = .ok c₁ → Backed c₁.toLedger) ↔
      ∀ offer ∈ offers, WithdrawsOnce offer.block.actions := by
  induction offers generalizing c with
  | nil =>
    simp only [prefix_nil, forall_eq, not_mem_nil, false_implies, implies_true, iff_true]
    intro c₁ h₁
    rw [← foldlM_nil_eq_ok.mp h₁]
    exact hc
  | cons offer offers ih =>
    obtain ⟨c₁, h₁, hrest⟩ := foldlM_cons_eq_ok.mp h
    have hstep := accept_backed hc (hall offer mem_cons_self) h₁
    have hih := fun hc₁ => ih hc₁ (fun o ho => hall o (mem_cons_of_mem offer ho)) hrest
    rw [forall_mem_cons, ← hstep]
    constructor
    · intro hpre
      have hc₁ : Backed c₁.toLedger :=
        hpre [offer] (prefix_append [offer] offers) c₁ (foldlM_cons_eq_ok.mpr ⟨c₁, h₁, rfl⟩)
      refine ⟨hc₁, (hih hc₁).mp ?_⟩
      intro pre hprefix c₂ h₂
      exact hpre (offer :: pre) (cons_prefix_cons.mpr ⟨rfl, hprefix⟩) c₂ (foldlM_cons_eq_ok.mpr ⟨c₁, h₁, h₂⟩)
    · rintro ⟨hc₁, honce⟩ pre hprefix c₂ h₂
      cases pre with
      | nil =>
        rw [← foldlM_nil_eq_ok.mp h₂]
        exact hc
      | cons o pre =>
        obtain ⟨rfl, hpre⟩ := cons_prefix_cons.mp hprefix
        obtain ⟨c₁', h₁', h₂⟩ := foldlM_cons_eq_ok.mp h₂
        obtain rfl := Except.ok.inj (h₁.symm.trans h₁')
        exact (hih hc₁).mpr honce pre hpre c₂ h₂

theorem unbondingDb_backed : Backed (Chain.new unbondingDb).toLedger := ⟨by decide +kernel, by decide +kernel⟩

theorem backed_iff_withdrawsOnce_withdrawBoth :
    (∃ c', [withdrawBoth].foldlM (Chain.accept true) (Chain.new unbondingDb) = .ok c') ∧
    ∀ pre, pre <+: [withdrawBoth] → ∀ c₁, pre.foldlM (Chain.accept true) (Chain.new unbondingDb) = .ok c₁ →
      Backed c₁.toLedger := by
  obtain ⟨c', h⟩ : ∃ c', [withdrawBoth].foldlM (Chain.accept true) (Chain.new unbondingDb) = .ok c' :=
    exists_ok_of_isSome (by decide +kernel)
  refine ⟨⟨c', h⟩, ?_⟩
  have hall : ∀ offer ∈ [withdrawBoth], offer.ValuesVerified := by
    intro offer hoffer
    obtain rfl := mem_singleton.1 hoffer
    exact .of_computed (by decide +kernel) (by decide +kernel)
  rw [backed_iff_withdrawsOnce unbondingDb_backed hall h]
  intro offer hoffer
  obtain rfl := mem_singleton.1 hoffer
  decide +kernel

/-- The second withdrawal empties the pool, while the other bond is still unbonding. -/
theorem withdrawTwice_not_backed :
    Backed (Chain.new unbondingDb).toLedger ∧ withdrawTwice.ValuesVerified ∧
      ∃ c', (Chain.new unbondingDb).accept true withdrawTwice = .ok c' ∧ ¬ Backed c'.toLedger := by
  have hall : withdrawTwice.ValuesVerified := .of_computed (by decide +kernel) (by decide +kernel)
  obtain ⟨c', h⟩ : ∃ c', (Chain.new unbondingDb).accept true withdrawTwice = .ok c' :=
    exists_ok_of_isSome (by decide +kernel)
  refine ⟨unbondingDb_backed, hall, c', h, ?_⟩
  rw [accept_backed unbondingDb_backed hall h]
  decide +kernel

end Crosslink.State

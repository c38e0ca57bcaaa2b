import Crosslink.Consensus.Verifier
import Crosslink.State.Chain

/-!
# Challenges and signatures of staking actions

A staking action carries a challenge and a signature beside the public key that names its bond. No part of the node
looks at the two: `resign` puts others in their place, and the staking checks of the verifier, the fee, the verdict of
the chain and the bonds and pools that result are the same. Hashes are those that come with a block.
-/

namespace Crosslink.Staking

open Codec Fallible Block

abbrev Signer := StakingAction → Bytes 32 × Bytes 64

def StakingAction.resign (f : Signer) (action : StakingAction) : StakingAction :=
  { action with arg32_1 := (f action).1, arg64_0 := (f action).2 }

def Transaction.resign (f : Signer) : Transaction → Transaction
  | .vCrosslink inputs outputs sapling orchard action =>
    .vCrosslink inputs outputs sapling orchard (action.map (StakingAction.resign f))
  | tx => tx

def Block.resign (f : Signer) (b : Block) : Block :=
  { b with transactions := b.transactions.map fun t => (t.1, t.2.resign f) }

section Resign

variable (f : Signer)

@[simp] theorem Transaction.resign_inputs (tx : Transaction) : (tx.resign f).inputs = tx.inputs := by
  cases tx <;> rfl

@[simp] theorem Transaction.resign_outputs (tx : Transaction) : (tx.resign f).outputs = tx.outputs := by
  cases tx <;> rfl

@[simp] theorem Transaction.resign_joinsplits (tx : Transaction) : (tx.resign f).joinsplits = tx.joinsplits := by
  cases tx <;> rfl

@[simp] theorem Transaction.resign_sapling (tx : Transaction) : (tx.resign f).sapling = tx.sapling := by
  cases tx <;> rfl

@[simp] theorem Transaction.resign_orchard (tx : Transaction) : (tx.resign f).orchard = tx.orchard := by
  cases tx <;> rfl

@[simp] theorem Transaction.resign_stakingAction (tx : Transaction) :
    (tx.resign f).stakingAction = tx.stakingAction.map (StakingAction.resign f) := by
  cases tx <;> rfl

@[simp] theorem Transaction.resign_isCoinbase (tx : Transaction) : (tx.resign f).isCoinbase = tx.isCoinbase := by
  simp [isCoinbase]

theorem Transaction.resign_valueBalance (tx : Transaction) (outputs : Table OutPoint Output) :
    (tx.resign f).valueBalance outputs = tx.valueBalance outputs := by
  have hstaking : (tx.resign f).stakingActionValueBalance = tx.stakingActionValueBalance := by
    unfold stakingActionValueBalance
    rw [resign_stakingAction]
    cases tx.stakingAction <;> rfl
  unfold valueBalance
  rw [hstaking]
  simp only [transparentValueBalance, sproutValueBalance, saplingValueBalance, orchardValueBalance, resign_inputs,
    resign_outputs, resign_joinsplits, resign_sapling, resign_orchard]

/-! ### Blocks -/

theorem resign_zipIdx (txs : List (TxHash × Transaction)) :
    (txs.map fun t => (t.1, t.2.resign f)).zipIdx = txs.zipIdx.map fun t => ((t.1.1, t.1.2.resign f), t.2) := by
  rw [List.zipIdx_map]
  rfl

theorem Block.resign_actions (b : Block) :
    (b.resign f).actions = b.actions.map fun a => (a.1.resign f, a.2) := by
  unfold actions resign
  rw [resign_zipIdx, List.filterMap_map, List.map_filterMap]
  congr 1
  funext t
  simp only [Function.comp_apply, Transaction.resign_stakingAction]
  cases t.1.2.stakingAction <;> rfl

theorem Block.resign_createdBy (height txIndex : ℕ) (hash : TxHash) (tx : Transaction) :
    Block.createdBy height txIndex hash (tx.resign f) = Block.createdBy height txIndex hash tx := by
  simp [createdBy]

theorem Block.resign_spentOutputs (b : Block) (spent : Table OutPoint Utxo) :
    (b.resign f).spentOutputs spent = b.spentOutputs spent := by
  have hnew : (b.resign f).newOutputs = b.newOutputs := by
    unfold newOutputs resign
    rw [resign_zipIdx, List.flatMap_map]
    simp only [resign_createdBy]
  unfold spentOutputs
  rw [hnew]

theorem Block.resign_valueBalances (outputs : Table OutPoint Output) (txs : List (TxHash × Transaction)) :
    Block.valueBalances outputs (txs.map fun t => (t.1, t.2.resign f)) = Block.valueBalances outputs txs := by
  induction txs with
  | nil => rfl
  | cons t txs ih =>
    rw [List.map_cons, valueBalances, valueBalances, Transaction.resign_valueBalance, ih]

theorem Block.resign_chainValuePoolChange (b : Block) (utxos : Table OutPoint Utxo) :
    (b.resign f).chainValuePoolChange utxos = b.chainValuePoolChange utxos := by
  unfold chainValuePoolChange
  rw [show (b.resign f).transactions = b.transactions.map fun t => (t.1, t.2.resign f) from rfl,
    resign_valueBalances]
  rfl

theorem resign_validateDelegationBonds (db : FinalizedBonds) (chain : Bonds) (b : Block) :
    validateDelegationBonds db chain (b.resign f) = validateDelegationBonds db chain b := by
  unfold validateDelegationBonds
  rw [resign_actions, List.foldlM_map]
  rfl

end Resign

end Crosslink.Staking

namespace Crosslink.State

open Codec Fallible Staking

variable (f : Signer) (checks : Bool)

def ContextuallyVerifiedBlock.resign (b : ContextuallyVerifiedBlock) : ContextuallyVerifiedBlock :=
  { b with toBlock := b.toBlock.resign f }

/-- The chain with other challenges and signatures in its blocks; its bonds and pools are the same. -/
def Chain.resign (c : Chain) : Chain := { c with blocks := c.blocks.map (ContextuallyVerifiedBlock.resign f) }

def Offer.resign (offer : Offer) : Offer := { offer with block := offer.block.resign f }

theorem resign_nextHeight (db : ZebraDb) (c : Chain) : (c.resign f).nextHeight db = c.nextHeight db := by
  unfold Chain.nextHeight Chain.resign
  rw [List.map_map]
  rfl

theorem resign_updateTx (b : ContextuallyVerifiedBlock) (c : Chain) (t : (TxHash × Transaction) × ℕ) :
    Chain.updateTx (b.resign f) (c.resign f) ((t.1.1, t.1.2.resign f), t.2) =
      Chain.resign f <$> Chain.updateTx b c t := by
  have hspends : Chain.spends (t.1.2.resign f) = Chain.spends t.1.2 := by
    unfold Chain.spends
    rw [Transaction.resign_inputs]
  have hact : ∀ l location, Chain.actOn l (t.1.2.resign f) location = Chain.actOn l t.1.2 location := by
    intro l location
    unfold Chain.actOn
    rw [Transaction.resign_stakingAction]
    cases t.1.2.stakingAction <;> rfl
  have hsprout : (t.1.2.resign f).sproutNullifiers = t.1.2.sproutNullifiers := by
    simp [Transaction.sproutNullifiers]
  have hsapling : (t.1.2.resign f).saplingNullifiers = t.1.2.saplingNullifiers := by
    simp [Transaction.saplingNullifiers]
  have horchard : (t.1.2.resign f).orchardNullifiers = t.1.2.orchardNullifiers := by
    simp [Transaction.orchardNullifiers]
  unfold Chain.updateTx
  simp only [hspends, hact, hsprout, hsapling, horchard, Block.resign_createdBy, map_bind, map_pure]
  rfl

theorem resign_openBlock (b : ContextuallyVerifiedBlock) (c : Chain) :
    (c.resign f).openBlock (b.resign f) = Chain.resign f <$> c.openBlock b := by
  unfold Chain.openBlock
  simp only [map_bind, map_pure]
  rfl

theorem resign_push (b : ContextuallyVerifiedBlock) (c : Chain) :
    (c.resign f).push checks (b.resign f) = Chain.resign f <$> c.push checks b := by
  unfold Chain.push
  refine bind_commute (resign_openBlock f b c) fun opened => ?_
  have hfold : (b.resign f).transactions.zipIdx.foldlM (Chain.updateTx (b.resign f)) (opened.resign f) =
      Chain.resign f <$> b.transactions.zipIdx.foldlM (Chain.updateTx b) opened := by
    rw [show (b.resign f).transactions = b.transactions.map fun t => (t.1, t.2.resign f) from rfl, resign_zipIdx]
    exact foldlM_commute (fun c t => resign_updateTx f b c t) _ _
  refine bind_commute hfold fun filled => ?_
  refine bind_commute (id_map _).symm fun ledger => ?_
  simp only [map_pure, Chain.resign, List.map_append, id_eq]
  rfl

theorem resign_accept (c : Chain) (offer : Offer) :
    (c.resign f).accept checks (offer.resign f) = Chain.resign f <$> c.accept checks offer := by
  have hblock : Chain.withBlockAndSpentUtxos (offer.resign f).block (offer.resign f).spent =
      ContextuallyVerifiedBlock.resign f <$> Chain.withBlockAndSpentUtxos offer.block offer.spent := by
    unfold Chain.withBlockAndSpentUtxos
    simp only [Offer.resign, Block.resign_spentOutputs, Block.resign_chainValuePoolChange, map_bind, map_pure]
    rfl
  have hvalid : validateDelegationBonds (offer.resign f).db.toFinalizedBonds (c.resign f).delegationBonds
      (offer.resign f).block = validateDelegationBonds offer.db.toFinalizedBonds c.delegationBonds offer.block :=
    resign_validateDelegationBonds f _ _ _
  unfold Chain.accept
  rw [hvalid, resign_nextHeight]
  refine bind_commute (id_map _).symm fun _ => ?_
  refine bind_commute (id_map _).symm fun _ => ?_
  exact bind_commute hblock fun b => resign_push f checks b c

theorem resign_checks (node : Consensus.Node) (tx : Transaction) (height : ℕ) (spent : Table OutPoint Output) :
    Consensus.checkStakingDayWindow (tx.resign f) height = Consensus.checkStakingDayWindow tx height ∧
      Consensus.checkStakingActionDelay node (tx.resign f) height = Consensus.checkStakingActionDelay node tx height ∧
      Consensus.minerFee (tx.resign f) spent = Consensus.minerFee tx spent := by
  refine ⟨?_, ?_, ?_⟩
  · unfold Consensus.checkStakingDayWindow
    rw [Transaction.resign_stakingAction]
    cases tx.stakingAction <;> rfl
  · unfold Consensus.checkStakingActionDelay
    rw [Transaction.resign_stakingAction]
    cases tx.stakingAction <;> rfl
  · unfold Consensus.minerFee
    rw [Transaction.resign_valueBalance, Transaction.resign_isCoinbase]

def actOnFirst (kind : StakingActionKind) (amount : ℕ) : Block := sampleBlock 150 [stakingTx kind 1 amount]

theorem accept_resign_status {offer : Offer} {status : BondStatusInChain}
    (h : ((Chain.new db).accept true offer).toOption.bind (fun c' => c'.status? key) = some status) :
    ∃ c', (Chain.new db).accept true (offer.resign f) = .ok c' ∧ c'.status? key = some status := by
  have hsame := resign_accept f true (Chain.new db) offer
  cases haccept : (Chain.new db).accept true offer with
  | error e =>
    rw [haccept] at h
    cases h
  | ok c' =>
    rw [haccept] at h hsame
    exact ⟨c'.resign f, hsame, h⟩

def zeroSigner : Signer := fun _ => (Bytes.zero 32, Bytes.zero 64)

end Crosslink.State

import Crosslink.Staking.Ledger
import Crosslink.Lib.HashTree

/-!
# A chain of the non-finalized state

A chain keeps its blocks and what follows from them: the indexes by hash, the outputs created and spent, the
nullifiers, and the ledger of bonds and pools. `push` adds a block at the tip, `popTip` takes it off again, `popRoot`
hands the lowest block to the database, and `fork` takes blocks off until a given one is the tip. Note commitment
trees, anchors, history trees and the address index are not modelled.
-/

namespace Crosslink.State

open Codec Fallible Bft Staking
open Std (ExtTreeMap)

instance : HashTree.HashLinked Block BlockHash := ⟨Block.hash, Block.previousBlockHash, Block.height⟩

/-- A block with the outputs that it spends and the change it makes to the value pools. -/
structure ContextuallyVerifiedBlock extends Block where
  spent : Table OutPoint Utxo
  poolChange : ValueBalance .negativeAllowed

/-- What is looked up by hash, outpoint or nullifier. -/
@[ext]
structure ChainIndex where
  heightByHash : Table BlockHash ℕ
  txLocByHash : Table TxHash TransactionLocation
  createdUtxos : Table OutPoint Utxo
  spentUtxos : Table OutPoint Unit
  sproutNullifiers : Table Nullifier Unit
  saplingNullifiers : Table Nullifier Unit
  orchardNullifiers : Table Nullifier Unit

@[ext]
structure Chain extends Ledger, ChainIndex where
  /-- Lowest first. -/
  blocks : List ContextuallyVerifiedBlock
  partialCumulativeWork : ℕ

/-- The database: the finalized blocks, their bonds and the value pools after them. -/
structure ZebraDb extends FinalizedBonds where
  /-- Lowest first. -/
  blocks : List Block
  valuePool : ValueBalance .nonNegative
  blockInfo : Table ℕ BlockInfo

namespace Chain

/-! ### Push -/

def chainStatus : BondStatus → BondStatusInChain
  | .active => .active
  | .unbonding _ => .unbonding
  | .withdrawn _ => .withdrawn

/-- The bonds of the database as a new chain takes them over: the location is that of the creation. -/
def finalizedBonds (db : FinalizedBonds) : Bonds :=
  db.bondStatusByKey.filterMap fun key status => db.delegationBondByKey[key]?.map (·, chainStatus status)

/-- `Chain::new`, from the finalized tip. -/
def new (db : ZebraDb) : Chain where
  delegationBonds := finalizedBonds db.toFinalizedBonds
  bondRewards := []
  bondRetargets := []
  chainValuePools := db.valuePool
  blockInfoByHeight := Table.empty
  heightByHash := Table.empty
  txLocByHash := Table.empty
  createdUtxos := Table.empty
  spentUtxos := Table.empty
  sproutNullifiers := Table.empty
  saplingNullifiers := Table.empty
  orchardNullifiers := Table.empty
  blocks := []
  partialCumulativeWork := 0

def spends (tx : Transaction) : List OutPoint := tx.inputs.filterMap Input.outpoint

/-- `add_to_non_finalized_chain_unique`. -/
def addNullifiers (t : Table Nullifier Unit) (nullifiers : List Nullifier) :
    Except (Stop ValidateContextError) (Table Nullifier Unit) :=
  nullifiers.foldlM (fun t n => Table.insertNew (.error (.duplicateNullifier n)) t n ()) t

/-- The bonds after the staking action of a transaction, if it has one. -/
def actOn (l : Ledger) (tx : Transaction) (location : TransactionLocation) :
    Except (Stop ValidateContextError) Ledger :=
  match tx.stakingAction with
  | none => .ok l
  | some action => l.updateChainTipWithDelegationBond action location

def updateTx (b : ContextuallyVerifiedBlock) (c : Chain) (t : (TxHash × Transaction) × ℕ) :
    Except (Stop ValidateContextError) Chain := do
  let location := ⟨b.height, t.2⟩
  let txLocByHash ← Table.insertNew (.panic .assert) c.txLocByHash t.1.1 location
  let createdUtxos ← Table.insertAll (.panic .assert) c.createdUtxos (Block.createdBy b.height t.2 t.1.1 t.1.2)
  let spentUtxos ← Table.insertAll (.panic .assert) c.spentUtxos ((spends t.1.2).map (·, ()))
  (ensure (∀ o ∈ spends t.1.2, b.spent o ≠ none)).mapError .panic
  let ledger ← actOn c.toLedger t.1.2 location
  let sproutNullifiers ← addNullifiers c.sproutNullifiers t.1.2.sproutNullifiers
  let saplingNullifiers ← addNullifiers c.saplingNullifiers t.1.2.saplingNullifiers
  let orchardNullifiers ← addNullifiers c.orchardNullifiers t.1.2.orchardNullifiers
  return { c with
    toLedger := ledger
    txLocByHash, createdUtxos, spentUtxos, sproutNullifiers, saplingNullifiers, orchardNullifiers }

/-- The state in which the transactions of a block are gone through. -/
def openBlock (c : Chain) (b : ContextuallyVerifiedBlock) : Except (Stop ValidateContextError) Chain := do
  let heightByHash ← Table.insertNew (.panic .assert) c.heightByHash b.hash b.height
  return { c with
    heightByHash
    partialCumulativeWork := c.partialCumulativeWork + b.work
    bondRetargets := ∅ :: c.bondRetargets }

/-- The pool change and the reward, once the transactions are gone through. -/
def closeLedger (checks : Bool) (l : Ledger) (b : ContextuallyVerifiedBlock) :
    Except (Stop ValidateContextError) Ledger := do
  let l ← l.updateChainValuePools b.poolChange b.height b.size
  (l.payBlockReward checks).mapError .panic

def push (checks : Bool) (c : Chain) (b : ContextuallyVerifiedBlock) : Except (Stop ValidateContextError) Chain := do
  let c ← c.openBlock b
  let c ← b.transactions.zipIdx.foldlM (updateTx b) c
  let ledger ← closeLedger checks c.toLedger b
  return { c with toLedger := ledger, blocks := c.blocks ++ [b] }

/-- `ContextuallyVerifiedBlock::with_block_and_spent_utxos`. -/
def withBlockAndSpentUtxos (b : Block) (spent : Table OutPoint Utxo) :
    Except (Stop ValidateContextError) ContextuallyVerifiedBlock := do
  let spent := b.spentOutputs spent
  let poolChange ← (b.chainValuePoolChange spent).mapError (Stop.mapErr .calculateBlockChainValueChange)
  return { b with spent, poolChange }

def nextHeight (db : ZebraDb) (c : Chain) : ℕ :=
  (((c.blocks.map (·.height)).getLast?).or (db.blocks.getLast?.map (·.height))).elim 0 (· + 1)

/-! ### Pop -/

inductive RevertPosition where
  | root
  | tip
  deriving DecidableEq

def unspend (l : Ledger) (tx : Transaction) (position : RevertPosition) : Except Panic Ledger :=
  match tx.stakingAction, position with
  | some action, .tip => l.revertDelegationBond action
  | _, _ => .ok l

/-- Transactions are reverted in the order in which they were added. -/
def revertTx (b : ContextuallyVerifiedBlock) (position : RevertPosition) (c : Chain)
    (t : (TxHash × Transaction) × ℕ) : Except Panic Chain := do
  let createdUtxos ← Table.removeAll .assert c.createdUtxos
    ((Block.createdBy b.height t.2 t.1.1 t.1.2).map Prod.fst)
  let spentUtxos ← Table.removeAll .assert c.spentUtxos (spends t.1.2)
  ensure (∀ o ∈ spends t.1.2, b.spent o ≠ none)
  let ledger ← unspend c.toLedger t.1.2 position
  let txLocByHash ← Table.removeOld .assert c.txLocByHash t.1.1
  let sproutNullifiers ← Table.removeAll .assert c.sproutNullifiers t.1.2.sproutNullifiers
  let saplingNullifiers ← Table.removeAll .assert c.saplingNullifiers t.1.2.saplingNullifiers
  let orchardNullifiers ← Table.removeAll .assert c.orchardNullifiers t.1.2.orchardNullifiers
  return { c with
    toLedger := ledger
    txLocByHash, createdUtxos, spentUtxos, sproutNullifiers, saplingNullifiers, orchardNullifiers }

def revertIndex (b : ContextuallyVerifiedBlock) (position : RevertPosition) (c : Chain) : Except Panic Chain := do
  let heightByHash ← Table.removeOld .assert c.heightByHash b.hash
  let c := { c with heightByHash, partialCumulativeWork := c.partialCumulativeWork - b.work }
  b.transactions.zipIdx.foldlM (revertTx b position) c

def popTip (c : Chain) : Except Panic Chain := do
  let b ← unwrap c.blocks.getLast?
  let blocks := c.blocks.dropLast
  ensure (blocks ≠ [])
  let ledger ← c.toLedger.revertRewards
  let ledger ← ledger.revertRetargets
  let c ← revertIndex b .tip { c with toLedger := ledger, blocks }
  let ledger ← c.toLedger.revertChainValuePools b.poolChange b.height
  return { c with toLedger := ledger }

/-- What the database gets of the lowest block: the block, its rewards and the amounts of the bonds it unbonded. -/
structure PoppedRoot where
  block : ContextuallyVerifiedBlock
  bondRewards : List (BondKey × ℕ)
  unbondingAmounts : List (BondKey × ℕ)

def unbondingAmounts (bonds : Bonds) (actions : List (StakingAction × ℕ)) : Except Panic (List (BondKey × ℕ)) :=
  (actions.filter fun a => a.1.kind = .beginDelegationUnbonding).mapM fun a => do
    let (bond, _) ← unwrap bonds[a.1.arg32_0]?
    return (a.1.arg32_0, bond.amount.zatoshis.toNat)

def popRoot (c : Chain) : Except Panic (PoppedRoot × Chain) := do
  let block ← unwrap c.blocks.head?
  let bondRewards := (c.bondRewards.getLast?).getD []
  let amounts ← unbondingAmounts c.delegationBonds block.actions
  let c' ← revertIndex block .root { c with
    blocks := c.blocks.tail
    bondRewards := c.bondRewards.dropLast
    bondRetargets := c.bondRetargets.dropLast }
  return (⟨block, bondRewards, amounts⟩,
    { c' with blockInfoByHeight := Function.update c'.blockInfoByHeight block.height none })

/-! ### Fork -/

def nonFinalizedTipHash (c : Chain) : Except Panic BlockHash := unwrap (c.blocks.getLast?.map (·.hash))

def nonFinalizedRootHash (c : Chain) : Except Panic BlockHash := unwrap (c.blocks.head?.map (·.hash))

/-- Pops the tip until `forkTip` is the tip, `fuel` times at most. -/
def popTo (forkTip : BlockHash) : ℕ → Chain → Except Panic Chain
  | 0, _ => .error .unwrap
  | fuel + 1, c => do
    if (← c.nonFinalizedTipHash) = forkTip then return c else popTo forkTip fuel (← c.popTip)

/-- The chain up to `forkTip`, if it has that block. -/
def fork (c : Chain) (forkTip : BlockHash) : Except Panic (Option Chain) :=
  if c.heightByHash forkTip = none then return none
  else do return some (← popTo forkTip c.blocks.length c)

end Chain

/-! ### Accepting a block -/

/-- What a chain is offered: the database at that time, a block, and the outputs that were looked up for it. -/
structure Offer where
  db : ZebraDb
  block : Block
  spent : Table OutPoint Utxo

/-- The height check, the bond validator and the push; the outcome of the other checks only adds rejections. -/
def Chain.accept (checks : Bool) (c : Chain) (offer : Offer) : Except (Stop ValidateContextError) Chain := do
  (if offer.block.height = c.nextHeight offer.db then .ok () else .error (.error .nonSequentialBlock))
  let _ ← (validateDelegationBonds offer.db.toFinalizedBonds c.delegationBonds offer.block).mapError
    fun e => .error (.invalidDelegationBond e)
  c.push checks (← Chain.withBlockAndSpentUtxos offer.block offer.spent)

/-! ### Sample blocks

Blocks of staking transactions that are paid from or into the Sapling pool, without fees. -/

def bytesNo (size n : ℕ) : Bytes size := ⟨leBytes size n, leBytes_length size n⟩

def zats (n : ℕ) : Amount .nonNegative :=
  ⟨min n 2100000000000000, by simp [Constraint.low], by simp [maxMoney]⟩

/-- A transaction with an action on bond number `bond`; the Sapling part makes up for what the action pays in or out. -/
def stakingTx (kind : StakingActionKind) (bond amount : ℕ) : Transaction :=
  let balance : Amount .negativeAllowed :=
    match kind with
    | .createNewDelegationBond => (zats amount).neg.neg
    | .withdrawDelegationBond => (zats amount).neg
    | _ => .zero
  .vCrosslink [] [] (some ⟨balance, []⟩) none (some { StakingAction.default kind with
    amountZats := amount, arg32_0 := bytesNo 32 bond })

def sampleBlock (height : ℕ) (txs : List Transaction) : Block where
  hash := bytesNo 32 (1000 + height)
  previousBlockHash := bytesNo 32 (999 + height)
  fatPointerToBftBlock := Tenderlink.FatPointerToBftBlock.null
  height := height
  work := 1
  size := 1000
  transactions := (.v5 [.coinbase] [] none none :: txs).zipIdx.map fun t => (bytesNo 32 (1000 * height + t.2), t.1)
  deferredPoolBalanceChange := none

/-- A database whose tip is at a height, with bonds of equal status and with funds in the Sapling pool. -/
def sampleDb (height : ℕ) (status : BondStatus) (bonds : List (ℕ × ℕ)) : ZebraDb where
  delegationBondByKey := ExtTreeMap.ofList (bonds.map fun b =>
    (bytesNo 32 b.1, DelegationBond.mk (zats b.2) (bytesNo 32 0) ⟨1, b.1⟩))
  bondStatusByKey := ExtTreeMap.ofList (bonds.map fun b => (bytesNo 32 b.1, status))
  blocks := [sampleBlock height []]
  valuePool := fun
    | .sapling => zats 100000000000
    | .stakingBonded => if status.isActive then zats (bonds.map Prod.snd).sum else .zero
    | .stakingUnbonded => if status.isUnbonding then zats (bonds.map Prod.snd).sum else .zero
    | _ => .zero
  blockInfo := Table.empty

/-! ### What an accepted block does -/

def openLedger (l : Ledger) : Ledger := { l with bondRetargets := ∅ :: l.bondRetargets }

def actAll (height : ℕ) (l : Ledger) (actions : List (StakingAction × ℕ)) : Except (Stop ValidateContextError) Ledger :=
  actions.foldlM (fun l a => l.updateChainTipWithDelegationBond a.1 ⟨height, a.2⟩) l

/-- The steps that accepting a block consists of. -/
structure Accepted (checks : Bool) (c : Chain) (offer : Offer) (c' : Chain) where
  notes : BlockNotes
  block : ContextuallyVerifiedBlock
  opened : Chain
  filled : Chain
  height_eq : offer.block.height = c.nextHeight offer.db
  valid : validateDelegationBonds offer.db.toFinalizedBonds c.delegationBonds offer.block = .ok notes
  block_eq : Chain.withBlockAndSpentUtxos offer.block offer.spent = .ok block
  open_eq : c.openBlock block = .ok opened
  fill_eq : offer.block.transactions.zipIdx.foldlM (Chain.updateTx block) opened = .ok filled
  close_eq : Chain.closeLedger checks filled.toLedger block = .ok c'.toLedger
  index_eq : c'.toChainIndex = filled.toChainIndex
  blocks_eq : c'.blocks = filled.blocks ++ [block]
  work_eq : c'.partialCumulativeWork = filled.partialCumulativeWork

variable {checks : Bool} {c c' : Chain} {offer : Offer}

theorem Chain.withBlockAndSpentUtxos_eq_ok (h : Chain.withBlockAndSpentUtxos b spent = .ok cb) :
    cb.toBlock = b ∧ cb.spent = b.spentOutputs spent ∧
      b.chainValuePoolChange (b.spentOutputs spent) = .ok cb.poolChange := by
  unfold Chain.withBlockAndSpentUtxos at h
  obtain ⟨change, hchange, h⟩ := bind_eq_ok.mp h
  obtain rfl := pure_eq_ok.mp h
  exact ⟨rfl, rfl, mapError_eq_ok.mp hchange⟩

theorem Chain.accept_eq_ok (h : c.accept checks offer = .ok c') : Nonempty (Accepted checks c offer c') := by
  unfold Chain.accept at h
  obtain ⟨⟨⟩, hheight, h⟩ := bind_eq_ok.mp h
  obtain ⟨notes, hvalid, h⟩ := bind_eq_ok.mp h
  obtain ⟨block, hblock, h⟩ := bind_eq_ok.mp h
  unfold Chain.push at h
  obtain ⟨opened, hopen, h⟩ := bind_eq_ok.mp h
  obtain ⟨filled, hfill, h⟩ := bind_eq_ok.mp h
  obtain ⟨ledger, hclose, h⟩ := bind_eq_ok.mp h
  obtain rfl := pure_eq_ok.mp h
  rw [(Chain.withBlockAndSpentUtxos_eq_ok hblock).1] at hfill
  split_ifs at hheight with hheight'
  exact ⟨notes, block, opened, filled, hheight', mapError_eq_ok.mp hvalid, hblock, hopen, hfill, hclose, rfl, rfl, rfl⟩

theorem Chain.openBlock_eq_ok (h : c.openBlock b = .ok c') :
    ∃ heightByHash, Table.insertNew (.panic .assert : Stop ValidateContextError) c.heightByHash b.hash b.height =
      .ok heightByHash ∧ c' = { c with
        heightByHash
        partialCumulativeWork := c.partialCumulativeWork + b.work
        toLedger := openLedger c.toLedger } := by
  unfold Chain.openBlock at h
  obtain ⟨heightByHash, hinsert, h⟩ := bind_eq_ok.mp h
  exact ⟨heightByHash, hinsert, (pure_eq_ok.mp h).symm⟩

/-- One turn of the loop, field by field. -/
structure TxAdded (b : ContextuallyVerifiedBlock) (c : Chain) (t : (TxHash × Transaction) × ℕ) (c' : Chain) : Prop where
  act : Chain.actOn c.toLedger t.1.2 ⟨b.height, t.2⟩ = .ok c'.toLedger
  txLoc : Table.Extends c.txLocByHash [t.1.1] c'.txLocByHash
  created : Table.Extends c.createdUtxos ((Block.createdBy b.height t.2 t.1.1 t.1.2).map Prod.fst) c'.createdUtxos
  spent : Table.Extends c.spentUtxos (Chain.spends t.1.2) c'.spentUtxos
  provided : ∀ o ∈ Chain.spends t.1.2, b.spent o ≠ none
  sprout : Table.Extends c.sproutNullifiers t.1.2.sproutNullifiers c'.sproutNullifiers
  sapling : Table.Extends c.saplingNullifiers t.1.2.saplingNullifiers c'.saplingNullifiers
  orchard : Table.Extends c.orchardNullifiers t.1.2.orchardNullifiers c'.orchardNullifiers
  heights : c'.heightByHash = c.heightByHash
  blocks : c'.blocks = c.blocks
  work : c'.partialCumulativeWork = c.partialCumulativeWork

theorem Chain.addNullifiers_extends (h : addNullifiers t nullifiers = .ok t') : Table.Extends t nullifiers t' := by
  refine foldlM_induction (R := fun pre t' => Table.Extends t pre t') h (Table.Extends.refl t) ?_
  intro pre n t₁ t₂ hpre hinsert
  exact hpre.trans (Table.insertNew_extends hinsert)

theorem Chain.updateTx_eq_ok (h : updateTx b c t = .ok c') : TxAdded b c t c' := by
  unfold updateTx at h
  dsimp only at h
  obtain ⟨txLoc, htxLoc, h⟩ := bind_eq_ok.mp h
  obtain ⟨created, hcreated, h⟩ := bind_eq_ok.mp h
  obtain ⟨spent, hspent, h⟩ := bind_eq_ok.mp h
  obtain ⟨⟨⟩, hprovided, h⟩ := bind_eq_ok.mp h
  obtain ⟨ledger, hledger, h⟩ := bind_eq_ok.mp h
  obtain ⟨sprout, hsprout, h⟩ := bind_eq_ok.mp h
  obtain ⟨sapling, hsapling, h⟩ := bind_eq_ok.mp h
  obtain ⟨orchard, horchard, h⟩ := bind_eq_ok.mp h
  obtain rfl := pure_eq_ok.mp h
  have hkeys : ((spends t.1.2).map (·, ())).map Prod.fst = spends t.1.2 := by simp [Function.comp_def]
  have hspent' := Table.insertAll_extends hspent
  rw [hkeys] at hspent'
  exact ⟨hledger, Table.insertNew_extends htxLoc, Table.insertAll_extends hcreated,
    hspent', ensure_eq_ok.mp (mapError_eq_ok.mp hprovided),
    addNullifiers_extends hsprout, addNullifiers_extends hsapling, addNullifiers_extends horchard, rfl, rfl, rfl⟩

theorem foldlM_actOn (height : ℕ) (txs : List ((TxHash × Transaction) × ℕ)) (l : Ledger) :
    txs.foldlM (fun l t => Chain.actOn l t.1.2 ⟨height, t.2⟩) l =
      actAll height l (txs.filterMap fun t => t.1.2.stakingAction.map (·, t.2)) := by
  induction txs generalizing l with
  | nil => rfl
  | cons t txs ih =>
    rw [List.foldlM_cons, List.filterMap_cons]
    cases haction : t.1.2.stakingAction with
    | none =>
      simp only [Chain.actOn, haction, ok_bind, Option.map_none]
      exact ih l
    | some action =>
      simp only [Chain.actOn, haction, Option.map_some, actAll, List.foldlM_cons]
      exact congrArg _ (funext fun l' => ih l')

theorem Accepted.actAll (a : Accepted checks c offer c') :
    actAll offer.block.height (openLedger c.toLedger) offer.block.actions = .ok a.filled.toLedger := by
  obtain ⟨_, _, hopened⟩ := Chain.openBlock_eq_ok a.open_eq
  have hledger : a.opened.toLedger = openLedger c.toLedger := by rw [hopened]
  have hheight : a.block.height = offer.block.height := by rw [(Chain.withBlockAndSpentUtxos_eq_ok a.block_eq).1]
  rw [← hledger, Block.actions, ← foldlM_actOn]
  refine foldlM_project (π := Chain.toLedger) ?_ a.fill_eq
  intro c t c' h
  rw [← hheight]
  exact (Chain.updateTx_eq_ok h).act

end Crosslink.State

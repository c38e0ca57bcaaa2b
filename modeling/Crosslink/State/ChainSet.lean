import Crosslink.State.Database
import Crosslink.Lib.OrderedSet

/-!
# The non-finalized state

The chains that the state service keeps in memory above its database. The set of chains is ordered by work, then by tip
hash, so the best chain is the last one. Comparing two chains of equal work panics when they have the same tip or when
one of them is empty; looking a chain up in the set compares it with itself.
-/

namespace Crosslink.State

open Codec Fallible Bft Staking

/-! ### Chains in a set -/

namespace Chain

/-- `Ordering::Equal` is never returned. -/
def cmp (a b : Chain) : Except Panic Ordering :=
  if a.partialCumulativeWork ≠ b.partialCumulativeWork then
    .ok (compare a.partialCumulativeWork b.partialCumulativeWork)
  else do
    let tipA ← a.nonFinalizedTipHash
    let tipB ← b.nonFinalizedTipHash
    ensure (tipA ≠ tipB)
    return compare tipA tipB

def containsBlockHash (c : Chain) (hash : BlockHash) : Bool := (c.heightByHash hash).isSome

def childBlocks (c : Chain) (height : ℕ) : List ContextuallyVerifiedBlock := c.blocks.filter fun b => height ≤ b.height

/-- The chain below a block, which must not be empty, and the block with all above it. -/
def invalidateBlock (c : Chain) (hash : BlockHash) :
    Except Panic (Option (Chain × List ContextuallyVerifiedBlock)) :=
  match c.heightByHash hash with
  | none => return none
  | some height => do
    match ← c.fork hash with
    | none => return none
    | some forked => return some (← forked.popTip, c.childBlocks height)

end Chain

/-! ### The set of chains -/

def maxNonFinalizedChainForks : ℕ := 10

def maxInvalidatedBlocks : ℕ := 100

structure NonFinalizedState where
  /-- In ascending order. -/
  chainSet : List Chain
  /-- Invalidated blocks with their descendants on one chain, by the height of the first, oldest entry first. -/
  invalidatedBlocks : List (ℕ × List ContextuallyVerifiedBlock)

def limitForks (set : List Chain) : List Chain := set.drop (set.length - maxNonFinalizedChainForks)

def insertWith (chain : Chain) (chainFilter : List Chain → Except Panic (List Chain)) (set : List Chain) :
    Except Panic (List Chain) := do
  let set ← OrderedSet.insert Chain.cmp chain set
  let set ← chainFilter set
  return limitForks set

/-- `chain_set.retain(|chain| chain.non_finalized_tip_hash() != parent_hash)`. -/
def retainOtherTips (parentHash : BlockHash) (set : List Chain) : Except Panic (List Chain) :=
  OrderedSet.retain (fun c => do return decide ((← c.nonFinalizedTipHash) ≠ parentHash)) set

/-- The side chains, best first, that keep their place when `rootHash` becomes final. -/
def insertSides (rootHash : BlockHash) (set : List Chain) (side : Chain) : Except Panic (List Chain) := do
  if (← side.nonFinalizedRootHash) ≠ rootHash then return set
  else
    let (root, rest) ← side.popRoot
    ensure (root.block.hash = rootHash)
    insertWith rest pure set

inductive CommitError where
  | blockPreviouslyInvalidated
  | notReadyToBeCommitted
  /-- A check that is not modelled: of spends, anchors, commitments or the difficulty. -/
  | check
  | context (e : ValidateContextError)
  deriving DecidableEq

/-- The outcome of the checks that are not modelled: those before the block is pushed, and those that run in parallel
with the push. -/
structure CheckOutcomes where
  before : Bool
  parallel : Bool

inductive ReconsiderError where
  | missingInvalidatedBlock
  | invalidatedBlocksEmpty
  | parentChainNotFound
  | context (e : ValidateContextError)
  deriving DecidableEq

def ZebraDb.finalizedTipHash (db : ZebraDb) : BlockHash := (db.blocks.getLast?.map Block.hash).getD (Bytes.zero 32)

def ZebraDb.finalizedTipHeight (db : ZebraDb) : Option ℕ := db.blocks.getLast?.map Block.height

namespace NonFinalizedState

variable (nfs : NonFinalizedState)

def bestChain : Option Chain := nfs.chainSet.getLast?

def bestChainLen : Option ℕ := nfs.bestChain.map fun c => c.blocks.length

def findChain (p : Chain → Bool) : Option Chain := nfs.chainSet.reverse.find? p

/-- Takes the lowest block off the best chain and off the chains that share it; other chains are dropped. An emptied
best chain is dropped too, an emptied side chain is kept. -/
def finalize : Except Panic (Chain.PoppedRoot × NonFinalizedState) := do
  let best ← unwrap nfs.bestChain
  let (root, rest) ← best.popRoot
  let set ← (if rest.blocks ≠ [] then insertWith rest pure [] else pure [])
  let set ← nfs.chainSet.dropLast.reverse.foldlM (insertSides root.block.hash) set
  return (root, ⟨set, nfs.invalidatedBlocks.filter fun x => root.block.height ≤ x.1⟩)

/-- The blocks that `hash` makes final, when it is in some chain; only the chains with `hash` remain. -/
def crosslinkFinalize (hash : BlockHash) : Option (List ContextuallyVerifiedBlock × NonFinalizedState) := do
  let chain ← nfs.findChain fun c => (c.heightByHash hash).isSome
  let height ← chain.heightByHash hash
  return (chain.blocks.filter fun b => b.height ≤ height,
    { nfs with chainSet := nfs.chainSet.filter fun c => c.containsBlockHash hash })

/-- The chain with the given tip, or a fork of one that contains it. -/
def parentChain (parentHash : BlockHash) : Except Panic (Option Chain) := do
  match ← nfs.chainSet.reverse.findM? fun c => do return decide ((← c.nonFinalizedTipHash) = parentHash) with
  | some chain => return some chain
  | none => nfs.chainSet.reverse.findSomeM? fun c => c.fork parentHash

def validateAndCommit (checks : Bool) (newChain : Chain) (offer : Offer) (outcomes : CheckOutcomes) :
    Except (Stop CommitError) Chain := do
  if nfs.invalidatedBlocks.any fun x => x.1 == offer.block.height then .error (.error .blockPreviouslyInvalidated)
  else if ¬ outcomes.before then .error (.error .check)
  else
    let chain ← (newChain.accept checks offer).mapError (Stop.mapErr .context)
    if outcomes.parallel then return chain else .error (.error .check)

def commitBlock (checks : Bool) (offer : Offer) (outcomes : CheckOutcomes) :
    Except (Stop CommitError) NonFinalizedState := do
  let parentHash := offer.block.previousBlockHash
  match ← (nfs.parentChain parentHash).mapError .panic with
  | none => .error (.error .notReadyToBeCommitted)
  | some parentChain =>
    let modifiedChain ← nfs.validateAndCommit checks parentChain offer outcomes
    let set ← (insertWith modifiedChain (retainOtherTips parentHash) nfs.chainSet).mapError .panic
    return { nfs with chainSet := set }

def commitNewChain (checks : Bool) (offer : Offer) (outcomes : CheckOutcomes) :
    Except (Stop CommitError) NonFinalizedState := do
  let _ ← (unwrap offer.db.finalizedTipHeight).mapError .panic
  let chain ← nfs.validateAndCommit checks (Chain.new offer.db) offer outcomes
  let set ← (insertWith chain pure nfs.chainSet).mapError .panic
  return { nfs with chainSet := set }

/-- `IndexMap::insert`, then the oldest entries go. -/
def rememberInvalidated (height : ℕ) (blocks : List ContextuallyVerifiedBlock) :
    List (ℕ × List ContextuallyVerifiedBlock) :=
  let entries := if nfs.invalidatedBlocks.any fun x => x.1 == height then
      nfs.invalidatedBlocks.map fun x => if x.1 == height then (height, blocks) else x
    else nfs.invalidatedBlocks ++ [(height, blocks)]
  entries.drop (entries.length - maxInvalidatedBlocks)

def invalidateBlock (blockHash : BlockHash) : Except Panic (Option NonFinalizedState) := do
  match nfs.findChain fun c => c.containsBlockHash blockHash with
  | none => return none
  | some chain =>
    let rootHash ← chain.nonFinalizedRootHash
    let (set, blocks) ← (if rootHash = blockHash then do
        return (← OrderedSet.remove Chain.cmp chain nfs.chainSet, chain.blocks)
      else do
        let (newChain, blocks) ← unwrap (← chain.invalidateBlock blockHash)
        let set ← insertWith newChain (fun set => pure (set.filter fun c => !c.containsBlockHash blockHash)) nfs.chainSet
        return (set, blocks))
    let first ← unwrap blocks.head?
    return some ⟨set, nfs.rememberInvalidated first.height blocks⟩

def reconsiderBlock (checks : Bool) (blockHash : BlockHash) (db : ZebraDb) :
    Except (Stop ReconsiderError) NonFinalizedState := do
  match nfs.invalidatedBlocks.find? fun x => x.2.head?.any fun b => b.hash == blockHash with
  | none => .error (.error .missingInvalidatedBlock)
  | some (_, blocks) =>
    match blocks.head? with
    | none => .error (.error .invalidatedBlocksEmpty)
    | some root =>
      let chain ← (if root.previousBlockHash = db.finalizedTipHash then
          return if db.finalizedTipHeight.isSome then some (Chain.new db) else none
        else nfs.parentChain root.previousBlockHash).mapError .panic
      match chain with
      | none => .error (.error .parentChainNotFound)
      | some chain =>
        let modifiedChain ← (blocks.foldlM (Chain.push checks) chain).mapError (Stop.mapErr .context)
        let invalidatedBlocks := match db.finalizedTipHeight with
          | some height => nfs.invalidatedBlocks.filter fun x => height ≤ x.1
          | none => nfs.invalidatedBlocks
        let set ← (insertWith modifiedChain (retainOtherTips root.previousBlockHash) nfs.chainSet).mapError .panic
        return ⟨set, invalidatedBlocks⟩

end NonFinalizedState

end Crosslink.State

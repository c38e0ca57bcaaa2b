import Crosslink.State.ChainSet

/-!
# The block write task

The task that owns the chains and the database. `ChainState` holds both, with the operations on them that the messages
of the task are made of: a block is committed, the lowest block of the best chain is finalized, the chains without a
finalized block are dropped, a block is invalidated or reconsidered. An operation that panics stops the process.
-/

namespace Crosslink.State

open Codec Fallible Bft Staking

structure ChainState where
  db : ZebraDb
  nonFinalizedState : NonFinalizedState

def ZebraDb.commitFinalizedDirect (checks : Bool) (db : ZebraDb) (popped : Chain.PoppedRoot) :
    Except (Stop BatchError) ZebraDb := do
  match db.blocks.getLast? with
  | none =>
    (ensure (popped.block.previousBlockHash = Bytes.zero 32)).mapError .panic
    (ensure (popped.block.height = 0)).mapError .panic
  | some tip =>
    (ensure (tip.height + 1 = popped.block.height)).mapError .panic
    (ensure (tip.hash = popped.block.previousBlockHash)).mapError .panic
  db.writeBlock checks popped

/-- An error of the database is a panic of the task. -/
def Stop.toPanic {ε : Type} : Stop ε → Panic
  | .panic p => p
  | .error _ => .unwrap

namespace ChainState

variable (checks : Bool) (s : ChainState)

/-- `validate_and_commit_non_finalized`. The height of the block is compared with that of its parent, which is the tip
of the chain it is put on; this is part of `Chain.accept`. -/
def validateAndCommitNonFinalized (block : Block) (spent : Table OutPoint Utxo) (outcomes : CheckOutcomes) :
    Except (Stop CommitError) ChainState := do
  let nfs ← (if s.db.finalizedTipHash = block.previousBlockHash then
      s.nonFinalizedState.commitNewChain checks ⟨s.db, block, spent⟩ outcomes
    else s.nonFinalizedState.commitBlock checks ⟨s.db, block, spent⟩ outcomes)
  return { s with nonFinalizedState := nfs }

def finalize : Except Panic ChainState := do
  let (root, nfs) ← s.nonFinalizedState.finalize
  let db ← (s.db.commitFinalizedDirect checks root).mapError Stop.toPanic
  return ⟨db, nfs⟩

inductive Event where
  | commit (block : Block) (spent : Table OutPoint Utxo) (outcomes : CheckOutcomes)
  | finalize
  | crosslinkFinalize (hash : BlockHash)
  | invalidate (hash : BlockHash)
  | reconsider (hash : BlockHash)

/-- One operation. A block that is rejected or not found leaves everything as it is. -/
def step : Event → Except Panic ChainState
  | .commit block spent outcomes =>
    match s.validateAndCommitNonFinalized checks block spent outcomes with
    | .ok s' => .ok s'
    | .error (.error _) => .ok s
    | .error (.panic p) => .error p
  | .finalize => s.finalize checks
  | .crosslinkFinalize hash =>
    match s.nonFinalizedState.crosslinkFinalize hash with
    | some (_, nfs) => .ok { s with nonFinalizedState := nfs }
    | none => .ok s
  | .invalidate hash => do
    match ← s.nonFinalizedState.invalidateBlock hash with
    | some nfs => return { s with nonFinalizedState := nfs }
    | none => return s
  | .reconsider hash =>
    match s.nonFinalizedState.reconsiderBlock checks hash s.db with
    | .ok nfs => .ok { s with nonFinalizedState := nfs }
    | .error (.error _) => .ok s
    | .error (.panic p) => .error p

end ChainState

end Crosslink.State

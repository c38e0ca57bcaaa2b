import Crosslink.Staking.Ledger

/-!
# The transaction verifier

The path of a transaction through the verifier, as far as staking and value are concerned: the shortcut for a
transaction that is in the mempool already, the staking day window, the delay since the last action on a bond, the
lookup of the spent outputs, and the fee. The checks that are about neither (scripts, proofs, signatures, expiry, lock
time) are a parameter, split at the point of the path where they stand.
-/

namespace Crosslink.Consensus

open Codec Fallible Staking

inductive TransactionError where
  | stakingActionOutsideWindow (blockHeight period window : ℕ)
  | stakingActionBondNotFound (bondKey : BondKey)
  | stakingActionDelayNotMet (bondKey : BondKey) (lastActionHeight currentHeight requiredDelay : ℕ)
  | transparentInputNotFound
  | incorrectFee
  /-- Any error of the checks that are not modelled. -/
  | other
  deriving DecidableEq

/-! ### Requests -/

structure BondInfoResponse where
  amount : Amount .nonNegative
  /-- 0 for active, 1 for unbonding, 2 for withdrawn. -/
  status : ℕ
  lastActionHeight : ℕ
  deriving DecidableEq

structure VerifiedUnminedTx where
  transaction : Transaction
  minerFee : Amount .nonNegative
  deriving DecidableEq

/-- What the verifier can ask the rest of the node. -/
structure Node where
  /-- The transactions of the mempool with the ids of those they depend on, by mined id. -/
  mempool : TxHash → Option (VerifiedUnminedTx × List TxHash)
  /-- The bonds of the best chain, if there is a chain. -/
  bestChain : Option Bonds
  /-- How the lookup of an output ends, for a mempool request or for a block. -/
  awaitOutput : Bool → OutPoint → Option Output

structure Request where
  isMempool : Bool
  transactionHash : TxHash
  transaction : Transaction
  /-- The ids of the transactions of the block. -/
  knownOutpointHashes : List TxHash
  /-- The outputs that the block creates. -/
  knownUtxos : Table OutPoint Output
  height : ℕ

/-- `ReadRequest::BondInfo`, which reads the best chain. -/
def Node.bondInfo (node : Node) (key : BondKey) : Option BondInfoResponse :=
  (node.bestChain.bind fun bonds => bonds[key]?).map fun bs =>
    { amount := bs.1.amount
      status := match bs.2 with
        | .active => 0
        | .unbonding => 1
        | .withdrawn => 2
      lastActionHeight := bs.1.createdAt.height }

/-! ### Checks -/

def stakingActionDelayBlocks : ℕ := 75

def stakingDayPeriod : ℕ := 150

def stakingDayWindow : ℕ := 70

/-- Heights are far below the point where the sum could overflow. -/
def checkStakingActionDelay (node : Node) (tx : Transaction) (height : ℕ) : Except TransactionError Unit :=
  match tx.stakingAction with
  | none => .ok ()
  | some action =>
    if action.kind = .beginDelegationUnbonding ∨ action.kind = .withdrawDelegationBond then
      match node.bondInfo action.arg32_0 with
      | none => .error (.stakingActionBondNotFound action.arg32_0)
      | some info =>
        if height < info.lastActionHeight + stakingActionDelayBlocks then
          .error (.stakingActionDelayNotMet action.arg32_0 info.lastActionHeight height stakingActionDelayBlocks)
        else .ok ()
    else .ok ()

def checkStakingDayWindow (tx : Transaction) (height : ℕ) : Except TransactionError Unit :=
  match tx.stakingAction with
  | none => .ok ()
  | some action =>
    if action.kind = .retargetDelegationBond then .ok ()
    else if height % stakingDayPeriod ≥ stakingDayWindow then
      .error (.stakingActionOutsideWindow height stakingDayPeriod stakingDayWindow)
    else .ok ()

/-- A transaction of a block that is in the mempool counts as verified once the outputs it spends are there. -/
def findVerifiedUnminedTx (node : Node) (req : Request) : Option (Except TransactionError VerifiedUnminedTx) :=
  if req.isMempool || req.transaction.isCoinbase then none
  else
    (node.mempool req.transactionHash).map fun (verified, dependencies) =>
      let missingDeps := dependencies.filter (· ∉ req.knownOutpointHashes)
      let missingOutpoints := (req.transaction.inputs.filterMap Input.outpoint).filter (·.hash ∈ missingDeps)
      if missingOutpoints.all fun o => (node.awaitOutput false o).isSome then .ok verified
      else .error .transparentInputNotFound

def spentUtxos (node : Node) (req : Request) : Except TransactionError (Table OutPoint Output) :=
  (req.transaction.inputs.filterMap Input.outpoint).foldlM (fun spent o =>
    match (req.knownUtxos o).or (node.awaitOutput req.isMempool o) with
    | some output => .ok (Function.update spent o (some output))
    | none => .error .transparentInputNotFound) Table.empty

/-- The fee of a transaction; the value balance of a coinbase is computed and not used. -/
def minerFee (tx : Transaction) (spent : Table OutPoint Output) :
    Except (Stop TransactionError) (Option (Amount .nonNegative)) :=
  match tx.valueBalance spent with
  | .error (.panic p) => .error (.panic p)
  | .error (.error _) => if tx.isCoinbase then .ok none else .error (.error .incorrectFee)
  | .ok balance =>
    if tx.isCoinbase then .ok none
    else
      match balance.remainingTransactionValue with
      | .ok fee => .ok (some fee)
      | .error _ => .error (.error .incorrectFee)

/-- The checks that are not modelled: those before the staking checks, and those after them. -/
structure OtherChecks where
  quick : Request → Except TransactionError Unit
  later : Node → Request → Except TransactionError Unit

/-- `Verifier::call`: the fee of the transaction. -/
def call (others : OtherChecks) (node : Node) (req : Request) :
    Except (Stop TransactionError) (Option (Amount .nonNegative)) :=
  match findVerifiedUnminedTx node req with
  | some result => do
    let verified ← result.mapError .error
    return some verified.minerFee
  | none => do
    (others.quick req).mapError .error
    (checkStakingDayWindow req.transaction req.height).mapError .error
    (checkStakingActionDelay node req.transaction req.height).mapError .error
    let spent ← (spentUtxos node req).mapError .error
    (others.later node req).mapError .error
    minerFee req.transaction spent

/-! ### Values of a verified block -/

/-- What the verifiers found out about the values in a block: they computed the fee of each transaction, in the block or
when it came into the mempool, and added up the outputs of a coinbase, which has no joinsplits. -/
structure ValuesVerified (b : Block) (spent : Table OutPoint Output) : Prop where
  fees : ∀ t ∈ b.transactions, ∃ fee, minerFee t.2 spent = .ok fee
  coinbase : ∀ t ∈ b.transactions, t.2.isCoinbase → t.2.joinsplits = [] ∧
    ∃ total, Amount.sum (t.2.outputs.map Output.value) = .ok total

variable {tx : Transaction} {spent : Table OutPoint Output}

theorem ValuesVerified.of_computed (hfees : ∀ t ∈ b.transactions, (minerFee t.2 spent).toOption.isSome = true)
    (hcoinbase : ∀ t ∈ b.transactions, t.2.isCoinbase → t.2.joinsplits = [] ∧ (Amount.sum (t.2.outputs.map Output.value)).toOption.isSome = true) :
    ValuesVerified b spent :=
  ⟨fun t ht => exists_ok_of_isSome (hfees t ht),
    fun t ht hc => ⟨(hcoinbase t ht hc).1, exists_ok_of_isSome (hcoinbase t ht hc).2⟩⟩

theorem coinbase_transparentValueBalance (hcoinbase : tx.isCoinbase)
    (hsum : Amount.sum (tx.outputs.map Output.value) = .ok total) :
    tx.transparentValueBalance spent = .ok (.fromAmount .transparent total.neg) := by
  have hinputs : tx.inputs = [.coinbase] := by simpa [Transaction.isCoinbase] using hcoinbase
  have hzero : Amount.sum [(.zero : Amount .nonNegative)] = .ok .zero := rfl
  have hconstrain : (.zero : Amount .nonNegative).constrain = .ok (.zero : Amount .negativeAllowed) := rfl
  have hsub : (.zero : Amount .negativeAllowed).sub total.neg.neg = .ok total.neg := Amount.sub_eq_ok.mpr (by simp)
  have hmap : [Input.coinbase].mapM (Input.valueFromOutputs spent) = .ok [.zero] := rfl
  unfold Transaction.transparentValueBalance
  simp only [hinputs, hmap, hzero, hconstrain, hsum, Amount.constrain_nonNegative total, hsub, mapError_ok, ok_bind]
  rfl

theorem ValuesVerified.valueBalance (h : ValuesVerified b spent) (ht : t ∈ b.transactions) :
    ∃ v, t.2.valueBalance spent = .ok v := by
  obtain ⟨fee, hfee⟩ := h.fees t ht
  unfold minerFee at hfee
  cases hv : t.2.valueBalance spent with
  | ok v => exact ⟨v, rfl⟩
  | error e =>
    rw [hv] at hfee
    cases e with
    | panic p => cases hfee
    | error e =>
      -- an error of the balance passes only for a coinbase, whose parts do not fail
      dsimp only at hfee
      split_ifs at hfee with hcoinbase
      obtain ⟨hjoinsplits, total, htotal⟩ := h.coinbase t ht hcoinbase
      have htransparent : t.2.transparentValueBalance spent = _ := coinbase_transparentValueBalance hcoinbase htotal
      have hsprout : t.2.sproutValueBalance = .ok .zero := by
        rw [Transaction.sproutValueBalance, hjoinsplits]
        rfl
      cases hstaking : t.2.stakingActionValueBalance with
      | ok staking =>
        obtain ⟨v, hv'⟩ := valueBalance_of_parts htransparent hsprout hstaking
        rw [hv'] at hv
        cases hv
      | error p =>
        unfold Transaction.valueBalance at hv
        simp only [htransparent, hsprout, hstaking, mapError_ok, ok_bind] at hv
        cases hv

end Crosslink.Consensus

import Crosslink.Lib.Table
import Crosslink.Staking.Amount
import Crosslink.Bft.Block

/-!
# Transactions with staking actions

Transactions as far as the chain state and the value pools read them: transparent inputs and outputs, the value
balances and nullifiers of the shielded parts, and the staking action of a `VCrosslink` transaction with its reader.
Scripts, proofs, signatures of spends and expiry heights are not modelled.
-/

namespace Crosslink.Staking

open Codec Fallible Bft Tenderlink ValueBalance

/-! ### Staking actions -/

inductive StakingActionKind where
  | null
  | createNewDelegationBond
  | beginDelegationUnbonding
  | withdrawDelegationBond
  | retargetDelegationBond
  | registerFinalizer
  | convertFinalizerRewardToDelegationBond
  | updateFinalizerKey
  deriving DecidableEq, Repr

def StakingActionKind.tryFrom (v : UInt8) : Option StakingActionKind :=
  match v.toNat with
  | 0 => some .null
  | 1 => some .createNewDelegationBond
  | 2 => some .beginDelegationUnbonding
  | 3 => some .withdrawDelegationBond
  | 4 => some .retargetDelegationBond
  | 5 => some .registerFinalizer
  | 6 => some .convertFinalizerRewardToDelegationBond
  | 7 => some .updateFinalizerKey
  | _ => none

abbrev BondKey := Bytes 32

structure StakingAction where
  kind : StakingActionKind
  amountZats : ℕ
  /-- The bond's key. -/
  arg32_0 : BondKey
  /-- The challenge. -/
  arg32_1 : Bytes 32
  /-- The target finalizer. -/
  arg32_2 : Bytes 32
  arg32_3 : Bytes 32
  /-- The signature. -/
  arg64_0 : Bytes 64
  arg64_1 : Bytes 64
  deriving DecidableEq

namespace StakingAction

def default (kind : StakingActionKind) : StakingAction :=
  ⟨kind, 0, Bytes.zero 32, Bytes.zero 32, Bytes.zero 32, Bytes.zero 32, Bytes.zero 64, Bytes.zero 64⟩

/-- The fields after the tag; every kind starts with a key, a challenge and a signature. -/
def readFields (kind : StakingActionKind) : Reader StakingAction := do
  let arg32_0 ← readBytes 32
  let arg32_1 ← readBytes 32
  let arg64_0 ← readBytes 64
  let ret := { default kind with arg32_0, arg32_1, arg64_0 }
  match kind with
  | .null => reject
  | .createNewDelegationBond => do
    let arg32_2 ← readBytes 32
    let amountZats ← readLE 8
    return { ret with arg32_2, amountZats }
  | .beginDelegationUnbonding => return ret
  | .withdrawDelegationBond => do
    let amountZats ← readLE 8
    return { ret with amountZats }
  | .retargetDelegationBond => do
    let arg32_2 ← readBytes 32
    return { ret with arg32_2 }
  | .registerFinalizer => return ret
  | .convertFinalizerRewardToDelegationBond => do
    let arg32_2 ← readBytes 32
    let amountZats ← readLE 8
    let arg32_3 ← readBytes 32
    let arg64_1 ← readBytes 64
    return { ret with arg32_2, amountZats, arg32_3, arg64_1 }
  | .updateFinalizerKey => do
    let arg32_2 ← readBytes 32
    let arg32_3 ← readBytes 32
    let arg64_1 ← readBytes 64
    return { ret with arg32_2, arg32_3, arg64_1 }

def read : Reader (Option StakingAction) := do
  let tag ← readByte
  if tag = 0 then return none
  else
    match StakingActionKind.tryFrom tag with
    | none => reject
    | some kind => return some (← readFields kind)

theorem readFields_amount_lt {kind : StakingActionKind} (h : readFields kind buf = some (action, rest)) :
    action.amountZats < 2 ^ 64 := by
  unfold readFields at h
  simp only [bind_eq_some] at h
  obtain ⟨_, _, -, _, _, -, _, _, -, h⟩ := h
  cases kind with
  | null => simp at h
  | createNewDelegationBond =>
    simp only [bind_eq_some, readLE_eq_some, pure_eq_some] at h
    obtain ⟨_, _, -, amount, _, ⟨hlt, -⟩, rfl, -⟩ := h
    exact hlt
  | withdrawDelegationBond =>
    simp only [bind_eq_some, readLE_eq_some, pure_eq_some] at h
    obtain ⟨amount, _, ⟨hlt, -⟩, rfl, -⟩ := h
    exact hlt
  | convertFinalizerRewardToDelegationBond =>
    simp only [bind_eq_some, readLE_eq_some, pure_eq_some] at h
    obtain ⟨_, _, -, amount, _, ⟨hlt, -⟩, _, _, -, _, _, -, rfl, -⟩ := h
    exact hlt
  | retargetDelegationBond =>
    simp only [bind_eq_some, pure_eq_some] at h
    obtain ⟨_, _, -, rfl, -⟩ := h
    exact Nat.two_pow_pos 64
  | updateFinalizerKey =>
    simp only [bind_eq_some, pure_eq_some] at h
    obtain ⟨_, _, -, _, _, -, _, _, -, rfl, -⟩ := h
    exact Nat.two_pow_pos 64
  | beginDelegationUnbonding =>
    obtain ⟨rfl, -⟩ := pure_eq_some.mp h
    exact Nat.two_pow_pos 64
  | registerFinalizer =>
    obtain ⟨rfl, -⟩ := pure_eq_some.mp h
    exact Nat.two_pow_pos 64

theorem read_amount_lt (h : read buf = some (some action, rest)) :
    action.amountZats < 2 ^ 64 := by
  unfold read at h
  obtain ⟨tag, buf', -, h⟩ := bind_eq_some.mp h
  split_ifs at h
  · cases h
  · cases hkind : StakingActionKind.tryFrom tag with
    | none =>
      rw [hkind] at h
      cases h
    | some kind =>
      rw [hkind] at h
      obtain ⟨action', rest', hread, h⟩ := bind_eq_some.mp h
      obtain rfl := Option.some.inj (pure_eq_some.mp h).1
      exact readFields_amount_lt hread

end StakingAction

/-! ### Transactions -/

abbrev TxHash := Bytes 32

abbrev Nullifier := Bytes 32

structure OutPoint where
  hash : TxHash
  index : ℕ
  deriving DecidableEq

inductive Input where
  | prevOut (outpoint : OutPoint)
  | coinbase
  deriving DecidableEq

structure Output where
  value : Amount .nonNegative
  deriving DecidableEq

def Input.outpoint : Input → Option OutPoint
  | .prevOut outpoint => some outpoint
  | .coinbase => none

structure JoinSplit where
  vpubOld : Amount .nonNegative
  vpubNew : Amount .nonNegative
  nullifiers : List Nullifier
  deriving DecidableEq

structure ShieldedData where
  valueBalance : Amount .negativeAllowed
  nullifiers : List Nullifier
  deriving DecidableEq

/-- The versions that a block above the last checkpoint can hold. -/
inductive Transaction where
  | v4 (inputs : List Input) (outputs : List Output) (joinsplits : List JoinSplit) (sapling : Option ShieldedData)
  | v5 (inputs : List Input) (outputs : List Output) (sapling orchard : Option ShieldedData)
  | vCrosslink (inputs : List Input) (outputs : List Output) (sapling orchard : Option ShieldedData)
      (stakingAction : Option StakingAction)
  deriving DecidableEq

namespace Transaction

def inputs : Transaction → List Input
  | v4 inputs .. => inputs
  | v5 inputs .. => inputs
  | vCrosslink inputs .. => inputs

def outputs : Transaction → List Output
  | v4 _ outputs .. => outputs
  | v5 _ outputs .. => outputs
  | vCrosslink _ outputs .. => outputs

def joinsplits : Transaction → List JoinSplit
  | v4 _ _ joinsplits _ => joinsplits
  | _ => []

def sapling : Transaction → Option ShieldedData
  | v4 _ _ _ sapling => sapling
  | v5 _ _ sapling _ => sapling
  | vCrosslink _ _ sapling _ _ => sapling

def orchard : Transaction → Option ShieldedData
  | v4 .. => none
  | v5 _ _ _ orchard => orchard
  | vCrosslink _ _ _ orchard _ => orchard

def stakingAction : Transaction → Option StakingAction
  | vCrosslink _ _ _ _ action => action
  | _ => none

def isCoinbase (tx : Transaction) : Bool := tx.inputs == [.coinbase]

def sproutNullifiers (tx : Transaction) : List Nullifier := tx.joinsplits.flatMap JoinSplit.nullifiers

def saplingNullifiers (tx : Transaction) : List Nullifier := (tx.sapling.map ShieldedData.nullifiers).getD []

def orchardNullifiers (tx : Transaction) : List Nullifier := (tx.orchard.map ShieldedData.nullifiers).getD []

end Transaction

/-! ### Value balances -/

/-- The value that an input spends; looking up an output that was not provided panics. -/
def Input.valueFromOutputs (outputs : Table OutPoint Output) : Input → Except Panic (Amount .nonNegative)
  | .prevOut outpoint => unwrap ((outputs outpoint).map Output.value)
  | .coinbase => .ok .zero

/-- The difference of two non-negative amounts is always an amount. -/
def JoinSplit.valueBalance (j : JoinSplit) : Amount .negativeAllowed :=
  ⟨j.vpubNew.zatoshis - j.vpubOld.zatoshis, by
    have h := j.vpubOld.le_max
    have h' := j.vpubNew.zatoshis_nonneg
    simp only [Constraint.low]
    omega, by
    have h := j.vpubOld.zatoshis_nonneg
    have h' := j.vpubNew.le_max
    omega⟩

namespace Transaction

variable (tx : Transaction)

def transparentValueBalance (outputs : Table OutPoint Output) :
    Except (Stop ValueBalanceError) (ValueBalance .negativeAllowed) := do
  let values ← (tx.inputs.mapM (Input.valueFromOutputs outputs)).mapError .panic
  let inputValue ← (Amount.sum values).mapError fun e => .error (.transparent, e)
  let inputValue : Amount .negativeAllowed ← inputValue.constrain.mapError fun _ => .panic .unwrap
  let outputValue ← (Amount.sum (tx.outputs.map Output.value)).mapError fun e => .error (.transparent, e)
  let outputValue ← outputValue.constrain.mapError fun _ => .panic .unwrap
  let balance ← (inputValue.sub outputValue).mapError fun e => .error (.transparent, e)
  return .fromAmount .transparent balance

def sproutValueBalance : Except ValueBalanceError (ValueBalance .negativeAllowed) :=
  ValueBalance.sum (tx.joinsplits.map fun j => ValueBalance.fromAmount .sprout j.valueBalance)

def saplingValueBalance : ValueBalance .negativeAllowed :=
  .fromAmount .sapling ((tx.sapling.map ShieldedData.valueBalance).getD .zero)

def orchardValueBalance : ValueBalance .negativeAllowed :=
  .fromAmount .orchard ((tx.orchard.map ShieldedData.valueBalance).getD .zero)

/-- Only creating and withdrawing a bond move value in or out of a staking pool here. -/
def stakingActionValueBalance : Except Panic (ValueBalance .negativeAllowed) :=
  match tx.stakingAction with
  | none => .ok .zero
  | some action =>
    match action.kind with
    | .createNewDelegationBond => do
      let amount ← Amount.new (asI64 action.amountZats)
      return .fromAmount .stakingBonded amount.neg
    | .withdrawDelegationBond => do
      let amount ← Amount.new (asI64 action.amountZats)
      let amount ← amount.constrain.mapError fun _ => .unwrap
      return .fromAmount .stakingUnbonded amount
    | _ => .ok .zero

/-- The staking part is computed also when the sum of the others failed. -/
def valueBalance (outputs : Table OutPoint Output) :
    Except (Stop ValueBalanceError) (ValueBalance .negativeAllowed) := do
  let transparent ← tx.transparentValueBalance outputs
  let sprout ← tx.sproutValueBalance.mapError .error
  let others := do
    let sum ← transparent.add sprout
    let sum ← sum.add tx.saplingValueBalance
    sum.add tx.orchardValueBalance
  let staking ← tx.stakingActionValueBalance.mapError .panic
  (do (← others).add staking : Except ValueBalanceError _).mapError .error

end Transaction

/-! ### The pools of a value balance -/

/-- What an action pays into the bonded pool through the value balance of its transaction. -/
def paysIn (action : StakingAction) : ℤ :=
  if action.kind = .createNewDelegationBond then asI64 action.amountZats else 0

/-- What an action pays out of the unbonded pool through the value balance of its transaction. -/
def paysOut (action : StakingAction) : ℤ :=
  if action.kind = .withdrawDelegationBond then asI64 action.amountZats else 0

section ValueBalance

variable {tx : Transaction} {outputs : Table OutPoint Output} {v : ValueBalance .negativeAllowed}

theorem fromAmount_of_ne (h : p ≠ pool) (a : Amount .negativeAllowed) :
    ValueBalance.fromAmount pool a p = .zero := Function.update_of_ne h _ _

theorem fromAmount_self (pool : Pool) (a : Amount .negativeAllowed) : ValueBalance.fromAmount pool a pool = a :=
  Function.update_self _ _ _

theorem stakingActionValueBalance_eq_ok (h : tx.stakingActionValueBalance = .ok v) :
    (v .stakingBonded).zatoshis = -(tx.stakingAction.map paysIn).getD 0 ∧
      (v .stakingUnbonded).zatoshis = (tx.stakingAction.map paysOut).getD 0 ∧
      ∀ p, p ≠ .stakingBonded → p ≠ .stakingUnbonded → v p = .zero := by
  unfold Transaction.stakingActionValueBalance at h
  cases haction : tx.stakingAction with
  | none =>
    rw [haction] at h
    obtain rfl := Except.ok.inj h
    simp [zero]
  | some action =>
    rw [haction] at h
    dsimp only at h
    rw [Option.map_some, Option.map_some, Option.getD_some, Option.getD_some, paysIn, paysOut]
    split at h
    next hk =>
      obtain ⟨amount, hamount, h⟩ := bind_eq_ok.mp h
      obtain rfl := pure_eq_ok.mp h
      rw [fromAmount_self, fromAmount_of_ne (by decide), Amount.zatoshis_neg, Amount.new_eq_ok.mp hamount]
      exact ⟨by simp [hk], by simp [hk], fun p hb _ => fromAmount_of_ne hb _⟩
    next hk =>
      obtain ⟨amount, hamount, h⟩ := bind_eq_ok.mp h
      obtain ⟨amount', hamount', h⟩ := bind_eq_ok.mp h
      obtain rfl := pure_eq_ok.mp h
      rw [fromAmount_self, fromAmount_of_ne (by decide), Amount.constrain_eq_ok.mp (mapError_eq_ok.mp hamount'),
        Amount.new_eq_ok.mp hamount]
      exact ⟨by simp [hk], by simp [hk], fun p _ hu => fromAmount_of_ne hu _⟩
    next hcreate hwithdraw =>
      obtain rfl := Except.ok.inj h
      rw [if_neg hcreate, if_neg hwithdraw]
      simp [zero]

theorem transparentValueBalance_eq_ok (h : tx.transparentValueBalance outputs = .ok v) (hp : p ≠ .transparent) :
    v p = .zero := by
  unfold Transaction.transparentValueBalance at h
  simp only [bind_eq_ok, pure_eq_ok] at h
  obtain ⟨_, _, _, _, _, _, _, _, _, _, _, _, rfl⟩ := h
  exact fromAmount_of_ne hp _

theorem sproutValueBalance_eq_ok (h : tx.sproutValueBalance = .ok v) (hp : p ≠ .sprout) : v p = .zero := by
  apply Amount.ext
  rw [sum_eq_ok h p]
  apply List.sum_eq_zero
  intro x hx
  rw [List.map_map, List.mem_map] at hx
  obtain ⟨j, -, rfl⟩ := hx
  exact congrArg Amount.zatoshis (fromAmount_of_ne hp _)

theorem valueBalance_of_parts (htransparent : tx.transparentValueBalance outputs = .ok transparent)
    (hsprout : tx.sproutValueBalance = .ok sprout) (hstaking : tx.stakingActionValueBalance = .ok staking) :
    ∃ v, tx.valueBalance outputs = .ok v := by
  have ht : ∀ {p}, p ≠ .transparent → transparent p = .zero := fun hp => transparentValueBalance_eq_ok htransparent hp
  have hs : ∀ {p}, p ≠ .sprout → sprout p = .zero := fun hp => sproutValueBalance_eq_ok hsprout hp
  have hst := (stakingActionValueBalance_eq_ok hstaking).2.2
  have hsap : ∀ {p}, p ≠ .sapling → tx.saplingValueBalance p = .zero := fun hp => fromAmount_of_ne hp _
  have hor : ∀ {p}, p ≠ .orchard → tx.orchardValueBalance p = .zero := fun hp => fromAmount_of_ne hp _
  obtain ⟨s₁, h₁, hs₁⟩ := add_of_disjoint (v := transparent) (w := sprout) fun p => by
    by_cases hp : p = .transparent
    · exact .inr (hs (by simp [hp]))
    · exact .inl (ht hp)
  obtain ⟨s₂, h₂, hs₂⟩ := add_of_disjoint (v := s₁) (w := tx.saplingValueBalance) fun p => by
    by_cases hp : p = .sapling
    · exact .inl (hs₁ p (ht (by simp [hp])) (hs (by simp [hp])))
    · exact .inr (hsap hp)
  obtain ⟨s₃, h₃, hs₃⟩ := add_of_disjoint (v := s₂) (w := tx.orchardValueBalance) fun p => by
    by_cases hp : p = .orchard
    · exact .inl (hs₂ p (hs₁ p (ht (by simp [hp])) (hs (by simp [hp]))) (hsap (by simp [hp])))
    · exact .inr (hor hp)
  obtain ⟨s₄, h₄, -⟩ := add_of_disjoint (v := s₃) (w := staking) fun p => by
    by_cases hp : p = .stakingBonded ∨ p = .stakingUnbonded
    · refine .inl (hs₃ p (hs₂ p (hs₁ p (ht ?_) (hs ?_)) (hsap ?_)) (hor ?_)) <;> rcases hp with rfl | rfl <;> decide
    · exact .inr (hst p (fun h => hp (.inl h)) fun h => hp (.inr h))
  refine ⟨s₄, ?_⟩
  unfold Transaction.valueBalance
  simp [htransparent, hsprout, hstaking, h₁, h₂, h₃, h₄]

theorem valueBalance_eq_ok (h : tx.valueBalance outputs = .ok v) : ∃ transparent sprout staking,
    tx.transparentValueBalance outputs = .ok transparent ∧ tx.sproutValueBalance = .ok sprout ∧
      tx.stakingActionValueBalance = .ok staking ∧ ∀ p, (v p).zatoshis = (transparent p).zatoshis +
        (sprout p).zatoshis + (tx.saplingValueBalance p).zatoshis + (tx.orchardValueBalance p).zatoshis +
        (staking p).zatoshis := by
  unfold Transaction.valueBalance at h
  obtain ⟨transparent, htransparent, h⟩ := bind_eq_ok.mp h
  obtain ⟨sprout, hsprout, h⟩ := bind_eq_ok.mp h
  dsimp only at h
  obtain ⟨staking, hstaking, h⟩ := bind_eq_ok.mp h
  simp only [mapError_eq_ok, bind_eq_ok, add_eq_ok] at h
  obtain ⟨others, ⟨s₁, h₁, s₂, h₂, hothers⟩, hv⟩ := h
  exact ⟨transparent, sprout, staking, htransparent, mapError_eq_ok.mp hsprout, mapError_eq_ok.mp hstaking,
    fun p => by rw [hv, hothers, h₂, h₁]⟩

theorem valueBalance_staking (h : tx.valueBalance outputs = .ok v) :
    (v .stakingBonded).zatoshis = -(tx.stakingAction.map paysIn).getD 0 ∧
      (v .stakingUnbonded).zatoshis = (tx.stakingAction.map paysOut).getD 0 := by
  obtain ⟨transparent, sprout, staking, htransparent, hsprout, hstaking, hv⟩ := valueBalance_eq_ok h
  obtain ⟨hbonded, hunbonded, -⟩ := stakingActionValueBalance_eq_ok hstaking
  have hzero : ∀ p, p ≠ .transparent → p ≠ .sprout → p ≠ .sapling → p ≠ .orchard →
      (v p).zatoshis = (staking p).zatoshis := by
    intro p ht hs hsa ho
    rw [hv, transparentValueBalance_eq_ok htransparent ht, sproutValueBalance_eq_ok hsprout hs,
      Transaction.saplingValueBalance, fromAmount_of_ne hsa, Transaction.orchardValueBalance, fromAmount_of_ne ho]
    simp
  rw [hzero .stakingBonded (by decide) (by decide) (by decide) (by decide),
    hzero .stakingUnbonded (by decide) (by decide) (by decide) (by decide)]
  exact ⟨hbonded, hunbonded⟩

end ValueBalance

/-! ### Blocks -/

/-- A block that passed the semantic checks. -/
structure Block where
  hash : BlockHash
  previousBlockHash : BlockHash
  fatPointerToBftBlock : FatPointerToBftBlock
  height : ℕ
  /-- What its difficulty threshold is worth. -/
  work : ℕ
  size : ℕ
  transactions : List (TxHash × Transaction)
  deferredPoolBalanceChange : Option (Amount .negativeAllowed)

structure Utxo where
  output : Output
  height : ℕ
  fromCoinbase : Bool
  txIndexInBlock : ℕ
  deriving DecidableEq

namespace Block

variable (b : Block)

/-- The outputs of one transaction of a block at height `height`. -/
def createdBy (height txIndex : ℕ) (hash : TxHash) (tx : Transaction) : List (OutPoint × Utxo) :=
  tx.outputs.zipIdx.map fun o => (⟨hash, o.2⟩, ⟨o.1, height, tx.isCoinbase, txIndex⟩)

def newOutputs : List (OutPoint × Utxo) :=
  b.transactions.zipIdx.flatMap fun t => createdBy b.height t.2 t.1.1 t.1.2

/-- The outputs the block spends, with those that it creates itself. -/
def spentOutputs (spent : Table OutPoint Utxo) : Table OutPoint Utxo := fun outpoint =>
  (b.newOutputs.lookup outpoint).or (spent outpoint)

/-- The value balances of the transactions that have one: the others are passed over. -/
def valueBalances (outputs : Table OutPoint Output) :
    List (TxHash × Transaction) → Except (Stop ValueBalanceError) (List (ValueBalance .negativeAllowed))
  | [] => .ok []
  | (_, tx) :: txs =>
    match tx.valueBalance outputs with
    | .ok balance => (valueBalances outputs txs).map (balance :: ·)
    | .error (.error _) => valueBalances outputs txs
    | .error (.panic p) => .error (.panic p)

def chainValuePoolChange (utxos : Table OutPoint Utxo) :
    Except (Stop ValueBalanceError) (ValueBalance .negativeAllowed) := do
  let balances ← valueBalances (fun outpoint => (utxos outpoint).map Utxo.output) b.transactions
  let sum ← (ValueBalance.sum balances).mapError .error
  return sum.neg.setAmount .deferred (b.deferredPoolBalanceChange.getD .zero)

end Block

end Crosslink.Staking

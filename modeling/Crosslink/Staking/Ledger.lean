import Crosslink.Staking.Transaction

/-!
# Delegation bonds and pools of a chain

The part of a chain's state that staking actions work on: the bonds with their status, the rewards and the retargets
of each block, and the value pools. Three things are translated here: the validator, which reads the bonds before the
block and keeps its own notes of what the block did so far; the update, which applies the actions of a block one after
the other and then pays the block's reward; and the revert that takes the tip block off again. Lists with one entry
for each block have the newest block first. Hash maps are iterated in the order of their keys.
-/

namespace Crosslink.Staking

open Codec Fallible
open Std (ExtTreeMap)

/-! ### Bonds -/

structure TransactionLocation where
  height : ℕ
  index : ℕ
  deriving DecidableEq

structure DelegationBond where
  amount : Amount .nonNegative
  targetFinalizer : Bytes 32
  /-- The last transaction that created, unbonded or withdrew the bond. -/
  createdAt : TransactionLocation
  deriving DecidableEq

inductive BondStatusInChain where
  | active
  | unbonding
  | withdrawn
  deriving DecidableEq, Repr

/-- The status as it is stored in the database. -/
inductive BondStatus where
  | active
  | unbonding (unbondedAt : TransactionLocation)
  | withdrawn (withdrawnAt : TransactionLocation)
  deriving DecidableEq

def BondStatus.isActive : BondStatus → Bool
  | .active => true
  | _ => false

def BondStatus.isUnbonding : BondStatus → Bool
  | .unbonding _ => true
  | _ => false

abbrev Bonds := ExtTreeMap BondKey (DelegationBond × BondStatusInChain)

/-- The two column families of bonds in the database. -/
structure FinalizedBonds where
  delegationBondByKey : ExtTreeMap BondKey DelegationBond
  bondStatusByKey : ExtTreeMap BondKey BondStatus

def FinalizedBonds.isBondActive (db : FinalizedBonds) (key : BondKey) : Bool :=
  (db.bondStatusByKey[key]?.map BondStatus.isActive).getD false

structure BlockInfo where
  valuePools : ValueBalance .nonNegative
  size : ℕ

@[ext]
structure Ledger where
  delegationBonds : Bonds
  bondRewards : List (List (BondKey × ℕ))
  bondRetargets : List (ExtTreeMap BondKey (Bytes 32))
  chainValuePools : ValueBalance .nonNegative
  blockInfoByHeight : Table ℕ BlockInfo

def Ledger.status? (l : Ledger) (key : BondKey) : Option BondStatusInChain := l.delegationBonds[key]?.map Prod.snd

def Ledger.location? (l : Ledger) (key : BondKey) : Option TransactionLocation :=
  l.delegationBonds[key]?.map fun bs => bs.1.createdAt

inductive BondError where
  | duplicateInBlock (key : BondKey)
  | alreadyExists (key : BondKey)
  | alreadyExistsFinalized (key : BondKey)
  | invalidAmount (e : AmountError)
  | alreadyUnbondingInBlock (key : BondKey)
  | alreadyUnbonding (key : BondKey)
  | alreadyWithdrawn (key : BondKey)
  | notActive (key : BondKey)
  | notFound (key : BondKey)
  | amountMismatch (withdrawal bond : ℕ) (key : BondKey)
  | mustUnbondFirst (key : BondKey)
  | retargetUnbonding (key : BondKey)
  | retargetWithdrawn (key : BondKey)
  | retargetNotActive (key : BondKey)
  | retargetNotFound (key : BondKey)
  | bondedUnderflow (e : AmountError)
  | unbondedOverflow (e : AmountError)
  deriving DecidableEq

inductive ValidateContextError where
  | invalidDelegationBond (e : BondError)
  | calculateBlockChainValueChange (e : ValueBalanceError)
  | addValuePool (e : ValueBalanceError)
  | duplicateNullifier (nullifier : Nullifier)
  | nonSequentialBlock
  deriving DecidableEq

/-! ### Validation -/

/-- The keys of the bonds that the block created and unbonded so far. -/
structure BlockNotes where
  newBonds : List BondKey
  unbondingBonds : List BondKey

section Validation

variable (db : FinalizedBonds) (chain : Bonds) (notes : BlockNotes) (key : BondKey)

def validateCreateNewBond : Except BondError Unit :=
  if key ∈ notes.newBonds then .error (.duplicateInBlock key)
  else if chain[key]?.isSome then .error (.alreadyExists key)
  else if db.delegationBondByKey[key]?.isSome then .error (.alreadyExistsFinalized key)
  else .ok ()

def validateBondForUnbonding : Except BondError Unit :=
  if key ∈ notes.unbondingBonds then .error (.alreadyUnbondingInBlock key)
  else if key ∈ notes.newBonds then .ok ()
  else
    match chain[key]? with
    | some (_, .active) => .ok ()
    | some (_, .unbonding) => .error (.alreadyUnbonding key)
    | some (_, .withdrawn) => .error (.alreadyWithdrawn key)
    | none =>
      if db.delegationBondByKey[key]?.isSome then
        if db.isBondActive key then .ok () else .error (.notActive key)
      else .error (.notFound key)

/-- Reads only the chain: what the block did so far does not count. -/
def validateBondForWithdrawal (withdrawalAmount : ℕ) : Except BondError Unit :=
  match chain[key]? with
  | some (bond, .unbonding) =>
    if (withdrawalAmount : ℤ) ≠ bond.amount.zatoshis then
      .error (.amountMismatch withdrawalAmount bond.amount.zatoshis.toNat key)
    else .ok ()
  | some (_, .active) => .error (.mustUnbondFirst key)
  | some (_, .withdrawn) => .error (.alreadyWithdrawn key)
  | none => .error (.notFound key)

def validateBondForRetarget : Except BondError Unit :=
  if key ∈ notes.newBonds then .ok ()
  else
    match chain[key]? with
    | some (_, .active) => .ok ()
    | some (_, .unbonding) => .error (.retargetUnbonding key)
    | some (_, .withdrawn) => .error (.retargetWithdrawn key)
    | none =>
      if db.delegationBondByKey[key]?.isSome then
        if db.isBondActive key then .ok () else .error (.retargetNotActive key)
      else .error (.retargetNotFound key)

def validateAction (action : StakingAction) : Except BondError BlockNotes :=
  match action.kind with
  | .createNewDelegationBond => do
    validateCreateNewBond db chain notes action.arg32_0
    let _ : Amount .nonNegative ← (Amount.tryFromU64 action.amountZats).mapError .invalidAmount
    return { notes with newBonds := action.arg32_0 :: notes.newBonds }
  | .beginDelegationUnbonding => do
    validateBondForUnbonding db chain notes action.arg32_0
    return { notes with unbondingBonds := action.arg32_0 :: notes.unbondingBonds }
  | .withdrawDelegationBond => do
    validateBondForWithdrawal chain action.arg32_0 action.amountZats
    return notes
  | .retargetDelegationBond => do
    validateBondForRetarget db chain notes action.arg32_0
    return notes
  | _ => return notes

end Validation

def StakingActionKind.actsOnBond : StakingActionKind → Bool
  | .createNewDelegationBond => true
  | .beginDelegationUnbonding => true
  | .withdrawDelegationBond => true
  | .retargetDelegationBond => true
  | _ => false

/-- A bond that may be unbonded or retargeted: new in this block, active in the chain, or unknown to the chain and
active in the database. -/
def Usable (db : FinalizedBonds) (chain : Bonds) (notes : BlockNotes) (key : BondKey) : Prop :=
  key ∈ notes.newBonds ∨ (∃ bond, chain[key]? = some (bond, .active)) ∨ chain[key]? = none ∧ db.isBondActive key

/-- What the validator lets through, and the notes it takes. -/
inductive Admits (db : FinalizedBonds) (chain : Bonds) (notes : BlockNotes) (action : StakingAction) :
    BlockNotes → Prop
  | create (amount : Amount .nonNegative) (hk : action.kind = .createNewDelegationBond)
      (hnew : action.arg32_0 ∉ notes.newBonds) (hchain : chain[action.arg32_0]? = none)
      (hamount : amount.zatoshis = action.amountZats) :
      Admits db chain notes action { notes with newBonds := action.arg32_0 :: notes.newBonds }
  | unbond (hk : action.kind = .beginDelegationUnbonding) (hnot : action.arg32_0 ∉ notes.unbondingBonds)
      (husable : Usable db chain notes action.arg32_0) :
      Admits db chain notes action { notes with unbondingBonds := action.arg32_0 :: notes.unbondingBonds }
  | withdraw (bond : DelegationBond) (hk : action.kind = .withdrawDelegationBond)
      (hchain : chain[action.arg32_0]? = some (bond, .unbonding))
      (hamount : bond.amount.zatoshis = action.amountZats) : Admits db chain notes action notes
  | retarget (hk : action.kind = .retargetDelegationBond) (husable : Usable db chain notes action.arg32_0) :
      Admits db chain notes action notes
  | other (hk : action.kind.actsOnBond = false) : Admits db chain notes action notes

theorem validateBondForUnbonding_eq_ok (h : validateBondForUnbonding db chain notes key = .ok u) :
    key ∉ notes.unbondingBonds ∧ Usable db chain notes key := by
  unfold validateBondForUnbonding at h
  unfold Usable
  grind

theorem validateBondForRetarget_eq_ok (h : validateBondForRetarget db chain notes key = .ok u) :
    Usable db chain notes key := by
  unfold validateBondForRetarget at h
  unfold Usable
  grind

theorem validateAction_eq_ok (h : validateAction db chain notes action = .ok notes') :
    Admits db chain notes action notes' := by
  unfold validateAction at h
  split at h
  next hk =>
    obtain ⟨_, hcreate, h⟩ := bind_eq_ok.mp h
    obtain ⟨amount, hamount, h⟩ := bind_eq_ok.mp h
    obtain rfl := pure_eq_ok.mp h
    unfold validateCreateNewBond at hcreate
    exact .create amount hk (by grind) (by grind) (Amount.tryFromU64_eq_ok.mp (mapError_eq_ok.mp hamount))
  next hk =>
    obtain ⟨_, hunbond, h⟩ := bind_eq_ok.mp h
    obtain rfl := pure_eq_ok.mp h
    obtain ⟨hnot, husable⟩ := validateBondForUnbonding_eq_ok hunbond
    exact .unbond hk hnot husable
  next hk =>
    obtain ⟨_, hwithdraw, h⟩ := bind_eq_ok.mp h
    obtain rfl := pure_eq_ok.mp h
    unfold validateBondForWithdrawal at hwithdraw
    split at hwithdraw <;> try cases hwithdraw
    next bond hchain => exact .withdraw bond hk hchain (by grind)
  next hk =>
    obtain ⟨_, hretarget, h⟩ := bind_eq_ok.mp h
    obtain rfl := pure_eq_ok.mp h
    exact .retarget hk (validateBondForRetarget_eq_ok hretarget)
  next =>
    obtain rfl := pure_eq_ok.mp h
    refine .other ?_
    cases hk : action.kind <;> simp_all [StakingActionKind.actsOnBond]

/-- The staking actions of a block in order, each with the index of its transaction. -/
def Block.actions (b : Block) : List (StakingAction × ℕ) :=
  b.transactions.zipIdx.filterMap fun t => t.1.2.stakingAction.map (·, t.2)

def validateDelegationBonds (db : FinalizedBonds) (chain : Bonds) (b : Block) : Except BondError BlockNotes :=
  b.actions.foldlM (fun notes a => validateAction db chain notes a.1) ⟨[], []⟩

/-! ### Update -/

namespace Ledger

variable (l : Ledger)

def updateChainTipWithDelegationBond (action : StakingAction) (location : TransactionLocation) :
    Except (Stop ValidateContextError) Ledger :=
  let key := action.arg32_0
  match action.kind with
  | .createNewDelegationBond => do
    let amount ← (Amount.tryFromU64 action.amountZats).mapError fun _ => .panic .unwrap
    (ensure (l.delegationBonds[key]? = none)).mapError .panic
    return { l with delegationBonds := l.delegationBonds.insert key (⟨amount, action.arg32_2, location⟩, .active) }
  | .beginDelegationUnbonding => do
    let (bond, _) ← (unwrap l.delegationBonds[key]?).mapError .panic
    let bonded ← ((l.chainValuePools .stakingBonded).sub bond.amount).mapError
      fun e => .error (.invalidDelegationBond (.bondedUnderflow e))
    let unbonded ← ((l.chainValuePools .stakingUnbonded).add bond.amount).mapError
      fun e => .error (.invalidDelegationBond (.unbondedOverflow e))
    return { l with
      delegationBonds := l.delegationBonds.insert key ({ bond with createdAt := location }, .unbonding)
      chainValuePools := (l.chainValuePools.setAmount .stakingBonded bonded).setAmount .stakingUnbonded unbonded }
  | .withdrawDelegationBond => do
    let (bond, _) ← (unwrap l.delegationBonds[key]?).mapError .panic
    return { l with
      delegationBonds := l.delegationBonds.insert key ({ bond with createdAt := location }, .withdrawn) }
  | .retargetDelegationBond => do
    let (bond, status) ← (unwrap l.delegationBonds[key]?).mapError .panic
    let retargetsThisBlock ← (unwrap l.bondRetargets.head?).mapError .panic
    return { l with
      bondRetargets := retargetsThisBlock.insertIfNew key bond.targetFinalizer :: l.bondRetargets.tail
      delegationBonds := l.delegationBonds.insert key ({ bond with targetFinalizer := action.arg32_2 }, status) }
  | _ => return l

/-- What an action does to the ledger when it does not fail. -/
inductive Acts (action : StakingAction) (location : TransactionLocation) : Ledger → Prop
  | create (amount : Amount .nonNegative) (hk : action.kind = .createNewDelegationBond)
      (hamount : amount.zatoshis = action.amountZats) (hnew : l.delegationBonds[action.arg32_0]? = none) :
      Acts action location { l with
        delegationBonds :=
          l.delegationBonds.insert action.arg32_0 (⟨amount, action.arg32_2, location⟩, .active) }
  | unbond (bond : DelegationBond) (status : BondStatusInChain) (bonded unbonded : Amount .nonNegative)
      (hk : action.kind = .beginDelegationUnbonding) (hbond : l.delegationBonds[action.arg32_0]? = some (bond, status))
      (hbonded : bonded.zatoshis = (l.chainValuePools .stakingBonded).zatoshis - bond.amount.zatoshis)
      (hunbonded : unbonded.zatoshis = (l.chainValuePools .stakingUnbonded).zatoshis + bond.amount.zatoshis) :
      Acts action location { l with
        delegationBonds := l.delegationBonds.insert action.arg32_0 ({ bond with createdAt := location }, .unbonding)
        chainValuePools :=
          (l.chainValuePools.setAmount .stakingBonded bonded).setAmount .stakingUnbonded unbonded }
  | withdraw (bond : DelegationBond) (status : BondStatusInChain) (hk : action.kind = .withdrawDelegationBond)
      (hbond : l.delegationBonds[action.arg32_0]? = some (bond, status)) :
      Acts action location { l with
        delegationBonds :=
          l.delegationBonds.insert action.arg32_0 ({ bond with createdAt := location }, .withdrawn) }
  | retarget (bond : DelegationBond) (status : BondStatusInChain) (retargets : ExtTreeMap BondKey (Bytes 32))
      (hk : action.kind = .retargetDelegationBond) (hbond : l.delegationBonds[action.arg32_0]? = some (bond, status))
      (hretargets : l.bondRetargets.head? = some retargets) :
      Acts action location { l with
        bondRetargets := retargets.insertIfNew action.arg32_0 bond.targetFinalizer :: l.bondRetargets.tail
        delegationBonds :=
          l.delegationBonds.insert action.arg32_0 ({ bond with targetFinalizer := action.arg32_2 }, status) }
  | other (hk : action.kind.actsOnBond = false) : Acts action location l

variable {l} in
theorem updateChainTipWithDelegationBond_eq_ok :
    l.updateChainTipWithDelegationBond action location = .ok l' ↔ l.Acts action location l' := by
  unfold updateChainTipWithDelegationBond
  constructor
  · intro h
    dsimp only at h
    split at h
    next hk =>
      obtain ⟨amount, hamount, h⟩ := bind_eq_ok.mp h
      obtain ⟨⟨⟩, hnew, h⟩ := bind_eq_ok.mp h
      obtain rfl := pure_eq_ok.mp h
      exact .create amount hk (Amount.tryFromU64_eq_ok.mp (mapError_eq_ok.mp hamount))
        (ensure_eq_ok.mp (mapError_eq_ok.mp hnew))
    next hk =>
      obtain ⟨⟨bond, status⟩, hbond, h⟩ := bind_eq_ok.mp h
      obtain ⟨bonded, hbonded, h⟩ := bind_eq_ok.mp h
      obtain ⟨unbonded, hunbonded, h⟩ := bind_eq_ok.mp h
      obtain rfl := pure_eq_ok.mp h
      exact .unbond bond status bonded unbonded hk (unwrap_eq_ok.mp (mapError_eq_ok.mp hbond))
        (Amount.sub_eq_ok.mp (mapError_eq_ok.mp hbonded)) (Amount.add_eq_ok.mp (mapError_eq_ok.mp hunbonded))
    next hk =>
      obtain ⟨⟨bond, status⟩, hbond, h⟩ := bind_eq_ok.mp h
      obtain rfl := pure_eq_ok.mp h
      exact .withdraw bond status hk (unwrap_eq_ok.mp (mapError_eq_ok.mp hbond))
    next hk =>
      obtain ⟨⟨bond, status⟩, hbond, h⟩ := bind_eq_ok.mp h
      obtain ⟨retargets, hretargets, h⟩ := bind_eq_ok.mp h
      obtain rfl := pure_eq_ok.mp h
      exact .retarget bond status retargets hk (unwrap_eq_ok.mp (mapError_eq_ok.mp hbond))
        (unwrap_eq_ok.mp (mapError_eq_ok.mp hretargets))
    next =>
      obtain rfl := pure_eq_ok.mp h
      refine .other ?_
      cases hk : action.kind <;> simp_all [StakingActionKind.actsOnBond]
  · intro h
    cases h with
    | create amount hk hamount hnew =>
      simp only [hk, Amount.tryFromU64_eq_ok.mpr hamount, ensure_ok hnew, mapError_ok, ok_bind, pure_eq_ok]
    | unbond bond status bonded unbonded hk hbond hbonded hunbonded =>
      simp [hk, hbond, unwrap, Amount.sub_eq_ok.mpr hbonded, Amount.add_eq_ok.mpr hunbonded]
    | withdraw bond status hk hbond => simp [hk, hbond, unwrap]
    | retarget bond status retargets hk hbond hretargets => simp [hk, hbond, hretargets, unwrap]
    | other hk => cases hkind : action.kind <;> simp_all [StakingActionKind.actsOnBond]

/-- The pool change of the block, and the record of the pools after it. -/
def updateChainValuePools (change : ValueBalance .negativeAllowed) (height size : ℕ) :
    Except (Stop ValidateContextError) Ledger := do
  let pools ← (l.chainValuePools.addChainValuePoolChange change).mapError fun e => .error (.addValuePool e)
  return { l with
    chainValuePools := pools
    blockInfoByHeight := Function.update l.blockInfoByHeight height (some ⟨pools, size % 2 ^ 32⟩) }

/-! ### Rewards -/

def bondRewardTotal : ℕ := 500000000

def activeBonds (bonds : Bonds) : List (BondKey × DelegationBond) :=
  bonds.toList.filterMap fun kb => if kb.2.2 = .active then some (kb.1, kb.2.1) else none

def biggerBond (best other : BondKey × DelegationBond) : BondKey × DelegationBond :=
  if other.2.amount.zatoshis > best.2.amount.zatoshis ∨
      other.2.amount.zatoshis = best.2.amount.zatoshis ∧ other.1 < best.1 then other
  else best

def payReward (bonds : Bonds) (key : BondKey) (reward : ℕ) : Except Panic Bonds := do
  let (bond, status) ← unwrap bonds[key]?
  let amount ← (bond.amount.add (← Amount.new (asI64 reward))).mapError fun _ => .unwrap
  return bonds.insert key ({ bond with amount }, status)

/-- The proportional reward of one bond: the bonds, what was paid so far and the record of it. -/
def rewardTurn (checks : Bool) (totalStaked : ℕ) (s : Bonds × ℕ × List (BondKey × ℕ))
    (kb : BondKey × DelegationBond) : Except Panic (Bonds × ℕ × List (BondKey × ℕ)) := do
  if totalStaked = 0 then .error .divide
  else do
    let reward := kb.2.amount.zatoshis.toNat * bondRewardTotal / totalStaked % 2 ^ 64
    let soFarPaid ← addU checks 64 s.2.1 reward
    let bonds ← payReward s.1 kb.1 reward
    return (bonds, soFarPaid, s.2.2 ++ [(kb.1, reward)])

/-- Every active bond gets its share, rounded down; the biggest gets what is left. -/
def payBlockReward (checks : Bool) : Except Panic Ledger :=
  match activeBonds l.delegationBonds with
  | [] => return { l with bondRewards := [] :: l.bondRewards }
  | first :: others => do
    let totalStaked ← others.foldlM (fun sum kb => addU checks 64 sum kb.2.amount.zatoshis.toNat)
      first.2.amount.zatoshis.toNat
    let maxStaker := (others.foldl biggerBond first).1
    let (bonds, soFarPaid, record) ← ((first :: others).filter fun kb => kb.1 ≠ maxStaker).foldlM
      (rewardTurn checks totalStaked) (l.delegationBonds, 0, [])
    let reward ← subU checks 64 bondRewardTotal soFarPaid
    let bonds ← payReward bonds maxStaker reward
    let bonded ← ((l.chainValuePools .stakingBonded).add (← Amount.new bondRewardTotal)).mapError fun _ => .unwrap
    return { l with
      delegationBonds := bonds
      chainValuePools := l.chainValuePools.setAmount .stakingBonded bonded
      bondRewards := (record ++ [(maxStaker, reward)]) :: l.bondRewards }

/-! ### Revert -/

def revertReward (l : Ledger) (kr : BondKey × ℕ) : Except Panic Ledger := do
  let (bond, status) ← unwrap l.delegationBonds[kr.1]?
  let reward ← (Amount.tryFrom (asI64 kr.2)).mapError fun _ => .unwrap
  let amount ← (bond.amount.sub reward).mapError fun _ => .unwrap
  let bonded ← ((l.chainValuePools .stakingBonded).sub reward).mapError fun _ => .unwrap
  return { l with
    delegationBonds := l.delegationBonds.insert kr.1 ({ bond with amount }, status)
    chainValuePools := l.chainValuePools.setAmount .stakingBonded bonded }

def revertRewards : Except Panic Ledger := do
  let rewards ← unwrap l.bondRewards.head?
  rewards.foldlM revertReward { l with bondRewards := l.bondRewards.tail }

def revertRetarget (l : Ledger) (kt : BondKey × Bytes 32) : Except Panic Ledger := do
  let (bond, status) ← unwrap l.delegationBonds[kt.1]?
  return { l with delegationBonds := l.delegationBonds.insert kt.1 ({ bond with targetFinalizer := kt.2 }, status) }

def revertRetargets : Except Panic Ledger := do
  let retargets ← unwrap l.bondRetargets.head?
  retargets.toList.foldlM revertRetarget { l with bondRetargets := l.bondRetargets.tail }

/-- Restores the status of a bond; the location of the last action stays. -/
def revertDelegationBond (action : StakingAction) : Except Panic Ledger :=
  let key := action.arg32_0
  match action.kind with
  | .createNewDelegationBond => do
    ensure (l.delegationBonds[key]?.isSome)
    return { l with delegationBonds := l.delegationBonds.erase key }
  | .beginDelegationUnbonding => do
    let (bond, status) ← unwrap l.delegationBonds[key]?
    ensure (status = .unbonding)
    let bonded ← ((l.chainValuePools .stakingBonded).add bond.amount).mapError fun _ => .unwrap
    let unbonded ← ((l.chainValuePools .stakingUnbonded).sub bond.amount).mapError fun _ => .unwrap
    return { l with
      delegationBonds := l.delegationBonds.insert key (bond, .active)
      chainValuePools := (l.chainValuePools.setAmount .stakingBonded bonded).setAmount .stakingUnbonded unbonded }
  | .withdrawDelegationBond => do
    let (bond, status) ← unwrap l.delegationBonds[key]?
    ensure (status = .withdrawn)
    return { l with delegationBonds := l.delegationBonds.insert key (bond, .unbonding) }
  | _ => return l

def revertChainValuePools (change : ValueBalance .negativeAllowed) (height : ℕ) : Except Panic Ledger := do
  let pools ← (l.chainValuePools.addChainValuePoolChange change.neg).mapError fun _ => .unwrap
  return { l with
    chainValuePools := pools
    blockInfoByHeight := Function.update l.blockInfoByHeight height none }

end Ledger

end Crosslink.Staking

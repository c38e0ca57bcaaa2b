import Crosslink.Consensus.Verifier
import Crosslink.State.Moves

/-!
# Staking transactions that stop the node

The value balance of a transaction takes the amount of a create or withdraw action through an asserting constructor,
before the validator of bonds would refuse an amount that is out of range. For a transaction read from bytes this
is, beside a spent output that was not provided, the only panic on the way from the verifier to the bonds of a chain.
-/

namespace Crosslink.Consensus

open Codec Fallible Staking State Amount Option Transaction

/-! ### Value balances -/

section Transactions

variable {tx : Transaction} {spent : Table OutPoint Output}

def Provided (tx : Transaction) (spent : Table OutPoint Output) : Prop :=
  ∀ o ∈ tx.inputs.filterMap Input.outpoint, spent o ≠ none

/-- The value that an input brings, nothing where the table has no output for it. -/
def inputValue (spent : Table OutPoint Output) (i : Input) : ℤ :=
  ((i.outpoint.bind spent).map fun o => o.value.zatoshis).getD 0

def spentValue (tx : Transaction) (spent : Table OutPoint Output) : ℤ := (tx.inputs.map (inputValue spent)).sum

def createdValue (tx : Transaction) : ℤ := (tx.outputs.map fun o => o.value.zatoshis).sum

theorem valueFromOutputs_error_iff {i : Input} :
    (∃ e, i.valueFromOutputs spent = .error e) ↔ ∃ o, i.outpoint = some o ∧ spent o = none := by
  cases i with
  | coinbase => simp [Input.valueFromOutputs, Input.outpoint]
  | prevOut o => cases h : spent o <;> simp [Input.valueFromOutputs, Input.outpoint, unwrap, h]

theorem valueFromOutputs_zatoshis (h : i.valueFromOutputs spent = .ok a) :
    a.zatoshis = inputValue spent i := by
  cases i with
  | coinbase =>
    obtain rfl := Except.ok.inj h
    rfl
  | prevOut o =>
    obtain ⟨output, houtput, rfl⟩ := map_eq_some_iff.mp (unwrap_eq_ok.mp h)
    simp [inputValue, Input.outpoint, houtput]

theorem inputs_error_iff :
    (∃ e, tx.inputs.mapM (Input.valueFromOutputs spent) = .error e) ↔ ¬ Provided tx spent := by
  rw [mapM_error_iff]
  simp only [valueFromOutputs_error_iff, Provided, List.mem_filterMap]
  push Not
  constructor
  · rintro ⟨i, hi, o, ho, hnone⟩
    exact ⟨o, ⟨i, hi, ho⟩, hnone⟩
  · rintro ⟨o, ⟨i, hi, ho⟩, hnone⟩
    exact ⟨i, hi, o, ho, hnone⟩

theorem inputs_sum (h : tx.inputs.mapM (Input.valueFromOutputs spent) = .ok values) :
    (values.map Amount.zatoshis).sum = spentValue tx spent := by
  unfold spentValue
  generalize tx.inputs = inputs at h
  induction inputs generalizing values with
  | nil =>
    rw [List.mapM_nil, pure_eq_ok] at h
    rw [← h]
    rfl
  | cons i inputs ih =>
    rw [List.mapM_cons] at h
    obtain ⟨a, ha, h⟩ := bind_eq_ok.mp h
    obtain ⟨rest, hrest, h⟩ := bind_eq_ok.mp h
    obtain rfl := pure_eq_ok.mp h
    rw [List.map_cons, List.sum_cons, List.map_cons, List.sum_cons, ih hrest, valueFromOutputs_zatoshis ha]

theorem transparentValueBalance_panics_iff :
    Panics (tx.transparentValueBalance spent) ↔ ¬ Provided tx spent := by
  unfold transparentValueBalance
  simp only [panics_bind, panics_mapError_panic, panics_mapError_error, constrain_nonNegative, mapError_ok,
    panics_ok, false_or, inputs_error_iff]
  constructor
  · rintro (h | ⟨values, -, sum, -, _, -, out, -, _, -, balance, -, h⟩)
    · exact h
    · exact absurd h (panics_ok _)
  · intro h
    exact .inl h

theorem transparentValueBalance_isOk_iff (hprovided : Provided tx spent) :
    (∃ v, tx.transparentValueBalance spent = .ok v) ↔
      spentValue tx spent ≤ maxMoney ∧ createdValue tx ≤ maxMoney := by
  have hvalues : ∃ values, tx.inputs.mapM (Input.valueFromOutputs spent) = .ok values := by
    cases hmap : tx.inputs.mapM (Input.valueFromOutputs spent) with
    | ok values => exact ⟨values, rfl⟩
    | error e => exact absurd hprovided (inputs_error_iff.mp ⟨e, hmap⟩)
  obtain ⟨values, hvalues⟩ := hvalues
  have hout : ((tx.outputs.map Output.value).map zatoshis).sum = createdValue tx := by
    rw [List.map_map]
    rfl
  rw [← inputs_sum hvalues, ← hout, ← sum_isOk_iff, ← sum_isOk_iff]
  unfold transparentValueBalance
  simp only [hvalues, mapError_ok, ok_bind, bind_eq_ok, mapError_eq_ok, constrain_nonNegative]
  constructor
  · rintro ⟨v, sum, hsum, out, hout, -⟩
    exact ⟨⟨sum, hsum⟩, ⟨out, hout⟩⟩
  · rintro ⟨⟨sum, hsum⟩, ⟨out, hout⟩⟩
    have hsum₀ := sum.zatoshis_nonneg
    have hsum₁ := sum.le_max
    have hout₀ := out.zatoshis_nonneg
    have hout₁ := out.le_max
    have hsub : sum.neg.neg.sub out.neg.neg = .ok ⟨sum.zatoshis - out.zatoshis, by
        simp only [Constraint.low]; omega, by omega⟩ := sub_eq_ok.mpr (by simp)
    exact ⟨_, sum, hsum, out, hout, _, hsub, rfl⟩

/-! ### Fees -/

def TooMuch (tx : Transaction) : Prop :=
  ∃ action, tx.stakingAction = some action ∧
    (action.kind = .createNewDelegationBond ∨ action.kind = .withdrawDelegationBond) ∧ maxMoney < action.amountZats

theorem asI64_in_range_iff (h : n < 2 ^ 64) : (0 ≤ asI64 n ∧ asI64 n ≤ maxMoney) ↔ (n : ℤ) ≤ maxMoney := by
  unfold asI64 maxMoney
  split_ifs <;> omega

theorem new_error_iff : (∃ e, Amount.new z = .error e) ↔ ¬ (0 ≤ z ∧ z ≤ maxMoney) := by
  unfold new
  split_ifs with h <;> simp [h]

theorem stakingActionValueBalance_error_iff (h : ∀ action, tx.stakingAction = some action → action.amountZats < 2 ^ 64) :
    (∃ e, tx.stakingActionValueBalance = .error e) ↔ TooMuch tx := by
  unfold stakingActionValueBalance TooMuch
  cases haction : tx.stakingAction with
  | none => simp
  | some action =>
    have hrange := asI64_in_range_iff (h action haction)
    have hnew := new_error_iff (z := asI64 action.amountZats)
    rw [hrange, not_le] at hnew
    simp only [some.injEq, exists_eq_left']
    split
    next hk =>
      simp only [hk, true_or, true_and, ← hnew]
      cases new (asI64 action.amountZats) <;> simp [pure, Except.pure]
    next hk =>
      simp only [hk, or_true, true_and, ← hnew]
      cases new (asI64 action.amountZats) with
      | error e => simp
      | ok a => simp [constrain_nonNegative, pure, Except.pure]
    next hcreate hwithdraw =>
      have hne : ¬ (action.kind = .createNewDelegationBond ∨ action.kind = .withdrawDelegationBond) :=
        fun hk => hk.elim hcreate hwithdraw
      simp [hne]

theorem valueBalance_panics_iff (hjoinsplits : tx.joinsplits = [])
    (h : ∀ action, tx.stakingAction = some action → action.amountZats < 2 ^ 64) :
    Panics (tx.valueBalance spent) ↔ ¬ Provided tx spent ∨
      TooMuch tx ∧ spentValue tx spent ≤ maxMoney ∧ createdValue tx ≤ maxMoney := by
  have hsprout : tx.sproutValueBalance = .ok .zero := by
    rw [sproutValueBalance, hjoinsplits]
    rfl
  unfold valueBalance
  simp only [panics_bind, hsprout, mapError_ok, ok_bind, panics_mapError_panic, panics_mapError_stop, and_false,
    exists_false, or_false, transparentValueBalance_panics_iff, stakingActionValueBalance_error_iff h]
  by_cases hprovided : Provided tx spent
  · rw [← transparentValueBalance_isOk_iff hprovided, exists_and_right, and_comm]
  · simp [hprovided]

theorem minerFee_panics_iff : Panics (minerFee tx spent) ↔ Panics (tx.valueBalance spent) := by
  unfold minerFee
  split
  next p hv => simp [hv, Panics]
  next e hv =>
    rw [hv]
    split_ifs <;> simp
  next v hv =>
    rw [hv]
    split_ifs
    · simp
    · split <;> simp

end Transactions

/-! ### Applying an action -/

def Covers (db : FinalizedBonds) (chain : Bonds) : Prop :=
  ∀ key : BondKey, db.isBondActive key = true → ∃ bs, chain[key]? = some bs

section Apply

variable {db : FinalizedBonds} {chain : Bonds} {notes notes' : BlockNotes} {l : Ledger} {action : StakingAction}
  {withdrawn : Bool}

theorem exists_bond_of_status (h : l.status? key ≠ none) : ∃ bs, l.delegationBonds[key]? = some bs := by
  rw [Ledger.status?, Ne, map_eq_none_iff] at h
  exact ne_none_iff_exists'.mp h

theorem exists_bond_of_usable (hcovers : Covers db chain) (h : Tracks chain notes l action.arg32_0 withdrawn)
    (husable : Usable db chain notes action.arg32_0) : ∃ bs, l.delegationBonds[action.arg32_0]? = some bs := by
  apply exists_bond_of_status
  rw [h.status]
  rcases husable with hnew | ⟨bond, hbond⟩ | ⟨hnone, hactive⟩
  · rw [h.new hnew, map_none, tracked, if_pos hnew]
    split_ifs <;> simp
  · rw [hbond, map_some, tracked]
    split_ifs <;> simp
  · obtain ⟨bs, hbs⟩ := hcovers _ hactive
    rw [hnone] at hbs
    cases hbs

theorem act_not_panics (hcovers : Covers db chain) (h : Tracks chain notes l action.arg32_0 withdrawn)
    (hopen : l.bondRetargets ≠ []) (hvalid : validateAction db chain notes action = .ok notes')
    (location : TransactionLocation) : ¬ Panics (l.updateChainTipWithDelegationBond action location) := by
  unfold Ledger.updateChainTipWithDelegationBond
  cases validateAction_eq_ok hvalid with
  | create amount hk hnew hchain hamount =>
    have hstatus := h.status
    rw [hchain, map_none, tracked, if_neg hnew, Ledger.status?, map_eq_none_iff] at hstatus
    simp [hk, tryFromU64_eq_ok.mpr hamount, ensure, hstatus]
  | unbond hk hnot husable =>
    obtain ⟨bs, hbs⟩ := exists_bond_of_usable hcovers h husable
    simp [hk, hbs, unwrap]
  | withdraw bond hk hchain hamount =>
    have hstatus := h.status
    rw [hchain, map_some, tracked] at hstatus
    obtain ⟨bs, hbs⟩ := exists_bond_of_status (l := l) (by rw [hstatus]; split_ifs <;> simp)
    simp [hk, hbs, unwrap]
  | retarget hk husable =>
    obtain ⟨bs, hbs⟩ := exists_bond_of_usable hcovers h husable
    obtain ⟨retargets, rest, hretargets⟩ := List.exists_cons_of_ne_nil hopen
    simp [hk, hbs, hretargets, unwrap]
  | other hk => cases hkind : action.kind <;> simp_all [StakingActionKind.actsOnBond]

end Apply

/-- A `VCrosslink` transaction whose staking action was read from bytes. -/
def Decoded (tx : Transaction) : Prop :=
  ∃ inputs outputs sapling orchard action bytes rest,
    tx = .vCrosslink inputs outputs sapling orchard action ∧ StakingAction.read bytes = some (action, rest)

/-- The fee of the transaction is computed without a panic, and in the middle of any block on any chain that covers
its database, what the validator lets through is applied without a panic. -/
structure NeverPanics (tx : Transaction) (spent : Table OutPoint Output) : Prop where
  fee : ¬ Panics (minerFee tx spent)
  act : ∀ (db : FinalizedBonds) (start l : Ledger) (pre : List (StakingAction × ℕ)) (notes notes' : BlockNotes)
    (action : StakingAction) (location : TransactionLocation), Covers db start.delegationBonds →
    pre.foldlM (fun notes x => validateAction db start.delegationBonds notes x.1) ⟨[], []⟩ = .ok notes →
    actAll location.height (openLedger start) pre = .ok l → tx.stakingAction = some action →
    validateAction db start.delegationBonds notes action = .ok notes' → ¬ Panics (Chain.actOn l tx location)

theorem actOn_not_panics (hcovers : Covers db start.delegationBonds)
    (hpre : pre.foldlM (fun notes x => validateAction db start.delegationBonds notes x.1) ⟨[], []⟩ = .ok notes)
    (hacts : actAll location.height (openLedger start) pre = .ok l) (haction : tx.stakingAction = some action)
    (hvalid : validateAction db start.delegationBonds notes action = .ok notes') :
    ¬ Panics (Chain.actOn l tx location) := by
  have hopen : l.bondRetargets ≠ [] ∧ ∀ key, Tracks start.delegationBonds notes l key (key ∈ withdrawnBy pre) := by
    refine valid_induction hpre hacts (R := fun _ l => l.bondRetargets ≠ []) (by simp [openLedger]) ?_
    intro pre x l l' hR _ hmoves
    cases hmoves with
    | retarget => simp
    | _ => exact hR
  rw [Chain.actOn, haction]
  exact act_not_panics hcovers (hopen.2 action.arg32_0) hopen.1 hvalid location

/-- A staking transaction read from bytes does no harm just when its outputs are provided and it neither creates nor
withdraws more than the maximum, except where the sums of its inputs or outputs are refused before. -/
theorem neverPanics_iff {tx : Transaction} (h : Decoded tx) (spent : Table OutPoint Output) :
    NeverPanics tx spent ↔ Provided tx spent ∧
      (TooMuch tx → maxMoney < spentValue tx spent ∨ maxMoney < createdValue tx) := by
  obtain ⟨inputs, outputs, sapling, orchard, action, bytes, rest, rfl, hread⟩ := h
  have hlt : ∀ a, (vCrosslink inputs outputs sapling orchard action).stakingAction = some a →
      a.amountZats < 2 ^ 64 := by
    intro a ha
    obtain rfl : action = some a := ha
    exact StakingAction.read_amount_lt hread
  have hfee : Panics (minerFee _ spent) ↔ _ := minerFee_panics_iff.trans (valueBalance_panics_iff rfl hlt)
  constructor
  · intro hnever
    have hno := fun hp => hnever.fee (hfee.mpr hp)
    refine ⟨by_contra fun hp => hno (.inl hp), fun htoo => ?_⟩
    by_contra hsums
    rw [not_or, not_lt, not_lt] at hsums
    exact hno (.inr ⟨htoo, hsums⟩)
  · rintro ⟨hprovided, htoo⟩
    refine ⟨fun hp => ?_, fun db start l pre notes notes' a location hcovers hpre hacts ha hvalid =>
      actOn_not_panics hcovers hpre hacts ha hvalid⟩
    rcases hfee.mp hp with hmissing | ⟨hmuch, hspent, hcreated⟩
    · exact hmissing hprovided
    · rcases htoo hmuch with h | h <;> omega

/-- The bytes of an action that creates a bond with a given amount. -/
def createBytes (amount : ℕ) : List UInt8 :=
  1 :: leBytes 32 1 ++ leBytes 32 0 ++ leBytes 64 0 ++ leBytes 32 0 ++ leBytes 8 amount

def createTx (amount : ℕ) : Transaction :=
  .vCrosslink [] [] none none (some { StakingAction.default .createNewDelegationBond with
    arg32_0 := bytesNo 32 1, arg32_2 := bytesNo 32 0, amountZats := amount })

theorem neverPanics_createTx : NeverPanics (createTx 100000000) Table.empty := by
  have hdecoded : Decoded (createTx 100000000) :=
    ⟨[], [], none, none, _, createBytes 100000000, [], rfl, by decide +kernel⟩
  refine (neverPanics_iff hdecoded Table.empty).mpr ⟨by simp [Provided, createTx, inputs], ?_⟩
  rintro ⟨action, haction, -, hmuch⟩
  obtain rfl := some.inj haction
  exact absurd hmuch (by decide)

/-- One zatoshi above the maximum is enough. -/
theorem create_above_max_panics :
    Decoded (createTx 2100000000000001) ∧ Panics (minerFee (createTx 2100000000000001) Table.empty) :=
  ⟨⟨[], [], none, none, _, createBytes 2100000000000001, [], rfl, by decide +kernel⟩, .assert, rfl⟩

end Crosslink.Consensus

import Crosslink.Staking.Transaction

/-!
# The fee in two libraries

The node takes the fee of a transaction from its value balance, which has a staking part. The wallet library computes
the fee on its own, from the transparent and the shielded parts only (`Transaction.feePaid`), so the two differ by what
a bond creation pays in or a withdrawal pays out.
-/

namespace Crosslink.Staking

open Codec Fallible List Amount

/-! ### The fee in the wallet library -/

inductive BalanceError where
  | overflow
  | underflow
  deriving DecidableEq, Repr

/-- The wallet library's signed amounts, with the range of the node's. -/
abbrev ZatBalance := Amount .negativeAllowed

abbrev Zatoshis := Amount .nonNegative

def ZatBalance.from (a : Zatoshis) : ZatBalance :=
  ⟨a.zatoshis, le_trans (by decide) a.zatoshis_nonneg, a.le_max⟩

/-- `iter.sum::<Option<ZatBalance>>()`. -/
def ZatBalance.sum (values : List ZatBalance) : Option ZatBalance :=
  values.foldlM (fun acc a => (acc.add a).toOption) .zero

/-- The callback, for values given to outputs: the null outpoint of a coinbase input is not one. -/
def Input.prevoutValue (outputs : Table OutPoint Output) : Input → Option Zatoshis
  | .prevOut outpoint => (outputs outpoint).map Output.value
  | .coinbase => none

def inputSum (outputs : Table OutPoint Output) (acc : Zatoshis) : List Input → Except BalanceError (Option Zatoshis)
  | [] => .ok (some acc)
  | input :: rest =>
    match input.prevoutValue outputs with
    | none => .ok none
    | some v =>
      match acc.add v with
      | .ok acc => inputSum outputs acc rest
      | .error _ => .error .overflow

namespace Transaction

variable (tx : Transaction)

/-- `transparent::Bundle::value_balance`. -/
def transparentBalance (outputs : Table OutPoint Output) : Except BalanceError (Option ZatBalance) := do
  match ← inputSum outputs .zero tx.inputs with
  | none => return none
  | some inputSum =>
    match ZatBalance.sum (tx.outputs.map fun o => .from o.value) with
    | none => .error .overflow
    | some outputSum => do
      let balance ← ((ZatBalance.from inputSum).sub outputSum).mapError fun _ => .underflow
      return some balance

/-- `sprout::Bundle::value_balance`. -/
def sproutBalance : Option ZatBalance := ZatBalance.sum (tx.joinsplits.map JoinSplit.valueBalance)

def feePaid (outputs : Table OutPoint Output) : Except BalanceError (Option Zatoshis) := do
  match ← tx.transparentBalance outputs with
  | none => return none
  | some transparentBalance =>
    match tx.sproutBalance with
    | none => .error .overflow
    | some sproutBalance =>
      match ZatBalance.sum [transparentBalance, sproutBalance, (tx.sapling.map ShieldedData.valueBalance).getD .zero,
          (tx.orchard.map ShieldedData.valueBalance).getD .zero] with
      | none => .error .overflow
      | some overallBalance => do
        let fee ← overallBalance.constrain.mapError fun _ => .underflow
        return some fee

def remainingValue (outputs : Table OutPoint Output) :
    Except (Stop (ValueBalanceError ⊕ AmountError)) (Amount .nonNegative) := do
  let balance ← (tx.valueBalance outputs).mapError (Stop.mapErr .inl)
  balance.remainingTransactionValue.mapError fun e => .error (.inr e)

def Assigned (outputs : Table OutPoint Output) : Prop :=
  ∀ outpoint, Input.prevOut outpoint ∈ tx.inputs → (outputs outpoint).isSome

def SameFee (outputs : Table OutPoint Output) : Prop :=
  (∃ fee, tx.feePaid outputs = .ok (some fee) ∧ tx.remainingValue outputs = .ok fee) ∨
    ((∃ e, tx.feePaid outputs = .error e) ∧ ∃ e, tx.remainingValue outputs = .error (.error e))

end Transaction

/-! ### Ranges -/

def InRange (z : ℤ) : Prop := -maxMoney ≤ z ∧ z ≤ maxMoney

namespace Amount

variable {c : Constraint}

theorem exists_zatoshis : (∃ r : Amount c, r.zatoshis = z) ↔ c.low ≤ z ∧ z ≤ maxMoney :=
  ⟨fun ⟨r, hr⟩ => hr ▸ ⟨r.low_le, r.le_max⟩, fun h => ⟨⟨z, h.1, h.2⟩, rfl⟩⟩

theorem add_toOption {a b r : Amount c} : (a.add b).toOption = some r ↔ r.zatoshis = a.zatoshis + b.zatoshis := by
  rw [← add_eq_ok]
  cases a.add b <;> simp [Except.toOption]

end Amount

@[simp] theorem ZatBalance.zatoshis_from (a : Zatoshis) : (ZatBalance.from a).zatoshis = a.zatoshis := rfl

theorem ZatBalance.foldlM_eq_some {l : List ZatBalance} {acc r : ZatBalance}
    (h : l.foldlM (fun acc a => (acc.add a).toOption) acc = some r) :
    r.zatoshis = acc.zatoshis + (l.map Amount.zatoshis).sum := by
  induction l generalizing acc with
  | nil =>
    obtain rfl := Option.some.inj h
    simp
  | cons a l ih =>
    obtain ⟨acc', hacc, h⟩ := Option.bind_eq_some_iff.mp h
    rw [ih h, add_toOption.mp hacc, map_cons, sum_cons, add_assoc]

theorem ZatBalance.foldlM_from {l : List Zatoshis} {acc : ZatBalance} (hacc : 0 ≤ acc.zatoshis)
    (h : acc.zatoshis + (l.map Amount.zatoshis).sum ≤ maxMoney) :
    ∃ r, (l.map ZatBalance.from).foldlM (fun acc a => (acc.add a).toOption) acc = some r := by
  induction l generalizing acc with
  | nil => exact ⟨acc, rfl⟩
  | cons a l ih =>
    have hrest := sum_zatoshis_nonneg l
    have ha := a.zatoshis_nonneg
    rw [map_cons, sum_cons] at h
    have hlow : Constraint.low .negativeAllowed ≤ acc.zatoshis + a.zatoshis := le_trans (by decide) (add_nonneg hacc ha)
    obtain ⟨acc', hadd⟩ := exists_zatoshis.mpr ⟨hlow, show acc.zatoshis + a.zatoshis ≤ maxMoney by omega⟩
    obtain ⟨r, hr⟩ := @ih acc' (by omega) (by omega)
    refine ⟨r, ?_⟩
    rw [map_cons, foldlM_cons, add_toOption.mpr hadd]
    exact hr

theorem ZatBalance.sum_parts :
    (∃ r, ZatBalance.sum [t, .zero, s, o] = some r) ↔
      InRange (t.zatoshis + s.zatoshis) ∧ InRange (t.zatoshis + s.zatoshis + o.zatoshis) := by
  simp only [ZatBalance.sum, foldlM_cons, foldlM_nil, Option.bind_eq_bind, Option.bind_eq_some_iff,
    add_toOption, zatoshis_zero, zero_add, add_zero]
  constructor
  · rintro ⟨_, a, ha, b, hb, c, hc, d, hd, -⟩
    have hcl := c.low_le
    have hcm := c.le_max
    have hdl := d.low_le
    have hdm := d.le_max
    rw [hc, hb, ha] at hcl hcm
    rw [hd, hc, hb, ha] at hdl hdm
    exact ⟨⟨hcl, hcm⟩, hdl, hdm⟩
  · rintro ⟨h₁, h₂⟩
    obtain ⟨c, hc⟩ := (exists_zatoshis (c := .negativeAllowed)).mpr h₁
    obtain ⟨d, hd⟩ := (exists_zatoshis (c := .negativeAllowed)).mpr h₂
    exact ⟨d, t, rfl, t, rfl, c, hc, d, by rw [hd, hc], rfl⟩

/-! ### The sums behind the two fees -/

def Input.spent (outputs : Table OutPoint Output) (input : Input) : ℤ :=
  ((input.prevoutValue outputs).map Amount.zatoshis).getD 0

def spentBefore (outputs : Table OutPoint Output) (inputs : List Input) : ℤ :=
  ((inputs.takeWhile (· ≠ .coinbase)).map (Input.spent outputs)).sum

theorem Input.spent_nonneg (outputs : Table OutPoint Output) (input : Input) : 0 ≤ input.spent outputs := by
  unfold spent
  cases input.prevoutValue outputs with
  | none => exact le_rfl
  | some v => exact v.zatoshis_nonneg

theorem spentBefore_nonneg (outputs : Table OutPoint Output) (inputs : List Input) : 0 ≤ spentBefore outputs inputs := by
  refine sum_nonneg fun z hz => ?_
  obtain ⟨input, -, rfl⟩ := mem_map.mp hz
  exact input.spent_nonneg outputs

theorem spentBefore_eq (h : Input.coinbase ∉ inputs) :
    spentBefore outputs inputs = (inputs.map (Input.spent outputs)).sum := by
  rw [spentBefore, takeWhile_eq_self_iff.mpr]
  intro input hinput
  exact decide_eq_true fun heq => h (heq ▸ hinput)

theorem inputSum_cases (acc : Zatoshis) (h : ∀ outpoint, Input.prevOut outpoint ∈ inputs → (outputs outpoint).isSome) :
    (maxMoney < acc.zatoshis + spentBefore outputs inputs ∧ inputSum outputs acc inputs = .error .overflow) ∨
      (acc.zatoshis + spentBefore outputs inputs ≤ maxMoney ∧ Input.coinbase ∈ inputs ∧
        inputSum outputs acc inputs = .ok none) ∨
      (Input.coinbase ∉ inputs ∧ ∃ r : Zatoshis, inputSum outputs acc inputs = .ok (some r) ∧
        r.zatoshis = acc.zatoshis + spentBefore outputs inputs) := by
  induction inputs generalizing acc with
  | nil => exact .inr (.inr ⟨not_mem_nil, acc, rfl, by simp [spentBefore]⟩)
  | cons input rest ih =>
    cases input with
    | coinbase =>
      refine .inr (.inl ⟨?_, mem_cons_self, rfl⟩)
      simpa [spentBefore] using acc.le_max
    | prevOut outpoint =>
      obtain ⟨out, hout⟩ := Option.isSome_iff_exists.mp (h outpoint mem_cons_self)
      have hvalue : (Input.prevOut outpoint).prevoutValue outputs = some out.value := by
        rw [Input.prevoutValue, hout, Option.map_some]
      have hspent : spentBefore outputs (.prevOut outpoint :: rest) = out.value.zatoshis + spentBefore outputs rest := by
        simp [spentBefore, Input.spent, hvalue]
      have hrest := spentBefore_nonneg outputs rest
      have hvalue_nonneg := out.value.zatoshis_nonneg
      simp only [inputSum, hvalue, hspent]
      cases hadd : acc.add out.value with
      | error e =>
        refine .inl ⟨?_, rfl⟩
        by_contra hle
        have hacc := acc.zatoshis_nonneg
        obtain ⟨r, hr⟩ := (exists_zatoshis (c := .nonNegative) (z := acc.zatoshis + out.value.zatoshis)).mpr
          ⟨by simp only [Constraint.low]; omega, by omega⟩
        rw [add_eq_ok.mpr hr] at hadd
        exact nomatch hadd
      | ok acc' =>
        have hacc' := add_eq_ok.mp hadd
        have hnext := ih acc' fun o ho => h o (mem_cons_of_mem _ ho)
        simp only [hacc', add_assoc] at hnext
        simpa using hnext

namespace Transaction

variable {tx : Transaction} {outputs : Table OutPoint Output}

def created (tx : Transaction) : ℤ := (tx.outputs.map fun o => o.value.zatoshis).sum

def transparentPart (tx : Transaction) (outputs : Table OutPoint Output) : ℤ :=
  spentBefore outputs tx.inputs - tx.created

def saplingPart (tx : Transaction) : ℤ := ((tx.sapling.map ShieldedData.valueBalance).getD .zero).zatoshis

def orchardPart (tx : Transaction) : ℤ := ((tx.orchard.map ShieldedData.valueBalance).getD .zero).zatoshis

def stakingPart (tx : Transaction) : ℤ := (tx.stakingAction.map fun a => paysOut a - paysIn a).getD 0

/-- The part of the fee that both sides have, and what they check on the way to it. -/
def BaseInRange (tx : Transaction) (outputs : Table OutPoint Output) : Prop :=
  InRange (tx.transparentPart outputs + tx.saplingPart) ∧
    InRange (tx.transparentPart outputs + tx.saplingPart + tx.orchardPart)

def basePart (tx : Transaction) (outputs : Table OutPoint Output) : ℤ :=
  tx.transparentPart outputs + tx.saplingPart + tx.orchardPart

theorem sum_outputs_eq_some (h : ZatBalance.sum (tx.outputs.map fun o => .from o.value) = some r) :
    r.zatoshis = tx.created := by
  have hsum := ZatBalance.foldlM_eq_some h
  simpa [created, Function.comp_def] using hsum

theorem sum_outputs_of_le (h : tx.created ≤ maxMoney) :
    ∃ r, ZatBalance.sum (tx.outputs.map fun o => .from o.value) = some r := by
  have hmap : tx.outputs.map (fun o => ZatBalance.from o.value) = (tx.outputs.map Output.value).map ZatBalance.from := by
    rw [map_map]
    rfl
  rw [ZatBalance.sum, hmap]
  exact ZatBalance.foldlM_from le_rfl (by simpa [created, Function.comp_def] using h)

theorem created_nonneg (tx : Transaction) : 0 ≤ tx.created := by
  refine sum_nonneg fun z hz => ?_
  obtain ⟨o, -, rfl⟩ := mem_map.mp hz
  exact o.value.zatoshis_nonneg

theorem transparentBalance_cases (h : tx.Assigned outputs) :
    ((maxMoney < spentBefore outputs tx.inputs ∨ Input.coinbase ∉ tx.inputs ∧ maxMoney < tx.created) ∧
        ∃ e, tx.transparentBalance outputs = .error e) ∨
      (spentBefore outputs tx.inputs ≤ maxMoney ∧ Input.coinbase ∈ tx.inputs ∧
        tx.transparentBalance outputs = .ok none) ∨
      (spentBefore outputs tx.inputs ≤ maxMoney ∧ tx.created ≤ maxMoney ∧ Input.coinbase ∉ tx.inputs ∧
        ∃ t : ZatBalance, tx.transparentBalance outputs = .ok (some t) ∧
          t.zatoshis = tx.transparentPart outputs) := by
  have hcases := inputSum_cases .zero h
  simp only [zatoshis_zero, zero_add] at hcases
  unfold transparentBalance
  rcases hcases with ⟨hover, hsum⟩ | ⟨hle, hcoinbase, hsum⟩ | ⟨hcoinbase, r, hsum, hr⟩
  · exact .inl ⟨.inl hover, _, by rw [hsum]; rfl⟩
  · exact .inr (.inl ⟨hle, hcoinbase, by rw [hsum]; rfl⟩)
  · have hle := r.le_max
    rw [hsum, ok_bind]
    dsimp only
    cases hout : ZatBalance.sum (tx.outputs.map fun o => .from o.value) with
    | none =>
      refine .inl ⟨.inr ⟨hcoinbase, ?_⟩, _, rfl⟩
      by_contra hcreated
      obtain ⟨out, hout'⟩ := sum_outputs_of_le (Int.not_lt.mp hcreated)
      rw [hout] at hout'
      exact nomatch hout'
    | some out =>
      have hcreated := sum_outputs_eq_some hout
      have hout_le := out.le_max
      have hnonneg := tx.created_nonneg
      have hr_nonneg := r.zatoshis_nonneg
      obtain ⟨t, ht⟩ := (exists_zatoshis (c := .negativeAllowed) (z := r.zatoshis - out.zatoshis)).mpr
        ⟨by simp only [Constraint.low]; omega, by omega⟩
      have hsub : (ZatBalance.from r).sub out = .ok t := sub_eq_ok.mpr ht
      refine .inr (.inr ⟨by omega, by omega, hcoinbase, t, ?_, ?_⟩)
      · dsimp only
        rw [hsub]
        rfl
      · rw [ht, transparentPart, hr, hcreated]

theorem feePaid_cases (hsprout : tx.joinsplits = []) (h : tx.transparentBalance outputs = .ok (some t))
    (ht : t.zatoshis = tx.transparentPart outputs) :
    (tx.BaseInRange outputs ∧ 0 ≤ tx.basePart outputs ∧
        ∃ fee : Zatoshis, tx.feePaid outputs = .ok (some fee) ∧ fee.zatoshis = tx.basePart outputs) ∨
      (¬ (tx.BaseInRange outputs ∧ 0 ≤ tx.basePart outputs) ∧ ∃ e, tx.feePaid outputs = .error e) := by
  have hsproutBalance : tx.sproutBalance = some .zero := by
    rw [sproutBalance, hsprout]
    rfl
  have hparts := ZatBalance.sum_parts (t := t) (s := (tx.sapling.map ShieldedData.valueBalance).getD .zero)
    (o := (tx.orchard.map ShieldedData.valueBalance).getD .zero)
  rw [ht] at hparts
  unfold feePaid
  rw [h, ok_bind]
  simp only [hsproutBalance]
  cases hsum : ZatBalance.sum [t, .zero, (tx.sapling.map ShieldedData.valueBalance).getD .zero,
      (tx.orchard.map ShieldedData.valueBalance).getD .zero] with
  | none =>
    refine .inr ⟨fun hbase => ?_, _, rfl⟩
    obtain ⟨r, hr⟩ := hparts.mpr hbase.1
    rw [hsum] at hr
    exact nomatch hr
  | some r =>
    have hbase : tx.BaseInRange outputs := hparts.mp ⟨r, hsum⟩
    have hr : r.zatoshis = tx.basePart outputs := by
      have htotal := ZatBalance.foldlM_eq_some hsum
      simp only [zatoshis_zero, map_cons, map_nil, sum_cons, sum_nil, ht] at htotal
      rw [htotal, basePart, saplingPart, orchardPart]
      ring
    dsimp only
    cases hfee : (r.constrain : Except AmountError Zatoshis) with
    | error e =>
      refine .inr ⟨fun hpos => ?_, _, rfl⟩
      obtain ⟨fee, hfee'⟩ := (exists_zatoshis (c := .nonNegative) (z := r.zatoshis)).mpr ⟨hr ▸ hpos.2, r.le_max⟩
      rw [constrain_eq_ok.mpr hfee'] at hfee
      exact nomatch hfee
    | ok fee =>
      have hzatoshis := constrain_eq_ok.mp hfee
      exact .inl ⟨hbase, by rw [← hr, ← hzatoshis]; exact fee.zatoshis_nonneg, fee, rfl, hzatoshis.trans hr⟩

/-! ### The fee in the node -/

theorem mapM_valueFromOutputs {l : List Input} (h : ∀ outpoint, Input.prevOut outpoint ∈ l → (outputs outpoint).isSome) :
    ∃ values, l.mapM (Input.valueFromOutputs outputs) = .ok values ∧
      values.map Amount.zatoshis = l.map (Input.spent outputs) := by
  induction l with
  | nil => exact ⟨[], rfl, rfl⟩
  | cons input rest ih =>
    obtain ⟨values, hvalues, hmap⟩ := ih fun o ho => h o (mem_cons_of_mem _ ho)
    obtain ⟨v, hv, hspent⟩ : ∃ v, input.valueFromOutputs outputs = .ok v ∧ v.zatoshis = input.spent outputs := by
      cases input with
      | coinbase => exact ⟨.zero, rfl, rfl⟩
      | prevOut outpoint =>
        obtain ⟨out, hout⟩ := Option.isSome_iff_exists.mp (h outpoint mem_cons_self)
        exact ⟨out.value, by simp [Input.valueFromOutputs, hout, unwrap],
          by simp [Input.spent, Input.prevoutValue, hout]⟩
    refine ⟨v :: values, ?_, by rw [map_cons, map_cons, hspent, hmap]⟩
    rw [mapM_cons, hv, ok_bind, hvalues, ok_bind]
    rfl

theorem transparentValueBalance_cases (h : tx.Assigned outputs) :
    ((maxMoney < (tx.inputs.map (Input.spent outputs)).sum ∨ maxMoney < tx.created) ∧
        ∃ e, tx.transparentValueBalance outputs = .error (.error e)) ∨
      ((tx.inputs.map (Input.spent outputs)).sum ≤ maxMoney ∧ tx.created ≤ maxMoney ∧
        ∃ t, tx.transparentValueBalance outputs = .ok (.fromAmount .transparent t) ∧
          t.zatoshis = (tx.inputs.map (Input.spent outputs)).sum - tx.created) := by
  obtain ⟨values, hvalues, hmap⟩ := mapM_valueFromOutputs h
  have hin := Amount.sum_isOk_iff (l := values)
  have hout := Amount.sum_isOk_iff (l := tx.outputs.map Output.value)
  rw [hmap] at hin
  rw [map_map] at hout
  change _ ↔ tx.created ≤ maxMoney at hout
  unfold transparentValueBalance
  rw [hvalues, mapError_ok, ok_bind]
  cases hsum : Amount.sum values with
  | error e =>
    refine .inl ⟨.inl (Int.not_le.mp fun hle => ?_), _, rfl⟩
    obtain ⟨r, hr⟩ := hin.mpr hle
    rw [hsum] at hr
    exact nomatch hr
  | ok r =>
    rw [mapError_ok, ok_bind, Amount.constrain_nonNegative, mapError_ok, ok_bind]
    cases hsum' : Amount.sum (tx.outputs.map Output.value) with
    | error e =>
      refine .inl ⟨.inr (Int.not_le.mp fun hle => ?_), _, rfl⟩
      obtain ⟨r', hr'⟩ := hout.mpr hle
      rw [hsum'] at hr'
      exact nomatch hr'
    | ok r' =>
      have hr := Amount.sumFrom_zatoshis hsum
      have hr' := Amount.sumFrom_zatoshis hsum'
      rw [hmap, Amount.zatoshis_zero, zero_add] at hr
      rw [map_map, Amount.zatoshis_zero, zero_add] at hr'
      change r'.zatoshis = tx.created at hr'
      have hb := r.le_max
      have hb' := r'.le_max
      have hn := r.zatoshis_nonneg
      have hn' := r'.zatoshis_nonneg
      obtain ⟨t, ht⟩ := (Amount.exists_zatoshis (c := .negativeAllowed) (z := r.zatoshis - r'.zatoshis)).mpr
        ⟨by simp only [Constraint.low]; omega, by omega⟩
      have hsub : (r.neg.neg : Amount .negativeAllowed).sub r'.neg.neg = .ok t := Amount.sub_eq_ok.mpr (by simpa using ht)
      refine .inr ⟨hr ▸ hb, hr' ▸ hb', t, ?_, by rw [ht, hr, hr']⟩
      rw [mapError_ok, ok_bind, Amount.constrain_nonNegative, mapError_ok, ok_bind, hsub]
      rfl

/-- The amount of an action that creates or withdraws a bond is an amount of money. -/
def StakeInRange (tx : Transaction) : Prop :=
  ∀ a ∈ tx.stakingAction, 0 ≤ paysIn a ∧ paysIn a ≤ maxMoney ∧ 0 ≤ paysOut a ∧ paysOut a ≤ maxMoney

theorem stakingActionValueBalance_cases (tx : Transaction) :
    (tx.StakeInRange ∧ ∃ v, tx.stakingActionValueBalance = .ok v) ∨
      (¬ tx.StakeInRange ∧ ∃ p, tx.stakingActionValueBalance = .error p) := by
  unfold StakeInRange stakingActionValueBalance
  cases haction : tx.stakingAction with
  | none => exact .inl ⟨nofun, _, rfl⟩
  | some action =>
    simp only [Option.mem_some_iff, forall_eq']
    have hmoney : (0 : ℤ) ≤ maxMoney := by decide
    cases hkind : action.kind with
    | createNewDelegationBond =>
      simp only [paysIn, paysOut, hkind, if_true, reduceCtorEq, if_false, le_refl, hmoney, and_true]
      by_cases hrange : 0 ≤ asI64 action.amountZats ∧ asI64 action.amountZats ≤ maxMoney
      · obtain ⟨r, hr⟩ := (exists_zatoshis (c := .nonNegative)).mpr hrange
        exact .inl ⟨hrange, _, by rw [new_eq_ok.mpr hr]; rfl⟩
      · exact .inr ⟨hrange, _, by rw [new_error hrange]; rfl⟩
    | withdrawDelegationBond =>
      simp only [paysIn, paysOut, hkind, if_true, reduceCtorEq, if_false, le_refl, hmoney, true_and]
      by_cases hrange : 0 ≤ asI64 action.amountZats ∧ asI64 action.amountZats ≤ maxMoney
      · obtain ⟨r, hr⟩ := (exists_zatoshis (c := .nonNegative)).mpr hrange
        exact .inl ⟨hrange, _, by rw [new_eq_ok.mpr hr, ok_bind, constrain_nonNegative]; rfl⟩
      · exact .inr ⟨hrange, _, by rw [new_error hrange]; rfl⟩
    | _ => exact .inl ⟨by simp [paysIn, paysOut, hkind, hmoney], _, rfl⟩

end Transaction

theorem ValueBalance.remainingTransactionValue_eq_ok {v : ValueBalance .negativeAllowed} {fee : Amount .nonNegative}
    (hsprout : (v .sprout).zatoshis = 0) :
    v.remainingTransactionValue = .ok fee ↔
      InRange ((v .transparent).zatoshis + (v .sapling).zatoshis) ∧
      InRange ((v .transparent).zatoshis + (v .sapling).zatoshis + (v .orchard).zatoshis) ∧
      InRange ((v .transparent).zatoshis + (v .sapling).zatoshis + (v .orchard).zatoshis +
        (v .stakingBonded).zatoshis) ∧
      InRange ((v .transparent).zatoshis + (v .sapling).zatoshis + (v .orchard).zatoshis +
        (v .stakingBonded).zatoshis + (v .stakingUnbonded).zatoshis) ∧
      fee.zatoshis = (v .transparent).zatoshis + (v .sapling).zatoshis + (v .orchard).zatoshis +
        (v .stakingBonded).zatoshis + (v .stakingUnbonded).zatoshis := by
  simp only [ValueBalance.remainingTransactionValue, bind_eq_ok, Amount.add_eq_ok, Amount.constrain_eq_ok, hsprout,
    add_zero]
  constructor
  · rintro ⟨a, ha, b, hb, c, hc, d, hd, e, he, hfee⟩
    rw [← ha, ← hb, ← hc, ← hd, ← he]
    exact ⟨⟨b.low_le, b.le_max⟩, ⟨c.low_le, c.le_max⟩, ⟨d.low_le, d.le_max⟩, ⟨e.low_le, e.le_max⟩, hfee⟩
  · rintro ⟨h₁, h₂, h₃, h₄, hfee⟩
    obtain ⟨b, hb⟩ := (Amount.exists_zatoshis (c := .negativeAllowed)).mpr h₁
    obtain ⟨c, hc⟩ := (Amount.exists_zatoshis (c := .negativeAllowed)).mpr h₂
    obtain ⟨d, hd⟩ := (Amount.exists_zatoshis (c := .negativeAllowed)).mpr h₃
    obtain ⟨e, he⟩ := (Amount.exists_zatoshis (c := .negativeAllowed)).mpr h₄
    exact ⟨v .transparent, rfl, b, hb, c, by rw [hc, hb], d, by rw [hd, hc], e, by rw [he, hd], by rw [hfee, he]⟩

namespace Transaction

variable {tx : Transaction} {outputs : Table OutPoint Output}

theorem inRange_paysIn (hz : InRange z) (htotal : InRange (z + tx.stakingPart)) :
    InRange (z + -(tx.stakingAction.map paysIn).getD 0) := by
  unfold stakingPart at htotal
  cases haction : tx.stakingAction with
  | none => simpa using hz
  | some a =>
    simp only [haction, Option.map_some, Option.getD_some] at htotal ⊢
    by_cases hkind : a.kind = .withdrawDelegationBond
    · have hzero : paysIn a = 0 := by simp [paysIn, hkind]
      simpa [hzero] using hz
    · have hzero : paysOut a = 0 := if_neg hkind
      simpa [hzero, sub_eq_add_neg] using htotal

theorem stakingPart_eq (tx : Transaction) :
    -(tx.stakingAction.map paysIn).getD 0 + (tx.stakingAction.map paysOut).getD 0 = tx.stakingPart := by
  unfold stakingPart
  cases tx.stakingAction with
  | none => rfl
  | some a =>
    simp only [Option.map_some, Option.getD_some]
    ring

theorem remainingValue_cases (hsprout : tx.joinsplits = []) (hcoinbase : Input.coinbase ∉ tx.inputs)
    (htransparent : tx.transparentValueBalance outputs = .ok (.fromAmount .transparent t))
    (ht : t.zatoshis = (tx.inputs.map (Input.spent outputs)).sum - tx.created) (hstake : tx.StakeInRange) :
    (tx.BaseInRange outputs ∧ 0 ≤ tx.basePart outputs + tx.stakingPart ∧
        tx.basePart outputs + tx.stakingPart ≤ maxMoney ∧ ∃ fee, tx.remainingValue outputs = .ok fee ∧
          fee.zatoshis = tx.basePart outputs + tx.stakingPart) ∨
      (¬ (tx.BaseInRange outputs ∧ 0 ≤ tx.basePart outputs + tx.stakingPart ∧
        tx.basePart outputs + tx.stakingPart ≤ maxMoney) ∧ ∃ e, tx.remainingValue outputs = .error (.error e)) := by
  have hsproutBalance : tx.sproutValueBalance = .ok .zero := by
    rw [sproutValueBalance, hsprout]
    rfl
  obtain ⟨-, staking, hstaking⟩ | ⟨hnot, -⟩ := tx.stakingActionValueBalance_cases
  swap
  · exact absurd hstake hnot
  obtain ⟨v, hv⟩ := valueBalance_of_parts htransparent hsproutBalance hstaking
  obtain ⟨transparent', sprout', staking', h₁, h₂, h₃, hpools⟩ := valueBalance_eq_ok hv
  obtain rfl := Except.ok.inj (htransparent.symm.trans h₁)
  obtain rfl := Except.ok.inj (hsproutBalance.symm.trans h₂)
  obtain rfl := Except.ok.inj (hstaking.symm.trans h₃)
  obtain ⟨-, -, hothers⟩ := stakingActionValueBalance_eq_ok hstaking
  obtain ⟨hbonded, hunbonded⟩ := valueBalance_staking hv
  have htransparentPool : (v .transparent).zatoshis = tx.transparentPart outputs := by
    rw [hpools, fromAmount_self, hothers .transparent (by decide) (by decide), saplingValueBalance,
      fromAmount_of_ne (by decide), orchardValueBalance, fromAmount_of_ne (by decide), ht, transparentPart,
      spentBefore_eq hcoinbase]
    simp [ValueBalance.zero]
  have hsproutPool : (v .sprout).zatoshis = 0 := by
    rw [hpools, fromAmount_of_ne (by decide), hothers .sprout (by decide) (by decide), saplingValueBalance,
      fromAmount_of_ne (by decide), orchardValueBalance, fromAmount_of_ne (by decide)]
    simp [ValueBalance.zero]
  have hsaplingPool : (v .sapling).zatoshis = tx.saplingPart := by
    rw [hpools, fromAmount_of_ne (by decide), hothers .sapling (by decide) (by decide), saplingValueBalance,
      fromAmount_self, orchardValueBalance, fromAmount_of_ne (by decide)]
    simp [ValueBalance.zero, saplingPart]
  have horchardPool : (v .orchard).zatoshis = tx.orchardPart := by
    rw [hpools, fromAmount_of_ne (by decide), hothers .orchard (by decide) (by decide), saplingValueBalance,
      fromAmount_of_ne (by decide), orchardValueBalance, fromAmount_self]
    simp [ValueBalance.zero, orchardPart]
  have hok := fun fee => @ValueBalance.remainingTransactionValue_eq_ok v fee hsproutPool
  simp only [htransparentPool, hsaplingPool, horchardPool, hbonded, hunbonded, add_assoc _ (-_) _,
    tx.stakingPart_eq] at hok
  have hvalue : tx.remainingValue outputs = v.remainingTransactionValue.mapError fun e => .error (.inr e) := by
    rw [remainingValue, hv]
    rfl
  rw [hvalue]
  cases hfee : v.remainingTransactionValue with
  | ok fee =>
    obtain ⟨hb₁, hb₂, -, -, htotal⟩ := (hok fee).mp hfee
    exact .inl ⟨⟨hb₁, hb₂⟩, htotal ▸ fee.zatoshis_nonneg, htotal ▸ fee.le_max, fee, rfl, htotal⟩
  | error e =>
    refine .inr ⟨?_, _, rfl⟩
    rintro ⟨hbase, hnonneg, hle⟩
    obtain ⟨fee, hfee'⟩ := (Amount.exists_zatoshis (c := .nonNegative)).mpr ⟨hnonneg, hle⟩
    have hmoney : -maxMoney ≤ 0 := by decide
    have htotal : InRange (tx.basePart outputs + tx.stakingPart) := ⟨hmoney.trans hnonneg, hle⟩
    have := (hok fee).mpr ⟨hbase.1, hbase.2, inRange_paysIn hbase.2 htotal, htotal, hfee'⟩
    rw [hfee] at this
    cases this

/-! ### When the two agree -/

/-- Both fail already on the transparent part, or the staking action is a readable one that moves nothing, or both fail
on the shielded parts, or neither side has a fee that is an amount of money. -/
def FeesAgree (tx : Transaction) (outputs : Table OutPoint Output) : Prop :=
  maxMoney < spentBefore outputs tx.inputs ∨ Input.coinbase ∉ tx.inputs ∧ (maxMoney < tx.created ∨ tx.StakeInRange ∧
    (tx.stakingPart = 0 ∨ ¬ tx.BaseInRange outputs ∨ tx.basePart outputs < 0 ∧
      ¬ (0 ≤ tx.basePart outputs + tx.stakingPart ∧ tx.basePart outputs + tx.stakingPart ≤ maxMoney)))

theorem spentBefore_le (outputs : Table OutPoint Output) (inputs : List Input) :
    spentBefore outputs inputs ≤ (inputs.map (Input.spent outputs)).sum := by
  refine ((takeWhile_sublist _).map _).sum_le_sum fun z hz => ?_
  obtain ⟨input, -, rfl⟩ := mem_map.mp hz
  exact input.spent_nonneg outputs

theorem remainingValue_error (h : tx.transparentValueBalance outputs = .error (.error e)) :
    tx.remainingValue outputs = .error (.error (.inl e)) := by
  rw [remainingValue, valueBalance, h]
  rfl

theorem sameFee_iff_parts (hsprout : tx.joinsplits = []) (hcoinbase : Input.coinbase ∉ tx.inputs)
    (hbalance : tx.transparentBalance outputs = .ok (some t)) (ht : t.zatoshis = tx.transparentPart outputs)
    (htransparent : tx.transparentValueBalance outputs = .ok (.fromAmount .transparent t'))
    (ht' : t'.zatoshis = (tx.inputs.map (Input.spent outputs)).sum - tx.created) (hstake : tx.StakeInRange) :
    tx.SameFee outputs ↔ tx.stakingPart = 0 ∨ ¬ tx.BaseInRange outputs ∨ tx.basePart outputs < 0 ∧
      ¬ (0 ≤ tx.basePart outputs + tx.stakingPart ∧ tx.basePart outputs + tx.stakingPart ≤ maxMoney) := by
  have hmax : tx.BaseInRange outputs → tx.basePart outputs ≤ maxMoney := fun hbase => hbase.2.2
  obtain ⟨hbase, hpos, fee, hfee, hfeeValue⟩ | ⟨hneg, e, hfee⟩ := feePaid_cases hsprout hbalance ht <;>
    obtain ⟨hbase', hpos', hle', fee', hvalue, hvalueValue⟩ | ⟨hneg', e', hvalue⟩ :=
      remainingValue_cases hsprout hcoinbase htransparent ht' hstake
  · have heq : fee = fee' ↔ tx.stakingPart = 0 := by
      rw [Amount.ext_iff, hfeeValue, hvalueValue]
      omega
    simp only [SameFee, hfee, hvalue, Except.ok.injEq, Option.some.injEq, reduceCtorEq, exists_false, and_false,
      or_false, exists_eq_left', hbase, not_true_eq_false, hpos.not_gt, false_and, eq_comm (a := fee'), heq]
  · have hmax := hmax hbase
    have hout : ¬ (0 ≤ tx.basePart outputs + tx.stakingPart ∧ tx.basePart outputs + tx.stakingPart ≤ maxMoney) :=
      fun hin => hneg' ⟨hbase, hin⟩
    simp only [SameFee, hfee, hvalue, reduceCtorEq, and_false, exists_false, false_and, or_false, false_iff, hbase,
      not_true_eq_false, hpos.not_gt]
    omega
  · have hlt : tx.basePart outputs < 0 := Int.not_le.mp fun h => hneg ⟨hbase', h⟩
    simp only [SameFee, hfee, hvalue, reduceCtorEq, and_false, exists_false, false_and, or_false, false_iff, hbase',
      not_true_eq_false, false_or, Except.error.injEq]
    omega
  · refine iff_of_true (.inr ⟨⟨e, hfee⟩, e', hvalue⟩) ?_
    by_cases hbase : tx.BaseInRange outputs
    · have hlt : tx.basePart outputs < 0 := Int.not_le.mp fun h => hneg ⟨hbase, h⟩
      exact .inr (.inr ⟨hlt, fun hin => hneg' ⟨hbase, hin⟩⟩)
    · exact .inr (.inl hbase)

theorem sameFee_iff_of_noSprout (hsprout : tx.joinsplits = []) (h : tx.Assigned outputs) :
    tx.SameFee outputs ↔ tx.FeesAgree outputs := by
  obtain ⟨hover, e, herror⟩ | ⟨hle, hcoinbase, hnone⟩ | ⟨hle, hcreated, hcoinbase, t, hsome, ht⟩ :=
    transparentBalance_cases h
  · -- the transparent part fails on both sides, before the staking action is looked at
    have hfee : tx.feePaid outputs = .error e := by
      rw [feePaid, herror]
      rfl
    have hagree : tx.FeesAgree outputs := hover.imp id fun h => ⟨h.1, .inl h.2⟩
    refine iff_of_true (.inr ⟨⟨e, hfee⟩, ?_⟩) hagree
    obtain ⟨-, e', herror'⟩ | ⟨hin, hout, -⟩ := transparentValueBalance_cases h
    · exact ⟨_, remainingValue_error herror'⟩
    · have := spentBefore_le outputs tx.inputs
      rcases hover with hover | hover <;> omega
  · -- a coinbase input has no value that the library could ask for
    have hfee : tx.feePaid outputs = .ok none := by
      rw [feePaid, hnone]
      rfl
    simp [SameFee, FeesAgree, hfee, hcoinbase, hle.not_gt]
  · obtain ⟨hover, -⟩ | ⟨-, -, t', htransparent, ht'⟩ := transparentValueBalance_cases h
    · rw [← spentBefore_eq hcoinbase] at hover
      omega
    simp only [FeesAgree, hle.not_gt, hcreated.not_gt, hcoinbase, not_false_eq_true, false_or, true_and]
    by_cases hstake : tx.StakeInRange
    · simpa [hstake] using sameFee_iff_parts hsprout hcoinbase hsome ht htransparent ht' hstake
    · -- the node panics on the amount
      obtain ⟨hstake', -⟩ | ⟨-, p, hpanic⟩ := tx.stakingActionValueBalance_cases
      · exact absurd hstake' hstake
      have hvalue : tx.remainingValue outputs = .error (.panic p) := by
        have hsproutBalance : tx.sproutValueBalance = .ok .zero := by
          rw [sproutValueBalance, hsprout]
          rfl
        rw [remainingValue, valueBalance, htransparent, ok_bind, hsproutBalance, mapError_ok, ok_bind, hpanic]
        rfl
      simp [SameFee, hvalue, hstake]

end Transaction

/-- The two fees of a transaction that may carry a staking action. -/
theorem sameFee_iff {inputs : List Input} {outs : List Output} {sapling orchard : Option ShieldedData}
    {action : Option StakingAction} {outputs : Table OutPoint Output}
    (h : (Transaction.vCrosslink inputs outs sapling orchard action).Assigned outputs) :
    (Transaction.vCrosslink inputs outs sapling orchard action).SameFee outputs ↔
      (Transaction.vCrosslink inputs outs sapling orchard action).FeesAgree outputs :=
  Transaction.sameFee_iff_of_noSprout rfl h

def oneOutput (value : Zatoshis) : Table OutPoint Output := fun _ => some ⟨value⟩

def tenCoins : Zatoshis := ⟨1000000000, by decide, by decide⟩

def bondingTx (amountZats : ℕ) : Transaction :=
  .vCrosslink [.prevOut ⟨Bytes.zero 32, 0⟩] [] none none
    (some { StakingAction.default .createNewDelegationBond with amountZats })

theorem sameFee_iff_noValue :
    (bondingTx 0).Assigned (oneOutput tenCoins) ∧
      ((bondingTx 0).SameFee (oneOutput tenCoins) ↔ (bondingTx 0).FeesAgree (oneOutput tenCoins)) :=
  have h : (bondingTx 0).Assigned (oneOutput tenCoins) := fun _ _ => rfl
  ⟨h, sameFee_iff h⟩

/-- Ten coins in, nine and a half bonded: half a coin of fee in the node, ten coins in the wallet library. -/
theorem fee_of_bond_differs :
    (bondingTx 950000000).feePaid (oneOutput tenCoins) = .ok (some tenCoins) ∧
      (bondingTx 950000000).remainingValue (oneOutput tenCoins) = .ok ⟨50000000, by decide, by decide⟩ := by
  constructor <;> decide +kernel

end Crosslink.Staking

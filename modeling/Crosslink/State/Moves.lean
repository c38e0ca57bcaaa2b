import Crosslink.State.Lifecycle

/-!
# The actions of an accepted block

The validator reads the bonds before the block, the update the bonds after the actions so far. `Moves` puts together
what is known about one action when both let it pass, and `accepted_induction` is the induction over the actions of
an accepted block with that knowledge.
-/

namespace Crosslink.State

open Codec Fallible Staking Ledger

variable {checks : Bool} {c c' : Chain} {offer : Offer}

def withdrawnBy (actions : List (StakingAction × ℕ)) : List BondKey :=
  (actions.filter fun a => a.1.kind = .withdrawDelegationBond).map fun a => a.1.arg32_0

theorem mem_withdrawnBy_snoc :
    key ∈ withdrawnBy (pre ++ [x]) ↔
      key ∈ withdrawnBy pre ∨ x.1.kind = .withdrawDelegationBond ∧ x.1.arg32_0 = key := by
  unfold withdrawnBy
  rw [List.filter_append, List.map_append, List.mem_append]
  by_cases hk : x.1.kind = .withdrawDelegationBond
  · simp [hk, eq_comm]
  · simp [hk]

variable {db : FinalizedBonds} {chain : Bonds} {pre : List (StakingAction × ℕ)} {notes notes' : BlockNotes}
  {l l' : Ledger} {action : StakingAction} {location : TransactionLocation}

theorem kind_ne_of_not_acts (hk : action.kind.actsOnBond = false) (hkind : kind.actsOnBond = true) :
    action.kind ≠ kind := by
  intro heq
  rw [heq, hkind] at hk
  cases hk

theorem Tracks.step {x : StakingAction × ℕ} {key : BondKey}
    (h : Tracks chain notes l key (key ∈ withdrawnBy pre)) (hadmits : Admits db chain notes x.1 notes')
    (hacts : l.Acts x.1 location l') : Tracks chain notes' l' key (key ∈ withdrawnBy (pre ++ [x])) := by
  simp only [mem_withdrawnBy_snoc]
  by_cases hkey : x.1.arg32_0 = key
  · subst hkey
    cases hadmits with
    | create amount hk hnew hchain => simpa [hk] using (h.create hk hnew hchain hacts).2
    | unbond hk hnot husable => simpa [hk] using (h.unbond hk hnot husable hacts).2
    | withdraw bond hk hchain => simpa [hk] using h.withdraw hk hchain hacts
    | retarget hk =>
      have hafter := acts_status_self hacts
      rw [hk] at hafter
      simpa [hk] using h.of_status hafter
    | other hk =>
      have hafter := acts_status_self hacts
      rw [applied_of_not_acts hk] at hafter
      have hne : x.1.kind ≠ .withdrawDelegationBond := kind_ne_of_not_acts hk rfl
      simpa [hne] using h.of_status hafter
  · simpa [hkey] using (h.of_ne hadmits hacts hkey).1

/-- One action of an accepted block: what the validator and the update know of it together. `chain` are the bonds
before the block and `pre` the actions before this one. -/
inductive Moves (chain : Bonds) (pre : List (StakingAction × ℕ)) (l : Ledger) (action : StakingAction)
    (location : TransactionLocation) : Ledger → Prop
  | create (amount : Amount .nonNegative) (hk : action.kind = .createNewDelegationBond)
      (hamount : amount.zatoshis = action.amountZats) (hchain : chain[action.arg32_0]? = none)
      (hnew : l.delegationBonds[action.arg32_0]? = none) :
      Moves chain pre l action location { l with
        delegationBonds :=
          l.delegationBonds.insert action.arg32_0 (⟨amount, action.arg32_2, location⟩, .active) }
  | unbond (bond : DelegationBond) (bonded unbonded : Amount .nonNegative)
      (hk : action.kind = .beginDelegationUnbonding) (hbond : l.delegationBonds[action.arg32_0]? = some (bond, .active))
      (hchain : chain[action.arg32_0]? = none ∨ ∃ bond₀, chain[action.arg32_0]? = some (bond₀, .active))
      (hbonded : bonded.zatoshis = (l.chainValuePools .stakingBonded).zatoshis - bond.amount.zatoshis)
      (hunbonded : unbonded.zatoshis = (l.chainValuePools .stakingUnbonded).zatoshis + bond.amount.zatoshis) :
      Moves chain pre l action location { l with
        delegationBonds := l.delegationBonds.insert action.arg32_0 ({ bond with createdAt := location }, .unbonding)
        chainValuePools :=
          (l.chainValuePools.setAmount .stakingBonded bonded).setAmount .stakingUnbonded unbonded }
  | withdraw (bond bond₀ : DelegationBond) (hk : action.kind = .withdrawDelegationBond)
      (hbond : l.delegationBonds[action.arg32_0]? =
        some (bond, if action.arg32_0 ∈ withdrawnBy pre then .withdrawn else .unbonding))
      (hchain : chain[action.arg32_0]? = some (bond₀, .unbonding))
      (hamount : bond.amount.zatoshis = action.amountZats) :
      Moves chain pre l action location { l with
        delegationBonds :=
          l.delegationBonds.insert action.arg32_0 ({ bond with createdAt := location }, .withdrawn) }
  | retarget (bond : DelegationBond) (status : BondStatusInChain) (retargets : Std.ExtTreeMap BondKey (Bytes 32))
      (hk : action.kind = .retargetDelegationBond) (hbond : l.delegationBonds[action.arg32_0]? = some (bond, status))
      (hstatus : status ≠ .withdrawn)
      (hchain : chain[action.arg32_0]? = none ∨ ∃ bond₀, chain[action.arg32_0]? = some (bond₀, .active))
      (hretargets : l.bondRetargets.head? = some retargets) :
      Moves chain pre l action location { l with
        bondRetargets := retargets.insertIfNew action.arg32_0 bond.targetFinalizer :: l.bondRetargets.tail
        delegationBonds :=
          l.delegationBonds.insert action.arg32_0 ({ bond with targetFinalizer := action.arg32_2 }, status) }
  | other (hk : action.kind.actsOnBond = false) : Moves chain pre l action location l

/-- The bonds of the chain keep their amounts while the actions of a block are gone through. -/
def KeepsAmounts (chain : Bonds) (l : Ledger) : Prop :=
  ∀ (key : BondKey) (bs : DelegationBond × BondStatusInChain), chain[key]? = some bs →
    ∃ bs', l.delegationBonds[key]? = some bs' ∧ bs'.1.amount = bs.1.amount

theorem KeepsAmounts.step (h : KeepsAmounts chain l) (hacts : l.Acts action location l') : KeepsAmounts chain l' := by
  intro key bs hbs
  obtain ⟨bs₁, hbs₁, hamount⟩ := h key bs hbs
  have hinsert : ∀ new, new.1.amount = bs.1.amount ∨ action.arg32_0 ≠ key →
      ∃ bs', (l.delegationBonds.insert action.arg32_0 new)[key]? = some bs' ∧ bs'.1.amount = bs.1.amount := by
    intro new hnew
    by_cases hkey : action.arg32_0 = key
    · subst hkey
      exact ⟨new, Std.ExtTreeMap.getElem?_insert_self, by simpa using hnew⟩
    · exact ⟨bs₁, by simpa [Std.ExtTreeMap.getElem?_insert, hkey] using hbs₁, hamount⟩
  by_cases hkey : action.arg32_0 = key
  · subst hkey
    cases hacts with
    | create amount hk hz hnew =>
      rw [hnew] at hbs₁
      cases hbs₁
    | other hk => exact ⟨bs₁, hbs₁, hamount⟩
    | unbond bond status bonded unbonded hk hbond =>
      obtain rfl := Option.some.inj (hbond.symm.trans hbs₁)
      exact hinsert _ (.inl hamount)
    | withdraw bond status hk hbond =>
      obtain rfl := Option.some.inj (hbond.symm.trans hbs₁)
      exact hinsert _ (.inl hamount)
    | retarget bond status retargets hk hbond =>
      obtain rfl := Option.some.inj (hbond.symm.trans hbs₁)
      exact hinsert _ (.inl hamount)
  · cases hacts with
    | other hk => exact ⟨bs₁, hbs₁, hamount⟩
    | create => exact hinsert _ (.inr hkey)
    | unbond => exact hinsert _ (.inr hkey)
    | withdraw => exact hinsert _ (.inr hkey)
    | retarget => exact hinsert _ (.inr hkey)

theorem status_of_bond (h : l.delegationBonds[key]? = some (bond, status)) : l.status? key = some status := by
  rw [status?, h]
  rfl

theorem moves_of_tracks (h : Tracks chain notes l action.arg32_0 (action.arg32_0 ∈ withdrawnBy pre))
    (hamounts : KeepsAmounts chain l) (hadmits : Admits db chain notes action notes')
    (hacts : l.Acts action location l') : Moves chain pre l action location l' := by
  have hchain : Usable db chain notes action.arg32_0 → l.status? action.arg32_0 ≠ none →
      chain[action.arg32_0]? = none ∨ ∃ bond₀, chain[action.arg32_0]? = some (bond₀, .active) := by
    intro husable hsome
    exact (h.usable husable hsome).1.imp And.right id
  cases hacts with
  | create amount hk hamount hnew =>
    cases hadmits with
    | create _ _ _ hchain => exact .create amount hk hamount hchain hnew
    | _ => simp_all [StakingActionKind.actsOnBond]
  | unbond bond status bonded unbonded hk hbond hbonded hunbonded =>
    cases hadmits with
    | unbond _ hnot husable =>
      have hstatus := status_of_bond hbond
      have hsome : l.status? action.arg32_0 ≠ none := by simp [hstatus]
      rw [(h.usable husable hsome).2, if_neg hnot] at hstatus
      obtain rfl := Option.some.inj hstatus
      exact .unbond bond bonded unbonded hk hbond (hchain husable hsome) hbonded hunbonded
    | _ => simp_all [StakingActionKind.actsOnBond]
  | withdraw bond status hk hbond =>
    cases hadmits with
    | withdraw bond₀ _ hchain hamount =>
      have hstatus := status_of_bond hbond
      rw [h.status, hchain, Option.map_some, tracked] at hstatus
      obtain ⟨bs, hbs, hkeep⟩ := hamounts _ _ hchain
      obtain rfl := Option.some.inj (hbond.symm.trans hbs)
      refine .withdraw bond bond₀ hk ?_ hchain (by rw [← hamount, ← hkeep])
      rw [hbond]
      by_cases hmem : action.arg32_0 ∈ withdrawnBy pre <;> simp_all
    | _ => simp_all [StakingActionKind.actsOnBond]
  | retarget bond status retargets hk hbond hretargets =>
    cases hadmits with
    | retarget _ husable =>
      have hstatus := status_of_bond hbond
      have hsome : l.status? action.arg32_0 ≠ none := by simp [hstatus]
      rw [(h.usable husable hsome).2] at hstatus
      refine .retarget bond status retargets hk hbond ?_ (hchain husable hsome) hretargets
      by_cases hmem : action.arg32_0 ∈ notes.unbondingBonds
      · rw [if_pos hmem] at hstatus
        simp [← Option.some.inj hstatus]
      · rw [if_neg hmem] at hstatus
        simp [← Option.some.inj hstatus]
    | _ => simp_all [StakingActionKind.actsOnBond]
  | other hk => exact .other hk

def Exits (action : StakingAction) : Prop :=
  action.kind = .beginDelegationUnbonding ∨ action.kind = .withdrawDelegationBond

instance (action : StakingAction) : Decidable (Exits action) := inferInstanceAs (Decidable (_ ∨ _))

/-- How an action changes the locations: its own bond is new, gets the location of the action, or keeps its own. -/
structure Relocates (l : Ledger) (action : StakingAction) (location : TransactionLocation) (l' : Ledger) : Prop where
  other : ∀ key, action.arg32_0 ≠ key → l'.location? key = l.location? key
  created : action.kind = .createNewDelegationBond → l.location? action.arg32_0 = none
  exited : Exits action → l.location? action.arg32_0 ≠ none
  written : action.kind = .createNewDelegationBond ∨ Exits action → l'.location? action.arg32_0 = some location
  kept : action.kind ≠ .createNewDelegationBond → ¬ Exits action →
    l'.location? action.arg32_0 = l.location? action.arg32_0

theorem Moves.relocates (h : Moves chain pre l action location l') : Relocates l action location l' := by
  have hother : ∀ (bs : DelegationBond × BondStatusInChain) (key : BondKey), action.arg32_0 ≠ key →
      ((l.delegationBonds.insert action.arg32_0 bs)[key]?).map (fun bs => bs.1.createdAt) = l.location? key := by
    intro bs key hne
    simp [Std.ExtTreeMap.getElem?_insert, hne, location?]
  cases h with
  | create amount hk hamount hchain hnew =>
    exact ⟨hother _, by simp [location?, hnew], by simp [Exits, hk], by simp [location?], by simp [hk]⟩
  | unbond bond bonded unbonded hk hbond =>
    exact ⟨hother _, by simp [hk], by simp [location?, hbond], by simp [location?], by simp [Exits, hk]⟩
  | withdraw bond bond₀ hk hbond =>
    exact ⟨hother _, by simp [hk], by simp [location?, hbond], by simp [location?], by simp [Exits, hk]⟩
  | retarget bond status retargets hk hbond =>
    exact ⟨hother _, by simp [hk], by simp [Exits, hk], by simp [Exits, hk], by simp [location?, hbond]⟩
  | other hk =>
    have hne {kind : StakingActionKind} : kind.actsOnBond = true → action.kind ≠ kind := kind_ne_of_not_acts hk
    have hexit : ¬ Exits action := fun h => h.elim (hne rfl) (hne rfl)
    exact ⟨fun _ _ => rfl, fun h => absurd h (hne rfl), fun h => absurd h hexit,
      fun h => absurd h (not_or.mpr ⟨hne rfl, hexit⟩), fun _ _ => rfl⟩

theorem Moves.frame (h : Moves chain pre l action location l') :
    l'.blockInfoByHeight = l.blockInfoByHeight ∧ l'.bondRewards = l.bondRewards := by
  cases h <;> exact ⟨rfl, rfl⟩

theorem valid_induction
    (hvalid : acts.foldlM (fun notes x => validateAction db start.delegationBonds notes x.1) ⟨[], []⟩ = .ok notes)
    (hacts : actAll height (openLedger start) acts = .ok l) {R : List (StakingAction × ℕ) → Ledger → Prop}
    (hstart : R [] (openLedger start))
    (hstep : ∀ pre x l l', R pre l → KeepsAmounts start.delegationBonds l → Moves start.delegationBonds pre l x.1 ⟨height, x.2⟩ l' → R (pre ++ [x]) l') :
    R acts l ∧ ∀ key, Tracks start.delegationBonds notes l key (key ∈ withdrawnBy acts) := by
  have hrun : ∀ acts pre notes₁ l₁, R pre l₁ → KeepsAmounts start.delegationBonds l₁ →
      (∀ key, Tracks start.delegationBonds notes₁ l₁ key (key ∈ withdrawnBy pre)) →
      acts.foldlM (fun notes x => validateAction db start.delegationBonds notes x.1) notes₁ = .ok notes →
      actAll height l₁ acts = .ok l →
      R (pre ++ acts) l ∧ ∀ key, Tracks start.delegationBonds notes l key (key ∈ withdrawnBy (pre ++ acts)) := by
    intro acts
    induction acts with
    | nil =>
      intro pre notes₁ l₁ hR _ htracks hvalid hacts
      rw [List.append_nil, ← foldlM_nil_eq_ok.mp hacts, ← foldlM_nil_eq_ok.mp hvalid]
      exact ⟨hR, htracks⟩
    | cons x acts ih =>
      intro pre notes₁ l₁ hR hkeep htracks hvalid hacts
      obtain ⟨notes₂, hvalid₁, hvalid⟩ := foldlM_cons_eq_ok.mp hvalid
      obtain ⟨l₂, hacts₁, hacts⟩ := foldlM_cons_eq_ok.mp hacts
      have hadmits := validateAction_eq_ok hvalid₁
      have hact := updateChainTipWithDelegationBond_eq_ok.mp hacts₁
      have hmoves := moves_of_tracks (htracks x.1.arg32_0) hkeep hadmits hact
      rw [← List.singleton_append, ← List.append_assoc]
      exact ih (pre ++ [x]) notes₂ l₂ (hstep pre x l₁ l₂ hR hkeep hmoves) (hkeep.step hact)
        (fun key => (htracks key).step hadmits hact) hvalid hacts
  exact hrun acts [] ⟨[], []⟩ (openLedger start) hstart (fun _ bs hbs => ⟨bs, hbs, rfl⟩)
    (fun key => by simpa [withdrawnBy] using Tracks.start start key) hvalid hacts

theorem accepted_induction (a : Accepted checks c offer c') {R : List (StakingAction × ℕ) → Ledger → Prop}
    (hstart : R [] (openLedger c.toLedger))
    (hstep : ∀ pre x l l', R pre l → KeepsAmounts c.delegationBonds l →
      Moves c.delegationBonds pre l x.1 ⟨offer.block.height, x.2⟩ l' → R (pre ++ [x]) l') :
    R offer.block.actions a.filled.toLedger :=
  (valid_induction a.valid a.actAll hstart hstep).1

/-- The bonds before a block, as each of its actions needs them. -/
structure Fits (chain : Bonds) (action : StakingAction) : Prop where
  create : action.kind = .createNewDelegationBond → chain[action.arg32_0]? = none
  unbond : action.kind = .beginDelegationUnbonding →
    chain[action.arg32_0]? = none ∨ ∃ bond, chain[action.arg32_0]? = some (bond, .active)
  withdraw : action.kind = .withdrawDelegationBond → ∃ bond, chain[action.arg32_0]? = some (bond, .unbonding)
  retarget : action.kind = .retargetDelegationBond →
    chain[action.arg32_0]? = none ∨ ∃ bond, chain[action.arg32_0]? = some (bond, .active)

theorem Moves.fits (h : Moves chain pre l action location l') : Fits chain action := by
  cases h with
  | create amount hk hamount hchain => exact ⟨fun _ => hchain, by simp [hk], by simp [hk], by simp [hk]⟩
  | unbond bond bonded unbonded hk hbond hchain => exact ⟨by simp [hk], fun _ => hchain, by simp [hk], by simp [hk]⟩
  | withdraw bond bond₀ hk hbond hchain => exact ⟨by simp [hk], by simp [hk], fun _ => ⟨bond₀, hchain⟩, by simp [hk]⟩
  | retarget bond status retargets hk hbond hstatus hchain =>
    exact ⟨by simp [hk], by simp [hk], by simp [hk], fun _ => hchain⟩
  | other hk =>
    have hne {kind : StakingActionKind} : kind.actsOnBond = true → action.kind ≠ kind := kind_ne_of_not_acts hk
    exact ⟨fun h => absurd h (hne rfl), fun h => absurd h (hne rfl), fun h => absurd h (hne rfl),
      fun h => absurd h (hne rfl)⟩

theorem Accepted.fits (a : Accepted checks c offer c') : ∀ x ∈ offer.block.actions, Fits c.delegationBonds x.1 := by
  refine accepted_induction a (R := fun pre _ => ∀ x ∈ pre, Fits c.delegationBonds x.1) (by simp) ?_
  intro pre x l l' hR _ hmoves y hy
  rcases List.mem_append.mp hy with hy | hy
  · exact hR y hy
  · rw [List.mem_singleton.mp hy]
    exact hmoves.fits

end Crosslink.State

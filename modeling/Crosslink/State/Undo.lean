import Crosslink.State.Unlocated

/-!
# Taking back a block that lets bonds go

A block without unbondings and withdrawals is taken off a chain without a trace (`Accepted.popTip_eq_ok`). Of every
block it holds that, if its actions can be taken back at all, the pools are those before the block and the bonds are
too, up to locations: `TakenBack` says what the revert does to each bond, `Touched` what the block had done to it.
-/

namespace Crosslink.State

open Codec Fallible Staking Option ValueBalance
open Std (ExtTreeMap)

/-! ### Keys and amounts -/

def unbondedBy (actions : List (StakingAction × ℕ)) : List BondKey :=
  (actions.filter fun a => a.1.kind = .beginDelegationUnbonding).map fun a => a.1.arg32_0

def amountOf (bonds : Bonds) (key : BondKey) : ℤ := (bonds[key]?.map fun bs => bs.1.amount.zatoshis).getD 0

def unbondedSum (bonds : Bonds) (actions : List (StakingAction × ℕ)) : ℤ :=
  ((unbondedBy actions).map (amountOf bonds)).sum

variable {pre actions : List (StakingAction × ℕ)} {x : StakingAction × ℕ} {key : BondKey} {bonds bonds' : Bonds}

theorem mem_createdKeys_snoc : key ∈ createdKeys (pre ++ [x]) ↔
    key ∈ createdKeys pre ∨ x.1.kind = .createNewDelegationBond ∧ x.1.arg32_0 = key := by
  rw [createdKeys_append, List.mem_append]
  by_cases hk : x.1.kind = .createNewDelegationBond
  · simp [createdKeys_create hk, hk, eq_comm]
  · simp [createdKeys_other hk, hk]

theorem unbondedBy_snoc_unbond (hk : x.1.kind = .beginDelegationUnbonding) :
    unbondedBy (pre ++ [x]) = unbondedBy pre ++ [x.1.arg32_0] := by
  simp [unbondedBy, hk]

theorem unbondedBy_snoc_other (hk : x.1.kind ≠ .beginDelegationUnbonding) : unbondedBy (pre ++ [x]) = unbondedBy pre := by
  simp [unbondedBy, hk]

theorem mem_unbondedBy_snoc : key ∈ unbondedBy (pre ++ [x]) ↔
    key ∈ unbondedBy pre ∨ x.1.kind = .beginDelegationUnbonding ∧ x.1.arg32_0 = key := by
  by_cases hk : x.1.kind = .beginDelegationUnbonding
  · simp [unbondedBy_snoc_unbond hk, hk, eq_comm]
  · simp [unbondedBy_snoc_other hk, hk]

theorem amountOf_of_getElem? (h : bonds[key]? = some bs) :
    amountOf bonds key = bs.1.amount.zatoshis := by
  rw [amountOf, h]
  rfl

theorem amountOf_insert (bs : DelegationBond × BondStatusInChain) (k : BondKey) :
    amountOf (bonds.insert key bs) k = if key = k then bs.1.amount.zatoshis else amountOf bonds k := by
  unfold amountOf
  rw [ExtTreeMap.getElem?_insert]
  by_cases hk : key = k
  · simp [hk]
  · simp [hk]

theorem unbondedSum_congr (h : ∀ k ∈ unbondedBy actions, amountOf bonds' k = amountOf bonds k) :
    unbondedSum bonds' actions = unbondedSum bonds actions := by
  rw [unbondedSum, unbondedSum, List.map_congr_left h]

theorem unbondedSum_snoc_unbond (hk : x.1.kind = .beginDelegationUnbonding) :
    unbondedSum bonds (pre ++ [x]) = unbondedSum bonds pre + amountOf bonds x.1.arg32_0 := by
  simp [unbondedSum, unbondedBy_snoc_unbond hk]

theorem unbondedSum_snoc_other (hk : x.1.kind ≠ .beginDelegationUnbonding) :
    unbondedSum bonds (pre ++ [x]) = unbondedSum bonds pre := by
  rw [unbondedSum, unbondedSum, unbondedBy_snoc_other hk]

/-- An amount moves from the bonded to the unbonded pool. -/
structure Shifted (amount : ℤ) (before after : ValueBalance .nonNegative) : Prop where
  bonded : (after .stakingBonded).zatoshis = (before .stakingBonded).zatoshis - amount
  unbonded : (after .stakingUnbonded).zatoshis = (before .stakingUnbonded).zatoshis + amount
  others : ∀ p, p ≠ .stakingBonded → p ≠ .stakingUnbonded → after p = before p

theorem Shifted.refl (pools : ValueBalance .nonNegative) : Shifted 0 pools pools :=
  ⟨(sub_zero _).symm, (add_zero _).symm, fun _ _ _ => rfl⟩

theorem Shifted.trans (h : Shifted a p₁ p₂) (h' : Shifted a' p₂ p₃) :
    Shifted (a + a') p₁ p₃ := by
  refine ⟨?_, ?_, fun p hb hu => (h'.others p hb hu).trans (h.others p hb hu)⟩
  · rw [h'.bonded, h.bonded]
    ring
  · rw [h'.unbonded, h.unbonded]
    ring

theorem shifted_setAmount (hbonded : bonded.zatoshis = (pools .stakingBonded).zatoshis - amount)
    (hunbonded : unbonded.zatoshis = (pools .stakingUnbonded).zatoshis + amount) :
    Shifted amount pools ((pools.setAmount .stakingBonded bonded).setAmount .stakingUnbonded unbonded) := by
  refine ⟨?_, ?_, ?_⟩
  · simpa [setAmount] using hbonded
  · simpa [setAmount] using hunbonded
  · intro p hb hu
    simp [setAmount, hb, hu]

/-! ### Taking actions back -/

def restored (actions : List (StakingAction × ℕ)) (key : BondKey) (entry : Option (DelegationBond × BondStatusInChain)) :
    Option (DelegationBond × BondStatusInChain) :=
  if key ∈ createdKeys actions then none
  else if key ∈ unbondedBy actions then entry.map fun bs => (bs.1, .active)
  else if key ∈ withdrawnBy actions then entry.map fun bs => (bs.1, .unbonding)
  else entry

variable {entry : Option (DelegationBond × BondStatusInChain)} {bond : DelegationBond} {status : BondStatusInChain}

theorem restored_of_ne (hne : x.1.arg32_0 ≠ key) : restored (pre ++ [x]) key entry = restored pre key entry := by
  simp [restored, mem_createdKeys_snoc, mem_unbondedBy_snoc, mem_withdrawnBy_snoc, hne]

theorem restored_other (hk : x.1.kind ≠ .createNewDelegationBond) (hexit : ¬ Exits x.1) :
    restored (pre ++ [x]) key entry = restored pre key entry := by
  rw [Exits, not_or] at hexit
  simp [restored, mem_createdKeys_snoc, mem_unbondedBy_snoc, mem_withdrawnBy_snoc, hk, hexit]

theorem restored_eq_some (h : restored pre key entry = some (bond, status)) (hstatus : status ≠ .active) :
    key ∉ createdKeys pre ∧ key ∉ unbondedBy pre ∧ ∃ old, entry = some (bond, old) := by
  unfold restored at h
  split_ifs at h with hcreated hunbonded hwithdrawn
  · obtain ⟨bs, -, hbs⟩ := map_eq_some_iff.mp h
    exact absurd (Prod.mk.inj hbs).2.symm hstatus
  · obtain ⟨bs, hentry, hbs⟩ := map_eq_some_iff.mp h
    obtain ⟨rfl, rfl⟩ := Prod.mk.inj hbs
    exact ⟨hcreated, hunbonded, bs.2, hentry⟩
  · exact ⟨hcreated, hunbonded, status, h⟩

/-- The effect of taking back some actions. -/
structure TakenBack (l : Ledger) (actions : List (StakingAction × ℕ)) (l' : Ledger) : Prop where
  bonds : ∀ key : BondKey, l'.delegationBonds[key]? = restored actions key l.delegationBonds[key]?
  pools : Shifted (unbondedSum l.delegationBonds actions) l'.chainValuePools l.chainValuePools
  rewards : l'.bondRewards = l.bondRewards
  retargets : l'.bondRetargets = l.bondRetargets
  info : l'.blockInfoByHeight = l.blockInfoByHeight

variable {l l₁ l₂ l' start : Ledger}

theorem TakenBack.step (h : TakenBack l pre l₁) (hstep : Reverts l₁ x.1 l₂) : TakenBack l (pre ++ [x]) l₂ := by
  cases hstep with
  | create hk hbond =>
    refine ⟨fun key => ?_, ?_, h.rewards, h.retargets, h.info⟩
    · by_cases hkey : x.1.arg32_0 = key
      · simp [restored, mem_createdKeys_snoc, hk, hkey]
      · rw [restored_of_ne hkey, ← h.bonds key]
        simp [ExtTreeMap.getElem?_erase, hkey]
    · rw [unbondedSum_snoc_other (by simp [hk])]
      exact h.pools
  | unbond bond bonded unbonded hk hbond hbonded hunbonded =>
    rw [h.bonds] at hbond
    obtain ⟨hcreated, -, old, hold⟩ := restored_eq_some hbond (by simp)
    refine ⟨fun key => ?_, ?_, h.rewards, h.retargets, h.info⟩
    · by_cases hkey : x.1.arg32_0 = key
      · subst hkey
        simp [restored, mem_createdKeys_snoc, mem_unbondedBy_snoc, hk, hcreated, hold]
      · rw [restored_of_ne hkey, ← h.bonds key]
        simp [ExtTreeMap.getElem?_insert, hkey]
    · rw [unbondedSum_snoc_unbond hk, amountOf_of_getElem? hold, add_comm]
      refine Shifted.trans ⟨?_, ?_, ?_⟩ h.pools
      · simp [setAmount, hbonded]
      · simp [setAmount, hunbonded]
      · intro p hb hu
        simp [setAmount, hb, hu]
  | withdraw bond hk hbond =>
    rw [h.bonds] at hbond
    obtain ⟨hcreated, hunbonded, old, hold⟩ := restored_eq_some hbond (by simp)
    refine ⟨fun key => ?_, ?_, h.rewards, h.retargets, h.info⟩
    · by_cases hkey : x.1.arg32_0 = key
      · subst hkey
        simp [restored, mem_createdKeys_snoc, mem_unbondedBy_snoc, mem_withdrawnBy_snoc, hk, hcreated, hunbonded, hold]
      · rw [restored_of_ne hkey, ← h.bonds key]
        simp [ExtTreeMap.getElem?_insert, hkey]
    · rw [unbondedSum_snoc_other (by simp [hk])]
      exact h.pools
  | other hk hexit =>
    refine ⟨fun key => (h.bonds key).trans (restored_other hk hexit).symm, ?_, h.rewards, h.retargets, h.info⟩
    rw [unbondedSum_snoc_other fun heq => hexit (.inl heq)]
    exact h.pools

theorem revertAll_takenBack (h : revertAll l actions = .ok l') : TakenBack l actions l' := by
  refine foldlM_induction (R := TakenBack l) h ⟨fun key => ?_, Shifted.refl _, rfl, rfl, rfl⟩ ?_
  · simp [restored, createdKeys, unbondedBy, withdrawnBy]
  · intro pre x l₁ l₂ hpre hstep
    exact hpre.step (revertDelegationBond_eq_ok hstep)

/-! ### What the block had done -/

/-- The bonds and pools in the middle of a block: a bond that was there has its amount, its target can be restored, and
so can its status; the others were created. -/
structure Touched (start : Ledger) (pre : List (StakingAction × ℕ)) (retargets : ExtTreeMap BondKey (Bytes 32))
    (l : Ledger) : Prop where
  retargets_eq : l.bondRetargets = retargets :: start.bondRetargets
  old : ∀ (k : BondKey) bs, start.delegationBonds[k]? = some bs → ∃ bs', l.delegationBonds[k]? = some bs' ∧
    bs'.1.amount = bs.1.amount ∧ retargets[k]?.getD bs'.1.targetFinalizer = bs.1.targetFinalizer ∧
      (k ∉ unbondedBy pre → k ∉ withdrawnBy pre → bs'.2 = bs.2)
  new : ∀ k : BondKey, start.delegationBonds[k]? = none → (l.delegationBonds[k]? ≠ none ↔ k ∈ createdKeys pre)
  known : ∀ k : BondKey, retargets[k]? ≠ none → l.delegationBonds[k]? ≠ none
  exited : ∀ k : BondKey, k ∈ unbondedBy pre ∨ k ∈ withdrawnBy pre →
    ∃ bs, l.delegationBonds[k]? = some bs ∧ bs.2 ≠ .active
  pools : Shifted (unbondedSum l.delegationBonds pre) start.chainValuePools l.chainValuePools

variable {retargets : ExtTreeMap BondKey (Bytes 32)} {location : TransactionLocation}

theorem Touched.initial (l : Ledger) : Touched l [] ∅ (openLedger l) where
  retargets_eq := rfl
  old k bs hbs := ⟨bs, hbs, rfl, by simp, fun _ _ => rfl⟩
  new k hk := by simp [openLedger, hk, createdKeys]
  known k hk := by simp at hk
  exited k hk := by simp [unbondedBy, withdrawnBy] at hk
  pools := Shifted.refl _

theorem Touched.amounts (h : Touched start pre retargets l)
    (hamount : ∀ bs', l.delegationBonds[key]? = some bs' → bs.1.amount = bs'.1.amount) :
    unbondedSum (l.delegationBonds.insert key bs) pre = unbondedSum l.delegationBonds pre := by
  refine unbondedSum_congr fun k hk => ?_
  rw [amountOf_insert]
  split_ifs with hkey
  · subst hkey
    obtain ⟨bs', hbs', -⟩ := h.exited key (.inl hk)
    rw [amountOf_of_getElem? hbs', hamount bs' hbs']
  · rfl

theorem Touched.replace (h : Touched start pre retargets l) {old new : DelegationBond × BondStatusInChain}
    (hk : x.1.kind ≠ .createNewDelegationBond) (hold : l.delegationBonds[x.1.arg32_0]? = some old)
    (hnew : l'.delegationBonds = l.delegationBonds.insert x.1.arg32_0 new) (hamount : new.1.amount = old.1.amount)
    (hretargets : l'.bondRetargets = retargets' :: start.bondRetargets)
    (hothers : ∀ k : BondKey, x.1.arg32_0 ≠ k → retargets'[k]? = retargets[k]?)
    (htarget : retargets'[x.1.arg32_0]?.getD new.1.targetFinalizer = retargets[x.1.arg32_0]?.getD old.1.targetFinalizer)
    (hstatus : ¬ Exits x.1 → new.2 = old.2) (hexited : Exits x.1 → new.2 ≠ .active)
    (hpools : Shifted (unbondedSum l'.delegationBonds (pre ++ [x])) start.chainValuePools l'.chainValuePools) :
    Touched start (pre ++ [x]) retargets' l' := by
  have hother : ∀ k : BondKey, x.1.arg32_0 ≠ k → l'.delegationBonds[k]? = l.delegationBonds[k]? := by
    intro k hne
    rw [hnew]
    simp [ExtTreeMap.getElem?_insert, hne]
  have hself : l'.delegationBonds[x.1.arg32_0]? = some new := by rw [hnew, ExtTreeMap.getElem?_insert_self]
  have hkeep : ∀ k : BondKey, l'.delegationBonds[k]? ≠ none ↔ l.delegationBonds[k]? ≠ none := by
    intro k
    by_cases hkey : x.1.arg32_0 = k
    · subst hkey
      simp [hself, hold]
    · rw [hother k hkey]
  refine ⟨hretargets, ?_, ?_, ?_, ?_, hpools⟩
  · intro k bs hbs
    obtain ⟨bs', hbs', hamount', htarget', hstatus'⟩ := h.old k bs hbs
    by_cases hkey : x.1.arg32_0 = k
    · subst hkey
      obtain rfl := some.inj (hold.symm.trans hbs')
      refine ⟨new, hself, hamount.trans hamount', htarget.trans htarget', fun hunbonded hwithdrawn => ?_⟩
      simp only [mem_unbondedBy_snoc, mem_withdrawnBy_snoc, and_true, not_or] at hunbonded hwithdrawn
      rw [hstatus fun hexit => hexit.elim hunbonded.2 hwithdrawn.2, hstatus' hunbonded.1 hwithdrawn.1]
    · refine ⟨bs', (hother k hkey).trans hbs', hamount', by rw [hothers k hkey]; exact htarget', ?_⟩
      simpa [mem_unbondedBy_snoc, mem_withdrawnBy_snoc, hkey] using hstatus'
  · intro k hk'
    rw [hkeep, h.new k hk']
    simp [mem_createdKeys_snoc, hk]
  · intro k hk'
    rw [hkeep]
    by_cases hkey : x.1.arg32_0 = k
    · simp [← hkey, hold]
    · rw [hothers k hkey] at hk'
      exact h.known k hk'
  · intro k hk'
    rw [mem_unbondedBy_snoc, mem_withdrawnBy_snoc, or_or_or_comm] at hk'
    by_cases hkey : x.1.arg32_0 = k
    · subst hkey
      refine ⟨new, hself, ?_⟩
      by_cases hexit : Exits x.1
      · exact hexited hexit
      · obtain ⟨bs', hbs', hactive⟩ := h.exited _ (hk'.resolve_right fun hx => hexit (hx.imp And.left And.left))
        obtain rfl := some.inj (hold.symm.trans hbs')
        rwa [hstatus hexit]
    · rw [hother k hkey]
      exact h.exited k (hk'.resolve_right fun hx => hkey (hx.elim And.right And.right))

theorem getD_insertIfNew (retargets : ExtTreeMap BondKey (Bytes 32)) (key : BondKey) (first later : Bytes 32) :
    (retargets.insertIfNew key first)[key]?.getD later = retargets[key]?.getD first := by
  rw [ExtTreeMap.getElem?_insertIfNew]
  by_cases hmem : key ∈ retargets
  · obtain ⟨t, ht⟩ := isSome_iff_exists.mp (ExtTreeMap.isSome_getElem?_iff_mem.mpr hmem)
    rw [if_neg (by simp [hmem]), ht]
    rfl
  · rw [if_pos ⟨compare_eq_iff_eq.mpr rfl, hmem⟩, ExtTreeMap.getElem?_eq_none hmem]
    rfl

theorem Touched.step (h : Touched start pre retargets l) (hmoves : Moves start.delegationBonds pre l x.1 location l') :
    ∃ retargets', Touched start (pre ++ [x]) retargets' l' := by
  cases hmoves with
  | create amount hk hamount hchain hnew =>
    have hne : x.1.kind ≠ .beginDelegationUnbonding := by rw [hk]; nofun
    refine ⟨retargets, h.retargets_eq, ?_, ?_, ?_, ?_, ?_⟩
    · intro k bs hbs
      have hkey : x.1.arg32_0 ≠ k := by
        rintro rfl
        rw [hchain] at hbs
        cases hbs
      simpa [ExtTreeMap.getElem?_insert, hkey, unbondedBy_snoc_other hne, mem_withdrawnBy_snoc] using h.old k bs hbs
    · intro k hk'
      rw [mem_createdKeys_snoc, ← h.new k hk']
      by_cases hkey : x.1.arg32_0 = k
      · simp [hkey, hk]
      · simp [ExtTreeMap.getElem?_insert, hkey]
    · intro k hk'
      by_cases hkey : x.1.arg32_0 = k
      · simp [hkey]
      · simpa [ExtTreeMap.getElem?_insert, hkey] using h.known k hk'
    · intro k hk'
      simp only [unbondedBy_snoc_other hne, mem_withdrawnBy_snoc, hk, reduceCtorEq, false_and, or_false] at hk'
      obtain ⟨bs, hbs, hactive⟩ := h.exited k hk'
      have hkey : x.1.arg32_0 ≠ k := by
        rintro rfl
        rw [hnew] at hbs
        cases hbs
      exact ⟨bs, by simpa [ExtTreeMap.getElem?_insert, hkey] using hbs, hactive⟩
    · rw [unbondedSum_snoc_other hne, h.amounts (by simp [hnew])]
      exact h.pools
  | unbond bond bonded unbonded hk hbond hchain hbonded hunbonded =>
    refine ⟨retargets, h.replace (by simp [hk]) hbond rfl rfl h.retargets_eq (fun _ _ => rfl) rfl
      (fun hexit => absurd (.inl hk) hexit) nofun ?_⟩
    rw [unbondedSum_snoc_unbond hk, h.amounts (fun bs' hbs' => by rw [hbond] at hbs'; rw [← some.inj hbs'])]
    refine h.pools.trans (shifted_setAmount ?_ ?_)
    · simpa [amountOf_insert] using hbonded
    · simpa [amountOf_insert] using hunbonded
  | withdraw bond bond₀ hk hbond =>
    refine ⟨retargets, h.replace (by simp [hk]) hbond rfl rfl h.retargets_eq (fun _ _ => rfl) rfl
      (fun hexit => absurd (.inr hk) hexit) nofun ?_⟩
    rw [unbondedSum_snoc_other (by simp [hk]),
      h.amounts (fun bs' hbs' => by rw [hbond] at hbs'; rw [← some.inj hbs'])]
    exact h.pools
  | retarget bond status old hk hbond hstatus hchain hretargets =>
    obtain rfl : retargets = old := by
      rw [h.retargets_eq] at hretargets
      exact some.inj hretargets
    refine ⟨_, h.replace (by simp [hk]) hbond rfl rfl (by rw [h.retargets_eq, List.tail_cons])
      (fun k hkey => by simp [ExtTreeMap.getElem?_insertIfNew, hkey]) (getD_insertIfNew _ _ _ _) (fun _ => rfl)
      (by simp [Exits, hk]) ?_⟩
    rw [unbondedSum_snoc_other (by simp [hk]),
      h.amounts (fun bs' hbs' => by rw [hbond] at hbs'; rw [← some.inj hbs'])]
    exact h.pools
  | other hk =>
    have hcreate : x.1.kind ≠ .createNewDelegationBond := kind_ne_of_not_acts hk rfl
    have hunbond : x.1.kind ≠ .beginDelegationUnbonding := kind_ne_of_not_acts hk rfl
    have hwithdraw : x.1.kind ≠ .withdrawDelegationBond := kind_ne_of_not_acts hk rfl
    refine ⟨retargets, h.retargets_eq, ?_, ?_, h.known, ?_, ?_⟩
    · intro k bs hbs
      simpa [unbondedBy_snoc_other hunbond, mem_withdrawnBy_snoc, hwithdraw] using h.old k bs hbs
    · intro k hk'
      rw [h.new k hk', mem_createdKeys_snoc]
      simp [hcreate]
    · intro k hk'
      exact h.exited k (by simpa [unbondedBy_snoc_other hunbond, mem_withdrawnBy_snoc, hwithdraw] using hk')
    · rw [unbondedSum_snoc_other hunbond]
      exact h.pools

variable {checks : Bool} {c c' : Chain} {offer : Offer}

theorem Accepted.touched (a : Accepted checks c offer c') :
    ∃ retargets, Touched c.toLedger offer.block.actions retargets a.filled.toLedger := by
  refine accepted_induction a (R := fun pre l => ∃ retargets, Touched c.toLedger pre retargets l)
    ⟨∅, Touched.initial c.toLedger⟩ ?_
  rintro pre x l l' ⟨retargets, hR⟩ - hmoves
  exact hR.step hmoves

/-- What the actions on a bond say of it before the block. -/
structure FitsKey (chain : Bonds) (actions : List (StakingAction × ℕ)) (key : BondKey) : Prop where
  created : key ∈ createdKeys actions → chain[key]? = none
  unbonded : ∀ bs, key ∈ unbondedBy actions → chain[key]? = some bs → bs.2 = .active
  withdrawn : ∀ bs, key ∈ withdrawnBy actions → chain[key]? = some bs → bs.2 = .unbonding

theorem fitsKey (h : ∀ x ∈ actions, Fits chain x.1) (key : BondKey) : FitsKey chain actions key := by
  refine ⟨?_, ?_, ?_⟩
  · intro hkey
    obtain ⟨x, hx, rfl⟩ := List.mem_map.mp hkey
    rw [List.mem_filter, decide_eq_true_iff] at hx
    exact (h x hx.1).create hx.2
  · intro bs hkey hbs
    obtain ⟨x, hx, rfl⟩ := List.mem_map.mp hkey
    rw [List.mem_filter, decide_eq_true_iff] at hx
    rcases (h x hx.1).unbond hx.2 with hnone | ⟨bond, hsome⟩
    · rw [hnone] at hbs
      cases hbs
    · rw [← some.inj (hsome.symm.trans hbs)]
  · intro bs hkey hbs
    obtain ⟨x, hx, rfl⟩ := List.mem_map.mp hkey
    rw [List.mem_filter, decide_eq_true_iff] at hx
    obtain ⟨bond, hsome⟩ := (h x hx.1).withdraw hx.2
    rw [← some.inj (hsome.symm.trans hbs)]

theorem restored_unlocate :
    (restored actions key entry).map unlocateEntry = restored actions key (entry.map unlocateEntry) := by
  unfold restored
  split_ifs
  · rfl
  · rw [map_map, map_map]
    rfl
  · rw [map_map, map_map]
    rfl
  · rfl

theorem Touched.restored_eq (h : Touched start actions retargets l) (hfits : FitsKey start.delegationBonds actions key) :
    restored actions key ((l.delegationBonds[key]?.map unlocateEntry).map fun bs =>
        withTarget (retargets[key]?.getD bs.1.targetFinalizer) bs) =
      start.delegationBonds[key]?.map unlocateEntry := by
  cases hkey : start.delegationBonds[key]? with
  | none =>
    by_cases hcreated : key ∈ createdKeys actions
    · simp [restored, hcreated]
    · have hnone : l.delegationBonds[key]? = none := by
        by_contra hsome
        exact hcreated ((h.new key hkey).mp hsome)
      simp [restored, hcreated, hnone]
  | some bs =>
    have hcreated : key ∉ createdKeys actions := by
      intro hmem
      rw [hfits.created hmem] at hkey
      cases hkey
    obtain ⟨bs', hbs', hamount, htarget, hstatus⟩ := h.old key bs hkey
    have hbond : (withTarget (retargets[key]?.getD bs'.1.targetFinalizer) (unlocateEntry bs')).1 = unlocateBond bs.1 := by
      rw [htarget]
      unfold withTarget unlocateEntry unlocateBond
      rw [hamount]
    rw [hbs', restored, if_neg hcreated]
    split_ifs with hunbonded hwithdrawn
    · rw [← hfits.unbonded bs hunbonded hkey]
      exact congrArg some (Prod.ext hbond rfl)
    · rw [← hfits.withdrawn bs hwithdrawn hkey]
      exact congrArg some (Prod.ext hbond rfl)
    · exact congrArg some (Prod.ext hbond (hstatus hunbonded hwithdrawn))

/-! ### Taking off the tip -/

theorem paid_unlocate (h : Ledger.Paid bonds record bonds') :
    Ledger.Paid (unlocate bonds) record (unlocate bonds') := by
  refine ⟨h.nodup, ?_, ?_⟩
  · intro kr hkr
    obtain ⟨bond, status, amount, hbond, hbond', hamount⟩ := h.paid kr hkr
    exact ⟨unlocateBond bond, status, amount, unlocate_of_getElem? hbond, unlocate_of_getElem? hbond', hamount⟩
  · intro k hk
    rw [unlocate_getElem?, unlocate_getElem?, h.frame k hk]

theorem rewarded_unlocate (h : Ledger.Rewarded l record l')
    (hx : unlocate l₂.delegationBonds = unlocate l'.delegationBonds)
    (hpools : l₂.chainValuePools = l'.chainValuePools) (hrewards : l₂.bondRewards = record :: rs) :
    Ledger.Rewarded { l₂ with
      delegationBonds := unlocate l.delegationBonds
      chainValuePools := l.chainValuePools
      bondRewards := rs } record (unlocateLedger l₂) where
  paid := by
    rw [unlocateLedger, hx]
    exact paid_unlocate h.paid
  active kr hkr := by
    obtain ⟨bond, hbond⟩ := h.active kr hkr
    exact ⟨_, unlocate_of_getElem? hbond⟩
  pool := by
    rw [unlocateLedger, hpools]
    exact h.pool
  pools p hp := by
    rw [unlocateLedger, hpools]
    exact h.pools p hp
  rewards := hrewards
  retargets := rfl
  info := rfl
  lt := h.lt
  sum hlt := h.sum (by rwa [stakeTotal_unlocate] at hlt)
  nonempty := by
    rw [h.nonempty, activeBonds_unlocate, List.map_eq_nil_iff]

/-- A block was accepted by some chain: the bonds and pools before and after it, up to locations, and what it left in
the records of the chain. -/
structure Entered (checks : Bool) (before : Snapshot) (b : ContextuallyVerifiedBlock) (e : Entry) (after : Snapshot) :
    Prop where
  enter : before.enter checks b = .ok (e, after)
  accepted : ∃ (c : Chain) (offer : Offer) (c' : Chain), c.accept checks offer = .ok c' ∧ offer.ValuesVerified ∧ BondedBacked c.toLedger ∧
    Chain.withBlockAndSpentUtxos offer.block offer.spent = .ok b ∧ c.snapshot.unlocate = before

/-- What the acceptance of the block says of it, in terms of the ledger after its actions. -/
structure EnteredBy (c : Chain) (b : ContextuallyVerifiedBlock) (e : Entry) (c' : Chain)
    (filled : Ledger) (pools : ValueBalance .nonNegative) : Prop where
  fits : ∀ x ∈ b.actions, Fits c.delegationBonds x.1
  touched : Touched c.toLedger b.actions e.retargets filled
  pools_eq : ∀ p, (pools p).zatoshis = (filled.chainValuePools p).zatoshis + (b.poolChange p).zatoshis
  rewarded : ∃ info, Ledger.Rewarded { filled with chainValuePools := pools, blockInfoByHeight := info } e.record
    c'.toLedger
  backed : (pools .stakingBonded).zatoshis = stakeTotal .active filled.delegationBonds
  small : stakeTotal .active filled.delegationBonds < 2 ^ 64

variable {before after : Snapshot} {b : ContextuallyVerifiedBlock} {e : Entry}

theorem Accepted.enteredBy (a : Accepted checks c offer c') (hbacked : BondedBacked c.toLedger)
    (hall : offer.ValuesVerified) (henter : c.snapshot.unlocate.enter checks a.block = .ok (e, after)) :
    ∃ pools : ValueBalance .nonNegative, EnteredBy c a.block e c' a.filled.toLedger pools ∧
      c'.snapshot.unlocate = after ∧ e.info = ⟨pools, a.block.size % 2 ^ 32⟩ := by
  obtain ⟨e', henter', hrewards, hretargets, hinfo⟩ := a.enter
  obtain ⟨rfl, rfl⟩ := Snapshot.enter_unique henter henter'
  obtain ⟨retargets, htouched⟩ := a.touched
  obtain ⟨pools, record, hpools, hrewarded⟩ := a.closed
  obtain ⟨hback, hsmall⟩ := a.active_lt hbacked hall hpools
  have hrecord : record = e.record := (List.cons.inj (hrewarded.rewards.symm.trans hrewards)).1
  have hretarget : retargets = e.retargets := by
    have hsame := hrewarded.retargets.symm.trans hretargets
    rw [show ({ a.filled.toLedger with chainValuePools := pools, blockInfoByHeight := _ } : Ledger).bondRetargets =
      a.filled.bondRetargets from rfl, htouched.retargets_eq] at hsame
    exact (List.cons.inj hsame).1
  have hinfo' : e.info = ⟨pools, a.block.size % 2 ^ 32⟩ := by
    have hat := congrFun (hrewarded.info.symm.trans hinfo) a.block.height
    rw [a.actions_eq.2] at hat
    simpa [(Chain.withBlockAndSpentUtxos_eq_ok a.block_eq).1] using hat.symm
  subst hrecord hretarget
  refine ⟨pools, ⟨?_, ?_, hpools, ⟨_, hrewarded⟩, hback, hsmall⟩, rfl, hinfo'⟩
  · rw [a.actions_eq.1]
    exact a.fits
  · rw [a.actions_eq.1]
    exact htouched

theorem Entered.filled (h : Entered checks before b e after) : ∃ (c : Chain) (offer : Offer) (c' : Chain)
    (a : Accepted checks c offer c') (pools : ValueBalance .nonNegative), a.block = b ∧
      EnteredBy c b e c' a.filled.toLedger pools ∧ c.snapshot.unlocate = before ∧ c'.snapshot.unlocate = after ∧
      e.info = ⟨pools, b.size % 2 ^ 32⟩ := by
  obtain ⟨henter, c, offer, c', haccept, hall, hbacked, hblock, rfl⟩ := h
  obtain ⟨a⟩ := Chain.accept_eq_ok haccept
  obtain rfl := Except.ok.inj (a.block_eq.symm.trans hblock)
  obtain ⟨pools, hby, hafter, hinfo⟩ := a.enteredBy hbacked hall henter
  exact ⟨c, offer, c', a, pools, rfl, hby, rfl, hafter, hinfo⟩

theorem EnteredBy.snapshot_eq {c c' y : Chain} (h : EnteredBy c b e c' filled pools)
    (hbonds : ∀ k : BondKey, l₂.delegationBonds[k]?.map unlocateEntry = (filled.delegationBonds[k]?.map unlocateEntry).map fun bs => withTarget (e.retargets[k]?.getD bs.1.targetFinalizer) bs)
    (hpools : l₂.chainValuePools = pools) (hback : TakenBack l₂ b.actions l₃)
    (hlast : l₃.revertChainValuePools b.poolChange b.height = .ok y.toLedger) :
    y.snapshot.unlocate = c.snapshot.unlocate := by
  obtain ⟨pools', hpools', hy⟩ := revertChainValuePools_eq_ok hlast
  have hamounts : unbondedSum l₂.delegationBonds b.actions = unbondedSum filled.delegationBonds b.actions := by
    refine unbondedSum_congr fun k _ => ?_
    have hk := congrArg (Option.map fun bs : DelegationBond × BondStatusInChain => bs.1.amount.zatoshis) (hbonds k)
    simp only [Option.map_map] at hk
    exact congrArg (Option.getD · 0) hk
  have hshift := hback.pools
  rw [hamounts, hpools] at hshift
  have htouched := h.touched.pools
  refine congrArg₂ Snapshot.mk ?_ ?_
  · rw [show y.snapshot.bonds = l₃.delegationBonds from revertChainValuePools_bonds hlast, unlocate_eq_iff]
    intro key
    rw [hback.bonds, restored_unlocate, hbonds]
    exact h.touched.restored_eq (fitsKey h.fits key)
  · rw [show y.snapshot.pools = pools' from congrArg Ledger.chainValuePools hy]
    refine ext fun p => ?_
    change _ = (c.chainValuePools p).zatoshis
    have hp := hpools' p
    have hp' := h.pools_eq p
    by_cases hbonded : p = .stakingBonded
    · subst hbonded
      have := hshift.bonded
      have := htouched.bonded
      omega
    · by_cases hunbonded : p = .stakingUnbonded
      · subst hunbonded
        have := hshift.unbonded
        have := htouched.unbonded
        omega
      · rw [← hshift.others p hbonded hunbonded] at hp
        rw [← htouched.others p hbonded hunbonded]
        omega

theorem Entered.popTip (h : Entered checks before b e after) {x y : Chain} (hx : x.snapshot.unlocate = after)
    (hb : x.blocks.getLast? = some b) (hrewards : x.bondRewards = e.record :: rs)
    (hretargets : x.bondRetargets = e.retargets :: ts) (hpop : x.popTip = .ok y) :
    y.snapshot.unlocate = before ∧ y.bondRewards = rs ∧ y.bondRetargets = ts ∧ y.blocks = x.blocks.dropLast ∧
      y.blockInfoByHeight = Function.update x.blockInfoByHeight b.height none := by
  obtain ⟨c, offer, c', a, pools, -, hby, rfl, hafter, -⟩ := h.filled
  obtain ⟨b', l₁, l₂, l₃, hb', hblocks, h₁, h₂, h₃, h₄⟩ := popTip_inv hpop
  obtain rfl := some.inj (hb.symm.trans hb')
  rw [← hafter] at hx
  obtain ⟨info, hrewarded⟩ := hby.rewarded
  -- without locations the rewards and the targets are taken back exactly
  have hl₁ := Except.ok.inj ((revertRewards_unlocate h₁).symm.trans
    ((rewarded_unlocate hrewarded (congrArg Snapshot.bonds hx) (congrArg Snapshot.pools hx) hrewards).revert
      (by rw [stakeTotal_unlocate]; exact hby.small)))
  have hhead : (unlocateLedger l₁).bondRetargets = e.retargets :: ts := by
    rw [hl₁]
    exact hretargets
  obtain ⟨bonds₂, h₂', hlookup⟩ := revertRetargets_eq_ok hhead fun k hk => by
    rw [hl₁, unlocate_getElem?]
    simpa using hby.touched.known k hk
  have hl₂ := Except.ok.inj ((revertRetargets_unlocate h₂).symm.trans h₂')
  rw [hl₁] at hl₂ hlookup
  have hback := revertAll_takenBack h₃
  obtain ⟨pools', -, hy⟩ := revertChainValuePools_eq_ok h₄
  refine ⟨hby.snapshot_eq ?_ ?_ hback h₄, ?_, ?_, hblocks, ?_⟩
  · intro k
    rw [← unlocate_getElem?, show unlocate l₂.delegationBonds = bonds₂ from congrArg Ledger.delegationBonds hl₂, hlookup,
      unlocate_getElem?]
  · exact congrArg Ledger.chainValuePools hl₂
  · rw [congrArg Ledger.bondRewards hy]
    exact hback.rewards.trans (congrArg Ledger.bondRewards hl₂)
  · rw [congrArg Ledger.bondRetargets hy]
    exact hback.retargets.trans (congrArg Ledger.bondRetargets hl₂)
  · have hinfo : l₂.blockInfoByHeight = x.blockInfoByHeight := (congrArg Ledger.blockInfoByHeight hl₂ :)
    rw [congrArg Ledger.blockInfoByHeight hy, hback.info, hinfo]

end Crosslink.State

import Crosslink.Staking.Ledger

/-!
# What the block reward does

`Paid bonds record bonds'` says that `bonds'` are the bonds after the rewards in `record`, one for each of its
different keys. Paying the reward of a block produces such a record over the active bonds; taking the rewards back in
the order of the record gives the bonds before. The record adds up to the reward of a block as long as the sum of the
active bonds is a 64-bit number.
-/

namespace Crosslink.Staking

open Codec Fallible List Amount ValueBalance
open Std (ExtTreeMap)

def stakeTotal (status : BondStatusInChain) (bonds : Bonds) : ℤ :=
  Table.total (fun _ bs => if bs.2 = status then bs.1.amount.zatoshis else 0) bonds

def stakeOf (status : BondStatusInChain) (bs : DelegationBond × BondStatusInChain) : ℤ :=
  if bs.2 = status then bs.1.amount.zatoshis else 0

theorem stakeTotal_insert_new (h : bonds[key]? = none) (status : BondStatusInChain)
    (bs : DelegationBond × BondStatusInChain) :
    stakeTotal status (bonds.insert key bs) = stakeTotal status bonds + stakeOf status bs := by
  rw [stakeTotal, Table.total_insert_new h, add_comm]
  rfl

theorem stakeTotal_insert_old (h : bonds[key]? = some old) (status : BondStatusInChain)
    (bs : DelegationBond × BondStatusInChain) :
    stakeTotal status (bonds.insert key bs) = stakeTotal status bonds - stakeOf status old + stakeOf status bs := by
  have hold := Table.total_insert_old (f := fun _ bs => stakeOf status bs) (v := bs) h
  have hleft : stakeTotal status (bonds.insert key bs) = Table.total (fun _ bs => stakeOf status bs) _ := rfl
  have hright : stakeTotal status bonds = Table.total (fun _ bs => stakeOf status bs) _ := rfl
  rw [hleft, hright]
  omega

namespace Ledger

/-- The bonds after the rewards in the record. -/
structure Paid (bonds : Bonds) (record : List (BondKey × ℕ)) (bonds' : Bonds) : Prop where
  nodup : (record.map Prod.fst).Nodup
  paid : ∀ kr ∈ record, ∃ bond status amount, bonds[kr.1]? = some (bond, status) ∧
    bonds'[kr.1]? = some ({ bond with amount }, status) ∧ amount.zatoshis = bond.amount.zatoshis + kr.2
  frame : ∀ k, k ∉ record.map Prod.fst → bonds'[k]? = bonds[k]?

variable {bonds bonds₁ bonds' : Bonds} {record : List (BondKey × ℕ)} {key : BondKey} {reward : ℕ}

theorem Paid.refl (bonds : Bonds) : Paid bonds [] bonds := ⟨nodup_nil, by simp, fun _ _ => rfl⟩

theorem Paid.eq (h : Paid bonds [] bonds') : bonds' = bonds :=
  ExtTreeMap.ext_getElem? fun k => h.frame k not_mem_nil

theorem new_asI64 (h : Amount.new (asI64 reward) = .ok a) (hlt : reward < 2 ^ 64) :
    a.zatoshis = reward := by
  have hz := new_eq_ok.mp h
  have hlow := a.zatoshis_nonneg
  unfold asI64 at hz
  split_ifs at hz <;> omega

theorem payReward_eq_ok (h : payReward bonds key reward = .ok bonds') (hlt : reward < 2 ^ 64) :
    ∃ bond status amount, bonds[key]? = some (bond, status) ∧
      amount.zatoshis = bond.amount.zatoshis + (reward : ℤ) ∧
      bonds' = bonds.insert key ({ bond with amount }, status) := by
  unfold payReward at h
  obtain ⟨⟨bond, status⟩, hbond, h⟩ := bind_eq_ok.mp h
  obtain ⟨a, ha, h⟩ := bind_eq_ok.mp h
  obtain ⟨amount, hamount, h⟩ := bind_eq_ok.mp h
  obtain rfl := pure_eq_ok.mp h
  refine ⟨bond, status, amount, unwrap_eq_ok.mp hbond, ?_, rfl⟩
  rw [add_eq_ok.mp (mapError_eq_ok.mp hamount), new_asI64 ha hlt]

theorem Paid.snoc (h : Paid bonds record bonds₁) (hkey : key ∉ record.map Prod.fst)
    (hpay : payReward bonds₁ key reward = .ok bonds') (hlt : reward < 2 ^ 64) :
    Paid bonds (record ++ [(key, reward)]) bonds' := by
  obtain ⟨bond, status, amount, hbond, hamount, rfl⟩ := payReward_eq_ok hpay hlt
  refine ⟨?_, ?_, ?_⟩
  · rw [map_append, nodup_append']
    refine ⟨h.nodup, by simp, ?_⟩
    intro k hk hk'
    have : k = key := by simpa using hk'
    exact hkey (this ▸ hk)
  · intro kr hkr
    rcases mem_append.mp hkr with hmem | hmem
    · obtain ⟨b, s, a, hb, hb', ha⟩ := h.paid kr hmem
      have hne : key ≠ kr.1 := by
        intro heq
        exact hkey (heq ▸ mem_map_of_mem hmem)
      refine ⟨b, s, a, hb, ?_, ha⟩
      simpa [ExtTreeMap.getElem?_insert, hne] using hb'
    · obtain rfl : kr = (key, reward) := by simpa using hmem
      refine ⟨bond, status, amount, ?_, by simp, hamount⟩
      rw [← h.frame key hkey, hbond]
  · intro k hk
    rw [map_append, mem_append, not_or] at hk
    have hne : key ≠ k := by
      intro heq
      exact hk.2 (by simp [heq])
    rw [← h.frame k hk.1]
    simp [ExtTreeMap.getElem?_insert, hne]

theorem Paid.uncons (h : Paid bonds (kr :: record) bonds') :
    ∃ bond status amount, bonds[kr.1]? = some (bond, status) ∧ bonds'[kr.1]? = some ({ bond with amount }, status) ∧
      amount.zatoshis = bond.amount.zatoshis + kr.2 ∧ Paid bonds record (bonds'.insert kr.1 (bond, status)) := by
  obtain ⟨bond, status, amount, hbond, hbond', hamount⟩ := h.paid kr mem_cons_self
  have hnodup := nodup_cons.mp h.nodup
  refine ⟨bond, status, amount, hbond, hbond', hamount, hnodup.2, ?_, ?_⟩
  · intro kr' hkr'
    have hne : kr.1 ≠ kr'.1 := by
      intro heq
      exact hnodup.1 (heq ▸ mem_map_of_mem hkr')
    obtain ⟨b, s, a, hb, hb', ha⟩ := h.paid kr' (mem_cons_of_mem _ hkr')
    refine ⟨b, s, a, hb, ?_, ha⟩
    simpa [ExtTreeMap.getElem?_insert, hne] using hb'
  · intro k hk
    by_cases heq : kr.1 = k
    · subst heq
      rw [ExtTreeMap.getElem?_insert_self, hbond]
    · rw [← h.frame k (by simpa [Ne.symm heq] using hk)]
      simp [ExtTreeMap.getElem?_insert, heq]

theorem Paid.lookup (h : Paid bonds record bonds') (k : BondKey) :
    bonds[k]? = none ∧ bonds'[k]? = none ∨ ∃ bond status amount,
      bonds[k]? = some (bond, status) ∧ bonds'[k]? = some ({ bond with amount }, status) := by
  by_cases hk : k ∈ record.map Prod.fst
  · obtain ⟨kr, hkr, rfl⟩ := mem_map.mp hk
    obtain ⟨bond, status, amount, hbond, hbond', -⟩ := h.paid kr hkr
    exact .inr ⟨bond, status, amount, hbond, hbond'⟩
  · rw [h.frame k hk]
    cases hbs : bonds[k]? with
    | none => exact .inl ⟨rfl, rfl⟩
    | some bs => exact .inr ⟨bs.1, bs.2, bs.1.amount, rfl, rfl⟩

theorem Paid.stakeTotal_eq (h : Paid bonds record bonds')
    (hactive : ∀ kr ∈ record, ∃ bond, bonds[kr.1]? = some (bond, .active)) (status : BondStatusInChain) :
    stakeTotal status bonds' =
      stakeTotal status bonds + if status = .active then ((record.map Prod.snd).sum : ℤ) else 0 := by
  induction record generalizing bonds' with
  | nil => simp [h.eq]
  | cons kr record ih =>
    obtain ⟨bond, st, amount, hbond, hbond', hamount, hpaid⟩ := h.uncons
    obtain ⟨_, hst⟩ := hactive kr mem_cons_self
    rw [hbond] at hst
    obtain rfl : st = .active := congrArg Prod.snd (Option.some.inj hst)
    have hrest := ih hpaid fun kr' hkr' => hactive kr' (mem_cons_of_mem _ hkr')
    rw [stakeTotal_insert_old hbond'] at hrest
    unfold stakeOf at hrest
    rw [map_cons, sum_cons]
    by_cases hs : status = .active
    · subst hs
      simp only [if_true] at hrest ⊢
      omega
    · simp only [hs, Ne.symm hs, if_false] at hrest ⊢
      omega

/-! ### The active bonds -/

theorem mem_activeBonds :
    (k, bond) ∈ activeBonds bonds ↔ bonds[k]? = some (bond, .active) := by
  unfold activeBonds
  rw [mem_filterMap, ← ExtTreeMap.mem_toList_iff_getElem?_eq_some]
  constructor
  · rintro ⟨⟨k', b, s⟩, hmem, hsome⟩
    split_ifs at hsome with hs
    obtain ⟨rfl, rfl⟩ := Prod.mk.inj (Option.some.inj hsome)
    obtain rfl : s = .active := hs
    exact hmem
  · intro hmem
    exact ⟨(k, bond, .active), hmem, by simp⟩

theorem stakeTotal_active (bonds : Bonds) :
    stakeTotal .active bonds = ((activeBonds bonds).map fun kb => kb.2.amount.zatoshis).sum := by
  unfold stakeTotal Table.total activeBonds
  induction bonds.toList with
  | nil => rfl
  | cons kb rest ih =>
    rw [map_cons, sum_cons, ih, filterMap_cons]
    by_cases hs : kb.2.2 = .active <;> simp [hs]

theorem activeBonds_nodup (bonds : Bonds) : ((activeBonds bonds).map Prod.fst).Nodup := by
  unfold activeBonds List.Nodup
  rw [pairwise_map, pairwise_filterMap]
  refine bonds.distinct_keys_toList.imp ?_
  intro a b hab x hx y hy heq
  split_ifs at hx hy
  obtain rfl := Option.some.inj hx
  obtain rfl := Option.some.inj hy
  exact hab (compare_eq_iff_eq.mpr heq)

theorem biggerBond_cases (best other : BondKey × DelegationBond) :
    biggerBond best other = other ∨ biggerBond best other = best := by
  unfold biggerBond
  split_ifs <;> simp

theorem foldl_biggerBond_mem (first : BondKey × DelegationBond) (others : List (BondKey × DelegationBond)) :
    others.foldl biggerBond first ∈ first :: others := by
  induction others generalizing first with
  | nil => simp
  | cons other others ih =>
    rw [foldl_cons]
    have hmem := ih (biggerBond first other)
    rcases biggerBond_cases first other with h | h <;> rw [h] at hmem ⊢ <;>
      rcases mem_cons.mp hmem with h' | h' <;> simp [h']

/-! ### Paying -/

def share (totalStaked : ℕ) (kb : BondKey × DelegationBond) : BondKey × ℕ :=
  (kb.1, kb.2.amount.zatoshis.toNat * bondRewardTotal / totalStaked % 2 ^ 64)

/-- The bonds, the sum and the record after some turns; the sum is exact as long as it fits. -/
structure TurnsDone (bonds : Bonds) (totalStaked : ℕ) (turns : List (BondKey × DelegationBond))
    (s : Bonds × ℕ × List (BondKey × ℕ)) : Prop where
  paid : Paid bonds s.2.2 s.1
  record : s.2.2 = turns.map (share totalStaked)
  sum : s.2.1 = (s.2.2.map Prod.snd).sum % 2 ^ 64

theorem map_fst_share (turns : List (BondKey × DelegationBond)) :
    (turns.map (share totalStaked)).map Prod.fst = turns.map Prod.fst := by
  rw [map_map]
  rfl

theorem rewardTurns (hnodup : (turns.map Prod.fst).Nodup)
    (h : turns.foldlM (rewardTurn checks totalStaked) (bonds, 0, []) = .ok s) :
    TurnsDone bonds totalStaked turns s := by
  induction turns using List.reverseRecOn generalizing s with
  | nil =>
    obtain rfl := foldlM_nil_eq_ok.mp h
    exact ⟨Paid.refl bonds, rfl, rfl⟩
  | append_singleton turns kb ih =>
    obtain ⟨s₁, h₁, h₂⟩ := foldlM_append_eq_ok.mp h
    obtain ⟨s₂, hturn, h₃⟩ := foldlM_cons_eq_ok.mp h₂
    obtain rfl := foldlM_nil_eq_ok.mp h₃
    rw [map_append, nodup_append'] at hnodup
    have hdone := ih hnodup.1 h₁
    unfold rewardTurn at hturn
    split_ifs at hturn with htotal
    dsimp only at hturn
    obtain ⟨soFar, hsoFar, hturn⟩ := bind_eq_ok.mp hturn
    obtain ⟨bonds', hpay, hturn⟩ := bind_eq_ok.mp hturn
    obtain rfl := pure_eq_ok.mp hturn
    have hkey : kb.1 ∉ s₁.2.2.map Prod.fst := by
      intro hmem
      rw [hdone.record, map_fst_share] at hmem
      exact hnodup.2.2 hmem (by simp)
    refine ⟨hdone.paid.snoc hkey hpay (Nat.mod_lt _ (by decide)), by simp [hdone.record, share], ?_⟩
    dsimp only
    rw [addU_mod hsoFar, hdone.sum, map_append, sum_append, map_singleton, sum_singleton,
      Nat.mod_add_mod]

def staked (turns : List (BondKey × DelegationBond)) : ℕ := (turns.map fun kb => kb.2.amount.zatoshis.toNat).sum

theorem staked_cons (kb : BondKey × DelegationBond) (turns : List (BondKey × DelegationBond)) :
    staked (kb :: turns) = kb.2.amount.zatoshis.toNat + staked turns := rfl

theorem staked_activeBonds (bonds : Bonds) : (staked (activeBonds bonds) : ℤ) = stakeTotal .active bonds := by
  rw [stakeTotal_active, staked]
  induction activeBonds bonds with
  | nil => rfl
  | cons kb rest ih =>
    have hnonneg := kb.2.amount.zatoshis_nonneg
    simp only [map_cons, sum_cons, Nat.cast_add, ih]
    omega

theorem foldlM_addU
    (h : others.foldlM (fun sum kb => addU checks 64 sum kb.2.amount.zatoshis.toNat) start = .ok totalStaked)
    (hlt : start + staked others < 2 ^ 64) : totalStaked = start + staked others := by
  induction others generalizing start with
  | nil => exact (foldlM_nil_eq_ok.mp h).symm
  | cons kb others ih =>
    obtain ⟨next, hnext, h⟩ := foldlM_cons_eq_ok.mp h
    rw [staked_cons] at hlt ⊢
    have hadd := addU_mod hnext
    rw [Nat.mod_eq_of_lt (by omega)] at hadd
    rw [ih h (by omega)]
    omega

theorem shares_sum_le (totalStaked : ℕ) (turns : List (BondKey × DelegationBond)) :
    ((turns.map (share totalStaked)).map Prod.snd).sum ≤ staked turns * bondRewardTotal / totalStaked := by
  induction turns with
  | nil => exact Nat.zero_le _
  | cons kb turns ih =>
    rw [map_cons, map_cons, sum_cons, staked_cons, add_mul]
    refine le_trans (add_le_add ?_ ih) Nat.div_add_div_le_add_div
    exact Nat.mod_le _ _

theorem staked_filter_le (p : BondKey × DelegationBond → Bool) (turns : List (BondKey × DelegationBond)) :
    staked (turns.filter p) ≤ staked turns :=
  (filter_sublist.map _).sum_le_sum fun _ _ => Nat.zero_le _

/-- What paying the reward of a block does. -/
structure Rewarded (l : Ledger) (record : List (BondKey × ℕ)) (l' : Ledger) : Prop where
  paid : Paid l.delegationBonds record l'.delegationBonds
  active : ∀ kr ∈ record, ∃ bond, l.delegationBonds[kr.1]? = some (bond, .active)
  pool : (l'.chainValuePools .stakingBonded).zatoshis =
    (l.chainValuePools .stakingBonded).zatoshis + if record = [] then 0 else (bondRewardTotal : ℤ)
  pools : ∀ p, p ≠ .stakingBonded → l'.chainValuePools p = l.chainValuePools p
  rewards : l'.bondRewards = record :: l.bondRewards
  retargets : l'.bondRetargets = l.bondRetargets
  info : l'.blockInfoByHeight = l.blockInfoByHeight
  lt : ∀ kr ∈ record, kr.2 < 2 ^ 64
  sum : stakeTotal .active l.delegationBonds < 2 ^ 64 →
    (record.map Prod.snd).sum = if record = [] then 0 else bondRewardTotal
  nonempty : record = [] ↔ activeBonds l.delegationBonds = []

theorem subU_eq_ok (h : subU checks 64 x y = .ok z) (hx : x < 2 ^ 64) (hy : y < 2 ^ 64) :
    z < 2 ^ 64 ∧ (y + z) % 2 ^ 64 = x := by
  unfold subU at h
  split_ifs at h with hle
  · obtain rfl := Except.ok.inj h
    omega
  · obtain rfl := Except.ok.inj h
    omega

variable {checks : Bool} {l l' : Ledger}

theorem payBlockReward_eq_ok (h : l.payBlockReward checks = .ok l') : ∃ record, Rewarded l record l' := by
  unfold payBlockReward at h
  split at h
  next hactive =>
    obtain rfl := pure_eq_ok.mp h
    exact ⟨[], Paid.refl _, by simp, by simp, fun _ _ => rfl, rfl, rfl, rfl, by simp, by simp, by simp [hactive]⟩
  next first others hactive =>
    obtain ⟨totalStaked, hstaked, h⟩ := bind_eq_ok.mp h
    dsimp only at h
    obtain ⟨⟨bonds, soFar, record⟩, hturns, h⟩ := bind_eq_ok.mp h
    obtain ⟨reward, hreward, h⟩ := bind_eq_ok.mp h
    obtain ⟨bonds', hpay, h⟩ := bind_eq_ok.mp h
    obtain ⟨total, htotal, h⟩ := bind_eq_ok.mp h
    obtain ⟨bonded, hbonded, h⟩ := bind_eq_ok.mp h
    obtain rfl := pure_eq_ok.mp h
    have hnodup : (((first :: others).filter fun kb => kb.1 ≠ (others.foldl biggerBond first).1).map Prod.fst).Nodup :=
      ((filter_sublist).map _).nodup (hactive ▸ activeBonds_nodup l.delegationBonds)
    have hdone := rewardTurns hnodup hturns
    have hrecord : record = _ := hdone.record
    have hkey : (others.foldl biggerBond first).1 ∉ record.map Prod.fst := by
      intro hmem
      rw [hrecord, map_fst_share, mem_map] at hmem
      obtain ⟨kb, hkb, heq⟩ := hmem
      exact absurd heq (by simpa using (mem_filter.mp hkb).2)
    have hlt := subU_eq_ok hreward (by decide) (hdone.sum ▸ Nat.mod_lt _ (by decide))
    refine ⟨record ++ [((others.foldl biggerBond first).1, reward)], hdone.paid.snoc hkey hpay hlt.1, ?_, ?_, ?_,
      rfl, rfl, rfl, ?_, ?_, by simp [hactive]⟩
    · intro kr hkr
      have hmem : kr.1 ∈ (first :: others).map Prod.fst := by
        rcases mem_append.mp hkr with hkr | hkr
        · rw [hrecord] at hkr
          obtain ⟨kb, hkb, rfl⟩ := mem_map.mp hkr
          exact mem_map_of_mem (mem_of_mem_filter hkb)
        · obtain rfl := mem_singleton.mp hkr
          exact mem_map_of_mem (foldl_biggerBond_mem first others)
      obtain ⟨⟨k, bond⟩, hkb, rfl⟩ := mem_map.mp hmem
      exact ⟨bond, mem_activeBonds.mp (hactive ▸ hkb)⟩
    · have hz : (setAmount l.chainValuePools .stakingBonded bonded .stakingBonded).zatoshis =
          bonded.zatoshis := by rw [setAmount, Function.update_self]
      dsimp only
      rw [hz, add_eq_ok.mp (mapError_eq_ok.mp hbonded), new_eq_ok.mp htotal]
      simp
    · intro p hp
      exact Function.update_of_ne hp _ _
    · intro kr hkr
      rcases mem_append.mp hkr with hkr | hkr
      · rw [hrecord] at hkr
        obtain ⟨kb, -, rfl⟩ := mem_map.mp hkr
        exact Nat.mod_lt _ (by decide)
      · obtain rfl := mem_singleton.mp hkr
        exact hlt.1
    · intro htotal64
      have hall : (staked (first :: others) : ℤ) = stakeTotal .active l.delegationBonds :=
        hactive ▸ staked_activeBonds l.delegationBonds
      rw [staked_cons] at hall
      have hexact : totalStaked = staked (first :: others) := by
        refine foldlM_addU hstaked ?_
        show first.2.amount.zatoshis.toNat + staked others < 2 ^ 64
        omega
      have hle : (record.map Prod.snd).sum ≤ bondRewardTotal := by
        rw [hrecord]
        refine (shares_sum_le totalStaked _).trans (Nat.div_le_of_le_mul ?_)
        rw [hexact]
        exact Nat.mul_le_mul_right _ (staked_filter_le _ _)
      have hsum : soFar = (record.map Prod.snd).sum % 2 ^ 64 := hdone.sum
      obtain ⟨hreward64, hmod⟩ : reward < 2 ^ 64 ∧ (soFar + reward) % 2 ^ 64 = bondRewardTotal := hlt
      have hbound : bondRewardTotal = 500000000 := rfl
      simp only [map_append, sum_append, map_singleton, sum_singleton, append_eq_nil_iff,
        cons_ne_self, and_false, if_false]
      omega

/-! ### Taking rewards back -/

theorem revertReward_eq_ok {kr : BondKey × ℕ} {bond : DelegationBond} {status : BondStatusInChain}
    {amount pool : Amount .nonNegative} (hbond : l.delegationBonds[kr.1]? = some ({ bond with amount }, status))
    (hamount : amount.zatoshis = bond.amount.zatoshis + kr.2)
    (hpool : (l.chainValuePools .stakingBonded).zatoshis = pool.zatoshis + kr.2) :
    revertReward l kr = .ok { l with
      delegationBonds := l.delegationBonds.insert kr.1 (bond, status)
      chainValuePools := l.chainValuePools.setAmount .stakingBonded pool } := by
  have hle : (kr.2 : ℤ) ≤ maxMoney := by
    have hmax := amount.le_max
    have hnonneg := bond.amount.zatoshis_nonneg
    omega
  have hreward : tryFrom (asI64 kr.2) =
      .ok (⟨kr.2, Int.natCast_nonneg _, hle⟩ : Amount .nonNegative) := by
    rw [tryFrom_eq_ok, asI64_of_le hle]
  have hback : amount.sub ⟨kr.2, Int.natCast_nonneg _, hle⟩ = .ok bond.amount :=
    sub_eq_ok.mpr (by rw [hamount]; simp)
  have hpoolBack : (l.chainValuePools .stakingBonded).sub ⟨kr.2, Int.natCast_nonneg _, hle⟩ = .ok pool :=
    sub_eq_ok.mpr (by rw [hpool]; simp)
  unfold revertReward
  simp [hbond, unwrap, hreward, hback, hpoolBack]

theorem Paid.revert (h : Paid bonds record l.delegationBonds)
    (hpool : (l.chainValuePools .stakingBonded).zatoshis = pool.zatoshis + (record.map Prod.snd).sum) :
    record.foldlM revertReward l = .ok { l with
      delegationBonds := bonds
      chainValuePools := l.chainValuePools.setAmount .stakingBonded pool } := by
  induction record generalizing l with
  | nil =>
    have hsame : l.chainValuePools .stakingBonded = pool := Amount.ext (by simpa using hpool)
    rw [foldlM_nil_eq_ok, ← h.eq, ← hsame, ValueBalance.setAmount, Function.update_eq_self]
  | cons kr record ih =>
    obtain ⟨bond, status, amount, -, hbond, hamount, hpaid⟩ := h.uncons
    rw [map_cons, sum_cons] at hpool
    have hrest : 0 ≤ ((record.map Prod.snd).sum : ℤ) := Int.natCast_nonneg _
    have hnonneg := pool.zatoshis_nonneg
    have hmax := (l.chainValuePools .stakingBonded).le_max
    let between : Amount .nonNegative := ⟨pool.zatoshis + (record.map Prod.snd).sum, by
      simp only [Constraint.low]; omega, by omega⟩
    have hbetween : (l.chainValuePools .stakingBonded).zatoshis = between.zatoshis + kr.2 := by
      simp only [between]
      omega
    rw [foldlM_cons, revertReward_eq_ok hbond hamount hbetween, ok_bind, ih hpaid (by simp [between, setAmount])]
    simp [setAmount]

theorem Rewarded.revert (h : Rewarded l record l') (hlt : stakeTotal .active l.delegationBonds < 2 ^ 64) :
    l'.revertRewards = .ok l := by
  have hpool : (l'.chainValuePools .stakingBonded).zatoshis =
      (l.chainValuePools .stakingBonded).zatoshis + (record.map Prod.snd).sum := by
    rw [h.pool, h.sum hlt]
    split_ifs <;> simp
  have hfold := Paid.revert (l := { l' with bondRewards := l.bondRewards }) h.paid hpool
  have hpools : l'.chainValuePools.setAmount .stakingBonded (l.chainValuePools .stakingBonded) = l.chainValuePools := by
    funext p
    by_cases hp : p = .stakingBonded
    · rw [hp, setAmount, Function.update_self]
    · rw [setAmount, Function.update_of_ne hp, h.pools p hp]
  unfold revertRewards
  rw [h.rewards]
  simp only [head?_cons, unwrap, ok_bind, tail_cons, hfold, hpools, Except.ok.injEq]
  exact Ledger.ext rfl rfl h.retargets rfl h.info

end Ledger

end Crosslink.Staking

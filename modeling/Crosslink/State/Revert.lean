import Crosslink.State.Pools

/-!
# Taking a block off a chain

What `push` and `popTip` do to each other, part by part. The tables only get new keys from a block, and these are
removed again in the same order. The ledger gets its rewards, the old targets and the new bonds taken back, and the
pool change is subtracted. What a revert never restores is the location of a bond's last action.
-/

namespace Crosslink.State

open Codec Fallible Staking List Chain
open Std (ExtTreeMap)

/-! ### Tables -/

/-- The tables `i'` are the tables `i` with the keys of some transactions of a block, oldest first. -/
structure Indexed (b : ContextuallyVerifiedBlock) (txs : List ((TxHash × Transaction) × ℕ)) (i i' : ChainIndex) :
    Prop where
  txLoc : Table.Extends i.txLocByHash (txs.map fun t => t.1.1) i'.txLocByHash
  created : Table.Extends i.createdUtxos
    (txs.flatMap fun t => (Block.createdBy b.height t.2 t.1.1 t.1.2).map Prod.fst) i'.createdUtxos
  spent : Table.Extends i.spentUtxos (txs.flatMap fun t => Chain.spends t.1.2) i'.spentUtxos
  sprout : Table.Extends i.sproutNullifiers (txs.flatMap fun t => t.1.2.sproutNullifiers) i'.sproutNullifiers
  sapling : Table.Extends i.saplingNullifiers (txs.flatMap fun t => t.1.2.saplingNullifiers) i'.saplingNullifiers
  orchard : Table.Extends i.orchardNullifiers (txs.flatMap fun t => t.1.2.orchardNullifiers) i'.orchardNullifiers
  heights : i'.heightByHash = i.heightByHash
  provided : ∀ t ∈ txs, ∀ o ∈ Chain.spends t.1.2, b.spent o ≠ none

variable {b : ContextuallyVerifiedBlock} {txs : List ((TxHash × Transaction) × ℕ)} {i : ChainIndex} {c c' : Chain}

theorem Indexed.refl (b : ContextuallyVerifiedBlock) (i : ChainIndex) : Indexed b [] i i :=
  ⟨.refl _, .refl _, .refl _, .refl _, .refl _, .refl _, rfl, by simp⟩

theorem Indexed.eq (h : Indexed b [] i i') : i' = i :=
  ChainIndex.ext h.heights h.txLoc.eq h.created.eq h.spent.eq h.sprout.eq h.sapling.eq h.orchard.eq

theorem Indexed.snoc (h : Indexed b txs i c.toChainIndex) (hadd : TxAdded b c t c') :
    Indexed b (txs ++ [t]) i c'.toChainIndex where
  txLoc := by simpa using h.txLoc.trans hadd.txLoc
  created := by simpa using h.created.trans hadd.created
  spent := by simpa using h.spent.trans hadd.spent
  sprout := by simpa using h.sprout.trans hadd.sprout
  sapling := by simpa using h.sapling.trans hadd.sapling
  orchard := by simpa using h.orchard.trans hadd.orchard
  heights := hadd.heights.trans h.heights
  provided t' ht' := by
    rcases mem_append.mp ht' with ht' | ht'
    · exact h.provided t' ht'
    · obtain rfl := mem_singleton.mp ht'
      exact hadd.provided

theorem updateTxs (h : txs.foldlM (Chain.updateTx b) c = .ok c') :
    Indexed b txs c.toChainIndex c'.toChainIndex ∧ c'.blocks = c.blocks ∧
      c'.partialCumulativeWork = c.partialCumulativeWork := by
  refine foldlM_induction (R := fun pre c' => Indexed b pre c.toChainIndex c'.toChainIndex ∧ c'.blocks = c.blocks ∧
    c'.partialCumulativeWork = c.partialCumulativeWork) h ⟨.refl b _, rfl, rfl⟩ ?_
  rintro pre t c₁ c₂ ⟨hindexed, hblocks, hwork⟩ hstep
  have hadd := updateTx_eq_ok hstep
  exact ⟨hindexed.snoc hadd, hadd.blocks.trans hblocks, hadd.work.trans hwork⟩

/-- What pushing a block does. -/
structure Pushed (checks : Bool) (c : Chain) (b : ContextuallyVerifiedBlock) (c' : Chain) : Prop where
  fresh : c.heightByHash b.hash = none
  heights : c'.heightByHash = Function.update c.heightByHash b.hash (some b.height)
  indexed : Indexed b b.transactions.zipIdx c.toChainIndex { c'.toChainIndex with heightByHash := c.heightByHash }
  blocks : c'.blocks = c.blocks ++ [b]
  work : c'.partialCumulativeWork = c.partialCumulativeWork + b.work
  ledger : ∃ l, actAll b.height (openLedger c.toLedger) b.actions = .ok l ∧ Chain.closeLedger checks l b = .ok c'.toLedger

theorem Pushed.extends (h : Pushed checks c b c') :
    Table.Extends c.heightByHash [b.hash] c'.heightByHash := by
  rw [h.heights]
  exact ⟨nodup_singleton _, by simpa using h.fresh, by simp, fun k hk =>
    Function.update_of_ne (by simpa using hk) _ _⟩

theorem push_eq_ok (h : c.push checks b = .ok c') : Pushed checks c b c' := by
  unfold push at h
  obtain ⟨opened, hopen, h⟩ := bind_eq_ok.mp h
  obtain ⟨filled, hfill, h⟩ := bind_eq_ok.mp h
  obtain ⟨ledger, hclose, h⟩ := bind_eq_ok.mp h
  obtain rfl := pure_eq_ok.mp h
  obtain ⟨heights, hinsert, rfl⟩ := openBlock_eq_ok hopen
  unfold Table.insertNew at hinsert
  split_ifs at hinsert with hfresh
  obtain rfl := Except.ok.inj hinsert
  obtain ⟨hindexed, hblocks, hwork⟩ := updateTxs hfill
  refine ⟨hfresh, hindexed.heights, ?_, congrArg (· ++ [b]) hblocks, hwork, filled.toLedger, ?_, hclose⟩
  · exact ⟨hindexed.txLoc, hindexed.created, hindexed.spent, hindexed.sprout, hindexed.sapling, hindexed.orchard, rfl,
      hindexed.provided⟩
  · rw [Block.actions, ← foldlM_actOn]
    exact foldlM_project (π := toLedger) (fun _ _ _ hstep => (updateTx_eq_ok hstep).act) hfill

theorem Indexed.revert (h : Indexed b txs i c.toChainIndex)
    (hl : txs.foldlM (fun l t => Chain.unspend l t.1.2 position) c.toLedger = .ok l) :
    txs.foldlM (Chain.revertTx b position) c = .ok { c with toLedger := l, toChainIndex := i } := by
  induction txs generalizing c with
  | nil =>
    obtain rfl := foldlM_nil_eq_ok.mp hl
    rw [foldlM_nil_eq_ok, ← h.eq]
  | cons t txs ih =>
    obtain ⟨l₁, hl₁, hl⟩ := foldlM_cons_eq_ok.mp hl
    have htx := h.txLoc
    have hcreated := h.created
    have hspent := h.spent
    have hsprout := h.sprout
    have hsapling := h.sapling
    have horchard := h.orchard
    rw [map_cons] at htx
    rw [flatMap_cons] at hcreated hspent hsprout hsapling horchard
    obtain ⟨created, hc₁, hcreated⟩ := hcreated.removeAll Panic.assert
    obtain ⟨spent, hc₂, hspent⟩ := hspent.removeAll Panic.assert
    obtain ⟨txLoc, hc₃, htx⟩ := htx.removeOld Panic.assert
    obtain ⟨sprout, hc₄, hsprout⟩ := hsprout.removeAll Panic.assert
    obtain ⟨sapling, hc₅, hsapling⟩ := hsapling.removeAll Panic.assert
    obtain ⟨orchard, hc₆, horchard⟩ := horchard.removeAll Panic.assert
    have hprovided := h.provided t mem_cons_self
    let c₁ : Chain := { c with
      toLedger := l₁
      txLocByHash := txLoc, createdUtxos := created, spentUtxos := spent, sproutNullifiers := sprout,
      saplingNullifiers := sapling, orchardNullifiers := orchard }
    refine foldlM_cons_eq_ok.mpr ⟨c₁, ?_, ?_⟩
    · unfold revertTx
      simp only [hc₁, hc₂, hc₃, hc₄, hc₅, hc₆, hl₁, ensure_ok hprovided, ok_bind, pure_eq_ok, c₁]
    · exact ih (c := c₁) ⟨htx, hcreated, hspent, hsprout, hsapling, horchard, h.heights,
        fun t' ht' => h.provided t' (mem_cons_of_mem t ht')⟩ hl

/-! ### Retargets -/

def withTarget (target : Bytes 32) (bs : DelegationBond × BondStatusInChain) : DelegationBond × BondStatusInChain :=
  ({ bs.1 with targetFinalizer := target }, bs.2)

theorem revertRetarget_fold {kts : List (BondKey × Bytes 32)} (hnodup : (kts.map Prod.fst).Nodup)
    (hbonds : ∀ kt ∈ kts, l.delegationBonds[kt.1]? ≠ none) :
    ∃ bonds : Bonds, kts.foldlM Ledger.revertRetarget l = .ok { l with delegationBonds := bonds } ∧
      (∀ kt ∈ kts, bonds[kt.1]? = l.delegationBonds[kt.1]?.map (withTarget kt.2)) ∧
      ∀ k, k ∉ kts.map Prod.fst → bonds[k]? = l.delegationBonds[k]? := by
  induction kts generalizing l with
  | nil => exact ⟨l.delegationBonds, rfl, by simp, fun _ _ => rfl⟩
  | cons kt kts ih =>
    rw [map_cons, nodup_cons] at hnodup
    obtain ⟨bs, hbs⟩ := Option.ne_none_iff_exists'.mp (hbonds kt mem_cons_self)
    let l₁ : Ledger := { l with delegationBonds := l.delegationBonds.insert kt.1 (withTarget kt.2 bs) }
    have hstep : l.revertRetarget kt = .ok l₁ := by
      unfold Ledger.revertRetarget
      simp [hbs, unwrap, l₁, withTarget]
    have hother : ∀ k, kt.1 ≠ k → l₁.delegationBonds[k]? = l.delegationBonds[k]? := by
      intro k hk
      simp [l₁, ExtTreeMap.getElem?_insert, hk]
    have hne : ∀ kt' ∈ kts, kt.1 ≠ kt'.1 := by
      intro kt' hkt' heq
      exact hnodup.1 (heq ▸ mem_map_of_mem hkt')
    obtain ⟨bonds, hfold, htargets, hframe⟩ := ih (l := l₁) hnodup.2 fun kt' hkt' => by
      rw [hother _ (hne kt' hkt')]
      exact hbonds kt' (mem_cons_of_mem kt hkt')
    refine ⟨bonds, foldlM_cons_eq_ok.mpr ⟨l₁, hstep, hfold⟩, ?_, ?_⟩
    · intro kt' hkt'
      rcases mem_cons.mp hkt' with rfl | hkt'
      · rw [hframe _ hnodup.1, hbs]
        simp [l₁]
      · rw [htargets kt' hkt', hother _ (hne kt' hkt')]
    · intro k hk
      rw [map_cons, mem_cons, not_or] at hk
      rw [hframe k hk.2, hother k (Ne.symm hk.1)]

theorem revertRetargets_eq_ok {l : Ledger} (hhead : l.bondRetargets = retargets :: rest)
    (hbonds : ∀ k : BondKey, retargets[k]? ≠ none → l.delegationBonds[k]? ≠ none) :
    ∃ bonds : Bonds, l.revertRetargets = .ok { l with delegationBonds := bonds, bondRetargets := rest } ∧
      ∀ k : BondKey, bonds[k]? = l.delegationBonds[k]?.map fun bs =>
        withTarget (retargets[k]?.getD bs.1.targetFinalizer) bs := by
  have hmem : ∀ kt : BondKey × Bytes 32, kt ∈ retargets.toList ↔ retargets[kt.1]? = some kt.2 := fun kt =>
    ExtTreeMap.mem_toList_iff_getElem?_eq_some
  have hnodup : (retargets.toList.map Prod.fst).Nodup := by
    rw [List.Nodup, pairwise_map]
    refine retargets.distinct_keys_toList.imp ?_
    intro a b hab heq
    exact hab (compare_eq_iff_eq.mpr heq)
  obtain ⟨bonds, hfold, htargets, hframe⟩ := revertRetarget_fold (l := { l with bondRetargets := rest }) hnodup
    fun kt hkt => hbonds kt.1 (by simp [(hmem kt).mp hkt])
  refine ⟨bonds, ?_, ?_⟩
  · unfold Ledger.revertRetargets
    rw [hhead]
    exact hfold
  · intro k
    cases hk : retargets[k]? with
    | some target => exact htargets (k, target) ((hmem (k, target)).mpr hk)
    | none =>
      rw [hframe k ?_]
      · simp [withTarget]
      · intro hin
        obtain ⟨kt, hkt, rfl⟩ := mem_map.mp hin
        rw [(hmem kt).mp hkt] at hk
        cases hk

/-! ### Actions -/

def revertAll (l : Ledger) (actions : List (StakingAction × ℕ)) : Except Panic Ledger :=
  actions.foldlM (fun l a => l.revertDelegationBond a.1) l

theorem foldlM_unspend (txs : List ((TxHash × Transaction) × ℕ)) (l : Ledger) :
    txs.foldlM (fun l t => Chain.unspend l t.1.2 .tip) l =
      revertAll l (txs.filterMap fun t => t.1.2.stakingAction.map (·, t.2)) := by
  rw [revertAll, foldlM_filterMap]
  congr 1
  funext l t
  unfold unspend
  cases t.1.2.stakingAction <;> rfl

def createdKeys (actions : List (StakingAction × ℕ)) : List BondKey :=
  (actions.filter fun a => a.1.kind = .createNewDelegationBond).map fun a => a.1.arg32_0

theorem createdKeys_append (pre post : List (StakingAction × ℕ)) :
    createdKeys (pre ++ post) = createdKeys pre ++ createdKeys post := by
  simp [createdKeys]

theorem createdKeys_create (h : x.1.kind = .createNewDelegationBond) :
    createdKeys [x] = [x.1.arg32_0] := by
  simp [createdKeys, h]

theorem createdKeys_other (h : x.1.kind ≠ .createNewDelegationBond) : createdKeys [x] = [] := by
  simp [createdKeys, h]

def NoExit (actions : List (StakingAction × ℕ)) : Prop := ∀ a ∈ actions, ¬ Exits a.1

instance (actions : List (StakingAction × ℕ)) : Decidable (NoExit actions) :=
  inferInstanceAs (Decidable (∀ _ ∈ _, _))

theorem revertAll_noExit (hexit : NoExit actions) (hnodup : (createdKeys actions).Nodup)
    (hbonds : ∀ k ∈ createdKeys actions, l.delegationBonds[k]? ≠ none) :
    ∃ bonds : Bonds, revertAll l actions = .ok { l with delegationBonds := bonds } ∧
      ∀ k, bonds[k]? = if k ∈ createdKeys actions then none else l.delegationBonds[k]? := by
  induction actions generalizing l with
  | nil => exact ⟨l.delegationBonds, rfl, by simp [createdKeys]⟩
  | cons a actions ih =>
    have hrest : NoExit actions := fun x hx => hexit x (mem_cons_of_mem a hx)
    have hhead := hexit a mem_cons_self
    rw [← singleton_append, createdKeys_append] at hnodup hbonds ⊢
    by_cases hk : a.1.kind = .createNewDelegationBond
    · rw [createdKeys_create hk] at hnodup hbonds ⊢
      rw [singleton_append, nodup_cons] at hnodup
      have hpresent := hbonds a.1.arg32_0 (by simp)
      let l₁ : Ledger := { l with delegationBonds := l.delegationBonds.erase a.1.arg32_0 }
      have hstep : l.revertDelegationBond a.1 = .ok l₁ := by
        unfold Ledger.revertDelegationBond
        simp only [hk, ensure_ok (Option.isSome_iff_ne_none.mpr hpresent), ok_bind, pure_eq_ok, l₁]
      have herase : ∀ k, l₁.delegationBonds[k]? = if a.1.arg32_0 = k then none else l.delegationBonds[k]? := by
        intro k
        simp [l₁, ExtTreeMap.getElem?_erase]
      obtain ⟨bonds, hfold, hlookup⟩ := ih (l := l₁) hrest hnodup.2 fun k hk' => by
        have hne : a.1.arg32_0 ≠ k := fun heq => hnodup.1 (heq ▸ hk')
        rw [herase, if_neg hne]
        exact hbonds k (by simp [hk'])
      refine ⟨bonds, foldlM_cons_eq_ok.mpr ⟨l₁, hstep, hfold⟩, ?_⟩
      intro k
      rw [hlookup, herase]
      by_cases hkey : k = a.1.arg32_0
      · simp [hkey]
      · simp [hkey, Ne.symm hkey]
    · have hstep : l.revertDelegationBond a.1 = .ok l := by
        unfold Ledger.revertDelegationBond
        unfold Exits at hhead
        split <;> simp_all [pure, Except.pure]
      rw [createdKeys_other hk] at hnodup hbonds ⊢
      obtain ⟨bonds, hfold, hlookup⟩ := ih (l := l) hrest hnodup hbonds
      exact ⟨bonds, foldlM_cons_eq_ok.mpr ⟨l, hstep, hfold⟩, hlookup⟩

/-- A block without unbondings and withdrawals up to some action: the old bonds differ in their targets, which the map
`retargets` restores, and the other bonds are those that were created. -/
structure Unmoved (start : Ledger) (pre : List (StakingAction × ℕ)) (retargets : ExtTreeMap BondKey (Bytes 32))
    (l : Ledger) : Prop where
  retargets_eq : l.bondRetargets = retargets :: start.bondRetargets
  old : ∀ (k : BondKey) bs, start.delegationBonds[k]? = some bs → ∃ target,
    l.delegationBonds[k]? = some (withTarget target bs) ∧ retargets[k]?.getD target = bs.1.targetFinalizer
  new : ∀ k : BondKey, start.delegationBonds[k]? = none → (l.delegationBonds[k]? ≠ none ↔ k ∈ createdKeys pre)
  known : ∀ k : BondKey, retargets[k]? ≠ none → l.delegationBonds[k]? ≠ none
  fresh : ∀ k ∈ createdKeys pre, start.delegationBonds[k]? = none
  nodup : (createdKeys pre).Nodup
  pools : l.chainValuePools = start.chainValuePools
  rewards : l.bondRewards = start.bondRewards
  info : l.blockInfoByHeight = start.blockInfoByHeight

theorem Unmoved.start (l : Ledger) : Unmoved l [] ∅ (openLedger l) where
  retargets_eq := rfl
  old k bs hbs := ⟨bs.1.targetFinalizer, hbs, by simp⟩
  new k hk := by simp [openLedger, hk, createdKeys]
  known k hk := by simp at hk
  fresh := by simp [createdKeys]
  nodup := by simp [createdKeys]
  pools := rfl
  rewards := rfl
  info := rfl

variable {start l l' : Ledger} {pre : List (StakingAction × ℕ)} {x : StakingAction × ℕ}
  {retargets : ExtTreeMap BondKey (Bytes 32)} {location : TransactionLocation}

theorem Unmoved.step (h : Unmoved start pre retargets l) (hexit : ¬ Exits x.1)
    (hmoves : Moves start.delegationBonds pre l x.1 location l') :
    ∃ retargets', Unmoved start (pre ++ [x]) retargets' l' := by
  cases hmoves with
  | create amount hk hamount hchain hnew =>
    have hcreated : createdKeys (pre ++ [x]) = createdKeys pre ++ [x.1.arg32_0] := by
      rw [createdKeys_append, createdKeys_create hk]
    have hnot : x.1.arg32_0 ∉ createdKeys pre := fun hmem => (h.new _ hchain).mpr hmem hnew
    refine ⟨retargets, h.retargets_eq, ?_, ?_, ?_, ?_, ?_, h.pools, h.rewards, h.info⟩
    · intro k bs hbs
      have hne : x.1.arg32_0 ≠ k := by
        intro heq
        rw [← heq, hchain] at hbs
        cases hbs
      simpa [ExtTreeMap.getElem?_insert, hne] using h.old k bs hbs
    · intro k hk'
      rw [hcreated, mem_append, ← h.new k hk', mem_singleton]
      by_cases hkey : k = x.1.arg32_0
      · simp [hkey]
      · simp [ExtTreeMap.getElem?_insert, hkey, Ne.symm hkey]
    · intro k hk'
      by_cases hkey : k = x.1.arg32_0
      · simp [hkey]
      · simpa [ExtTreeMap.getElem?_insert, Ne.symm hkey] using h.known k hk'
    · intro k hk'
      rw [hcreated, mem_append, mem_singleton] at hk'
      rcases hk' with hk' | rfl
      · exact h.fresh k hk'
      · exact hchain
    · rw [hcreated, nodup_append']
      exact ⟨h.nodup, by simp, by simpa using hnot⟩
  | unbond _ _ _ hk => exact absurd (.inl hk) hexit
  | withdraw _ _ hk => exact absurd (.inr hk) hexit
  | retarget bond status old hk hbond hstatus hchain hretargets =>
    have hcreated : createdKeys (pre ++ [x]) = createdKeys pre := by
      rw [createdKeys_append, createdKeys_other (by rw [hk]; nofun), append_nil]
    obtain rfl : retargets = old := by
      rw [h.retargets_eq] at hretargets
      exact Option.some.inj hretargets
    refine ⟨retargets.insertIfNew x.1.arg32_0 bond.targetFinalizer, by rw [h.retargets_eq, tail_cons], ?_, ?_, ?_,
      hcreated ▸ h.fresh, hcreated ▸ h.nodup, h.pools, h.rewards, h.info⟩
    · intro k bs hbs
      obtain ⟨target, hbs', htarget⟩ := h.old k bs hbs
      by_cases hkey : x.1.arg32_0 = k
      · -- the map keeps the first target, which is the one before the block
        subst hkey
        obtain ⟨rfl, rfl⟩ := Prod.mk.inj (Option.some.inj (hbond.symm.trans hbs'))
        refine ⟨x.1.arg32_2, ExtTreeMap.getElem?_insert_self, ?_⟩
        rw [ExtTreeMap.getElem?_insertIfNew]
        by_cases hmem : x.1.arg32_0 ∈ retargets
        · rw [if_neg (by simp [hmem])]
          obtain ⟨t, ht⟩ := Option.isSome_iff_exists.mp (ExtTreeMap.isSome_getElem?_iff_mem.mpr hmem)
          rw [ht] at htarget ⊢
          exact htarget
        · rw [if_pos ⟨compare_eq_iff_eq.mpr rfl, hmem⟩]
          rw [ExtTreeMap.getElem?_eq_none hmem] at htarget
          exact htarget
      · refine ⟨target, by simpa [ExtTreeMap.getElem?_insert, hkey] using hbs', ?_⟩
        simpa [ExtTreeMap.getElem?_insertIfNew, hkey] using htarget
    · intro k hk'
      rw [hcreated, ← h.new k hk']
      by_cases hkey : x.1.arg32_0 = k
      · simp [← hkey, hbond]
      · simp [ExtTreeMap.getElem?_insert, hkey]
    · intro k hk'
      by_cases hkey : x.1.arg32_0 = k
      · simp [hkey]
      · rw [ExtTreeMap.getElem?_insertIfNew, if_neg (by simp [hkey])] at hk'
        simpa [ExtTreeMap.getElem?_insert, hkey] using h.known k hk'
  | other hk =>
    have hcreated : createdKeys (pre ++ [x]) = createdKeys pre := by
      rw [createdKeys_append, createdKeys_other (by intro heq; rw [heq] at hk; cases hk), append_nil]
    refine ⟨retargets, h.retargets_eq, h.old, ?_, h.known, ?_, ?_, h.pools, h.rewards, h.info⟩
    · rw [hcreated]
      exact h.new
    · rw [hcreated]
      exact h.fresh
    · rw [hcreated]
      exact h.nodup

theorem Unmoved.revert (h : Unmoved start actions retargets l) (hexit : NoExit actions) {l₁ : Ledger}
    (hbonds : l₁.delegationBonds = l.delegationBonds) (hretargets : l₁.bondRetargets = l.bondRetargets) :
    ∃ l₂, l₁.revertRetargets = .ok l₂ ∧ revertAll l₂ actions = .ok { l₁ with
      delegationBonds := start.delegationBonds
      bondRetargets := start.bondRetargets } := by
  obtain ⟨bonds₂, h₂, hlookup₂⟩ := revertRetargets_eq_ok (l := l₁) (hretargets.trans h.retargets_eq)
    fun k hk => hbonds ▸ h.known k hk
  refine ⟨_, h₂, ?_⟩
  obtain ⟨bonds₃, h₃, hlookup₃⟩ := revertAll_noExit
    (l := { l₁ with delegationBonds := bonds₂, bondRetargets := start.bondRetargets }) hexit h.nodup fun k hk => by
      have hpresent := (h.new k (h.fresh k hk)).mpr hk
      simpa [hlookup₂, hbonds] using hpresent
  rw [h₃]
  have hall : bonds₃ = start.delegationBonds := by
    apply ExtTreeMap.ext_getElem?
    intro k
    rw [hlookup₃]
    cases hk : start.delegationBonds[k]? with
    | none =>
      by_cases hmem : k ∈ createdKeys actions
      · rw [if_pos hmem]
      · have hnone : l.delegationBonds[k]? = none := by
          by_contra hsome
          exact hmem ((h.new k hk).mp hsome)
        rw [if_neg hmem]
        simp [hlookup₂, hbonds, hnone]
    | some bs =>
      have hnot : k ∉ createdKeys actions := by
        intro hmem
        rw [h.fresh k hmem] at hk
        cases hk
      obtain ⟨target, hbs, htarget⟩ := h.old k bs hk
      rw [if_neg hnot, hlookup₂, hbonds, hbs]
      simp [withTarget, htarget]
  rw [hall]

/-! ### Blocks -/

variable {checks : Bool} {offer : Offer}

theorem Accepted.unmoved (a : Accepted checks c offer c') (hexit : NoExit offer.block.actions) :
    ∃ retargets, Unmoved c.toLedger offer.block.actions retargets a.filled.toLedger := by
  refine accepted_induction a
    (R := fun pre l => NoExit pre → ∃ retargets, Unmoved c.toLedger pre retargets l)
    (fun _ => ⟨∅, Unmoved.start c.toLedger⟩) ?_ hexit
  intro pre x l l' hR _ hmoves hpre
  obtain ⟨retargets, hunmoved⟩ := hR fun y hy => hpre y (mem_append_left _ hy)
  exact hunmoved.step (hpre x (by simp)) hmoves

theorem Accepted.push_eq (a : Accepted checks c offer c') : c.push checks a.block = .ok c' := by
  have hblock := (withBlockAndSpentUtxos_eq_ok a.block_eq).1
  unfold push
  refine bind_eq_ok.mpr ⟨a.opened, a.open_eq, bind_eq_ok.mpr ⟨a.filled, by rw [hblock]; exact a.fill_eq, ?_⟩⟩
  refine bind_eq_ok.mpr ⟨c'.toLedger, a.close_eq, pure_eq_ok.mpr ?_⟩
  rw [← a.index_eq, ← a.blocks_eq, ← a.work_eq]

theorem Accepted.pushed (a : Accepted checks c offer c') : Pushed checks c a.block c' := push_eq_ok a.push_eq

theorem Accepted.indexed (a : Accepted checks c offer c') :
    Indexed a.block offer.block.transactions.zipIdx c.toChainIndex
      { c'.toChainIndex with heightByHash := c.heightByHash } ∧
    Table.Extends c.heightByHash [offer.block.hash] c'.heightByHash ∧ c'.blocks = c.blocks ++ [a.block] ∧
      c'.partialCumulativeWork = c.partialCumulativeWork + offer.block.work := by
  have hpushed := a.pushed
  have hindexed := hpushed.indexed
  have hextends := hpushed.extends
  have hwork := hpushed.work
  rw [(withBlockAndSpentUtxos_eq_ok a.block_eq).1] at hindexed hextends hwork
  exact ⟨hindexed, hextends, hpushed.blocks, hwork⟩

theorem revertIndex_eq_ok
    (h : Indexed b b.transactions.zipIdx i { c.toChainIndex with heightByHash := i.heightByHash })
    (hheights : Table.Extends i.heightByHash [b.hash] c.heightByHash)
    (hl : b.transactions.zipIdx.foldlM (fun l t => Chain.unspend l t.1.2 position) c.toLedger = .ok l) :
    Chain.revertIndex b position c = .ok { c with
      toLedger := l
      toChainIndex := i
      partialCumulativeWork := c.partialCumulativeWork - b.work } := by
  obtain ⟨heights, hremove, hext⟩ := hheights.removeOld Panic.assert
  obtain rfl := hext.eq
  unfold revertIndex
  rw [hremove, ok_bind]
  exact h.revert (c := { c with
    heightByHash := i.heightByHash
    partialCumulativeWork := c.partialCumulativeWork - b.work }) hl

theorem Accepted.popTip_eq_ok (a : Accepted checks c offer c') (hblocks : c.blocks ≠ [])
    (hc : BondedBacked c.toLedger) (hall : offer.ValuesVerified)
    (hinfo : c.blockInfoByHeight offer.block.height = none) (hexit : NoExit offer.block.actions) :
    c'.popTip = .ok c := by
  obtain ⟨pools, record, hpools, hrewarded⟩ := a.closed
  obtain ⟨retargets, hunmoved⟩ := a.unmoved hexit
  let l₁ : Ledger := { a.filled.toLedger with
    chainValuePools := pools
    blockInfoByHeight := Function.update a.filled.blockInfoByHeight offer.block.height
      (some ⟨pools, offer.block.size % 2 ^ 32⟩) }
  have hrewards : c'.toLedger.revertRewards = .ok l₁ := hrewarded.revert (a.active_lt hc hall hpools).2
  obtain ⟨l₂, hretargets, hactions⟩ := hunmoved.revert hexit (show l₁.delegationBonds = _ from rfl) rfl
  obtain ⟨hindexed, hheights, hblocks', hwork⟩ := a.indexed
  have hblock := (withBlockAndSpentUtxos_eq_ok a.block_eq).1
  have htxs : a.block.transactions = offer.block.transactions := by rw [hblock]
  have hrevert : revertIndex a.block .tip { c' with toLedger := l₂, blocks := c.blocks } = _ :=
    revertIndex_eq_ok (by rw [htxs]; exact hindexed) (by rw [hblock]; exact hheights)
      (by rw [foldlM_unspend, htxs]; exact hactions)
  have hback : pools.addChainValuePoolChange a.block.poolChange.neg = .ok c.chainValuePools := by
    rw [ValueBalance.addChainValuePoolChange_eq_ok]
    intro p
    rw [hpools, hunmoved.pools]
    simp [ValueBalance.neg]
  have hlast : Ledger.revertChainValuePools { l₁ with
      delegationBonds := c.delegationBonds
      bondRetargets := c.bondRetargets } a.block.poolChange a.block.height = .ok c.toLedger := by
    have hempty : Function.update c.blockInfoByHeight offer.block.height none = c.blockInfoByHeight := by
      rw [← hinfo, Function.update_eq_self]
    unfold Ledger.revertChainValuePools
    simp only [l₁, hback, mapError_ok, ok_bind, pure_eq_ok, hblock, hunmoved.rewards, hunmoved.info,
      Function.update_idem, hempty]
  unfold popTip
  rw [hblocks', getLast?_concat, dropLast_concat]
  simp only [unwrap, ok_bind, ensure_ok hblocks, hrewards, hretargets, hrevert, hlast, pure_eq_ok]
  exact Chain.ext rfl rfl rfl rfl rfl rfl rfl rfl rfl rfl rfl rfl rfl (by rw [hwork, hblock, Nat.add_sub_cancel])

end Crosslink.State

import Crosslink.State.Revert

/-!
# Forking and replaying

A fork takes blocks off the tip until the block it is asked for is the tip. The chain that results is the one that
the blocks up to there would build, as long as none of the blocks above the first unbonds or withdraws a bond: the
location of the last action is never restored, and a bond that a block creates and unbonds, or withdraws twice, makes
the revert panic.
-/

namespace Crosslink.State

open Codec Fallible Staking List Ledger
open Std (ExtTreeMap)

/-! ### Locations in a revert -/

/-- The bonds of `l'` are bonds of `l`, with the same locations. -/
def KeepsLocations (l l' : Ledger) : Prop :=
  ∀ (key : BondKey) (location : TransactionLocation), l'.location? key = some location → l.location? key = some location

theorem KeepsLocations.refl (l : Ledger) : KeepsLocations l l := fun _ _ h => h

theorem KeepsLocations.trans (h : KeepsLocations l₁ l₂) (h' : KeepsLocations l₂ l₃) :
    KeepsLocations l₁ l₃ := fun key location hl => h key location (h' key location hl)

theorem KeepsLocations.none {l l' : Ledger} (h : KeepsLocations l l') {key : BondKey} (hl : l.location? key = none) :
    l'.location? key = none := by
  cases hl' : l'.location? key with
  | none => rfl
  | some location =>
    rw [h key location hl'] at hl
    cases hl

theorem keepsLocations_insert (hbs : l.delegationBonds[key]? = some bs)
    (hl' : l'.delegationBonds = l.delegationBonds.insert key bs') (hloc : bs'.1.createdAt = bs.1.createdAt) :
    KeepsLocations l l' := by
  intro k location hk
  rw [location?, hl', ExtTreeMap.getElem?_insert] at hk
  split_ifs at hk with heq
  · rw [← compare_eq_iff_eq.mp heq, location?, hbs, Option.map_some, ← hloc]
    simpa using hk
  · exact hk

theorem revertReward_locations (h : l.revertReward kr = .ok l') :
    KeepsLocations l l' := by
  unfold revertReward at h
  obtain ⟨⟨bond, status⟩, hbond, h⟩ := bind_eq_ok.mp h
  obtain ⟨reward, -, h⟩ := bind_eq_ok.mp h
  obtain ⟨amount, -, h⟩ := bind_eq_ok.mp h
  obtain ⟨bonded, -, h⟩ := bind_eq_ok.mp h
  obtain rfl := pure_eq_ok.mp h
  exact keepsLocations_insert (unwrap_eq_ok.mp hbond) rfl rfl

theorem revertRetarget_locations (h : l.revertRetarget kt = .ok l') :
    KeepsLocations l l' := by
  unfold revertRetarget at h
  obtain ⟨⟨bond, status⟩, hbond, h⟩ := bind_eq_ok.mp h
  obtain rfl := pure_eq_ok.mp h
  exact keepsLocations_insert (unwrap_eq_ok.mp hbond) rfl rfl

theorem revertDelegationBond_locations (h : l.revertDelegationBond action = .ok l') : KeepsLocations l l' ∧
      (action.kind = .createNewDelegationBond → l'.location? action.arg32_0 = none) ∧
      (Exits action → l.location? action.arg32_0 ≠ none) := by
  unfold revertDelegationBond at h
  dsimp only at h
  split at h
  next hk =>
    obtain ⟨⟨⟩, -, h⟩ := bind_eq_ok.mp h
    obtain rfl := pure_eq_ok.mp h
    refine ⟨?_, by simp [location?], by simp [Exits, hk]⟩
    intro key location hkey
    rw [location?, ExtTreeMap.getElem?_erase] at hkey
    split_ifs at hkey with heq
    · cases hkey
    · exact hkey
  next hk =>
    obtain ⟨⟨bond, status⟩, hbond, h⟩ := bind_eq_ok.mp h
    obtain ⟨⟨⟩, -, h⟩ := bind_eq_ok.mp h
    obtain ⟨bonded, -, h⟩ := bind_eq_ok.mp h
    obtain ⟨unbonded, -, h⟩ := bind_eq_ok.mp h
    obtain rfl := pure_eq_ok.mp h
    exact ⟨keepsLocations_insert (unwrap_eq_ok.mp hbond) rfl rfl, by simp [hk],
      by simp [location?, unwrap_eq_ok.mp hbond]⟩
  next hk =>
    obtain ⟨⟨bond, status⟩, hbond, h⟩ := bind_eq_ok.mp h
    obtain ⟨⟨⟩, -, h⟩ := bind_eq_ok.mp h
    obtain rfl := pure_eq_ok.mp h
    exact ⟨keepsLocations_insert (unwrap_eq_ok.mp hbond) rfl rfl, by simp [hk],
      by simp [location?, unwrap_eq_ok.mp hbond]⟩
  next hcreate hunbond hwithdraw =>
    obtain rfl := pure_eq_ok.mp h
    exact ⟨.refl l, fun hk => absurd hk hcreate, fun hk => absurd hk (not_or.mpr ⟨hunbond, hwithdraw⟩)⟩

theorem foldlM_locations {α : Type} {f : Ledger → α → Except Panic Ledger} {xs : List α}
    (hstep : ∀ l x l', f l x = .ok l' → KeepsLocations l l') (h : xs.foldlM f l = .ok l') : KeepsLocations l l' :=
  foldlM_induction (R := fun _ l' => KeepsLocations l l') h (.refl l) fun _ x l₁ l₂ hl hf => hl.trans (hstep l₁ x l₂ hf)

theorem revertAll_locations (h : revertAll l actions = .ok l') :
    KeepsLocations l l' :=
  foldlM_locations (fun _ _ _ hf => (revertDelegationBond_locations hf).1) h

theorem revertAll_created (h : revertAll l actions = .ok l') (hkey : key ∈ createdKeys actions) :
    l'.location? key = none := by
  refine foldlM_induction (R := fun pre l' => key ∈ createdKeys pre → l'.location? key = none) h (by simp [createdKeys])
    ?_ hkey
  intro pre a l₁ l₂ hpre hstep hmem
  obtain ⟨hkeeps, hcreated, -⟩ := revertDelegationBond_locations hstep
  rw [createdKeys_append, mem_append] at hmem
  rcases hmem with hmem | hmem
  · exact hkeeps.none (hpre hmem)
  · by_cases hk : a.1.kind = .createNewDelegationBond
    · rw [createdKeys_create hk, mem_singleton] at hmem
      rw [hmem]
      exact hcreated hk
    · simp [createdKeys_other hk] at hmem

theorem revertAll_exits (h : revertAll l (pre ++ x :: post) = .ok l') (hexit : Exits x.1) :
    x.1.arg32_0 ∉ createdKeys pre := by
  intro hmem
  obtain ⟨l₁, h₁, h₂⟩ := foldlM_append_eq_ok.mp h
  obtain ⟨l₂, h₂, -⟩ := foldlM_cons_eq_ok.mp h₂
  exact (revertDelegationBond_locations h₂).2.2 hexit (revertAll_created h₁ hmem)

theorem revertIndex_inv (h : Chain.revertIndex b position c = .ok x) :
    b.transactions.zipIdx.foldlM (fun l t => Chain.unspend l t.1.2 position) c.toLedger = .ok x.toLedger ∧
      x.blocks = c.blocks := by
  unfold Chain.revertIndex at h
  obtain ⟨heights, -, h⟩ := bind_eq_ok.mp h
  have hturn : ∀ c t c', Chain.revertTx b position c t = .ok c' →
      Chain.unspend c.toLedger t.1.2 position = .ok c'.toLedger ∧ c'.blocks = c.blocks := by
    intro c t c' hstep
    unfold Chain.revertTx at hstep
    simp only [bind_eq_ok, pure_eq_ok] at hstep
    obtain ⟨_, -, _, -, _, -, ledger, hledger, _, -, _, -, _, -, _, -, rfl⟩ := hstep
    exact ⟨hledger, rfl⟩
  have hledger := foldlM_project (g := fun l t => Chain.unspend l t.1.2 position) (π := Chain.toLedger)
    (fun c t c' hstep => (hturn c t c' hstep).1) h
  exact ⟨hledger, foldlM_induction (R := fun _ c' => c'.blocks = c.blocks) h rfl
    fun _ t c₁ c₂ hc hstep => ((hturn c₁ t c₂ hstep).2).trans hc⟩

theorem revertChainValuePools_eq_ok {l l' : Ledger} (h : l.revertChainValuePools change height = .ok l') : ∃ pools,
      (∀ p, (pools p).zatoshis = (l.chainValuePools p).zatoshis - (change p).zatoshis) ∧ l' = { l with
        chainValuePools := pools
        blockInfoByHeight := Function.update l.blockInfoByHeight height none } := by
  unfold revertChainValuePools at h
  obtain ⟨pools, hpools, h⟩ := bind_eq_ok.mp h
  have hsum := ValueBalance.addChainValuePoolChange_eq_ok.mp (mapError_eq_ok.mp hpools)
  exact ⟨pools, fun p => by rw [hsum p]; rfl, (pure_eq_ok.mp h).symm⟩

theorem popTip_inv {c x : Chain} (h : c.popTip = .ok x) : ∃ b l₁ l₂ l₃, c.blocks.getLast? = some b ∧
    x.blocks = c.blocks.dropLast ∧ c.toLedger.revertRewards = .ok l₁ ∧ l₁.revertRetargets = .ok l₂ ∧
      revertAll l₂ b.actions = .ok l₃ ∧ l₃.revertChainValuePools b.poolChange b.height = .ok x.toLedger := by
  unfold Chain.popTip at h
  obtain ⟨b, hb, h⟩ := bind_eq_ok.mp h
  dsimp only at h
  obtain ⟨⟨⟩, -, h⟩ := bind_eq_ok.mp h
  obtain ⟨l₁, h₁, h⟩ := bind_eq_ok.mp h
  obtain ⟨l₂, h₂, h⟩ := bind_eq_ok.mp h
  obtain ⟨c₃, h₃, h⟩ := bind_eq_ok.mp h
  obtain ⟨l₄, h₄, h⟩ := bind_eq_ok.mp h
  obtain rfl := pure_eq_ok.mp h
  obtain ⟨hledger, hblocks⟩ := revertIndex_inv h₃
  rw [foldlM_unspend] at hledger
  exact ⟨b, l₁, l₂, c₃.toLedger, unwrap_eq_ok.mp hb, hblocks, h₁, h₂, hledger, h₄⟩

theorem revertChainValuePools_bonds {l l' : Ledger} (h : l.revertChainValuePools change height = .ok l') :
    l'.delegationBonds = l.delegationBonds := by
  obtain ⟨pools, -, rfl⟩ := revertChainValuePools_eq_ok h
  rfl

theorem popTip_locations {c x : Chain} (h : c.popTip = .ok x) : ∃ b l l', c.blocks.getLast? = some b ∧
    x.blocks = c.blocks.dropLast ∧ KeepsLocations c.toLedger l ∧ revertAll l b.actions = .ok l' ∧
      ∀ key, x.location? key = l'.location? key := by
  obtain ⟨b, l₁, l₂, l₃, hb, hblocks, h₁, h₂, h₃, h₄⟩ := popTip_inv h
  unfold revertRewards at h₁
  obtain ⟨rewards, -, h₁⟩ := bind_eq_ok.mp h₁
  unfold revertRetargets at h₂
  obtain ⟨retargets, -, h₂⟩ := bind_eq_ok.mp h₂
  have hrewards := foldlM_locations (fun _ _ _ hf => revertReward_locations hf) h₁
  have hretargets := foldlM_locations (fun _ _ _ hf => revertRetarget_locations hf) h₂
  refine ⟨b, l₂, l₃, hb, hblocks, KeepsLocations.trans (show KeepsLocations _ l₁ from hrewards) hretargets, h₃, ?_⟩
  intro key
  rw [location?, location?, revertChainValuePools_bonds h₄]

/-! ### Locations in a block -/

variable {checks : Bool} {c c' : Chain} {offer : Offer}

/-- Where the bonds come from in the middle of a block, and what is known of those it let go. -/
structure Locates (start : Ledger) (height : ℕ) (pre : List (StakingAction × ℕ)) (l : Ledger) : Prop where
  known : ∀ key, l.location? key ≠ none → start.location? key ≠ none ∨ key ∈ createdKeys pre
  bound : ∀ key location, l.location? key = some location →
    location.height = height ∨ start.location? key = some location
  exited : ∀ p x s, pre = p ++ x :: s → Exits x.1 →
    (start.location? x.1.arg32_0 ≠ none ∨ x.1.arg32_0 ∈ createdKeys p) ∧
      ∃ location, l.location? x.1.arg32_0 = some location ∧ location.height = height

theorem Locates.step {start l l' : Ledger} {height : ℕ} {pre : List (StakingAction × ℕ)} {x : StakingAction × ℕ}
    (h : Locates start height pre l) (hr : Relocates l x.1 ⟨height, x.2⟩ l') : Locates start height (pre ++ [x]) l' := by
  -- a bond that exists keeps its location or gets one in this block
  have hold : ∀ key location, l.location? key = some location → ∃ location', l'.location? key = some location' ∧
      (location' = location ∨ location'.height = height) := by
    intro key location hkey
    by_cases hne : x.1.arg32_0 = key
    · subst hne
      by_cases hwrite : x.1.kind = .createNewDelegationBond ∨ Exits x.1
      · exact ⟨_, hr.written hwrite, .inr rfl⟩
      · rw [not_or] at hwrite
        exact ⟨location, (hr.kept hwrite.1 hwrite.2).trans hkey, .inl rfl⟩
    · exact ⟨location, (hr.other key hne).trans hkey, .inl rfl⟩
  refine ⟨?_, ?_, ?_⟩
  · intro key hkey
    rw [createdKeys_append, mem_append, ← or_assoc]
    by_cases hcreate : x.1.kind = .createNewDelegationBond ∧ x.1.arg32_0 = key
    · rw [createdKeys_create hcreate.1, hcreate.2]
      exact .inr (by simp)
    · refine .inl (h.known key ?_)
      by_cases hne : x.1.arg32_0 = key
      · subst hne
        have hk : x.1.kind ≠ .createNewDelegationBond := fun hk => hcreate ⟨hk, rfl⟩
        by_cases hexit : Exits x.1
        · exact hr.exited hexit
        · rwa [← hr.kept hk hexit]
      · rwa [← hr.other key hne]
  · intro key location hkey
    by_cases hne : x.1.arg32_0 = key
    · subst hne
      by_cases hwrite : x.1.kind = .createNewDelegationBond ∨ Exits x.1
      · rw [hr.written hwrite] at hkey
        rw [← Option.some.inj hkey]
        exact .inl rfl
      · rw [not_or] at hwrite
        rw [hr.kept hwrite.1 hwrite.2] at hkey
        exact h.bound _ _ hkey
    · rw [hr.other key hne] at hkey
      exact h.bound _ _ hkey
  · intro p y s hsplit hexit
    rcases eq_nil_or_concat' s with rfl | ⟨s', z, rfl⟩
    · obtain ⟨rfl, hy⟩ := append_inj' hsplit rfl
      obtain rfl := singleton_inj.mp hy
      exact ⟨h.known _ (hr.exited hexit), _, hr.written (.inr hexit), rfl⟩
    · rw [← cons_append, ← append_assoc] at hsplit
      obtain ⟨hpre, -⟩ := append_inj' hsplit rfl
      obtain ⟨hknown, location, hlocation, hheight⟩ := h.exited p y s' hpre hexit
      obtain ⟨location', hlocation', hsame⟩ := hold _ _ hlocation
      refine ⟨hknown, location', hlocation', ?_⟩
      rcases hsame with rfl | hsame
      · exact hheight
      · exact hsame

theorem Accepted.locates (a : Accepted checks c offer c') :
    Locates c.toLedger offer.block.height offer.block.actions c'.toLedger := by
  have hfilled : Locates c.toLedger offer.block.height offer.block.actions a.filled.toLedger := by
    refine accepted_induction a (R := Locates c.toLedger offer.block.height) ⟨?_, ?_, ?_⟩ fun pre x l l' hR _ hmoves =>
      hR.step hmoves.relocates
    · exact fun key hkey => .inl hkey
    · exact fun key location hkey => .inr hkey
    · intro p x s hsplit
      simp at hsplit
  obtain ⟨pools, record, -, hrewarded⟩ := a.closed
  have hsame : ∀ key, c'.location? key = a.filled.location? key := by
    intro key
    unfold location?
    rcases hrewarded.paid.lookup key with ⟨hnone, hnone'⟩ | ⟨bond, status, amount, hbond, hbond'⟩
    · rw [hnone', ← hnone]
    · simp only at hbond
      rw [hbond', hbond]
      rfl
  exact ⟨fun key hkey => hfilled.known key (hsame key ▸ hkey), fun key location hkey =>
    hfilled.bound key location (hsame key ▸ hkey), fun p x s hsplit hexit => by
      rw [hsame]; exact hfilled.exited p x s hsplit hexit⟩

/-! ### Regular chains -/

/-- A chain over a database: the bonded pool is backed, and the bonds and the block infos are of blocks below the next
one. -/
structure Regular (db : ZebraDb) (c : Chain) : Prop where
  backed : BondedBacked c.toLedger
  located : ∀ key location, c.location? key = some location → location.height < c.nextHeight db
  infos : ∀ h, c.nextHeight db ≤ h → c.blockInfoByHeight h = none

theorem nextHeight_snoc (h : c.blocks = blocks ++ [b]) : c.nextHeight db = b.height + 1 := by
  unfold Chain.nextHeight
  simp [h]

variable {db : ZebraDb}

theorem Regular.accept (hc : Regular db c) (hdb : offer.db = db) (hall : offer.ValuesVerified)
    (h : c.accept checks offer = .ok c') : Regular db c' := by
  obtain ⟨a⟩ := Chain.accept_eq_ok h
  have hheight := a.height_eq
  rw [hdb] at hheight
  have hnext : c'.nextHeight db = offer.block.height + 1 := by
    rw [nextHeight_snoc a.indexed.2.2.1, (Chain.withBlockAndSpentUtxos_eq_ok a.block_eq).1]
  refine ⟨(accept_pools hc.backed hall h).1, ?_, ?_⟩
  · intro key location hkey
    rw [hnext]
    rcases a.locates.bound key location hkey with hloc | hloc
    · omega
    · have := hc.located key location hloc
      omega
  · intro h hle
    rw [hnext] at hle
    obtain ⟨pools, record, -, hrewarded⟩ := a.closed
    have hinfo : a.filled.blockInfoByHeight = c.blockInfoByHeight := by
      refine accepted_induction a (R := fun _ l => l.blockInfoByHeight = c.blockInfoByHeight) rfl ?_
      intro pre x l l' hR _ hmoves
      exact hmoves.frame.1.trans hR
    rw [hrewarded.info]
    dsimp only
    rw [Function.update_of_ne (by omega), hinfo]
    exact hc.infos h (by omega)

theorem accept_popTip (hc : Regular db c) (hdb : offer.db = db) (hall : offer.ValuesVerified) (hblocks : c.blocks ≠ [])
    (h : c.accept checks offer = .ok c') : c'.popTip = .ok c ↔ NoExit offer.block.actions := by
  obtain ⟨a⟩ := Chain.accept_eq_ok h
  have hheight := a.height_eq
  rw [hdb] at hheight
  constructor
  · intro hpop x hx hexit
    obtain ⟨p, s, hsplit⟩ := append_of_mem hx
    obtain ⟨hknown, location, hlocation, hloc⟩ := a.locates.exited p x s hsplit hexit
    obtain ⟨b, l, l', hb, -, hkeeps, hrevert, hsame⟩ := popTip_locations hpop
    rw [a.indexed.2.2.1, getLast?_concat] at hb
    obtain rfl := Option.some.inj hb
    rw [(Chain.withBlockAndSpentUtxos_eq_ok a.block_eq).1, hsplit] at hrevert
    have hold : c.location? x.1.arg32_0 ≠ none := hknown.resolve_right (revertAll_exits hrevert hexit)
    obtain ⟨old, hold⟩ := Option.ne_none_iff_exists'.mp hold
    -- the revert cannot have changed the location that the exit wrote
    have hafter := hkeeps _ _ (revertAll_locations hrevert _ _ ((hsame _).symm.trans hold))
    obtain rfl := Option.some.inj (hafter.symm.trans hlocation)
    have := hc.located _ _ hold
    omega
  · intro hexit
    exact a.popTip_eq_ok hblocks hc.backed hall (hc.infos _ hheight.ge) hexit

/-! ### Forks -/

/-- Every fork of `c` at one of the offered blocks is the chain that was built up to that block. -/
def ForksBack (checks : Bool) (start : Chain) (offers : List Offer) (c : Chain) : Prop :=
  ∀ pre last post, offers = pre ++ last :: post → ∀ ck, (pre ++ [last]).foldlM (Chain.accept checks) start = .ok ck →
    c.fork last.block.hash = .ok (some ck)

theorem heightByHash_of_mem {offers : List Offer} (h : offers.foldlM (Chain.accept checks) start = .ok c) :
    ∀ offer ∈ offers, c.heightByHash offer.block.hash ≠ none := by
  refine foldlM_induction (R := fun pre c => ∀ offer ∈ pre, c.heightByHash offer.block.hash ≠ none) h (by simp) ?_
  intro pre o c₁ c₂ hpre hstep offer hoffer
  obtain ⟨a⟩ := Chain.accept_eq_ok hstep
  have hext := a.indexed.2.1
  by_cases heq : offer.block.hash ∈ [o.block.hash]
  · exact hext.present _ heq
  · rw [hext.frame _ heq]
    rcases mem_append.mp hoffer with hmem | hmem
    · exact hpre offer hmem
    · obtain rfl := mem_singleton.mp hmem
      simp at heq

theorem tipHash_eq (h : c.blocks = blocks ++ [b]) : c.nonFinalizedTipHash = .ok b.hash := by
  rw [Chain.nonFinalizedTipHash, h, getLast?_concat]
  rfl

theorem fork_tip (a : Accepted checks c offer c') : c'.fork offer.block.hash = .ok (some c') := by
  obtain ⟨-, hheights, hblocks, -⟩ := a.indexed
  have hhash : a.block.hash = offer.block.hash := by rw [(Chain.withBlockAndSpentUtxos_eq_ok a.block_eq).1]
  unfold Chain.fork
  rw [if_neg (hheights.present _ (by simp)), hblocks, length_append, length_singleton, Chain.popTo,
    tipHash_eq hblocks, hhash]
  simp

theorem fork_below (a : Accepted checks c offer c') {hash : Bft.BlockHash} (hhash : c.heightByHash hash ≠ none) :
    c'.fork hash = c'.popTip >>= fun x => some <$> Chain.popTo hash c.blocks.length x := by
  obtain ⟨-, hheights, hblocks, -⟩ := a.indexed
  have hne : hash ≠ offer.block.hash := by
    intro heq
    exact hhash (heq ▸ hheights.fresh _ (by simp))
  have htip : a.block.hash = offer.block.hash := by rw [(Chain.withBlockAndSpentUtxos_eq_ok a.block_eq).1]
  have hpresent : c'.heightByHash hash ≠ none := by
    rw [hheights.frame hash (by simpa using hne)]
    exact hhash
  unfold Chain.fork
  rw [if_neg hpresent, hblocks, length_append, length_singleton, Chain.popTo, tipHash_eq hblocks, htip]
  simp only [ok_bind, if_neg (Ne.symm hne)]
  cases c'.popTip <;> rfl

theorem fork_eq {hash : Bft.BlockHash} (h : c.heightByHash hash ≠ none) :
    c.fork hash = some <$> Chain.popTo hash c.blocks.length c := by
  unfold Chain.fork
  rw [if_neg h]
  cases Chain.popTo hash c.blocks.length c <;> rfl

theorem run_tip (h : (offers ++ [last]).foldlM (Chain.accept checks) start = .ok c) :
    ∃ blocks b, c.blocks = blocks ++ [b] ∧ b.hash = last.block.hash := by
  obtain ⟨c₁, -, h₂⟩ := foldlM_append_eq_ok.mp h
  obtain ⟨c₂, ha, h₃⟩ := foldlM_cons_eq_ok.mp h₂
  obtain rfl := foldlM_nil_eq_ok.mp h₃
  obtain ⟨a⟩ := Chain.accept_eq_ok ha
  exact ⟨c₁.blocks, a.block, a.indexed.2.2.1, by rw [(Chain.withBlockAndSpentUtxos_eq_ok a.block_eq).1]⟩

theorem forksBack_snoc (h : offers.foldlM (Chain.accept checks) start = .ok c) (ha : c.accept checks offer = .ok c')
    (hne : offers ≠ []) :
    ForksBack checks start (offers ++ [offer]) c' ↔ c'.popTip = .ok c ∧ ForksBack checks start offers c := by
  obtain ⟨a⟩ := Chain.accept_eq_ok ha
  have hmem := heightByHash_of_mem h
  -- once the tip comes off cleanly, the forks of the two chains are the same
  have hsame : c'.popTip = .ok c → ∀ o ∈ offers, c'.fork o.block.hash = c.fork o.block.hash := by
    intro hpop o ho
    rw [fork_below a (hmem o ho), hpop, ok_bind, fork_eq (hmem o ho)]
  constructor
  · intro hforks
    obtain ⟨pre, last, rfl⟩ := (eq_nil_or_concat' _).resolve_left hne
    have hlast : last ∈ pre ++ [last] := by simp
    have hfork := hforks pre last [offer] (by simp) c h
    rw [fork_below a (hmem last hlast)] at hfork
    obtain ⟨x, hx, hfork⟩ := bind_eq_ok.mp hfork
    obtain ⟨b, l, l', -, hblocks, -⟩ := popTip_locations hx
    rw [a.indexed.2.2.1, dropLast_concat] at hblocks
    obtain ⟨blocks, tip, htip, hhash⟩ := run_tip h
    have hx' : x = c := by
      rw [htip, length_append, length_singleton, Chain.popTo, tipHash_eq (hblocks.trans htip), hhash, ok_bind,
        if_pos rfl] at hfork
      exact Option.some.inj (Except.ok.inj hfork)
    rw [hx'] at hx
    refine ⟨hx, ?_⟩
    intro pre' last' post hsplit ck hck
    rw [← hsame hx last' (by rw [hsplit]; simp)]
    exact hforks pre' last' (post ++ [offer]) (by rw [hsplit]; simp) ck hck
  · rintro ⟨hpop, hforks⟩ pre last post hsplit ck hck
    rcases eq_nil_or_concat' post with rfl | ⟨post', o, rfl⟩
    · obtain ⟨rfl, hlast⟩ := append_inj' hsplit rfl
      obtain rfl := singleton_inj.mp hlast
      obtain ⟨c₁, h₁, h₂⟩ := foldlM_append_eq_ok.mp hck
      obtain rfl := Except.ok.inj (h.symm.trans h₁)
      obtain ⟨c₂, h₂, h₃⟩ := foldlM_cons_eq_ok.mp h₂
      obtain rfl := Except.ok.inj (ha.symm.trans h₂)
      rw [← foldlM_nil_eq_ok.mp h₃]
      exact fork_tip a
    · rw [← cons_append, ← append_assoc] at hsplit
      obtain ⟨hoffers, -⟩ := append_inj' hsplit rfl
      rw [hsame hpop last (by rw [hoffers]; simp)]
      exact hforks pre last post' hoffers ck hck

theorem Regular.run {offers : List Offer} (hstart : Regular db start) (hdb : ∀ o ∈ offers, o.db = db)
    (hall : ∀ o ∈ offers, o.ValuesVerified) (h : offers.foldlM (Chain.accept checks) start = .ok c) :
    Regular db c := by
  induction offers generalizing start with
  | nil => exact foldlM_nil_eq_ok.mp h ▸ hstart
  | cons o offers ih =>
    obtain ⟨c₁, h₁, hrest⟩ := foldlM_cons_eq_ok.mp h
    exact ih (hstart.accept (hdb o mem_cons_self) (hall o mem_cons_self) h₁)
      (fun o' ho' => hdb o' (mem_cons_of_mem o ho')) (fun o' ho' => hall o' (mem_cons_of_mem o ho')) hrest

theorem forksBack_iff_of_regular (hstart : Regular db start) (hdb : ∀ o ∈ offers, o.db = db)
    (hall : ∀ o ∈ offers, o.ValuesVerified) (h : offers.foldlM (Chain.accept checks) start = .ok c) :
    ForksBack checks start offers c ↔ ∀ o ∈ offers.tail, NoExit o.block.actions := by
  induction offers using List.reverseRecOn generalizing c with
  | nil => simp [ForksBack]
  | append_singleton offers o ih =>
    obtain ⟨c₁, h₁, h₂⟩ := foldlM_append_eq_ok.mp h
    obtain ⟨c₂, ha, h₃⟩ := foldlM_cons_eq_ok.mp h₂
    obtain rfl := foldlM_nil_eq_ok.mp h₃
    have hdb₁ : ∀ o ∈ offers, o.db = db := fun o ho => hdb o (by simp [ho])
    have hall₁ : ∀ o ∈ offers, o.ValuesVerified := fun o ho => hall o (by simp [ho])
    by_cases hne : offers = []
    · subst hne
      obtain ⟨a⟩ := Chain.accept_eq_ok ha
      simp only [nil_append, tail_cons, not_mem_nil, false_implies, implies_true, iff_true]
      intro pre last post hsplit ck hck
      obtain ⟨rfl, rfl, rfl⟩ : pre = [] ∧ last = o ∧ post = [] := by
        cases pre <;> simp_all
      rw [← Except.ok.inj (h.symm.trans hck)]
      exact fork_tip a
    · obtain ⟨pre, last, hoffers⟩ := (eq_nil_or_concat' _).resolve_left hne
      have hblocks : c₁.blocks ≠ [] := by
        obtain ⟨blocks, b, hb, -⟩ := run_tip (hoffers ▸ h₁)
        simp [hb]
      rw [forksBack_snoc h₁ ha hne, ih hdb₁ hall₁ h₁,
        accept_popTip (hstart.run hdb₁ hall₁ h₁) (hdb o (by simp)) (hall o (by simp)) hblocks ha,
        tail_append_of_ne_nil hne]
      constructor
      · rintro ⟨ho, hrest⟩ o' ho'
        rcases mem_append.mp ho' with ho' | ho'
        · exact hrest o' ho'
        · exact mem_singleton.mp ho' ▸ ho
      · intro hrest
        exact ⟨hrest o (by simp), fun o' ho' => hrest o' (mem_append_left _ ho')⟩

/-- A database whose bonded pool is backed and whose bonds are of blocks that it has. -/
structure ZebraDb.Sound (db : ZebraDb) : Prop where
  backed : (db.valuePool .stakingBonded).zatoshis = stakeTotal .active (Chain.finalizedBonds db.toFinalizedBonds)
  located : ∀ key location, (Chain.new db).location? key = some location →
    location.height < (Chain.new db).nextHeight db

/-- Forks of a chain that was built on a database are replays just when no block above the first unbonds or withdraws
a bond. -/
theorem forksBack_iff_noExit {offers : List Offer} (hsound : db.Sound) (hdb : ∀ o ∈ offers, o.db = db)
    (hall : ∀ o ∈ offers, o.ValuesVerified) (h : offers.foldlM (Chain.accept checks) (Chain.new db) = .ok c) :
    ForksBack checks (Chain.new db) offers c ↔ ∀ o ∈ offers.tail, NoExit o.block.actions :=
  forksBack_iff_of_regular ⟨hsound.backed, hsound.located, fun _ _ => rfl⟩ hdb hall h

theorem located_of_toList {l : Ledger} (h : ∀ kb ∈ l.delegationBonds.toList, kb.2.1.createdAt.height < n) :
    ∀ key location, l.location? key = some location → location.height < n := by
  intro key location hkey
  obtain ⟨bs, hbs, rfl⟩ := Option.map_eq_some_iff.mp hkey
  exact h (key, bs) (ExtTreeMap.mem_toList_iff_getElem?_eq_some.mpr hbs)

def activeDb : ZebraDb := sampleDb 149 .active [(1, 1000000000)]

theorem activeDb_sound : activeDb.Sound := ⟨by decide +kernel, located_of_toList (by decide +kernel)⟩

def createSecond : Offer :=
  ⟨activeDb, sampleBlock 150 [stakingTx .createNewDelegationBond 2 1000000000], Table.empty⟩

def retargetFirst : Offer := ⟨activeDb, sampleBlock 151 [stakingTx .retargetDelegationBond 1 0], Table.empty⟩

def unbondFirst : Offer := ⟨activeDb, sampleBlock 151 [stakingTx .beginDelegationUnbonding 1 0], Table.empty⟩

theorem forksBack_iff_noExit_retargetFirst :
    ∃ c, ForksBack true (Chain.new activeDb) [createSecond, retargetFirst] c := by
  obtain ⟨c, h⟩ : ∃ c, [createSecond, retargetFirst].foldlM (Chain.accept true) (Chain.new activeDb) = .ok c :=
    exists_ok_of_isSome (by decide +kernel)
  have hdb : ∀ o ∈ [createSecond, retargetFirst], o.db = activeDb := by
    intro o ho
    rcases mem_pair.mp ho with rfl | rfl <;> rfl
  have hall : ∀ o ∈ [createSecond, retargetFirst], o.ValuesVerified := by
    intro o ho
    rcases mem_pair.mp ho with rfl | rfl <;> exact .of_computed (by decide +kernel) (by decide +kernel)
  refine ⟨c, (forksBack_iff_noExit activeDb_sound hdb hall h).mpr ?_⟩
  intro o ho
  obtain rfl := mem_singleton.mp ho
  decide +kernel

/-- Forking below the block that unbonds a bond leaves the bond with the location in that block. -/
theorem fork_keeps_location : ∃ c ck x,
    [createSecond, unbondFirst].foldlM (Chain.accept true) (Chain.new activeDb) = .ok c ∧
      [createSecond].foldlM (Chain.accept true) (Chain.new activeDb) = .ok ck ∧
      c.fork createSecond.block.hash = .ok (some x) ∧
      x.location? (bytesNo 32 1) = some ⟨151, 1⟩ ∧ ck.location? (bytesNo 32 1) = some ⟨1, 1⟩ := by
  obtain ⟨c, h⟩ : ∃ c, [createSecond, unbondFirst].foldlM (Chain.accept true) (Chain.new activeDb) = .ok c :=
    exists_ok_of_isSome (by decide +kernel)
  obtain ⟨ck, hk⟩ : ∃ ck, [createSecond].foldlM (Chain.accept true) (Chain.new activeDb) = .ok ck :=
    exists_ok_of_isSome (by decide +kernel)
  have hlocation : (([createSecond].foldlM (Chain.accept true) (Chain.new activeDb)).toOption.bind fun ck =>
      ck.location? (bytesNo 32 1)) = some ⟨1, 1⟩ := by decide +kernel
  have hforked : (([createSecond, unbondFirst].foldlM (Chain.accept true) (Chain.new activeDb)).toOption.bind fun c =>
      (c.fork createSecond.block.hash).toOption.join.bind fun x => x.location? (bytesNo 32 1)) = some ⟨151, 1⟩ := by
    decide +kernel
  rw [hk] at hlocation
  rw [h] at hforked
  change ((c.fork createSecond.block.hash).toOption.join.bind fun x => x.location? (bytesNo 32 1)) = _ at hforked
  obtain ⟨x, hx, hloc⟩ := Option.bind_eq_some_iff.mp hforked
  refine ⟨c, ck, x, h, hk, ?_, hloc, hlocation⟩
  cases hfork : c.fork createSecond.block.hash with
  | error e =>
    rw [hfork] at hx
    cases hx
  | ok o =>
    rw [hfork] at hx
    exact congrArg Except.ok hx

end Crosslink.State

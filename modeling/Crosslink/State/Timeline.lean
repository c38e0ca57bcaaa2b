import Crosslink.Consensus.Verdict
import Crosslink.State.Storage

/-!
# Staking delays along a chain

One chain of a node through its life: blocks are verified and accepted on it, a fork takes blocks off, the root goes to
the database, and a restart builds the chain anew from the database. What the other chains and the mempool do shows
only in the view with which a block is verified. The delay is measured from the location of the last action on a bond,
which is kept up to date in a chain and not written to the database.
-/

namespace Crosslink.State

open Codec Fallible Staking Consensus List Ledger
open Std (ExtTreeMap)

/-! ### The machine -/

structure Timeline where
  db : ZebraDb
  chain : Chain

inductive TimelineEvent where
  /-- A block is verified with a view of the node, and accepted. -/
  | accept (node : Node) (block : Block) (spent : Table OutPoint Utxo)
  | fork (hash : Bft.BlockHash)
  | finalize
  | rebuild

inductive TimelineError where
  | staking
  | rejected (e : Stop ValidateContextError)
  | notForked
  | notWritten (e : Stop BatchError)

def Timeline.step (checks : Bool) (s : Timeline) : TimelineEvent → Except TimelineError Timeline
  | .accept node block spent => do
    (if ∀ t ∈ block.transactions, PassesStaking node (blockRequest block t) then .ok () else .error .staking)
    let chain ← (s.chain.accept checks ⟨s.db, block, spent⟩).mapError .rejected
    return { s with chain }
  | .fork hash =>
    match s.chain.fork hash with
    | .ok (some chain) => .ok { s with chain }
    | _ => .error .notForked
  | .finalize => do
    let (popped, chain) ← s.chain.popRoot.mapError fun p => .notWritten (.panic p)
    let db ← (s.db.writeBlock checks popped).mapError .notWritten
    return { db, chain }
  | .rebuild => .ok { s with chain := Chain.new s.db }

def Timeline.blocks (s : Timeline) : List Block := s.db.blocks ++ s.chain.blocks.map (·.toBlock)

/-! ### Delays -/

def timedActions (blocks : List Block) : List (ℕ × StakingAction) :=
  blocks.flatMap fun b => b.actions.map fun a => (b.height, a.1)

def Marks (action : StakingAction) : Prop := action.kind = .createNewDelegationBond ∨ Exits action

instance (action : StakingAction) : Decidable (Marks action) := inferInstanceAs (Decidable (_ ∨ _))

def Spaced (x y : ℕ × StakingAction) : Prop :=
  x.2.arg32_0 = y.2.arg32_0 →
    (x.2.kind = .createNewDelegationBond ∧ y.2.kind = .beginDelegationUnbonding ∨
      x.2.kind = .beginDelegationUnbonding ∧ y.2.kind = .withdrawDelegationBond) →
    x.1 + stakingActionDelayBlocks ≤ y.1

instance (x y : ℕ × StakingAction) : Decidable (Spaced x y) := inferInstanceAs (Decidable (_ → _))

/-- Every creation, unbonding and withdrawal is in the window, and every two actions keep their distance. -/
structure Timely (actions : List (ℕ × StakingAction)) : Prop where
  window : ∀ x ∈ actions, Marks x.2 → x.1 % stakingDayPeriod < stakingDayWindow
  spaced : actions.Pairwise Spaced

instance (actions : List (ℕ × StakingAction)) : Decidable (Timely actions) :=
  decidable_of_iff ((∀ x ∈ actions, Marks x.2 → x.1 % stakingDayPeriod < stakingDayWindow) ∧ actions.Pairwise Spaced)
    ⟨fun h => ⟨h.1, h.2⟩, fun h => ⟨h.window, h.spaced⟩⟩

theorem timedActions_append (blocks blocks' : List Block) :
    timedActions (blocks ++ blocks') = timedActions blocks ++ timedActions blocks' := by
  simp [timedActions]

theorem timedActions_singleton (b : Block) : timedActions [b] = b.actions.map fun a => (b.height, a.1) := by
  simp [timedActions]

theorem Timely.left (h : Timely (actions ++ actions')) : Timely actions :=
  ⟨fun x hx => h.window x (mem_append_left _ hx), (pairwise_append.mp h.spaced).1⟩

/-! ### What a block can do to a bond -/

variable {checks : Bool} {c c' : Chain} {offer : Offer}

def ActsOn (action : StakingAction) (key : BondKey) : Prop := action.kind.actsOnBond ∧ action.arg32_0 = key

theorem Fits.not_withdrawn (h : Fits chain action) (hchain : chain[key]? = some (bond, .withdrawn)) :
    ¬ ActsOn action key := by
  rintro ⟨hacts, rfl⟩
  cases hk : action.kind with
  | createNewDelegationBond => simp [h.create hk] at hchain
  | beginDelegationUnbonding => rcases h.unbond hk with h | ⟨_, h⟩ <;> simp [h] at hchain
  | withdrawDelegationBond =>
    obtain ⟨_, h⟩ := h.withdraw hk
    simp [h] at hchain
  | retargetDelegationBond => rcases h.retarget hk with h | ⟨_, h⟩ <;> simp [h] at hchain
  | _ => simp [hk, StakingActionKind.actsOnBond] at hacts

theorem Accepted.status_of_not_actsOn (a : Accepted checks c offer c')
    (h : ∀ x ∈ offer.block.actions, ¬ ActsOn x.1 key) : c'.status? key = c.status? key := by
  rw [closeLedger_status a.close_eq]
  refine foldlM_induction (R := fun pre l => (∀ x ∈ pre, ¬ ActsOn x.1 key) → l.status? key = c.status? key)
    a.actAll (fun _ => rfl) ?_ h
  intro pre x l l' hR hstep hpre
  have hacts := updateChainTipWithDelegationBond_eq_ok.mp hstep
  rw [← hR fun y hy => hpre y (mem_append_left _ hy)]
  by_cases hkey : x.1.arg32_0 = key
  · have hidle : ¬ x.1.kind.actsOnBond := fun hk => hpre x (by simp) ⟨hk, hkey⟩
    rw [← hkey, acts_status_self hacts, applied_of_not_acts (by simpa using hidle)]
  · exact acts_status_of_ne hacts hkey

/-! ### Chains on time -/

def MarkedBy (actions : List (ℕ × StakingAction)) (key : BondKey) (height : ℕ) : Prop :=
  ∀ x ∈ actions, x.2.arg32_0 = key → Marks x.2 → x.1 ≤ height

/-- A chain on some blocks. The location of a bond is not below any mark on it, unless the bond was withdrawn before the
first block of the chain. -/
structure OnTime (lower : List Block) (c : Chain) : Prop where
  sorted : (lower ++ c.blocks.map (·.toBlock)).Pairwise fun b b' => b.height < b'.height
  timely : Timely (timedActions (lower ++ c.blocks.map (·.toBlock)))
  located : ∀ (key : BondKey) bond status, c.delegationBonds[key]? = some (bond, status) →
    MarkedBy (timedActions (lower ++ c.blocks.map (·.toBlock))) key bond.createdAt.height ∨
      status = .withdrawn ∧ ∀ b ∈ c.blocks, ∀ x ∈ b.actions, ¬ ActsOn x.1 key

variable {lower : List Block} {db : ZebraDb}

theorem height_lt_nextHeight
    (h : (db.blocks ++ c.blocks.map (·.toBlock)).Pairwise fun b b' => b.height < b'.height) :
    ∀ b ∈ db.blocks ++ c.blocks.map (·.toBlock), b.height < c.nextHeight db := by
  have hlast : c.nextHeight db =
      ((db.blocks ++ c.blocks.map (·.toBlock)).getLast?.map (·.height)).elim 0 (· + 1) := by
    unfold Chain.nextHeight
    simp only [getLast?_append, Option.map_or, getLast?_map, Option.map_map]
    rfl
  rw [hlast]
  rcases eq_nil_or_concat' (db.blocks ++ c.blocks.map (·.toBlock)) with hnil | ⟨blocks, tip, htip⟩
  · rw [hnil]
    simp
  · rw [htip] at h ⊢
    intro b hb
    rw [getLast?_concat, Option.map_some, Option.elim_some]
    rcases mem_append.mp hb with hb | hb
    · have := (pairwise_append.mp h).2.2 b hb tip (by simp)
      omega
    · rw [mem_singleton.mp hb]
      omega

theorem mem_timedActions (h : x ∈ timedActions blocks) :
    ∃ b ∈ blocks, b.height = x.1 ∧ ∃ i, (x.2, i) ∈ b.actions := by
  obtain ⟨b, hb, hx⟩ := mem_flatMap.mp h
  obtain ⟨a, ha, rfl⟩ := mem_map.mp hx
  exact ⟨b, hb, rfl, a.2, ha⟩

theorem mem_actions {b : Block} (h : x ∈ b.actions) :
    ∃ t ∈ b.transactions, t.2.stakingAction = some x.1 := by
  obtain ⟨t, ht, hx⟩ := mem_filterMap.mp h
  obtain ⟨action, haction, rfl⟩ := Option.map_eq_some_iff.mp hx
  exact ⟨t.1, (mem_zipIdx' ht).2 ▸ getElem_mem _, haction⟩

/-- No transaction with a mark comes from the mempool, and the best chain has the bonds that the block unbonds or withdraws
at the heights at which the chain that it extends has them. -/
structure VerifiedOn (node : Node) (c : Chain) (b : Block) : Prop where
  checked : ∀ t ∈ b.transactions, ∀ action, t.2.stakingAction = some action → Marks action → node.mempool t.1 = none
  view : ∀ x ∈ b.actions, Exits x.1 →
    (node.bondInfo x.1.arg32_0).map (·.lastActionHeight) = (c.location? x.1.arg32_0).map (·.height)

theorem VerifiedOn.passed (h : VerifiedOn node c b)
    (hpass : ∀ t ∈ b.transactions, PassesStaking node (blockRequest b t)) (hx : x ∈ b.actions) (hmarks : Marks x.1) :
    b.height % stakingDayPeriod < stakingDayWindow ∧
      (Exits x.1 → ∃ bs, c.delegationBonds[x.1.arg32_0]? = some bs ∧
        bs.1.createdAt.height + stakingActionDelayBlocks ≤ b.height) := by
  obtain ⟨t, ht, haction⟩ := mem_actions hx
  have hfind : findVerifiedUnminedTx node (blockRequest b t) = none := by
    unfold findVerifiedUnminedTx
    simp [blockRequest, h.checked t ht x.1 haction hmarks]
  obtain ⟨hwindow, hdelay⟩ :=
    ((passesStaking_block.mp (hpass t ht)).resolve_left (not_not.mpr hfind)) x.1 haction
  refine ⟨hwindow.resolve_left ?_, fun hexit => ?_⟩
  · rcases hmarks with hk | hexit
    · simp [hk]
    · exact not_retarget hexit
  · obtain ⟨info, hinfo, hle⟩ := hdelay hexit
    have hview := h.view x hx hexit
    rw [hinfo, Option.map_some] at hview
    obtain ⟨location, hlocation, hheight⟩ := Option.map_eq_some_iff.mp hview.symm
    obtain ⟨bs, hbs, rfl⟩ := Option.map_eq_some_iff.mp hlocation
    exact ⟨bs, hbs, hheight ▸ hle⟩

theorem Exits.actsOnBond (h : Exits action) : action.kind.actsOnBond := by
  rcases h with h | h <;> rw [h] <;> rfl

section Block

variable {node : Node} {block : Block}

theorem VerifiedOn.spaced (hverified : VerifiedOn node c block)
    (hpass : ∀ t ∈ block.transactions, PassesStaking node (blockRequest block t))
    (hfits : ∀ x ∈ block.actions, Fits c.delegationBonds x.1) :
    (block.actions.map fun a => (block.height, a.1)).Pairwise Spaced := by
  refine pairwise_map.mpr (pairwise_of_forall_mem_list ?_)
  intro x hx y hy hkey hkinds
  exfalso
  dsimp only at hkey hkinds
  rcases hkinds with ⟨hcreate, hunbond⟩ | ⟨hunbond, hwithdraw⟩
  · obtain ⟨bs, hbs, -⟩ := (hverified.passed hpass hy (.inr (.inl hunbond))).2 (.inl hunbond)
    rw [← hkey, (hfits x hx).create hcreate] at hbs
    cases hbs
  · obtain ⟨bond, hbond⟩ := (hfits y hy).withdraw hwithdraw
    rw [← hkey] at hbond
    rcases (hfits x hx).unbond hunbond with hnone | ⟨bond', hactive⟩
    · rw [hnone] at hbond
      cases hbond
    · rw [hactive] at hbond
      cases hbond

theorem OnTime.spaced (h : OnTime lower c) (hverified : VerifiedOn node c block)
    (hpass : ∀ t ∈ block.transactions, PassesStaking node (blockRequest block t))
    (hfits : ∀ x ∈ block.actions, Fits c.delegationBonds x.1)
    (hx : x ∈ timedActions (lower ++ c.blocks.map (·.toBlock))) (hy : y ∈ block.actions) :
    Spaced x (block.height, y.1) := by
  intro hkey hkinds
  have hexit : Exits y.1 := hkinds.imp And.right And.right
  have hmark : Marks x.2 := hkinds.elim (fun hk => .inl hk.1) fun hk => .inr (.inl hk.1)
  obtain ⟨bs, hbs, hle⟩ := (hverified.passed hpass hy (.inr hexit)).2 hexit
  rcases h.located _ _ _ hbs with hmarked | ⟨hwithdrawn, -⟩
  · have := hmarked x hx hkey hmark
    show x.1 + stakingActionDelayBlocks ≤ block.height
    omega
  · exact absurd ⟨hexit.actsOnBond, rfl⟩ ((hfits y hy).not_withdrawn (hbs.trans (by rw [← hwithdrawn])))

end Block

theorem Accepted.located (a : Accepted checks c offer c') (hearlier : ∀ x ∈ earlier, x.1 ≤ offer.block.height)
    (hbond : c'.delegationBonds[key]? = some (bond, status))
    (h : ∀ bond status, c.delegationBonds[key]? = some (bond, status) → MarkedBy earlier key bond.createdAt.height ∨ status = .withdrawn ∧ ∀ b ∈ c.blocks, ∀ x ∈ b.actions, ¬ ActsOn x.1 key) :
    MarkedBy (earlier ++ offer.block.actions.map fun a => (offer.block.height, a.1)) key bond.createdAt.height ∨
      status = .withdrawn ∧ ∀ b ∈ c'.blocks, ∀ x ∈ b.actions, ¬ ActsOn x.1 key := by
  have hall : ∀ x ∈ earlier ++ offer.block.actions.map (fun a => (offer.block.height, a.1)),
      x.1 ≤ offer.block.height := by
    intro x hx
    rcases mem_append.mp hx with hx | hx
    · exact hearlier x hx
    · obtain ⟨y, -, rfl⟩ := mem_map.mp hx
      exact le_rfl
  have hlocation : c'.location? key = some bond.createdAt := by
    rw [location?, hbond]
    rfl
  by_cases hat : bond.createdAt.height = offer.block.height
  · exact .inl fun x hx _ _ => hat ▸ hall x hx
  · obtain ⟨⟨bond₀, status₀⟩, hbond₀, hsame⟩ := Option.map_eq_some_iff.mp
      ((a.locates.bound key _ hlocation).resolve_left hat)
    have hnomark : ∀ x ∈ offer.block.actions, x.1.arg32_0 = key → ¬ Marks x.1 := by
      rintro x hx rfl (hk | hexit)
      · rw [(a.fits x hx).create hk] at hbond₀
        cases hbond₀
      · obtain ⟨p, s, hsplit⟩ := append_of_mem hx
        obtain ⟨-, location, hloc, hheight⟩ := a.locates.exited p x s hsplit hexit
        rw [hlocation] at hloc
        exact hat (Option.some.inj hloc ▸ hheight)
    rcases h bond₀ status₀ hbond₀ with hmarked | ⟨rfl, hidle⟩
    · refine .inl fun x hx hkey hmarks => ?_
      rcases mem_append.mp hx with hx | hx
      · rw [← hsame]
        exact hmarked x hx hkey hmarks
      · obtain ⟨y, hy, rfl⟩ := mem_map.mp hx
        exact absurd hmarks (hnomark y hy hkey)
    · have hnot : ∀ x ∈ offer.block.actions, ¬ ActsOn x.1 key := fun x hx => (a.fits x hx).not_withdrawn hbond₀
      have hstatus := a.status_of_not_actsOn hnot
      rw [status?, status?, hbond, hbond₀] at hstatus
      refine .inr ⟨Option.some.inj hstatus, fun b hb x hx => ?_⟩
      rw [a.indexed.2.2.1] at hb
      rcases mem_append.mp hb with hb | hb
      · exact hidle b hb x hx
      · rw [mem_singleton.mp hb, a.actions_eq.1] at hx
        exact hnot x hx

theorem OnTime.accept (h : OnTime db.blocks c) (hverified : VerifiedOn node c block)
    (hpass : ∀ t ∈ block.transactions, PassesStaking node (blockRequest block t))
    (haccept : c.accept checks ⟨db, block, spent⟩ = .ok c') : OnTime db.blocks c' := by
  obtain ⟨a⟩ := Chain.accept_eq_ok haccept
  have hheight : block.height = c.nextHeight db := a.height_eq
  have hbelow := height_lt_nextHeight h.sorted
  have hblocks : db.blocks ++ c'.blocks.map (·.toBlock) = (db.blocks ++ c.blocks.map (·.toBlock)) ++ [block] := by
    rw [a.indexed.2.2.1, map_append, map_singleton, (Chain.withBlockAndSpentUtxos_eq_ok a.block_eq).1,
      append_assoc]
  have hactions : timedActions (db.blocks ++ c'.blocks.map (·.toBlock)) =
      timedActions (db.blocks ++ c.blocks.map (·.toBlock)) ++ block.actions.map fun a => (block.height, a.1) := by
    rw [hblocks, timedActions_append, timedActions_singleton]
  have hfits : ∀ x ∈ block.actions, Fits c.delegationBonds x.1 := a.fits
  refine ⟨?_, ⟨?_, ?_⟩, ?_⟩
  · rw [hblocks, pairwise_append]
    refine ⟨h.sorted, pairwise_singleton _ _, ?_⟩
    intro b hb b' hb'
    rw [mem_singleton.mp hb', hheight]
    exact hbelow b hb
  · rw [hactions]
    intro x hx hmarks
    rcases mem_append.mp hx with hx | hx
    · exact h.timely.window x hx hmarks
    · obtain ⟨y, hy, rfl⟩ := mem_map.mp hx
      exact (hverified.passed hpass hy hmarks).1
  · rw [hactions, pairwise_append]
    refine ⟨h.timely.spaced, hverified.spaced hpass hfits, ?_⟩
    intro x hx y hy
    obtain ⟨y, hy', rfl⟩ := mem_map.mp hy
    exact h.spaced hverified hpass hfits hx hy'
  · intro key bond status hbond
    rw [hactions]
    refine a.located ?_ hbond fun bond₀ status₀ => h.located key bond₀ status₀
    intro x hx
    obtain ⟨b, hb, heq, -⟩ := mem_timedActions hx
    have := hbelow b hb
    show x.1 ≤ block.height
    omega

/-! ### Forks -/

theorem status?_of_insert {l l' : Ledger} (hbond : l.delegationBonds[k]? = some (bond, status))
    (hl' : l'.delegationBonds = l.delegationBonds.insert k (bond', status)) (key : BondKey) :
    l'.status? key = l.status? key := by
  rw [status?, hl', ExtTreeMap.getElem?_insert]
  split_ifs with heq
  · rw [← compare_eq_iff_eq.mp heq, status?, hbond]
    rfl
  · rfl

theorem revertReward_status {l l' : Ledger} (h : l.revertReward kr = .ok l') (key : BondKey) :
    l'.status? key = l.status? key := by
  unfold revertReward at h
  obtain ⟨⟨bond, status⟩, hbond, h⟩ := bind_eq_ok.mp h
  obtain ⟨reward, -, h⟩ := bind_eq_ok.mp h
  obtain ⟨amount, -, h⟩ := bind_eq_ok.mp h
  obtain ⟨bonded, -, h⟩ := bind_eq_ok.mp h
  obtain rfl := pure_eq_ok.mp h
  exact status?_of_insert (unwrap_eq_ok.mp hbond) rfl key

theorem revertRetarget_status {l l' : Ledger} (h : l.revertRetarget kt = .ok l') (key : BondKey) :
    l'.status? key = l.status? key := by
  unfold revertRetarget at h
  obtain ⟨⟨bond, status⟩, hbond, h⟩ := bind_eq_ok.mp h
  obtain rfl := pure_eq_ok.mp h
  exact status?_of_insert (unwrap_eq_ok.mp hbond) rfl key

theorem revertDelegationBond_status {l l' : Ledger} (h : l.revertDelegationBond action = .ok l')
    (hnot : ¬ ActsOn action key) : l'.status? key = l.status? key := by
  have hne : action.kind.actsOnBond → action.arg32_0 ≠ key := fun hk heq => hnot ⟨hk, heq⟩
  unfold revertDelegationBond at h
  dsimp only at h
  split at h
  next hk =>
    obtain ⟨⟨⟩, -, h⟩ := bind_eq_ok.mp h
    obtain rfl := pure_eq_ok.mp h
    simp [status?, ExtTreeMap.getElem?_erase, hne (by rw [hk]; rfl)]
  next hk =>
    obtain ⟨⟨bond, status⟩, hbond, h⟩ := bind_eq_ok.mp h
    obtain ⟨⟨⟩, -, h⟩ := bind_eq_ok.mp h
    obtain ⟨bonded, -, h⟩ := bind_eq_ok.mp h
    obtain ⟨unbonded, -, h⟩ := bind_eq_ok.mp h
    obtain rfl := pure_eq_ok.mp h
    simp [status?, ExtTreeMap.getElem?_insert, hne (by rw [hk]; rfl)]
  next hk =>
    obtain ⟨⟨bond, status⟩, hbond, h⟩ := bind_eq_ok.mp h
    obtain ⟨⟨⟩, -, h⟩ := bind_eq_ok.mp h
    obtain rfl := pure_eq_ok.mp h
    simp [status?, ExtTreeMap.getElem?_insert, hne (by rw [hk]; rfl)]
  next =>
    obtain rfl := pure_eq_ok.mp h
    rfl

theorem popTip_status (h : c.popTip = .ok x) (hb : c.blocks.getLast? = some b)
    (hnot : ∀ a ∈ b.actions, ¬ ActsOn a.1 key) :
    x.status? key = c.status? key := by
  obtain ⟨b', l₁, l₂, l₃, hb', -, h₁, h₂, h₃, h₄⟩ := popTip_inv h
  have hbonds := revertChainValuePools_bonds h₄
  obtain rfl := Option.some.inj (hb.symm.trans hb')
  unfold revertRewards at h₁
  obtain ⟨rewards, -, h₁⟩ := bind_eq_ok.mp h₁
  unfold revertRetargets at h₂
  obtain ⟨retargets, -, h₂⟩ := bind_eq_ok.mp h₂
  have hrewards : l₁.status? key = c.status? key :=
    foldlM_induction (R := fun _ l => l.status? key = c.status? key) h₁ rfl
      fun _ _ _ _ hl hstep => (revertReward_status hstep key).trans hl
  have hretargets : l₂.status? key = l₁.status? key :=
    foldlM_induction (R := fun _ l => l.status? key = l₁.status? key) h₂ rfl
      fun _ _ _ _ hl hstep => (revertRetarget_status hstep key).trans hl
  have hactions : l₃.status? key = l₂.status? key := by
    refine foldlM_induction (R := fun pre l => (∀ a ∈ pre, ¬ ActsOn a.1 key) → l.status? key = l₂.status? key) h₃
      (fun _ => rfl) ?_ hnot
    intro pre a l l' hR hstep hpre
    rw [revertDelegationBond_status hstep (hpre a (by simp))]
    exact hR fun y hy => hpre y (mem_append_left _ hy)
  rw [status?, hbonds]
  exact hactions.trans (hretargets.trans hrewards)

theorem OnTime.popTip (h : OnTime lower c) (hpop : c.popTip = .ok x) : OnTime lower x := by
  obtain ⟨b, l, l', hb, hblocks, hkeeps, hrevert, hlocations⟩ := popTip_locations hpop
  obtain ⟨blocks, hc⟩ := getLast?_eq_some_iff.mp hb
  rw [hc, dropLast_concat] at hblocks
  have hall : lower ++ c.blocks.map (·.toBlock) = (lower ++ x.blocks.map (·.toBlock)) ++ [b.toBlock] := by
    rw [hc, hblocks, map_append, append_assoc]
    rfl
  have hsorted := h.sorted
  have htimely := h.timely
  rw [hall] at hsorted htimely
  rw [timedActions_append] at htimely
  refine ⟨(pairwise_append.mp hsorted).1, htimely.left, ?_⟩
  intro key bond status hbond
  have hlocation : c.location? key = some bond.createdAt := by
    refine hkeeps _ _ (revertAll_locations hrevert _ _ ((hlocations key).symm.trans ?_))
    rw [location?, hbond]
    rfl
  obtain ⟨⟨bond₀, status₀⟩, hbond₀, hsame⟩ := Option.map_eq_some_iff.mp hlocation
  rcases h.located key bond₀ status₀ hbond₀ with hmarked | ⟨rfl, hidle⟩
  · refine .inl fun y hy => hsame ▸ hmarked y ?_
    rw [hall, timedActions_append]
    exact mem_append_left _ hy
  · have hstatus := popTip_status hpop hb (hidle b (mem_of_getLast? hb))
    rw [status?, status?, hbond, hbond₀] at hstatus
    refine .inr ⟨Option.some.inj hstatus, fun b' hb' => hidle b' ?_⟩
    rw [hc]
    exact mem_append_left _ (hblocks ▸ hb')

theorem OnTime.popTo {hash : Bft.BlockHash} (h : OnTime lower c) (hpop : Chain.popTo hash fuel c = .ok x) :
    OnTime lower x := by
  induction fuel generalizing c with
  | zero => cases hpop
  | succ fuel ih =>
    obtain ⟨tip, -, hpop⟩ := bind_eq_ok.mp hpop
    split_ifs at hpop
    · exact pure_eq_ok.mp hpop ▸ h
    · obtain ⟨c₁, hc₁, hpop⟩ := bind_eq_ok.mp hpop
      exact ih (h.popTip hc₁) hpop

theorem OnTime.fork {hash : Bft.BlockHash} (h : OnTime lower c) (hfork : c.fork hash = .ok (some x)) :
    OnTime lower x := by
  unfold Chain.fork at hfork
  split_ifs at hfork
  · cases pure_eq_ok.mp hfork
  · obtain ⟨x', hpop, hfork⟩ := bind_eq_ok.mp hfork
    obtain rfl := Option.some.inj (pure_eq_ok.mp hfork)
    exact h.popTo hpop

/-! ### The database -/

/-- The location of a bond that is still active is not below any mark on it. -/
def ActiveLocated (actions : List (ℕ × StakingAction)) (w : FinalizedBonds) : Prop :=
  ∀ (key : BondKey) row, w.delegationBondByKey[key]? = some row → w.bondStatusByKey[key]? = some .active →
    MarkedBy actions key row.createdAt.height

/-- The rows that a batch reads have the locations that it has written. -/
def SameLocations (w : FinalizedBonds) (created : ExtTreeMap BondKey DelegationBond) (written : FinalizedBonds) : Prop :=
  ∀ key, (currentBond w created key).map (·.createdAt) = written.delegationBondByKey[key]?.map (·.createdAt)

section Batch

variable {w : FinalizedBonds} {actions : List (ℕ × StakingAction)} {height : ℕ} {batch batch' : BondBatch}
  {x : StakingAction × ℕ}

theorem MarkedBy.snoc (h : MarkedBy actions key n) (hy : y.2.arg32_0 = key → Marks y.2 → y.1 ≤ n) :
    MarkedBy (actions ++ [y]) key n := by
  intro z hz
  rcases mem_append.mp hz with hz | hz
  · exact h z hz
  · rw [mem_singleton.mp hz]
    exact hy

theorem SameLocations.insert {created : ExtTreeMap BondKey DelegationBond} {written : FinalizedBonds}
    (h : SameLocations w created written) (k : BondKey) (bond : DelegationBond)
    (status : ExtTreeMap BondKey BondStatus) :
    SameLocations w (created.insert k bond) ⟨written.delegationBondByKey.insert k bond, status⟩ := by
  intro key
  have hkey := h key
  unfold currentBond at hkey ⊢
  rw [ExtTreeMap.getElem?_insert, ExtTreeMap.getElem?_insert]
  split_ifs
  · rfl
  · exact hkey

theorem ActiveLocated.step (h : ActiveLocated actions batch.written)
    (hsame : SameLocations w batch.bondsCreatedInBlock batch.written) (hbelow : ∀ y ∈ actions, y.1 ≤ height)
    (hstep : prepareAction w height batch x = .ok batch') :
    ActiveLocated (actions ++ [(height, x.1)]) batch'.written ∧
      SameLocations w batch'.bondsCreatedInBlock batch'.written := by
  have hexit : ∀ status, status ≠ .active → batch' = { batch with
      written := { batch.written with bondStatusByKey := batch.written.bondStatusByKey.insert x.1.arg32_0 status } } →
      ActiveLocated (actions ++ [(height, x.1)]) batch'.written ∧
        SameLocations w batch'.bondsCreatedInBlock batch'.written := by
    rintro status hstatus rfl
    refine ⟨?_, hsame⟩
    intro key row hrow hactive
    rw [ExtTreeMap.getElem?_insert] at hactive
    split_ifs at hactive with heq
    · exact absurd (Option.some.inj hactive) hstatus
    · exact (h key row hrow hactive).snoc fun hkey => absurd (compare_eq_iff_eq.mpr hkey) heq
  have hidle : ¬ Marks x.1 → ActiveLocated (actions ++ [(height, x.1)]) batch.written := fun hmarks key row hrow hactive =>
    (h key row hrow hactive).snoc fun _ hmarks' => absurd hmarks' hmarks
  unfold prepareAction at hstep
  split at hstep
  next hk =>
    obtain ⟨amount, -, hstep⟩ := bind_eq_ok.mp hstep
    obtain rfl := pure_eq_ok.mp hstep
    refine ⟨?_, hsame.insert _ _ _⟩
    intro key row hrow hactive
    simp only [prepareNewDelegationBond, ExtTreeMap.getElem?_insert] at hrow hactive
    split_ifs at hrow hactive with heq
    · obtain rfl := Option.some.inj hrow
      have hmarked : MarkedBy actions key height := fun y hy _ _ => hbelow y hy
      exact hmarked.snoc fun _ _ => le_rfl
    · exact (h key row hrow hactive).snoc fun hkey => absurd (compare_eq_iff_eq.mpr hkey) heq
  next hk => exact hexit _ (by nofun) (prepareStatus_eq_ok hstep).2
  next hk => exact hexit _ (by nofun) (prepareStatus_eq_ok hstep).2
  next hk =>
    have hmarks : ¬ Marks x.1 := by
      rintro (h | h | h) <;> rw [hk] at h <;> cases h
    unfold prepareRetargetDelegationBond at hstep
    split at hstep
    · cases hstep
    next bond hbond =>
      obtain rfl := Except.ok.inj hstep
      refine ⟨?_, hsame.insert _ _ _⟩
      intro key row hrow hactive
      rw [ExtTreeMap.getElem?_insert] at hrow
      split_ifs at hrow with heq
      · obtain rfl := compare_eq_iff_eq.mp heq
        have hlocation := hsame x.1.arg32_0
        rw [hbond, Option.map_some] at hlocation
        obtain ⟨row₀, hrow₀, hloc⟩ := Option.map_eq_some_iff.mp hlocation.symm
        rw [← Option.some.inj hrow]
        exact hloc ▸ hidle hmarks _ row₀ hrow₀ hactive
      · exact hidle hmarks key row hrow hactive
  next hcreate hunbond hwithdraw hretarget =>
    obtain rfl := Except.ok.inj hstep
    refine ⟨hidle ?_, hsame⟩
    rintro (h | h | h)
    exacts [hcreate h, hunbond h, hwithdraw h]

theorem ActiveLocated.reward (h : ActiveLocated actions written) (hsame : SameLocations w created written)
    (hstep : prepareReward w created written kr = .ok written') :
    ActiveLocated actions written' ∧ SameLocations w created written' := by
  unfold prepareReward at hstep
  split at hstep
  · obtain rfl := Except.ok.inj hstep
    exact ⟨h, hsame⟩
  next bond hbond =>
    obtain ⟨reward, -, hstep⟩ := bind_eq_ok.mp hstep
    obtain ⟨amount, -, hstep⟩ := bind_eq_ok.mp hstep
    obtain rfl := pure_eq_ok.mp hstep
    have hlocation := hsame kr.1
    rw [hbond, Option.map_some] at hlocation
    refine ⟨?_, ?_⟩
    · intro key row hrow hactive
      rw [ExtTreeMap.getElem?_insert] at hrow
      split_ifs at hrow with heq
      · obtain rfl := compare_eq_iff_eq.mp heq
        obtain ⟨row₀, hrow₀, hloc⟩ := Option.map_eq_some_iff.mp hlocation.symm
        rw [← Option.some.inj hrow]
        exact hloc ▸ h _ row₀ hrow₀ hactive
      · exact h key row hrow hactive
    · intro key
      rw [ExtTreeMap.getElem?_insert]
      split_ifs with heq
      · rw [← compare_eq_iff_eq.mp heq, hbond]
        rfl
      · exact hsame key

theorem ActiveLocated.prepared (h : ActiveLocated actions w) (hbelow : ∀ y ∈ actions, y.1 ≤ popped.block.height)
    (hbatch : prepareDelegationBondsBatch w popped = .ok w') :
    ActiveLocated (actions ++ popped.block.actions.map fun a => (popped.block.height, a.1)) w' := by
  unfold prepareDelegationBondsBatch at hbatch
  obtain ⟨batch, hactions, hrewards⟩ := bind_eq_ok.mp hbatch
  have hmid : ActiveLocated (actions ++ popped.block.actions.map fun a => (popped.block.height, a.1)) batch.written ∧
      SameLocations w batch.bondsCreatedInBlock batch.written := by
    refine foldlM_induction (R := fun pre batch =>
      ActiveLocated (actions ++ pre.map fun a => (popped.block.height, a.1)) batch.written ∧
        SameLocations w batch.bondsCreatedInBlock batch.written) hactions ?_ ?_
    · refine ⟨by simpa using h, fun key => ?_⟩
      simp [currentBond]
    · intro pre x batch₁ batch₂ hpre hstep
      rw [map_append, ← append_assoc]
      refine hpre.1.step hpre.2 ?_ hstep
      intro y hy
      rcases mem_append.mp hy with hy | hy
      · exact hbelow y hy
      · obtain ⟨z, -, rfl⟩ := mem_map.mp hy
        exact le_rfl
  exact (foldlM_induction (R := fun _ written => ActiveLocated _ written ∧
      SameLocations w batch.bondsCreatedInBlock written) hrewards hmid
    fun _ kr w₁ w₂ hw hstep => hw.1.reward hw.2 hstep).1

end Batch

theorem ActiveLocated.writeBlock (h : ActiveLocated (timedActions db.blocks) db.toFinalizedBonds)
    (hbelow : ∀ b ∈ db.blocks, b.height ≤ popped.block.height) (hwrite : db.writeBlock checks popped = .ok db') :
    ActiveLocated (timedActions db'.blocks) db'.toFinalizedBonds := by
  have hblocks := Storage.writeBlock_blocks hwrite
  have hearlier : ∀ y ∈ timedActions db.blocks, y.1 ≤ popped.block.height := by
    intro y hy
    obtain ⟨b, hb, heq, -⟩ := mem_timedActions hy
    exact heq ▸ hbelow b hb
  rw [hblocks, timedActions_append, timedActions_singleton]
  unfold ZebraDb.writeBlock at hwrite
  obtain ⟨bonds, hbonds, hwrite⟩ := bind_eq_ok.mp hwrite
  obtain ⟨pool, -, hwrite⟩ := bind_eq_ok.mp hwrite
  obtain rfl := pure_eq_ok.mp hwrite
  split_ifs at hbonds with hzero
  · -- marks of the genesis block are at height 0
    obtain rfl := pure_eq_ok.mp hbonds
    intro key row hrow hactive x hx hkey hmarks
    rcases mem_append.mp hx with hx | hx
    · exact h key row hrow hactive x hx hkey hmarks
    · obtain ⟨y, -, rfl⟩ := mem_map.mp hx
      exact hzero.le.trans (Nat.zero_le _)
  · exact h.prepared hearlier (mapError_eq_ok.mp hbonds)

/-! ### Runs -/

structure Timeline.OnTime (s : Timeline) : Prop where
  chain : State.OnTime s.db.blocks s.chain
  active : ActiveLocated (timedActions s.db.blocks) s.db.toFinalizedBonds

theorem Timeline.OnTime.finalize {s : Timeline} (h : s.OnTime) (hpop : s.chain.popRoot = .ok (popped, c'))
    (hwrite : s.db.writeBlock checks popped = .ok db') :
    Timeline.OnTime ⟨db', c'⟩ := by
  obtain ⟨hroot, -, hsnapshot⟩ := popRoot_eq_ok hpop
  have hbonds : c'.delegationBonds = s.chain.delegationBonds := congrArg Snapshot.bonds hsnapshot
  have hblocks := Storage.writeBlock_blocks hwrite
  have hall : db'.blocks ++ c'.blocks.map (·.toBlock) = s.db.blocks ++ s.chain.blocks.map (·.toBlock) := by
    rw [hblocks, hroot, append_assoc]
    rfl
  refine ⟨⟨hall ▸ h.chain.sorted, hall ▸ h.chain.timely, ?_⟩, h.active.writeBlock ?_ hwrite⟩
  · intro key bond status hbond
    rw [hall]
    refine (h.chain.located key bond status (hbonds ▸ hbond)).imp_right ?_
    rintro ⟨rfl, hidle⟩
    exact ⟨rfl, fun b hb => hidle b (hroot ▸ mem_cons_of_mem _ hb)⟩
  · intro b hb
    refine ((pairwise_append.mp h.chain.sorted).2.2 b hb popped.block.toBlock ?_).le
    rw [hroot]
    exact mem_cons_self

theorem Timeline.OnTime.rebuild {s : Timeline} (h : s.OnTime)
    (hnone : ∀ (key : BondKey) location, s.db.bondStatusByKey[key]? ≠ some (.unbonding location)) :
    Timeline.OnTime { s with chain := Chain.new s.db } := by
  have hnew : s.db.blocks ++ (Chain.new s.db).blocks.map (·.toBlock) = s.db.blocks := append_nil _
  have htimely := h.chain.timely
  rw [timedActions_append] at htimely
  refine ⟨⟨?_, ?_, ?_⟩, h.active⟩
  · rw [hnew]
    exact (pairwise_append.mp h.chain.sorted).1
  · rw [hnew]
    exact htimely.left
  · intro key bond status hbond
    rw [hnew]
    replace hbond : (Chain.finalizedBonds s.db.toFinalizedBonds)[key]? = some (bond, status) := hbond
    rw [finalizedBonds_getElem?] at hbond
    obtain ⟨status₀, hstatus₀, hbond⟩ := Option.bind_eq_some_iff.mp hbond
    obtain ⟨row, hrow, heq⟩ := Option.map_eq_some_iff.mp hbond
    obtain ⟨rfl, rfl⟩ := Prod.mk.inj heq
    cases status₀ with
    | active => exact .inl (h.active key row hrow hstatus₀)
    | unbonding location => exact absurd hstatus₀ (hnone key location)
    | withdrawn location => exact .inr ⟨rfl, by simp [Chain.new]⟩

/-- What a step needs: a block is verified with the locations of the chain that it extends, and a chain is built anew only
from a database with no bond that is unbonding. -/
def Timeline.Observes (s : Timeline) : TimelineEvent → Prop
  | .accept node block _ => VerifiedOn node s.chain block
  | .rebuild => ∀ (key : BondKey) location, s.db.bondStatusByKey[key]? ≠ some (.unbonding location)
  | _ => True

theorem Timeline.OnTime.step {s s' : Timeline} {e : TimelineEvent} (h : s.OnTime) (hobserves : s.Observes e)
    (hstep : s.step checks e = .ok s') : s'.OnTime := by
  cases e with
  | accept node block spent =>
    obtain ⟨⟨⟩, hpass, hstep⟩ := bind_eq_ok.mp hstep
    obtain ⟨chain, haccept, hstep⟩ := bind_eq_ok.mp hstep
    obtain rfl := pure_eq_ok.mp hstep
    split_ifs at hpass with hall
    exact ⟨h.chain.accept hobserves hall (mapError_eq_ok.mp haccept), h.active⟩
  | fork hash =>
    rcases hfork : s.chain.fork hash with _ | _ | chain <;> simp only [Timeline.step, hfork] at hstep
    · cases hstep
    · cases hstep
    · obtain rfl := Except.ok.inj hstep
      exact ⟨h.chain.fork hfork, h.active⟩
  | finalize =>
    obtain ⟨⟨popped, chain⟩, hpop, hstep⟩ := bind_eq_ok.mp hstep
    obtain ⟨db', hwrite, hstep⟩ := bind_eq_ok.mp hstep
    obtain rfl := pure_eq_ok.mp hstep
    exact h.finalize (mapError_eq_ok.mp hpop) (mapError_eq_ok.mp hwrite)
  | rebuild =>
    obtain rfl := Except.ok.inj hstep
    exact h.rebuild hobserves

/-- A database from before the first staking action. -/
structure ZebraDb.Unstaked (db : ZebraDb) : Prop where
  sorted : db.blocks.Pairwise fun b b' => b.height < b'.height
  actions : ∀ b ∈ db.blocks, b.actions = []
  bonds : db.toFinalizedBonds = ⟨∅, ∅⟩

theorem ZebraDb.Unstaked.onTime (h : db.Unstaked) : Timeline.OnTime ⟨db, Chain.new db⟩ := by
  have hnew : db.blocks ++ (Chain.new db).blocks.map (·.toBlock) = db.blocks := append_nil _
  have hactions : timedActions db.blocks = [] := by
    refine flatMap_eq_nil_iff.mpr fun b hb => ?_
    rw [h.actions b hb]
    rfl
  have hbonds : (Chain.new db).delegationBonds = Chain.finalizedBonds ⟨∅, ∅⟩ := congrArg Chain.finalizedBonds h.bonds
  refine ⟨⟨?_, ?_, ?_⟩, ?_⟩
  · rw [hnew]
    exact h.sorted
  · rw [hnew, hactions]
    exact ⟨by simp, List.Pairwise.nil⟩
  · intro key bond status hbond
    rw [hbonds, finalizedBonds_getElem?] at hbond
    simp at hbond
  · rw [h.bonds]
    intro key row hrow
    simp at hrow

/-- The staking delay and the window hold on a chain in every run that starts before the first staking action and whose
steps all observe the locations. -/
theorem timely_of_observes {events : List TimelineEvent} {s : Timeline} (hdb : db.Unstaked)
    (hobserves : ∀ pre e, pre ++ [e] <+: events → ∀ s, pre.foldlM (Timeline.step checks) ⟨db, Chain.new db⟩ = .ok s →
      s.Observes e)
    (h : events.foldlM (Timeline.step checks) ⟨db, Chain.new db⟩ = .ok s) : Timely (timedActions s.blocks) := by
  have honTime : s.OnTime := by
    induction events using List.reverseRecOn generalizing s with
    | nil => exact foldlM_nil_eq_ok.mp h ▸ hdb.onTime
    | append_singleton events e ih =>
      obtain ⟨s₁, h₁, h₂⟩ := foldlM_append_eq_ok.mp h
      obtain ⟨s₂, hstep, h₃⟩ := foldlM_cons_eq_ok.mp h₂
      obtain rfl := foldlM_nil_eq_ok.mp h₃
      refine (ih (fun pre e' hle => ?_) h₁).step (hobserves events e prefix_rfl s₁ h₁) hstep
      exact hobserves pre e' (hle.trans (prefix_append events [e]))
  exact honTime.chain.timely

theorem VerifiedOn.of_noExit (hmempool : ∀ hash, node.mempool hash = none) (hexits : NoExit b.actions) :
    VerifiedOn node c b :=
  ⟨fun t _ _ _ _ => hmempool t.1, fun x hx hexit => absurd hexit (hexits x hx)⟩

def unstakedDb : ZebraDb := sampleDb 149 .active []

theorem unstakedDb_unstaked : unstakedDb.Unstaked where
  sorted := pairwise_singleton _ _
  actions := by decide +kernel
  bonds := rfl

def Timeline.view (s : Timeline) : Node := ⟨fun _ => none, some s.chain.delegationBonds, fun _ _ => none⟩

/-- A bond is created at height 150 and retargeted at height 151, a fork takes the retarget off, the creation is
finalized, and the node restarts. -/
def createForkRestart : List TimelineEvent :=
  [.accept (Timeline.view ⟨unstakedDb, Chain.new unstakedDb⟩)
      (sampleBlock 150 [stakingTx .createNewDelegationBond 1 1000000000]) Table.empty,
    .accept (Timeline.view ⟨unstakedDb, Chain.new unstakedDb⟩)
      (sampleBlock 151 [stakingTx .retargetDelegationBond 1 0]) Table.empty,
    .fork (bytesNo 32 1150), .finalize, .rebuild]

theorem createForkRestart_timely : ∃ s, createForkRestart.foldlM (Timeline.step true) ⟨unstakedDb, Chain.new unstakedDb⟩ =
    .ok s ∧ Timely (timedActions s.blocks) := by
  obtain ⟨s, hs⟩ : ∃ s, createForkRestart.foldlM (Timeline.step true) ⟨unstakedDb, Chain.new unstakedDb⟩ = .ok s :=
    exists_ok_of_isSome (by decide +kernel)
  refine ⟨s, hs, timely_of_observes unstakedDb_unstaked ?_ hs⟩
  have hnone : ∀ pre ∈ createForkRestart.inits,
      ((pre.foldlM (Timeline.step true) ⟨unstakedDb, Chain.new unstakedDb⟩).toOption.all fun s =>
        s.db.bondStatusByKey.toList.all fun row => !row.2.isUnbonding) = true := by
    decide +kernel
  intro pre e hle s' hs'
  have he : e ∈ createForkRestart := hle.mem (by simp)
  simp only [createForkRestart, mem_cons, not_mem_nil, or_false] at he
  rcases he with rfl | rfl | rfl | rfl | rfl
  · exact .of_noExit (fun _ => rfl) (by decide +kernel)
  · exact .of_noExit (fun _ => rfl) (by decide +kernel)
  · trivial
  · trivial
  · intro key location hstatus
    have hrows := hnone pre (mem_inits _ _ |>.mpr ((prefix_append pre _).trans hle))
    rw [hs'] at hrows
    simp only [Except.toOption, Option.all_some, all_eq_true] at hrows
    have hrow := hrows _ (ExtTreeMap.mem_toList_iff_getElem?_eq_some.mpr hstatus)
    cases hrow

def lateTx : TxHash × Transaction := (bytesNo 32 70001, stakingTx .createNewDelegationBond 1 1000000000)

/-- A creation that was verified for the mempool at height 69 is accepted at height 70, and after the unbonding of height
150 was finalized and the node restarted, the withdrawal is accepted at height 151. -/
theorem delay_and_window_missed :
    (PassesStaking (Timeline.view ⟨sampleDb 68 .active [], Chain.new (sampleDb 68 .active [])⟩) (mempoolRequest lateTx 69) ∧
      ∃ s, Timeline.step true ⟨sampleDb 69 .active [], Chain.new (sampleDb 69 .active [])⟩
        (.accept ⟨fun hash => if hash = lateTx.1 then some (⟨lateTx.2, .zero⟩, []) else none, none, fun _ _ => none⟩
          (sampleBlock 70 [lateTx.2]) Table.empty) = .ok s ∧ ¬ Timely (timedActions s.blocks)) ∧
    ∃ s s', [.accept (Timeline.view ⟨activeDb, Chain.new activeDb⟩) Storage.unbondOnly Table.empty, .finalize, .rebuild].foldlM
        (Timeline.step true) ⟨activeDb, Chain.new activeDb⟩ = .ok s ∧
      Timeline.step true s (.accept s.view (sampleBlock 151 [stakingTx .withdrawDelegationBond 1 1000000000]) Table.empty) =
        .ok s' ∧ ¬ Timely (timedActions s'.blocks) := by
  refine ⟨⟨by decide +kernel, ?_⟩, ?_⟩
  · obtain ⟨s, hs, htimely⟩ := exists_ok_of_any (p := fun s => !decide (Timely (timedActions s.blocks)))
      (by decide +kernel : (Timeline.step true ⟨sampleDb 69 .active [], Chain.new (sampleDb 69 .active [])⟩
        (.accept ⟨fun hash => if hash = lateTx.1 then some (⟨lateTx.2, .zero⟩, []) else none, none, fun _ _ => none⟩
          (sampleBlock 70 [lateTx.2]) Table.empty)).toOption.any _ = true)
    exact ⟨s, hs, by simpa using htimely⟩
  · have heval : ([.accept (Timeline.view ⟨activeDb, Chain.new activeDb⟩) Storage.unbondOnly Table.empty, .finalize,
        .rebuild].foldlM (Timeline.step true) ⟨activeDb, Chain.new activeDb⟩).toOption.any (fun s =>
          (Timeline.step true s (.accept s.view (sampleBlock 151 [stakingTx .withdrawDelegationBond 1 1000000000])
            Table.empty)).toOption.any fun s' => !decide (Timely (timedActions s'.blocks))) = true := by
      decide +kernel
    obtain ⟨s, hs, heval⟩ := exists_ok_of_any heval
    obtain ⟨s', hs', htimely⟩ := exists_ok_of_any heval
    exact ⟨s, s', hs, hs', by simpa using htimely⟩

end Crosslink.State

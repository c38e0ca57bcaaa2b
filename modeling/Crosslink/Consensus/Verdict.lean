import Crosslink.Consensus.Verifier
import Crosslink.State.Fork

/-!
# The verdict on a staking action

What the verifier says of a staking action of a block: nothing is checked if the transaction is in the mempool, and
otherwise the window and the delay, with the bonds of the best chain. So the verdict is not a matter of the block's own
chain: `verdicts_agree_iff` says for which blocks all nodes that hold the ancestors agree.
-/

namespace Crosslink.Consensus

open Codec Fallible Staking State

def blockRequest (b : Block) (t : TxHash × Transaction) : Request where
  isMempool := false
  transactionHash := t.1
  transaction := t.2
  knownOutpointHashes := b.transactions.map Prod.fst
  knownUtxos := fun o => (b.newOutputs.lookup o).map Utxo.output
  height := b.height

def mempoolRequest (t : TxHash × Transaction) (height : ℕ) : Request where
  isMempool := true
  transactionHash := t.1
  transaction := t.2
  knownOutpointHashes := []
  knownUtxos := Table.empty
  height := height

def PassesStaking (node : Node) (req : Request) : Prop :=
  findVerifiedUnminedTx node req ≠ none ∨
    checkStakingDayWindow req.transaction req.height = .ok () ∧
      checkStakingActionDelay node req.transaction req.height = .ok ()

instance (node : Node) (req : Request) : Decidable (PassesStaking node req) := inferInstanceAs (Decidable (_ ∨ _))

def TransactionError.isStaking : TransactionError → Bool
  | .stakingActionOutsideWindow .. => true
  | .stakingActionBondNotFound .. => true
  | .stakingActionDelayNotMet .. => true
  | _ => false

theorem passesStaking_of_call (h : call others node req = .ok fee) : PassesStaking node req := by
  unfold call at h
  split at h
  next result hfind => exact .inl (by simp [hfind])
  next hfind =>
    obtain ⟨⟨⟩, -, h⟩ := bind_eq_ok.mp h
    obtain ⟨⟨⟩, hwindow, h⟩ := bind_eq_ok.mp h
    obtain ⟨⟨⟩, hdelay, h⟩ := bind_eq_ok.mp h
    exact .inr ⟨mapError_eq_ok.mp hwindow, mapError_eq_ok.mp hdelay⟩

variable {node : Node} {tx : Transaction} {height : ℕ}

theorem checkStakingDayWindow_eq_ok : checkStakingDayWindow tx height = .ok () ↔
    ∀ action, tx.stakingAction = some action →
      action.kind = .retargetDelegationBond ∨ height % stakingDayPeriod < stakingDayWindow := by
  unfold checkStakingDayWindow
  cases tx.stakingAction with
  | none => simp
  | some action =>
    simp only [Option.some.injEq, forall_eq']
    split_ifs with hk hwindow
    · simp [hk]
    · simp [hk, hwindow]
    · simp [hk]
      omega

theorem checkStakingActionDelay_eq_ok : checkStakingActionDelay node tx height = .ok () ↔
    ∀ action, tx.stakingAction = some action → Exits action →
      ∃ info, node.bondInfo action.arg32_0 = some info ∧ info.lastActionHeight + stakingActionDelayBlocks ≤ height := by
  unfold checkStakingActionDelay
  cases tx.stakingAction with
  | none => simp
  | some action =>
    simp only [Option.some.injEq, forall_eq']
    unfold Exits
    split_ifs with hexit
    · cases hinfo : node.bondInfo action.arg32_0 with
      | none => simp [hexit]
      | some info =>
        dsimp only
        split_ifs with hlt
        · simp only [hexit, true_implies, Option.some.injEq, exists_eq_left', false_iff]
          omega
        · simp only [hexit, true_implies, Option.some.injEq, exists_eq_left', true_iff]
          omega
    · exact ⟨fun _ h => absurd h hexit, fun _ => rfl⟩

theorem checkStakingDayWindow_error (h : checkStakingDayWindow tx height = .error e) :
    e.isStaking := by
  unfold checkStakingDayWindow at h
  split at h
  · cases h
  · split_ifs at h
    obtain rfl := Except.error.inj h
    rfl

theorem checkStakingActionDelay_error (h : checkStakingActionDelay node tx height = .error e) :
    e.isStaking := by
  unfold checkStakingActionDelay at h
  split at h
  · cases h
  · split_ifs at h
    split at h
    · obtain rfl := Except.error.inj h
      rfl
    · split_ifs at h
      obtain rfl := Except.error.inj h
      rfl

theorem call_of_not_passesStaking (hquick : others.quick req = .ok ()) (h : ¬ PassesStaking node req) :
    ∃ e, call others node req = .error (.error e) ∧ e.isStaking := by
  obtain ⟨hfind, hchecks⟩ := not_or.mp h
  unfold call
  rw [not_not.mp hfind, hquick]
  cases hwindow : checkStakingDayWindow req.transaction req.height with
  | error e => exact ⟨e, rfl, checkStakingDayWindow_error hwindow⟩
  | ok u =>
    cases hdelay : checkStakingActionDelay node req.transaction req.height with
    | error e => exact ⟨e, rfl, checkStakingActionDelay_error hdelay⟩
    | ok u' => exact absurd ⟨hwindow, hdelay⟩ hchecks

/-! ### Nodes that hold the same ancestors -/

structure NodeState where
  db : ZebraDb
  /-- The non-finalized chains, the best one first. -/
  chains : List Chain
  mempool : TxHash → Option (VerifiedUnminedTx × List TxHash)
  awaitOutput : Bool → OutPoint → Option Output

def NodeState.view (n : NodeState) : Node :=
  ⟨n.mempool, n.chains.head?.map fun c => c.delegationBonds, n.awaitOutput⟩

/-- The blocks are the lowest ones of the database and one of the chains on it. -/
def NodeState.Holds (n : NodeState) (blocks : List Block) : Prop :=
  blocks <+: n.db.blocks ∨ ∃ c ∈ n.chains, blocks <+: n.db.blocks ++ c.blocks.map (·.toBlock)

/-- No node can think otherwise of the staking action of a transaction: it is checked nowhere, or it is in a coinbase and
is rejected everywhere. -/
def Settled (height : ℕ) (tx : Transaction) : Prop :=
  ∀ action, tx.stakingAction = some action →
    if tx.isCoinbase then
      Exits action → stakingDayWindow ≤ height % stakingDayPeriod ∨ height < stakingActionDelayBlocks
    else ¬ Exits action ∧ (action.kind = .retargetDelegationBond ∨ height % stakingDayPeriod < stakingDayWindow)

theorem findVerifiedUnminedTx_coinbase (h : req.transaction.isCoinbase) :
    findVerifiedUnminedTx node req = none := by
  unfold findVerifiedUnminedTx
  simp [h]

theorem passesStaking_block : PassesStaking node (blockRequest b t) ↔
    findVerifiedUnminedTx node (blockRequest b t) ≠ none ∨
      ∀ action, t.2.stakingAction = some action →
        (action.kind = .retargetDelegationBond ∨ b.height % stakingDayPeriod < stakingDayWindow) ∧
        (Exits action → ∃ info, node.bondInfo action.arg32_0 = some info ∧
          info.lastActionHeight + stakingActionDelayBlocks ≤ b.height) := by
  unfold PassesStaking
  refine or_congr Iff.rfl ((and_congr checkStakingDayWindow_eq_ok checkStakingActionDelay_eq_ok).trans ?_)
  exact ⟨fun h action haction => ⟨h.1 action haction, h.2 action haction⟩,
    fun h => ⟨fun action haction => (h action haction).1, fun action haction => (h action haction).2⟩⟩

theorem not_retarget (h : Exits action) : action.kind ≠ .retargetDelegationBond := by
  rcases h with h | h <;> rw [h] <;> nofun

theorem Settled.passesStaking (h : Settled b.height t.2) (hpass : PassesStaking node₁ (blockRequest b t)) :
    PassesStaking node₂ (blockRequest b t) := by
  refine passesStaking_block.mpr (.inr ?_)
  intro action haction
  have hsettled := h action haction
  by_cases hcoinbase : t.2.isCoinbase
  · rw [if_pos hcoinbase] at hsettled
    obtain hfound | hchecks := passesStaking_block.mp hpass
    · exact absurd (findVerifiedUnminedTx_coinbase hcoinbase) hfound
    · obtain ⟨hwindow, hdelay⟩ := hchecks action haction
      refine ⟨hwindow, fun hexit => ?_⟩
      -- an unbonding or a withdrawal that is settled in a coinbase passes nowhere
      obtain ⟨info, -, hle⟩ := hdelay hexit
      have hopen := hwindow.resolve_left (not_retarget hexit)
      have := hsettled hexit
      omega
  · rw [if_neg hcoinbase] at hsettled
    exact ⟨hsettled.2, fun hexit => absurd hexit hsettled.1⟩

/-- A node whose database ends with the ancestors of a block, after a restart. -/
def restarted (ancestors : List Block) : NodeState where
  db := ⟨⟨∅, ∅⟩, ancestors, fun _ => .zero, Table.empty⟩
  chains := []
  mempool := fun _ => none
  awaitOutput := fun _ _ => none

def withMempool (ancestors : List Block) (txs : List (TxHash × Transaction)) : NodeState :=
  { restarted ancestors with mempool := fun hash => (txs.lookup hash).map fun tx => (⟨tx, .zero⟩, []) }

/-- The same node with a best chain that knows a bond since the genesis block. -/
def withBond (ancestors : List Block) (key : BondKey) : NodeState :=
  { restarted ancestors with chains :=
      [{ Chain.new (restarted ancestors).db with delegationBonds := {(key, (⟨.zero, key, ⟨0, 0⟩⟩, .active))} }] }

theorem restarted_rejects {n : NodeState} (hchains : n.chains = []) (hmempool : ∀ hash, n.mempool hash = none)
    (haction : t.2.stakingAction = some action)
    (h : Exits action ∨ action.kind ≠ .retargetDelegationBond ∧ stakingDayWindow ≤ b.height % stakingDayPeriod) :
    ¬ PassesStaking n.view (blockRequest b t) := by
  intro hpass
  obtain hfound | hchecks := passesStaking_block.mp hpass
  · apply hfound
    unfold findVerifiedUnminedTx
    simp [NodeState.view, hmempool]
  · obtain ⟨hwindow, hdelay⟩ := hchecks action haction
    rcases h with hexit | ⟨hretarget, hclosed⟩
    · obtain ⟨info, hinfo, -⟩ := hdelay hexit
      simp [Node.bondInfo, NodeState.view, hchains] at hinfo
    · have := hwindow.resolve_left hretarget
      omega

theorem withMempool_passes (ancestors : List Block) (ht : t ∈ b.transactions) (hcoinbase : ¬ t.2.isCoinbase) :
    PassesStaking (withMempool ancestors b.transactions).view (blockRequest b t) := by
  refine .inl ?_
  have hlookup : b.transactions.lookup t.1 ≠ none := by
    intro hnone
    simpa using List.lookup_eq_none_iff.mp hnone t ht
  obtain ⟨tx, htx⟩ := Option.ne_none_iff_exists'.mp hlookup
  unfold findVerifiedUnminedTx
  simp [blockRequest, hcoinbase, withMempool, NodeState.view, htx]

theorem withBond_passes (ancestors : List Block) (haction : t.2.stakingAction = some action)
    (hopen : b.height % stakingDayPeriod < stakingDayWindow) (hheight : stakingActionDelayBlocks ≤ b.height) :
    PassesStaking (withBond ancestors action.arg32_0).view (blockRequest b t) := by
  refine passesStaking_block.mpr (.inr ?_)
  intro action' haction'
  obtain rfl := Option.some.inj (haction.symm.trans haction')
  refine ⟨.inr hopen, fun _ => ⟨⟨.zero, 0, 0⟩, ?_, by simpa using hheight⟩⟩
  simp [NodeState.view, withBond, Node.bondInfo]

/-- All nodes that hold the ancestors of a block agree on its staking actions just when each of these is settled by the
block alone. -/
theorem verdicts_agree_iff (ancestors : List Block) (b : Block) :
    (∀ n₁ n₂ : NodeState, n₁.Holds ancestors → n₂.Holds ancestors → ∀ t ∈ b.transactions,
      (PassesStaking n₁.view (blockRequest b t) ↔ PassesStaking n₂.view (blockRequest b t))) ↔
    ∀ t ∈ b.transactions, Settled b.height t.2 := by
  constructor
  · intro hagree t ht action haction
    have hholds : (restarted ancestors).Holds ancestors := .inl List.prefix_rfl
    split_ifs with hcoinbase
    · intro hexit
      by_contra hcon
      push Not at hcon
      have hpass := withBond_passes ancestors haction hcon.1 hcon.2
      exact restarted_rejects rfl (fun _ => rfl) haction (.inl hexit) ((hagree _ _ hholds (.inl List.prefix_rfl) t ht).mpr hpass)
    · have hpass := withMempool_passes ancestors ht hcoinbase
      have hrejects := fun h => restarted_rejects rfl (fun _ => rfl) haction h
        ((hagree _ _ hholds (.inl List.prefix_rfl) t ht).mpr hpass)
      constructor
      · exact fun hexit => hrejects (.inl hexit)
      · by_contra hcon
        rw [not_or, not_lt] at hcon
        exact hrejects (.inr hcon)
  · intro hsettled n₁ n₂ _ _ t ht
    exact ⟨(hsettled t ht).passesStaking, (hsettled t ht).passesStaking⟩

def finalizedNode : NodeState :=
  ⟨{ activeDb with blocks := activeDb.blocks ++ [createSecond.block] }, [], fun _ => none, fun _ _ => none⟩

/-- Two nodes that hold block 150 say different things about a block that unbonds a bond: one has block 150 in a chain,
the other finalized it and was restarted. -/
theorem restart_changes_verdict : ∃ c, (Chain.new activeDb).accept true createSecond = .ok c ∧
    let chainNode : NodeState := ⟨activeDb, [c], fun _ => none, fun _ _ => none⟩
    finalizedNode.Holds (activeDb.blocks ++ [createSecond.block]) ∧
      chainNode.Holds (activeDb.blocks ++ [createSecond.block]) ∧
      ∃ t ∈ unbondFirst.block.transactions, ¬ PassesStaking finalizedNode.view (blockRequest unbondFirst.block t) ∧
        PassesStaking chainNode.view (blockRequest unbondFirst.block t) := by
  obtain ⟨c, h⟩ : ∃ c, (Chain.new activeDb).accept true createSecond = .ok c := exists_ok_of_isSome (by decide +kernel)
  obtain ⟨a⟩ := Chain.accept_eq_ok h
  have hblocks : c.blocks.map (·.toBlock) = [createSecond.block] := by
    rw [a.indexed.2.2.1, List.map_append, List.map_singleton, (Chain.withBlockAndSpentUtxos_eq_ok a.block_eq).1]
    rfl
  refine ⟨c, h, .inl List.prefix_rfl, .inr ⟨c, List.mem_singleton_self c, ?_⟩,
    (bytesNo 32 151001, stakingTx .beginDelegationUnbonding 1 0), by decide +kernel, ?_, ?_⟩
  · rw [hblocks]
  · exact restarted_rejects rfl (fun _ => rfl) rfl (.inl (.inl rfl))
  · have hpass : ((Chain.new activeDb).accept true createSecond).toOption.all (fun c =>
        decide (PassesStaking ⟨fun _ => none, some c.delegationBonds, fun _ _ => none⟩ (blockRequest unbondFirst.block
          (bytesNo 32 151001, stakingTx .beginDelegationUnbonding 1 0)))) = true := by decide +kernel
    rw [h] at hpass
    exact of_decide_eq_true hpass

end Crosslink.Consensus

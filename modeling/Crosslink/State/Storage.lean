import Crosslink.State.Database

/-!
# A database with a chain on it

Blocks are accepted on top of the chain and finalized from below, and the chain may be built anew from the database.
After each finalization the database should hold the bonds and the pools that the chain had right after the finalized
block. It does just when the finalized blocks let no bond go: the location of the last action on a bond is not written
when the bond is unbonded or withdrawn, and a bond that a block both creates and unbonds makes the batch fail.
-/

namespace Crosslink.State

open Codec Fallible Staking
open Std (ExtTreeMap)

/-! ### The machine -/

/-- The bonds and the pools of a chain at some block. -/
structure Snapshot where
  bonds : Bonds
  pools : ValueBalance .nonNegative

def Chain.snapshot (c : Chain) : Snapshot := ⟨c.delegationBonds, c.chainValuePools⟩

structure Storage where
  db : ZebraDb
  chain : Chain
  /-- The chain right after the last finalized block. -/
  finalized : Snapshot
  /-- The chain right after each of its blocks, lowest first. -/
  pending : List Snapshot

inductive StorageEvent where
  | accept (block : Block) (spent : Table OutPoint Utxo)
  | finalize
  /-- A restart, or a new chain in place of an emptied one. -/
  | rebuild

inductive StorageError where
  | rejected (e : Stop ValidateContextError)
  | notWritten (e : Stop BatchError)

namespace Storage

def new (db : ZebraDb) : Storage := ⟨db, Chain.new db, (Chain.new db).snapshot, []⟩

def finalize (checks : Bool) (s : Storage) : Except (Stop BatchError) Storage := do
  let (popped, chain) ← s.chain.popRoot.mapError .panic
  let db ← s.db.writeBlock checks popped
  return { db, chain, finalized := s.pending.head?.getD s.finalized, pending := s.pending.tail }

def step (checks : Bool) (s : Storage) : StorageEvent → Except StorageError Storage
  | .accept block spent => do
    let chain ← (s.chain.accept checks ⟨s.db, block, spent⟩).mapError .rejected
    return { s with chain, pending := s.pending ++ [chain.snapshot] }
  | .finalize => (s.finalize checks).mapError .notWritten
  | .rebuild => .ok { s with chain := Chain.new s.db, pending := [] }

/-- The database holds what the chain had right after the last finalized block, and the validator says the same of
every block on a chain that is built from the database. -/
structure Mirrors (s : Storage) : Prop where
  bonds : Chain.finalizedBonds s.db.toFinalizedBonds = s.finalized.bonds
  pools : s.db.valuePool = s.finalized.pools
  validates : ∀ b, validateDelegationBonds s.db.toFinalizedBonds (Chain.new s.db).delegationBonds b =
    validateDelegationBonds s.db.toFinalizedBonds s.finalized.bonds b

end Storage

/-! ### Snapshots -/

/-- The bonded pool is backed, and the bonds are of blocks below a height. -/
structure Snapshot.Settled (s : Snapshot) (height : ℕ) : Prop where
  backed : (s.pools .stakingBonded).zatoshis = stakeTotal .active s.bonds
  located : ∀ (key : BondKey) bs, s.bonds[key]? = some bs → bs.1.createdAt.height < height
  pos : 0 < height

variable {checks : Bool} {before after mid : Snapshot} {b : ContextuallyVerifiedBlock} {record : List (BondKey × ℕ)}

/-- A block was accepted by some chain: the snapshots around it, and the record of its rewards. -/
def Advances (checks : Bool) (before : Snapshot) (b : ContextuallyVerifiedBlock) (record : List (BondKey × ℕ))
    (after : Snapshot) : Prop :=
  ∃ (c : Chain) (offer : Offer) (c' : Chain), c.accept checks offer = .ok c' ∧ offer.ValuesVerified ∧
    Chain.withBlockAndSpentUtxos offer.block offer.spent = .ok b ∧ before.Settled b.height ∧ c.snapshot = before ∧
    c'.snapshot = after ∧ c'.bondRewards.head? = some record

theorem Advances.settled (h : Advances checks before b record after) : after.Settled (b.height + 1) := by
  obtain ⟨c, offer, c', haccept, hall, hblock, hsettled, rfl, rfl, -⟩ := h
  obtain ⟨a⟩ := Chain.accept_eq_ok haccept
  have hheight : b.height = offer.block.height := by rw [(Chain.withBlockAndSpentUtxos_eq_ok hblock).1]
  refine ⟨(accept_pools hsettled.backed hall haccept).1, ?_, Nat.succ_pos _⟩
  intro key bs hbs
  have hlocation : c'.location? key = some bs.1.createdAt := by
    rw [Ledger.location?]
    exact congrArg (Option.map _) hbs
  rcases a.locates.bound key _ hlocation with hat | hold
  · omega
  · obtain ⟨bs₀, hbs₀, hsame⟩ := Option.map_eq_some_iff.mp hold
    have hlt := hsettled.located key bs₀ hbs₀
    rw [← hsame]
    omega

/-- The blocks of a chain, the records of their rewards and the snapshots after them. -/
inductive Advanced (checks : Bool) : Snapshot → List ContextuallyVerifiedBlock → List (List (BondKey × ℕ)) →
    List Snapshot → Snapshot → Prop
  | nil (s : Snapshot) : Advanced checks s [] [] [] s
  | cons {before mid after : Snapshot} {b : ContextuallyVerifiedBlock} {blocks : List ContextuallyVerifiedBlock}
      {record : List (BondKey × ℕ)} {records : List (List (BondKey × ℕ))} {pending : List Snapshot}
      (h : Advances checks before b record mid) (hrest : Advanced checks mid blocks records pending after) :
      Advanced checks before (b :: blocks) (record :: records) (mid :: pending) after

theorem Advanced.snoc (h : Advanced checks before blocks records pending mid)
    (hlast : Advances checks mid b record after) :
    Advanced checks before (blocks ++ [b]) (records ++ [record]) (pending ++ [after]) after := by
  induction h with
  | nil s => exact .cons hlast (.nil after)
  | cons h hrest ih => exact .cons h (ih hlast)

theorem Advanced.uncons (h : Advanced checks before (b :: blocks) records pending after) :
    ∃ record records' mid pending', records = record :: records' ∧ pending = mid :: pending' ∧
      Advances checks before b record mid ∧ Advanced checks mid blocks records' pending' after := by
  cases h with
  | cons h hrest => exact ⟨_, _, _, _, rfl, rfl, h, hrest⟩

/-! ### Tables -/

/-- The tables hold the keys of the blocks of a chain, and no others. -/
structure IndexedBy (blocks : List ContextuallyVerifiedBlock) (i : ChainIndex) : Prop where
  heights : Table.Extends Table.empty (blocks.map fun b => b.hash) i.heightByHash
  txLoc : Table.Extends Table.empty (blocks.flatMap fun b => b.transactions.zipIdx.map fun t => t.1.1) i.txLocByHash
  created : Table.Extends Table.empty (blocks.flatMap fun b => b.transactions.zipIdx.flatMap fun t =>
    (Block.createdBy b.height t.2 t.1.1 t.1.2).map Prod.fst) i.createdUtxos
  spent : Table.Extends Table.empty (blocks.flatMap fun b => b.transactions.zipIdx.flatMap fun t =>
    Chain.spends t.1.2) i.spentUtxos
  sprout : Table.Extends Table.empty (blocks.flatMap fun b => b.transactions.zipIdx.flatMap fun t =>
    t.1.2.sproutNullifiers) i.sproutNullifiers
  sapling : Table.Extends Table.empty (blocks.flatMap fun b => b.transactions.zipIdx.flatMap fun t =>
    t.1.2.saplingNullifiers) i.saplingNullifiers
  orchard : Table.Extends Table.empty (blocks.flatMap fun b => b.transactions.zipIdx.flatMap fun t =>
    t.1.2.orchardNullifiers) i.orchardNullifiers
  provided : ∀ b ∈ blocks, ∀ t ∈ b.transactions.zipIdx, ∀ o ∈ Chain.spends t.1.2, b.spent o ≠ none

variable {c c' : Chain} {offer : Offer} {i : ChainIndex} {blocks : List ContextuallyVerifiedBlock}

theorem IndexedBy.new (db : ZebraDb) : IndexedBy [] (Chain.new db).toChainIndex :=
  ⟨.refl _, .refl _, .refl _, .refl _, .refl _, .refl _, .refl _, by simp⟩

theorem IndexedBy.push (h : IndexedBy c.blocks c.toChainIndex) (hp : Pushed checks c b c') :
    IndexedBy c'.blocks c'.toChainIndex := by
  have hindexed := hp.indexed
  rw [hp.blocks]
  refine ⟨?_, ?_, ?_, ?_, ?_, ?_, ?_, ?_⟩
  · rw [List.map_append]
    exact h.heights.trans hp.extends
  · simpa only [List.flatMap_append, List.flatMap_singleton] using h.txLoc.trans hindexed.txLoc
  · simpa only [List.flatMap_append, List.flatMap_singleton] using h.created.trans hindexed.created
  · simpa only [List.flatMap_append, List.flatMap_singleton] using h.spent.trans hindexed.spent
  · simpa only [List.flatMap_append, List.flatMap_singleton] using h.sprout.trans hindexed.sprout
  · simpa only [List.flatMap_append, List.flatMap_singleton] using h.sapling.trans hindexed.sapling
  · simpa only [List.flatMap_append, List.flatMap_singleton] using h.orchard.trans hindexed.orchard
  · intro b' hb'
    rcases List.mem_append.mp hb' with hb' | hb'
    · exact h.provided b' hb'
    · rw [List.mem_singleton.mp hb']
      exact hindexed.provided

theorem IndexedBy.uncons (h : IndexedBy (b :: blocks) i) : ∃ i₁ : ChainIndex,
    Indexed b b.transactions.zipIdx i₁ { i with heightByHash := i₁.heightByHash } ∧
      Table.Extends i₁.heightByHash [b.hash] i.heightByHash ∧ IndexedBy blocks i₁ := by
  have hheights : Table.Extends Table.empty ([b.hash] ++ blocks.map fun b => b.hash) i.heightByHash := h.heights
  have htxLoc := h.txLoc
  have hcreated := h.created
  have hspent := h.spent
  have hsprout := h.sprout
  have hsapling := h.sapling
  have horchard := h.orchard
  rw [List.flatMap_cons] at htxLoc hcreated hspent hsprout hsapling horchard
  obtain ⟨heights, hheights, hheights'⟩ := hheights.split
  obtain ⟨txLoc, htxLoc, htxLoc'⟩ := htxLoc.split
  obtain ⟨created, hcreated, hcreated'⟩ := hcreated.split
  obtain ⟨spent, hspent, hspent'⟩ := hspent.split
  obtain ⟨sprout, hsprout, hsprout'⟩ := hsprout.split
  obtain ⟨sapling, hsapling, hsapling'⟩ := hsapling.split
  obtain ⟨orchard, horchard, horchard'⟩ := horchard.split
  refine ⟨⟨heights, txLoc, created, spent, sprout, sapling, orchard⟩,
    ⟨htxLoc, hcreated, hspent, hsprout, hsapling, horchard, rfl, h.provided b List.mem_cons_self⟩, hheights,
    hheights', htxLoc', hcreated', hspent', hsprout', hsapling', horchard', ?_⟩
  exact fun b' hb' => h.provided b' (List.mem_cons_of_mem b hb')

/-! ### Popping the root -/

theorem foldlM_unspend_root (txs : List ((TxHash × Transaction) × ℕ)) (l : Ledger) :
    txs.foldlM (fun l t => Chain.unspend l t.1.2 .root) l = .ok l := by
  induction txs with
  | nil => rfl
  | cons t txs ih =>
    refine foldlM_cons_eq_ok.mpr ⟨l, ?_, ih⟩
    unfold Chain.unspend
    cases t.1.2.stakingAction <;> rfl

theorem popRoot_inv (h : c.popRoot = .ok (popped, c')) :
    c.blocks = popped.block :: c'.blocks ∧ popped.bondRewards = (c.bondRewards.getLast?).getD [] ∧
      Chain.unbondingAmounts c.delegationBonds popped.block.actions = .ok popped.unbondingAmounts ∧
      c'.toLedger = { c.toLedger with
        bondRewards := c.bondRewards.dropLast
        bondRetargets := c.bondRetargets.dropLast
        blockInfoByHeight := Function.update c.blockInfoByHeight popped.block.height none } := by
  unfold Chain.popRoot at h
  obtain ⟨block, hblock, h⟩ := bind_eq_ok.mp h
  dsimp only at h
  obtain ⟨amounts, hamounts, h⟩ := bind_eq_ok.mp h
  obtain ⟨c₁, hrevert, h⟩ := bind_eq_ok.mp h
  obtain ⟨rfl, rfl⟩ := Prod.mk.inj (pure_eq_ok.mp h)
  obtain ⟨hledger, hblocks⟩ := revertIndex_inv hrevert
  rw [foldlM_unspend_root] at hledger
  have hsame := Except.ok.inj hledger
  refine ⟨?_, rfl, hamounts, ?_⟩
  · obtain ⟨blocks, hroot⟩ := List.head?_eq_some_iff.mp (unwrap_eq_ok.mp hblock)
    rw [show ({ c₁ with blockInfoByHeight := _ } : Chain).blocks = c₁.blocks from rfl, hblocks, hroot]
    rfl
  · rw [← hsame]

theorem popRoot_eq_ok (h : c.popRoot = .ok (popped, c')) :
    c.blocks = popped.block :: c'.blocks ∧ popped.bondRewards = (c.bondRewards.getLast?).getD [] ∧
      c'.snapshot = c.snapshot := by
  obtain ⟨hblocks, hrewards, -, hledger⟩ := popRoot_inv h
  refine ⟨hblocks, hrewards, ?_⟩
  unfold Chain.snapshot
  rw [hledger]

theorem unbondingAmounts_noExit (h : NoExit actions) :
    Chain.unbondingAmounts bonds actions = .ok [] := by
  have hnone : actions.filter (fun a => a.1.kind = .beginDelegationUnbonding) = [] := by
    rw [List.filter_eq_nil_iff]
    intro a ha hk
    exact h a ha (.inl (by simpa using hk))
  rw [Chain.unbondingAmounts, hnone]
  rfl

theorem popRoot_noExit (h : IndexedBy c.blocks c.toChainIndex) (hblocks : c.blocks = b :: blocks)
    (hexit : NoExit b.actions) : ∃ c', c.popRoot =
      .ok (⟨b, (c.bondRewards.getLast?).getD [], []⟩, c') ∧ c'.snapshot = c.snapshot ∧ c'.blocks = blocks ∧
      c'.bondRewards = c.bondRewards.dropLast ∧ IndexedBy c'.blocks c'.toChainIndex := by
  rw [hblocks] at h
  obtain ⟨i₁, hindexed, hheights, hrest⟩ := h.uncons
  have hrevert : Chain.revertIndex b .root { c with
      blocks := blocks
      bondRewards := c.bondRewards.dropLast
      bondRetargets := c.bondRetargets.dropLast } = _ := revertIndex_eq_ok hindexed hheights (foldlM_unspend_root _ _)
  have hpop : c.popRoot = .ok (⟨b, (c.bondRewards.getLast?).getD [], []⟩, { c with
      blocks := blocks
      bondRewards := c.bondRewards.dropLast
      bondRetargets := c.bondRetargets.dropLast
      toChainIndex := i₁
      partialCumulativeWork := c.partialCumulativeWork - b.work
      blockInfoByHeight := Function.update c.blockInfoByHeight b.height none }) := by
    unfold Chain.popRoot
    simp only [hblocks, List.head?_cons, List.tail_cons, unwrap, ok_bind, unbondingAmounts_noExit hexit, hrevert,
      pure_eq_ok]
  exact ⟨_, hpop, rfl, rfl, rfl, hrest⟩

/-! ### Steps -/

namespace Storage

/-- What holds as long as every finalization mirrored the chain. -/
structure Coherent (checks : Bool) (s : Storage) : Prop where
  mirrored : Mirrored s.db.toFinalizedBonds s.finalized.bonds
  pools : s.db.valuePool = s.finalized.pools
  history : ∃ records, Advanced checks s.finalized s.chain.blocks records s.pending s.chain.snapshot ∧
    s.chain.bondRewards = records.reverse
  index : IndexedBy s.chain.blocks s.chain.toChainIndex
  base : s.finalized.Settled ((Chain.new s.db).nextHeight s.db)
  top : s.chain.snapshot.Settled (s.chain.nextHeight s.db)

variable {s s' : Storage}

theorem Coherent.mirrors (h : Coherent checks s) : s.Mirrors := by
  have hbonds := (mirrored_iff.mp h.mirrored).2
  refine ⟨hbonds, h.pools, ?_⟩
  intro b
  rw [← hbonds]
  rfl

theorem Coherent.snapshot (h : Coherent checks s) : (Chain.new s.db).snapshot = s.finalized := by
  unfold Chain.snapshot Chain.new
  rw [h.mirrors.bonds, h.pools]

theorem Coherent.rebuild (h : Coherent checks s) : Coherent checks { s with chain := Chain.new s.db, pending := [] } where
  mirrored := h.mirrored
  pools := h.pools
  history := ⟨[], by rw [h.snapshot]; exact .nil _, rfl⟩
  index := .new s.db
  base := h.base
  top := by rw [h.snapshot]; exact h.base

theorem Coherent.accept (h : Coherent checks s) (hall : (Offer.mk s.db block spent).ValuesVerified)
    (hstep : s.step checks (.accept block spent) = .ok s') :
    Coherent checks s' := by
  obtain ⟨chain, haccept, hstep⟩ := bind_eq_ok.mp hstep
  obtain rfl := pure_eq_ok.mp hstep
  rw [mapError_eq_ok] at haccept
  obtain ⟨a⟩ := Chain.accept_eq_ok haccept
  obtain ⟨records, hadvanced, hrecords⟩ := h.history
  obtain ⟨pools, record, -, hrewarded⟩ := a.closed
  have hframe : a.filled.bondRewards = s.chain.bondRewards := by
    refine accepted_induction a (R := fun _ l => l.bondRewards = s.chain.bondRewards) rfl ?_
    intro pre x l l' hR _ hmoves
    exact hmoves.frame.2.trans hR
  have hrewards : chain.bondRewards = record :: s.chain.bondRewards := by
    rw [← hframe]
    exact hrewarded.rewards
  have hheight : a.block.height = s.chain.nextHeight s.db := by rw [a.actions_eq.2, a.height_eq]
  have hblocks := a.indexed.2.2.1
  have hadvances : Advances checks s.chain.snapshot a.block record chain.snapshot :=
    ⟨s.chain, _, chain, haccept, hall, a.block_eq, hheight ▸ h.top, rfl, rfl, by rw [hrewards]; rfl⟩
  refine ⟨h.mirrored, h.pools, ⟨records ++ [record], ?_, ?_⟩, h.index.push a.pushed, h.base, ?_⟩
  · show Advanced checks s.finalized chain.blocks _ _ _
    rw [hblocks]
    exact hadvanced.snoc hadvances
  · show chain.bondRewards = _
    rw [hrewards, hrecords, List.reverse_append]
    rfl
  · show chain.snapshot.Settled (chain.nextHeight s.db)
    rw [nextHeight_snoc hblocks]
    exact hadvances.settled

theorem nextHeight_pop {db db' : ZebraDb} (hdb : db'.blocks = db.blocks ++ [b.toBlock]) (hblocks : c.blocks = b :: blocks)
    (hblocks' : c'.blocks = blocks) : c'.nextHeight db' = c.nextHeight db := by
  rcases List.eq_nil_or_concat' blocks with rfl | ⟨lower, tip, rfl⟩
  · unfold Chain.nextHeight
    rw [hblocks', hblocks, hdb]
    simp
  · rw [nextHeight_snoc hblocks', nextHeight_snoc (hblocks.trans (List.cons_append).symm)]

theorem writeBlock_blocks {db db' : ZebraDb} (h : db.writeBlock checks popped = .ok db') :
    db'.blocks = db.blocks ++ [popped.block.toBlock] := by
  unfold ZebraDb.writeBlock at h
  obtain ⟨bonds, -, h⟩ := bind_eq_ok.mp h
  obtain ⟨pool, -, h⟩ := bind_eq_ok.mp h
  obtain rfl := pure_eq_ok.mp h
  rfl

theorem Coherent.finalize (h : Coherent checks s) (hroot : s.chain.blocks = b :: blocks) (hexit : NoExit b.actions) :
    ∃ s', s.finalize checks = .ok s' ∧ Coherent checks s' := by
  obtain ⟨c', hpop, hsnapshot, hblocks', hrewards', hindex'⟩ := popRoot_noExit h.index hroot hexit
  obtain ⟨records, hadvanced, hrecords⟩ := h.history
  rw [hroot] at hadvanced
  obtain ⟨record, records', mid, pending', rfl, hpending, hadvances, hrest⟩ := hadvanced.uncons
  rw [List.reverse_cons] at hrecords
  have hfirst : (s.chain.bondRewards.getLast?).getD [] = record := by
    rw [hrecords, List.getLast?_concat]
    rfl
  have hsettled := hadvances.settled
  obtain ⟨c₀, offer, c₁, haccept, hall, hblock, hbase, hbefore, hafter, hrecord⟩ := hadvances
  obtain ⟨a⟩ := Chain.accept_eq_ok haccept
  obtain rfl := Except.ok.inj (a.block_eq.symm.trans hblock)
  rw [a.actions_eq.1] at hexit
  have hbonds : s.finalized.bonds = c₀.delegationBonds := (congrArg Snapshot.bonds hbefore).symm
  obtain ⟨db', hwrite, hmirror', hpools'⟩ := a.writeBlock_eq_ok
    ⟨a.block, (s.chain.bondRewards.getLast?).getD [], []⟩ (hbefore ▸ hbase).backed hall (a.actions_eq.2 ▸ hbase.pos)
    (hbonds ▸ h.mirrored) (h.pools.trans (congrArg Snapshot.pools hbefore).symm) rfl (by rw [hrecord, hfirst]) rfl hexit
  have hnext := nextHeight_pop (writeBlock_blocks hwrite) hroot hblocks'
  refine ⟨⟨db', c', mid, pending'⟩, ?_, ?_, ?_, ⟨records', ?_, ?_⟩, hindex', ?_, ?_⟩
  · unfold Storage.finalize
    simp only [hpop, hwrite, hpending, mapError_ok, ok_bind, pure_eq_ok, List.head?_cons, Option.getD_some, List.tail_cons]
  · rw [← hafter]
    exact hmirror'
  · rw [← hafter]
    exact hpools'
  · show Advanced checks mid c'.blocks records' pending' c'.snapshot
    rw [hblocks', hsnapshot]
    exact hrest
  · show c'.bondRewards = _
    rw [hrewards', hrecords, List.dropLast_concat]
  · show mid.Settled ((Chain.new db').nextHeight db')
    have hdb : (Chain.new db').nextHeight db' = a.block.height + 1 := by
      unfold Chain.nextHeight
      rw [writeBlock_blocks hwrite]
      simp [Chain.new]
    rw [hdb]
    exact hsettled
  · show c'.snapshot.Settled (c'.nextHeight db')
    rw [hsnapshot, hnext]
    exact h.top

theorem Coherent.noExit (h : Coherent checks s) (hroot : s.chain.blocks = b :: blocks)
    (hfinalize : s.finalize checks = .ok s') (hmirrors : s'.Mirrors) : NoExit b.actions := by
  unfold Storage.finalize at hfinalize
  obtain ⟨⟨popped, c'⟩, hpop, hfinalize⟩ := bind_eq_ok.mp hfinalize
  obtain ⟨db', hwrite, hfinalize⟩ := bind_eq_ok.mp hfinalize
  obtain rfl := pure_eq_ok.mp hfinalize
  have hblock := (popRoot_eq_ok (mapError_eq_ok.mp hpop)).1
  rw [hroot] at hblock
  obtain ⟨records, hadvanced, -⟩ := h.history
  rw [hroot] at hadvanced
  obtain ⟨record, records', mid, pending', -, hpending, hadvances, -⟩ := hadvanced.uncons
  obtain ⟨c₀, offer, c₁, haccept, -, hb, hbase, hbefore, hafter, -⟩ := hadvances
  obtain ⟨a⟩ := Chain.accept_eq_ok haccept
  obtain rfl := Except.ok.inj (a.block_eq.symm.trans hb)
  have hbonds : s.finalized.bonds = c₀.delegationBonds := (congrArg Snapshot.bonds hbefore).symm
  have hlocated : ∀ key location, c₀.location? key = some location → location.height < offer.block.height := by
    intro key location hlocation
    obtain ⟨bs, hbs, rfl⟩ := Option.map_eq_some_iff.mp hlocation
    rw [← a.actions_eq.2]
    exact hbase.located key bs (hbonds ▸ hbs)
  have hmid : Chain.finalizedBonds db'.toFinalizedBonds = c₁.delegationBonds := by
    have hbonds' := hmirrors.bonds
    rw [hpending] at hbonds'
    exact hbonds'.trans (congrArg Snapshot.bonds hafter).symm
  rw [a.actions_eq.1]
  exact a.writeBlock_noExit hlocated (a.actions_eq.2 ▸ hbase.pos) (hbonds ▸ h.mirrored) (List.cons.inj hblock).1.symm
    hwrite hmid

/-! ### Runs -/

def EventVerified : StorageEvent → Prop
  | .accept block spent => Consensus.ValuesVerified block fun outpoint =>
      (block.spentOutputs spent outpoint).map Utxo.output
  | _ => True

/-- Every finalization of a run is written, and the database mirrors the chain after it. -/
def FinalizesFaithfully (checks : Bool) (start : Storage) (events : List StorageEvent) : Prop :=
  ∀ pre, pre ++ [.finalize] <+: events → ∀ s, pre.foldlM (step checks) start = .ok s → s.chain.blocks ≠ [] →
    ∃ s', s.finalize checks = .ok s' ∧ s'.Mirrors

def FinalizesNoExit (checks : Bool) (start : Storage) (events : List StorageEvent) : Prop :=
  ∀ pre, pre ++ [.finalize] <+: events → ∀ s, pre.foldlM (step checks) start = .ok s →
    ∀ b ∈ s.chain.blocks.head?, NoExit b.actions

variable {start : Storage} {events : List StorageEvent}

theorem run_coherent (hstart : Coherent checks start) (hall : ∀ e ∈ events, EventVerified e)
    (hexits : ∀ pre, pre ++ [.finalize] <+: events → ∀ s, pre.foldlM (step checks) start = .ok s →
      Coherent checks s → ∀ b ∈ s.chain.blocks.head?, NoExit b.actions)
    (h : events.foldlM (step checks) start = .ok s) : Coherent checks s := by
  induction events using List.reverseRecOn generalizing s with
  | nil => exact foldlM_nil_eq_ok.mp h ▸ hstart
  | append_singleton events e ih =>
    obtain ⟨s₁, h₁, h₂⟩ := foldlM_append_eq_ok.mp h
    obtain ⟨s₂, hstep, h₃⟩ := foldlM_cons_eq_ok.mp h₂
    obtain rfl := foldlM_nil_eq_ok.mp h₃
    have hs₁ : Coherent checks s₁ := ih (fun e he => hall e (List.mem_append_left _ he))
      (fun pre hpre => hexits pre (hpre.trans (List.prefix_append events [e]))) h₁
    cases e with
    | accept block spent => exact hs₁.accept (hall (.accept block spent) (by simp)) hstep
    | rebuild => exact Except.ok.inj hstep ▸ hs₁.rebuild
    | finalize =>
      cases hroot : s₁.chain.blocks with
      | nil =>
        obtain ⟨⟨popped, c'⟩, hpop, -⟩ := bind_eq_ok.mp (mapError_eq_ok.mp hstep)
        rw [mapError_eq_ok] at hpop
        have hblocks := (popRoot_eq_ok hpop).1
        rw [hroot] at hblocks
        cases hblocks
      | cons b blocks =>
        obtain ⟨s', hs', hcoherent⟩ := hs₁.finalize hroot
          (hexits events List.prefix_rfl s₁ h₁ hs₁ b (by rw [hroot]; rfl))
        rw [mapError_eq_ok.mp hstep] at hs'
        exact Except.ok.inj hs' ▸ hcoherent

theorem Coherent.new {db : ZebraDb} (hsound : db.Sound) (hpaired : Paired db.toFinalizedBonds)
    (hblocks : db.blocks ≠ []) : Coherent checks (new db) := by
  have hsettled : (Chain.new db).snapshot.Settled ((Chain.new db).nextHeight db) := by
    refine ⟨hsound.backed, fun key bs hbs => hsound.located key _ ?_, ?_⟩
    · rw [Ledger.location?]
      exact congrArg (Option.map _) hbs
    · obtain ⟨lower, tip, hdb⟩ := (List.eq_nil_or_concat' _).resolve_left hblocks
      unfold Chain.nextHeight
      rw [hdb]
      simp [Chain.new]
  exact ⟨mirrored_iff.mpr ⟨hpaired, rfl⟩, rfl, ⟨[], .nil _, rfl⟩, .new db, hsettled, hsettled⟩

/-- Every finalization of a run mirrors the chain just when no finalized block lets a bond go. -/
theorem finalizesFaithfully_iff_noExit {db : ZebraDb} (hsound : db.Sound) (hpaired : Paired db.toFinalizedBonds)
    (hblocks : db.blocks ≠ []) (hall : ∀ e ∈ events, EventVerified e) :
    FinalizesFaithfully checks (new db) events ↔ FinalizesNoExit checks (new db) events := by
  have hcoherent : (∀ pre, pre ++ [.finalize] <+: events → ∀ s, pre.foldlM (step checks) (new db) = .ok s →
      Coherent checks s → ∀ b ∈ s.chain.blocks.head?, NoExit b.actions) →
      ∀ pre, pre ++ [.finalize] <+: events → ∀ s, pre.foldlM (step checks) (new db) = .ok s → Coherent checks s := by
    intro hexits pre hpre s hs
    have hle : pre <+: events := (List.prefix_append pre _).trans hpre
    exact run_coherent (.new hsound hpaired hblocks) (fun e he => hall e (hle.mem he))
      (fun pre' hpre' => hexits pre' (hpre'.trans hle)) hs
  constructor
  · intro hfaithful
    have hexits : ∀ pre, pre ++ [.finalize] <+: events → ∀ s, pre.foldlM (step checks) (new db) = .ok s →
        Coherent checks s → ∀ b ∈ s.chain.blocks.head?, NoExit b.actions := by
      intro pre hpre s hs hs' b hb
      obtain ⟨blocks, hroot⟩ := List.head?_eq_some_iff.mp hb
      obtain ⟨s', hfinalize, hmirrors⟩ := hfaithful pre hpre s hs (by simp [hroot])
      exact hs'.noExit hroot hfinalize hmirrors
    exact fun pre hpre s hs => hexits pre hpre s hs (hcoherent hexits pre hpre s hs)
  · intro hexits pre hpre s hs hne
    obtain ⟨b, blocks, hroot⟩ := List.exists_cons_of_ne_nil hne
    have hs' := hcoherent (fun pre hpre s hs _ => hexits pre hpre s hs) pre hpre s hs
    obtain ⟨s', hfinalize, hcoherent'⟩ := hs'.finalize hroot (hexits pre hpre s hs b (by rw [hroot]; rfl))
    exact ⟨s', hfinalize, hcoherent'.mirrors⟩

/-- Two blocks that create and retarget bonds, finalized one after the other. -/
def createAndRetarget : List StorageEvent :=
  [.accept createSecond.block Table.empty, .accept retargetFirst.block Table.empty, .finalize, .finalize]

theorem activeDb_paired : Paired activeDb.toFinalizedBonds := by
  intro key
  have hrows : activeDb.delegationBondByKey.keys = activeDb.bondStatusByKey.keys := by decide +kernel
  rw [getElem?_eq_none_iff, getElem?_eq_none_iff, ← ExtTreeMap.mem_keys, ← ExtTreeMap.mem_keys, hrows]

theorem finalizesFaithfully_createAndRetarget : FinalizesFaithfully true (new activeDb) createAndRetarget := by
  have hall : ∀ e ∈ createAndRetarget, EventVerified e := by
    intro e he
    simp only [createAndRetarget, List.mem_cons, List.not_mem_nil, or_false] at he
    rcases he with rfl | rfl | rfl | rfl
    · exact .of_computed (by decide +kernel) (by decide +kernel)
    · exact .of_computed (by decide +kernel) (by decide +kernel)
    · trivial
    · trivial
  refine (finalizesFaithfully_iff_noExit activeDb_sound activeDb_paired (by decide) hall).mpr ?_
  have heval : ∀ pre ∈ createAndRetarget.inits, ((pre.foldlM (step true) (new activeDb)).toOption.all fun s =>
      s.chain.blocks.head?.all fun b => decide (NoExit b.actions)) = true := by
    decide +kernel
  intro pre hpre s hs b hb
  have hroot := heval pre (List.mem_inits _ _ |>.mpr ((List.prefix_append pre _).trans hpre))
  rw [hs] at hroot
  simp only [Except.toOption, Option.all_some, Option.all_eq_true] at hroot
  exact of_decide_eq_true (hroot b hb)

def unbondOnly : Block := sampleBlock 150 [stakingTx .beginDelegationUnbonding 1 0]

def createAndUnbond : Block :=
  sampleBlock 150 [stakingTx .createNewDelegationBond 2 1000000000, stakingTx .beginDelegationUnbonding 2 0]

/-- After an unbonding the database has the location of the creation, and the batch of a block that creates and
unbonds a bond is not prepared at all. -/
theorem unbonding_not_mirrored :
    (∃ s s', step true (new activeDb) (.accept unbondOnly Table.empty) = .ok s ∧ s.finalize true = .ok s' ∧
      s.chain.location? (bytesNo 32 1) = some ⟨150, 1⟩ ∧
      (Chain.new s'.db).location? (bytesNo 32 1) = some ⟨1, 1⟩) ∧
    ∃ s, step true (new activeDb) (.accept createAndUnbond Table.empty) = .ok s ∧
      s.finalize true = .error (.error (.notFound (bytesNo 32 2))) := by
  refine ⟨?_, ?_⟩
  · have heval : (step true (new activeDb) (.accept unbondOnly Table.empty)).toOption.any (fun s =>
        s.chain.location? (bytesNo 32 1) == some ⟨150, 1⟩ && (s.finalize true).toOption.any fun s' =>
          (Chain.new s'.db).location? (bytesNo 32 1) == some ⟨1, 1⟩) = true := by
      decide +kernel
    obtain ⟨s, h, heval⟩ := exists_ok_of_any heval
    obtain ⟨hchain, heval⟩ := Bool.and_eq_true_iff.mp heval
    obtain ⟨s', hfinalize, hdb⟩ := exists_ok_of_any heval
    exact ⟨s, s', h, hfinalize, eq_of_beq hchain, eq_of_beq hdb⟩
  · have heval : (step true (new activeDb) (.accept createAndUnbond Table.empty)).toOption.any (fun s =>
        errorOf (s.finalize true) == some (.error (.notFound (bytesNo 32 2)))) = true := by
      decide +kernel
    obtain ⟨s, h, hbatch⟩ := exists_ok_of_any heval
    exact ⟨s, h, errorOf_eq_some.mp (eq_of_beq hbatch)⟩

end Storage

end Crosslink.State

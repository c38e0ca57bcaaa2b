import Crosslink.State.ChainShape
import Crosslink.State.Fork
import Crosslink.State.Written

/-!
# The history of a chain

A chain holds the bonds and the pools after its blocks, and stacks of what each block did to them. All this is
determined by the blocks and by the database below them: a `History` lists the blocks with the records and the snapshot
after each, and two histories of the same blocks are equal (`History.unique`). `Grounded` says that a chain agrees with
the history of its blocks; pushing, popping and finalizing blocks keep it so.
-/

namespace Crosslink.State

open Codec Fallible Bft Staking List
open Std (ExtTreeMap)

/-! ### Histories -/

/-- A block with what it left in the records of a chain, and the bonds and pools after it. -/
structure Stage where
  block : ContextuallyVerifiedBlock
  entry : Entry
  after : Snapshot

def lastSnapshot (start : Snapshot) (stages : List Stage) : Snapshot := stages.foldl (fun _ stage => stage.after) start

def History (checks : Bool) : Snapshot → List Stage → Prop
  | _, [] => True
  | start, stage :: stages =>
    Entered checks start stage.block stage.entry stage.after ∧ History checks stage.after stages

variable {checks : Bool} {start before : Snapshot} {stage : Stage} {stages stages' : List Stage} {key : BondKey}

@[simp] theorem lastSnapshot_nil : lastSnapshot start [] = start := rfl

@[simp] theorem lastSnapshot_cons : lastSnapshot start (stage :: stages) = lastSnapshot stage.after stages := rfl

@[simp] theorem lastSnapshot_append :
    lastSnapshot start (stages ++ stages') = lastSnapshot (lastSnapshot start stages) stages' := foldl_append

theorem history_append : History checks start (stages ++ stages') ↔
    History checks start stages ∧ History checks (lastSnapshot start stages) stages' := by
  induction stages generalizing start with
  | nil => simp [History]
  | cons stage stages ih => rw [cons_append, History, History, ih, and_assoc, lastSnapshot_cons]

theorem history_snoc : History checks start (stages ++ [stage]) ↔
    History checks start stages ∧ Entered checks (lastSnapshot start stages) stage.block stage.entry stage.after := by
  rw [history_append, History, History, and_true]

theorem History.unique (h : History checks start stages) (h' : History checks start stages')
    (hblocks : stages.map Stage.block = stages'.map Stage.block) : stages = stages' := by
  induction stages generalizing start stages' with
  | nil => exact (map_eq_nil_iff.mp hblocks.symm).symm
  | cons stage stages ih =>
    cases stages' with
    | nil => cases hblocks
    | cons stage' stages' =>
      rw [map_cons, map_cons, List.cons.injEq] at hblocks
      obtain ⟨hblock, hblocks⟩ := hblocks
      obtain ⟨block, entry, after⟩ := stage
      obtain ⟨block', entry', after'⟩ := stage'
      obtain rfl : block = block' := hblock
      obtain ⟨rfl, rfl⟩ := Snapshot.enter_unique h.1.enter h'.1.enter
      rw [ih h.2 h'.2 hblocks]

def Snapshot.enterAll (checks : Bool) (s : Snapshot) (blocks : List ContextuallyVerifiedBlock) :
    Except (Stop ValidateContextError) Snapshot :=
  blocks.foldlM (fun s b => do return (← s.enter checks b).2) s

theorem History.enterAll_eq (h : History checks start stages) :
    start.enterAll checks (stages.map Stage.block) = .ok (lastSnapshot start stages) := by
  induction stages generalizing start with
  | nil => rfl
  | cons stage stages ih =>
    refine foldlM_cons_eq_ok.mpr ⟨stage.after, ?_, ih h.2⟩
    rw [h.1.enter]
    rfl

theorem Entered.info_eq_iff {after : Snapshot} (h : Entered checks before b e after) :
    e.info = ⟨after.pools, b.size % 2 ^ 32⟩ ↔ Ledger.activeBonds after.bonds = [] := by
  obtain ⟨c, offer, c', a, pools, -, hby, -, rfl, hinfo⟩ := h.filled
  obtain ⟨info, hrewarded⟩ := hby.rewarded
  rw [hinfo, hby.record_eq_nil, BlockInfo.mk.injEq, and_iff_left rfl]
  have hpool := hrewarded.pool
  constructor
  · intro hsame
    by_contra hne
    rw [if_neg hne] at hpool
    have hbonded : (pools .stakingBonded).zatoshis = (c'.chainValuePools .stakingBonded).zatoshis := by rw [hsame]; rfl
    have htotal : (0 : ℤ) < Ledger.bondRewardTotal := by decide
    have hbefore : (c'.chainValuePools .stakingBonded).zatoshis = (pools .stakingBonded).zatoshis + _ := hpool
    omega
  · intro hnil
    rw [if_pos hnil, add_zero] at hpool
    refine ValueBalance.ext fun p => ?_
    by_cases hp : p = .stakingBonded
    · subst hp
      exact hpool.symm
    · exact congrArg Amount.zatoshis (hrewarded.pools p hp).symm

def Snapshot.Backed (s : Snapshot) : Prop := (s.pools .stakingBonded).zatoshis = stakeTotal .active s.bonds

theorem backed_unlocate {c : Chain} : c.snapshot.unlocate.Backed ↔ BondedBacked c.toLedger := by
  rw [Snapshot.Backed, Snapshot.unlocate, stakeTotal_unlocate]
  rfl

theorem Entered.backed {after : Snapshot} (h : Entered checks before b e after) : after.Backed := by
  obtain ⟨henter, c, offer, c', haccept, hall, hbacked, hblock, rfl⟩ := h
  obtain ⟨a⟩ := Chain.accept_eq_ok haccept
  obtain rfl := Except.ok.inj (a.block_eq.symm.trans hblock)
  obtain ⟨e', henter', -⟩ := a.enter
  obtain ⟨rfl, rfl⟩ := Snapshot.enter_unique henter henter'
  exact backed_unlocate.mpr (accept_pools hbacked hall haccept).1

theorem History.backed (h : History checks start stages) (hstart : start.Backed) : (lastSnapshot start stages).Backed := by
  induction stages generalizing start with
  | nil => exact hstart
  | cons stage stages ih => exact ih h.2 h.1.backed

theorem History.amountOf_eq (h : History checks start stages) (hbs : start.bonds[key]? = some bs)
    (hactive : bs.2 ≠ .active) :
    amountOf (lastSnapshot start stages).bonds key = amountOf start.bonds key := by
  induction stages generalizing start bs with
  | nil => rfl
  | cons stage stages ih =>
    obtain ⟨bs', hbs', hactive', hamount⟩ := h.1.frozen hbs hactive
    rw [lastSnapshot_cons, ih h.2 hbs' hactive', amountOf_of_getElem? hbs, amountOf_of_getElem? hbs', hamount]

theorem History.unbonded_amountOf (h : History checks start (stage :: stages)) (hkey : key ∈ unbondedBy stage.block.actions) :
    amountOf (lastSnapshot stage.after stages).bonds key = amountOf stage.after.bonds key := by
  obtain ⟨bs, hbs, hactive⟩ := h.1.exited hkey
  exact h.2.amountOf_eq hbs hactive

/-! ### Chains -/

/-- The records of the chain are those of a history of its blocks, one entry for each block. -/
structure Aligned (checks : Bool) (start : Snapshot) (c : Chain) (stages : List Stage) : Prop where
  history : History checks start stages
  snapshot : c.snapshot.unlocate = lastSnapshot start stages
  blocks : c.blocks = stages.map Stage.block
  rewards : c.bondRewards = (stages.map (·.entry.record)).reverse
  retargets : c.bondRetargets = (stages.map (·.entry.retargets)).reverse

/-- The chain agrees with the history of its blocks. -/
structure Grounded (checks : Bool) (db : ZebraDb) (c : Chain) (stages : List Stage) : Prop where
  history : History checks (Chain.new db).snapshot.unlocate stages
  snapshot : c.snapshot.unlocate = lastSnapshot (Chain.new db).snapshot.unlocate stages
  blocks : c.blocks = stages.map Stage.block
  rewards : c.bondRewards = (stages.map (·.entry.record)).reverse
  retargets : c.bondRetargets = (stages.map (·.entry.retargets)).reverse
  infos : ∀ stage ∈ stages, c.blockInfoByHeight stage.block.height = some stage.entry.info

variable {T : HashTree.Tree Block} {db db' : ZebraDb} {c c' : Chain} {b : ContextuallyVerifiedBlock} {e : Entry}
  {after : Snapshot} {hash : BlockHash}

namespace Aligned

theorem push (h : Aligned checks start c stages) (hp : Pushed checks c b c')
    (he : Entered checks (lastSnapshot start stages) b e after) :
    Aligned checks start c' (stages ++ [⟨b, e, after⟩]) ∧
      c'.blockInfoByHeight = Function.update c.blockInfoByHeight b.height (some e.info) := by
  obtain ⟨filled, hact, hclose⟩ := hp.ledger
  obtain ⟨e', henter, hrewards, hretargets, hinfo⟩ := enter_of_actAll hact hclose
  replace henter : c.snapshot.unlocate.enter checks b = .ok (e', c'.snapshot.unlocate) := henter
  rw [h.snapshot] at henter
  obtain ⟨rfl, rfl⟩ := Snapshot.enter_unique henter he.enter
  refine ⟨⟨history_snoc.mpr ⟨h.history, he⟩, ?_, ?_, ?_, ?_⟩, hinfo⟩
  · rw [lastSnapshot_append]
    rfl
  · rw [hp.blocks, h.blocks, map_append]
    rfl
  · rw [hrewards, h.rewards, map_append, reverse_append]
    rfl
  · rw [hretargets, h.retargets, map_append, reverse_append]
    rfl

theorem popTip (h : Aligned checks start c stages) (hpop : c.popTip = .ok c') :
    ∃ pre stage, stages = pre ++ [stage] ∧ Aligned checks start c' pre ∧
      c'.blockInfoByHeight = Function.update c.blockInfoByHeight stage.block.height none := by
  obtain ⟨-, b, hc, -⟩ := popTip_blocks hpop
  obtain rfl | ⟨pre, stage, rfl⟩ := eq_nil_or_concat' stages
  · rw [h.blocks] at hc
    simp at hc
  obtain ⟨hhistory, hentered⟩ := history_snoc.mp h.history
  have hsnap : c.snapshot.unlocate = stage.after := by
    rw [h.snapshot, lastSnapshot_append]
    rfl
  have htip : c.blocks.getLast? = some stage.block := by rw [h.blocks, map_append]; simp
  have hrewards : c.bondRewards = stage.entry.record :: (pre.map (·.entry.record)).reverse := by
    rw [h.rewards, map_append, reverse_append]
    rfl
  have hretargets : c.bondRetargets = stage.entry.retargets :: (pre.map (·.entry.retargets)).reverse := by
    rw [h.retargets, map_append, reverse_append]
    rfl
  obtain ⟨hsnap', hrewards', hretargets', hblocks, hinfo⟩ := hentered.popTip hsnap htip hrewards hretargets hpop
  refine ⟨pre, stage, rfl, ⟨hhistory, hsnap', ?_, hrewards', hretargets'⟩, hinfo⟩
  rw [hblocks, h.blocks, map_append]
  exact dropLast_concat

theorem popRoot_eq (h : Aligned checks start c (stage :: stages)) (hpop : c.popRoot = .ok (popped, c')) :
    popped.block = stage.block ∧ popped.bondRewards = stage.entry.record ∧
      popped.unbondingAmounts = (unbondedBy stage.block.actions).map fun k => (k, (amountOf stage.after.bonds k).toNat) := by
  obtain ⟨hc, hrewards, hamounts, -⟩ := popRoot_inv hpop
  have hblock : popped.block = stage.block := (List.cons.inj (hc.symm.trans h.blocks)).1
  refine ⟨hblock, ?_, ?_⟩
  · rw [hrewards, h.rewards]
    simp
  · rw [unbondingAmounts_eq_ok hamounts, hblock]
    refine map_congr_left fun k hk => ?_
    have hlast : c.snapshot.unlocate = lastSnapshot stage.after stages := h.snapshot
    rw [← h.history.unbonded_amountOf hk, ← hlast]
    exact congrArg (fun a => (k, a.toNat)) (amountOf_unlocate _ k).symm

theorem popRoot (h : Aligned checks start c (stage :: stages)) (hpop : c.popRoot = .ok (popped, c')) :
    Aligned checks stage.after c' stages ∧
      c'.blockInfoByHeight = Function.update c.blockInfoByHeight stage.block.height none := by
  obtain ⟨hc, -, -, hledger⟩ := popRoot_inv hpop
  obtain ⟨hblock, hblocks⟩ := List.cons.inj (hc.symm.trans h.blocks)
  refine ⟨⟨h.history.2, ?_, hblocks, ?_, ?_⟩, ?_⟩
  · rw [(popRoot_eq_ok hpop).2.2, h.snapshot, lastSnapshot_cons]
  · rw [congrArg Ledger.bondRewards hledger, h.rewards]
    simp
  · rw [congrArg Ledger.bondRetargets hledger, h.retargets]
    simp
  · rw [congrArg Ledger.blockInfoByHeight hledger, hblock]

end Aligned

namespace Grounded

theorem new (checks : Bool) (db : ZebraDb) : Grounded checks db (Chain.new db) [] :=
  ⟨trivial, rfl, rfl, rfl, rfl, fun _ h => absurd h not_mem_nil⟩

theorem aligned (h : Grounded checks db c stages) : Aligned checks (Chain.new db).snapshot.unlocate c stages :=
  ⟨h.history, h.snapshot, h.blocks, h.rewards, h.retargets⟩

theorem of_aligned (h : Aligned checks (Chain.new db).snapshot.unlocate c stages)
    (hinfos : ∀ stage ∈ stages, c.blockInfoByHeight stage.block.height = some stage.entry.info) :
    Grounded checks db c stages :=
  ⟨h.history, h.snapshot, h.blocks, h.rewards, h.retargets, hinfos⟩

theorem push (h : Grounded checks db c stages) (hp : Pushed checks c b c')
    (he : Entered checks (lastSnapshot (Chain.new db).snapshot.unlocate stages) b e after)
    (hfresh : ∀ x ∈ c.blocks, x.height ≠ b.height) : Grounded checks db c' (stages ++ [⟨b, e, after⟩]) := by
  obtain ⟨haligned, hinfo⟩ := h.aligned.push hp he
  refine .of_aligned haligned fun stage hstage => ?_
  rw [hinfo]
  rcases mem_append.mp hstage with hstage | hstage
  · rw [Function.update_of_ne (hfresh _ (h.blocks ▸ mem_map_of_mem hstage)), h.infos stage hstage]
  · rw [mem_singleton.mp hstage, Function.update_self]

theorem pushAll (h : Grounded checks db c stages)
    (hhistory : History checks (lastSnapshot (Chain.new db).snapshot.unlocate stages) stages')
    (hheights : ((c.blocks ++ stages'.map Stage.block).map (·.height)).Nodup)
    (hpush : (stages'.map Stage.block).foldlM (Chain.push checks) c = .ok c') :
    Grounded checks db c' (stages ++ stages') := by
  induction stages' generalizing c stages with
  | nil =>
    obtain rfl := foldlM_nil_eq_ok.mp hpush
    rwa [append_nil]
  | cons stage stages' ih =>
    obtain ⟨c₁, hstep, hpush⟩ := foldlM_cons_eq_ok.mp hpush
    have hp := push_eq_ok hstep
    have hfresh : ∀ x ∈ c.blocks, x.height ≠ stage.block.height := by
      intro x hx heq
      rw [map_append, nodup_append] at hheights
      exact hheights.2.2 _ (mem_map_of_mem hx) _ (by simp) heq
    have hc₁ := h.push hp hhistory.1 hfresh
    rw [append_cons]
    refine ih hc₁ ?_ ?_ hpush
    · rw [lastSnapshot_append]
      exact hhistory.2
    · rwa [hp.blocks, ← append_cons]

theorem heights_ne (h : Grounded checks db c stages) (ha : Attached T db c) (pre post : List Stage)
    (hstages : stages = pre ++ stage :: post) (hother : other ∈ pre ++ post) :
    other.block.height ≠ stage.block.height := by
  have hnodup := ha.heights_nodup
  rw [h.blocks, hstages, map_append, map_cons, map_append, map_cons, nodup_middle,
    ← map_append, ← map_append] at hnodup
  intro heq
  exact (nodup_cons.mp hnodup).1 (heq ▸ mem_map_of_mem (mem_map_of_mem hother))

theorem popTip (h : Grounded checks db c stages) (ha : Attached T db c) (hpop : c.popTip = .ok c') :
    ∃ pre, pre <+: stages ∧ Grounded checks db c' pre := by
  obtain ⟨pre, stage, rfl, haligned, hinfo⟩ := h.aligned.popTip hpop
  refine ⟨pre, prefix_append _ _, .of_aligned haligned fun other hother => ?_⟩
  rw [hinfo, Function.update_of_ne (h.heights_ne ha pre [] rfl (by simpa using hother))]
  exact h.infos other (mem_append_left _ hother)

theorem popTo (h : Grounded checks db c stages) (ha : Attached T db c) (hpop : Chain.popTo hash fuel c = .ok c') :
    ∃ pre, pre <+: stages ∧ Grounded checks db c' pre := by
  induction fuel generalizing c stages with
  | zero => cases hpop
  | succ fuel ih =>
    unfold Chain.popTo at hpop
    obtain ⟨tip, -, hpop⟩ := bind_eq_ok.mp hpop
    split_ifs at hpop
    · obtain rfl := pure_eq_ok.mp hpop
      exact ⟨stages, prefix_rfl, h⟩
    · obtain ⟨c₁, h₁, hpop⟩ := bind_eq_ok.mp hpop
      obtain ⟨pre, hpre, hc₁⟩ := h.popTip ha h₁
      obtain ⟨pre', hpre', hc'⟩ := ih hc₁ (ha.popTip h₁) hpop
      exact ⟨pre', hpre'.trans hpre, hc'⟩

theorem fork (h : Grounded checks db c stages) (ha : Attached T db c) (hfork : c.fork hash = .ok (some c')) :
    ∃ pre, pre <+: stages ∧ Grounded checks db c' pre := by
  unfold Chain.fork at hfork
  split_ifs at hfork
  · cases hfork
  · obtain ⟨c₁, h₁, hfork⟩ := bind_eq_ok.mp hfork
    obtain rfl := Option.some.inj (pure_eq_ok.mp hfork)
    exact h.popTo ha h₁

theorem popRoot (h : Grounded checks db c (stage :: stages)) (ha : Attached T db c)
    (hpop : c.popRoot = .ok (popped, c')) (hdb : (Chain.new db').snapshot.unlocate = stage.after) :
    Grounded checks db' c' stages := by
  obtain ⟨haligned, hinfo⟩ := h.aligned.popRoot hpop
  refine .of_aligned (hdb ▸ haligned) fun other hother => ?_
  rw [hinfo, Function.update_of_ne (h.heights_ne ha [] stages rfl hother), h.infos other (mem_cons_of_mem _ hother)]

end Grounded

/-! ### Any sequence of pushes and pops -/

/-- The bonds that some actions begin to unbond, each with the amount that its action moves between the pools. -/
def movedAmounts (height : ℕ) :
    Ledger → List (StakingAction × ℕ) → Except (Stop ValidateContextError) (List (BondKey × ℕ))
  | _, [] => .ok []
  | l, a :: actions => do
    let l' ← l.updateChainTipWithDelegationBond a.1 ⟨height, a.2⟩
    let rest ← movedAmounts height l' actions
    return if a.1.kind = .beginDelegationUnbonding
      then (a.1.arg32_0, (amountOf l.delegationBonds a.1.arg32_0).toNat) :: rest else rest

theorem Acts.amountOf_eq {l l' : Ledger} (h : l.Acts action location l') (hk : l.delegationBonds[key]? ≠ none) :
    l'.delegationBonds[key]? ≠ none ∧ amountOf l'.delegationBonds key = amountOf l.delegationBonds key := by
  cases h <;> grind [amountOf_insert, amountOf_of_getElem?]

theorem actAll_amountOf (h : actAll height l actions = .ok l') (hk : l.delegationBonds[key]? ≠ none) :
    amountOf l'.delegationBonds key = amountOf l.delegationBonds key := by
  induction actions generalizing l with
  | nil => rw [foldlM_nil_eq_ok.mp h]
  | cons a actions ih =>
    obtain ⟨l₁, h₁, h⟩ := foldlM_cons_eq_ok.mp h
    obtain ⟨hk₁, hamount⟩ := Acts.amountOf_eq (Ledger.updateChainTipWithDelegationBond_eq_ok.mp h₁) hk
    rw [ih h hk₁, hamount]

theorem movedAmounts_eq (h : actAll height l actions = .ok l') : movedAmounts height l actions =
    .ok ((unbondedBy actions).map fun k => (k, (amountOf l'.delegationBonds k).toNat)) := by
  induction actions generalizing l with
  | nil => rfl
  | cons a actions ih =>
    obtain ⟨l₁, h₁, h⟩ := foldlM_cons_eq_ok.mp h
    rw [movedAmounts, h₁, ok_bind, ih h, ok_bind]
    by_cases hk : a.1.kind = .beginDelegationUnbonding
    · have hsame : amountOf l'.delegationBonds a.1.arg32_0 = amountOf l.delegationBonds a.1.arg32_0 := by
        refine actAll_amountOf (foldlM_cons_eq_ok.mpr ⟨l₁, h₁, h⟩) ?_
        cases Ledger.updateChainTipWithDelegationBond_eq_ok.mp h₁ with
        | unbond bond status _ _ _ hbond => simp [hbond]
        | other hother => simp [hk, StakingActionKind.actsOnBond] at hother
        | _ => simp_all
      simp [unbondedBy, hk, hsame]
    · simp [unbondedBy, hk]

/-- A pushed block with what it left in the records, and the amounts that it moved to the unbonded pool. -/
structure Logged where
  stage : Stage
  moved : List (BondKey × ℕ)

/-- A chain after successful pushes and pops at both ends, with the log of the blocks that are still on it. -/
inductive ChainRun (checks : Bool) (start : Chain) : Chain → List Logged → Prop where
  | start : ChainRun checks start start []
  | push {c c' : Chain} {log} {offer} {b e after moved} (h : ChainRun checks start c log) (hall : offer.ValuesVerified)
      (haccept : c.accept checks offer = .ok c') (hblock : Chain.withBlockAndSpentUtxos offer.block offer.spent = .ok b)
      (henter : c.snapshot.unlocate.enter checks b = .ok (e, after))
      (hmoved : movedAmounts b.height (openLedger c.toLedger) b.actions = .ok moved) :
      ChainRun checks start c' (log ++ [⟨⟨b, e, after⟩, moved⟩])
  | popTip {c c' : Chain} {log} (h : ChainRun checks start c log) (hpop : c.popTip = .ok c') :
      ChainRun checks start c' log.dropLast
  | popRoot {c c' : Chain} {log popped} (h : ChainRun checks start c log) (hpop : c.popRoot = .ok (popped, c')) :
      ChainRun checks start c' log.tail

/-- What the log says of the amounts is what the bonds hold right after each block. -/
def Logged.Exact (x : Logged) : Prop :=
  x.moved = (unbondedBy x.stage.block.actions).map fun k => (k, (amountOf x.stage.after.bonds k).toNat)

theorem Accepted.exact (a : Accepted checks c offer c') (hbacked : BondedBacked c.toLedger) (hall : offer.ValuesVerified)
    (henter : c.snapshot.unlocate.enter checks a.block = .ok (e, after))
    (hmoved : movedAmounts a.block.height (openLedger c.toLedger) a.block.actions = .ok moved) :
    (Logged.mk ⟨a.block, e, after⟩ moved).Exact := by
  obtain ⟨pools, hby, rfl, -⟩ := a.enteredBy hbacked hall henter
  have hacts := a.actAll
  rw [← a.actions_eq.1, ← a.actions_eq.2] at hacts
  rw [movedAmounts_eq hacts, Except.ok.injEq] at hmoved
  subst hmoved
  refine map_congr_left fun k hk => ?_
  have hsame : amountOf c'.snapshot.unlocate.bonds k = _ := (amountOf_unlocate _ k).trans (hby.amountOf_eq hk)
  rw [← hsame]

theorem ChainRun.aligned (h : ChainRun checks (Chain.new db) c log) (hbacked : BondedBacked (Chain.new db).toLedger) :
    ∃ start, start.Backed ∧ Aligned checks start c (log.map Logged.stage) ∧ ∀ x ∈ log, x.Exact := by
  induction h with
  | start =>
    exact ⟨_, backed_unlocate.mpr hbacked, ⟨trivial, rfl, rfl, rfl, rfl⟩, fun _ hx => absurd hx not_mem_nil⟩
  | @push c c' log offer b e after moved _ hall haccept hblock henter hmoved ih =>
    obtain ⟨start, hstart, halign, hexact⟩ := ih
    have hc : BondedBacked c.toLedger := by
      rw [← backed_unlocate, halign.snapshot]
      exact halign.history.backed hstart
    obtain ⟨a⟩ := Chain.accept_eq_ok haccept
    obtain rfl := Except.ok.inj (a.block_eq.symm.trans hblock)
    have hentered : Entered checks (lastSnapshot start (log.map Logged.stage)) a.block e after :=
      ⟨halign.snapshot ▸ henter, c, offer, c', haccept, hall, hc, hblock, halign.snapshot⟩
    obtain ⟨b, hb, -, -, hp⟩ := accept_eq_ok haccept
    obtain rfl := Except.ok.inj (hb.symm.trans hblock)
    refine ⟨start, hstart, by simpa using (halign.push hp hentered).1, fun x hx => ?_⟩
    rcases mem_append.mp hx with hx | hx
    · exact hexact x hx
    · rw [mem_singleton.mp hx]
      exact a.exact hc hall henter hmoved
  | popTip _ hpop ih =>
    obtain ⟨start, hstart, halign, hexact⟩ := ih
    obtain ⟨pre, stage, hlog, halign', -⟩ := halign.popTip hpop
    refine ⟨start, hstart, ?_, fun x hx => hexact x (mem_of_mem_dropLast hx)⟩
    rwa [map_dropLast, hlog, dropLast_concat]
  | @popRoot c c' log popped _ hpop ih =>
    obtain ⟨start, hstart, halign, hexact⟩ := ih
    cases log with
    | nil => exact absurd ((popRoot_inv hpop).1.symm.trans halign.blocks) (cons_ne_nil _ _)
    | cons x log =>
      exact ⟨x.stage.after, halign.history.1.backed, (halign.popRoot hpop).1,
        fun y hy => hexact y (mem_cons_of_mem _ hy)⟩

/-- Over all pushes and pops the two records have one entry for each block of the chain, the one that its push made, in
the order of the blocks; and the root is popped with the amounts that its push moved. -/
theorem records_aligned (hbacked : BondedBacked (Chain.new db).toLedger) (h : ChainRun checks (Chain.new db) c log) :
    c.blocks = log.map (·.stage.block) ∧ c.bondRewards.reverse = log.map (·.stage.entry.record) ∧
      c.bondRetargets.reverse = log.map (·.stage.entry.retargets) ∧
      ∀ popped c', c.popRoot = .ok (popped, c') → ∃ x rest, log = x :: rest ∧ popped.block = x.stage.block ∧
        popped.bondRewards = x.stage.entry.record ∧ popped.unbondingAmounts = x.moved := by
  obtain ⟨start, -, halign, hexact⟩ := h.aligned hbacked
  refine ⟨by rw [halign.blocks, map_map]; rfl, by rw [halign.rewards, reverse_reverse, map_map]; rfl,
    by rw [halign.retargets, reverse_reverse, map_map]; rfl, fun popped c' hpop => ?_⟩
  cases log with
  | nil => exact absurd ((popRoot_inv hpop).1.symm.trans halign.blocks) (cons_ne_nil _ _)
  | cons x log =>
    obtain ⟨hblock, hrewards, hamounts⟩ := halign.popRoot_eq hpop
    exact ⟨x, log, rfl, hblock, hrewards, hamounts.trans (hexact x mem_cons_self).symm⟩

theorem ChainRun.pushed (h : ChainRun checks root c log) (hall : offer.ValuesVerified)
    (haccept : c.accept checks offer = .ok c') : ∃ x, ChainRun checks root c' (log ++ [x]) := by
  obtain ⟨a⟩ := Chain.accept_eq_ok haccept
  obtain ⟨e, henter, -⟩ := a.enter
  have hacts := a.actAll
  rw [← a.actions_eq.1, ← a.actions_eq.2] at hacts
  exact ⟨_, h.push hall haccept a.block_eq henter (movedAmounts_eq hacts)⟩

theorem records_aligned_unbondFirst : ∃ c x y, ChainRun true (Chain.new activeDb) c [x, y] ∧
    c.bondRewards.reverse = [x.stage.entry.record, y.stage.entry.record] := by
  obtain ⟨c, h⟩ : ∃ c, [createSecond, unbondFirst].foldlM (Chain.accept true) (Chain.new activeDb) = .ok c :=
    exists_ok_of_isSome (by decide +kernel)
  obtain ⟨c₁, h₁, h⟩ := foldlM_cons_eq_ok.mp h
  obtain ⟨c₂, h₂, h⟩ := foldlM_cons_eq_ok.mp h
  obtain rfl := foldlM_nil_eq_ok.mp h
  have hcreate : createSecond.ValuesVerified := .of_computed (by decide +kernel) (by decide +kernel)
  have hunbond : unbondFirst.ValuesVerified := .of_computed (by decide +kernel) (by decide +kernel)
  obtain ⟨x, hx⟩ := ChainRun.start.pushed hcreate h₁
  obtain ⟨y, hy⟩ := hx.pushed hunbond h₂
  have hbacked : BondedBacked (Chain.new activeDb).toLedger := activeDb_sound.backed
  exact ⟨c₂, x, y, hy, (records_aligned hbacked hy).2.1⟩

end Crosslink.State

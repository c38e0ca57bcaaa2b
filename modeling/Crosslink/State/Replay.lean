import Crosslink.State.ChainRuns
import Crosslink.State.History

/-!
# Replaying the blocks

In every run of the write task the database and all chains agree with the history of their blocks from the database at
the start: no sequence of commits, forks, invalidations, reconsiderations and finalizations makes a chain or the
database differ from what pushing its blocks one after the other gives (`Replays.runs`). A block determines the outputs
that it spends, because its parent chain is determined by it.
-/

namespace Crosslink.State

open Codec Fallible Bft Staking ChainState Relation List

/-! ### Histories from the start -/

/-- A block with the outputs that it spends, which are a function of its hash. -/
def Determined (spentOf : BlockHash → Table OutPoint Utxo) (b : ContextuallyVerifiedBlock) : Prop :=
  Chain.withBlockAndSpentUtxos b.toBlock (spentOf b.hash) = .ok b

variable {T : HashTree.Tree Block} {checks : Bool} {spentOf : BlockHash → Table OutPoint Utxo} {db₀ : ZebraDb}
  {stages stages' ws cs : List Stage} {stage : Stage} {s s' : ChainState} {c c' : Chain} {hash : BlockHash}
  {e : ChainState.Event}

theorem Determined.eq (h : Determined spentOf b) (h' : Determined spentOf b') (heq : b.toBlock = b'.toBlock) :
    b = b' := by
  rw [Determined, heq] at h
  exact Except.ok.inj (h.symm.trans h')

theorem map_toBlock (stages : List Stage) :
    stages.map (·.block.toBlock) = (stages.map Stage.block).map (·.toBlock) := map_map.symm

def ZebraDb.snapshot (db : ZebraDb) : Snapshot := (Chain.new db).snapshot.unlocate

/-- A history of blocks of the tree, from the database at the start. -/
structure Lineage (T : HashTree.Tree Block) (checks : Bool) (spentOf : BlockHash → Table OutPoint Utxo) (db₀ : ZebraDb)
    (stages : List Stage) : Prop where
  history : History checks db₀.snapshot stages
  path : T.Path (db₀.blocks ++ stages.map (·.block.toBlock))
  determined : ∀ stage ∈ stages, Determined spentOf stage.block

theorem Lineage.initial (h : Lineage T checks spentOf db₀ stages) (hdb : db₀.blocks ≠ []) (hinitial : stages' <+: stages) :
    Lineage T checks spentOf db₀ stages' := by
  obtain ⟨rest, rfl⟩ := hinitial
  refine ⟨(history_append.mp h.history).1, h.path.initial ?_ (by simp [hdb]),
    fun stage hstage => h.determined stage (mem_append_left _ hstage)⟩
  rw [map_append, ← append_assoc]
  exact prefix_append _ _

theorem Lineage.unique (h : Lineage T checks spentOf db₀ stages) (h' : Lineage T checks spentOf db₀ stages')
    (hblocks : stages.map (·.block.toBlock) = stages'.map (·.block.toBlock)) : stages = stages' := by
  refine h.history.unique h'.history ?_
  have hlen : stages.length = stages'.length := by simpa using congrArg List.length hblocks
  refine ext_getElem (by simpa using hlen) fun i hi hi' => ?_
  rw [getElem_map, getElem_map]
  refine (h.determined _ (getElem_mem _)).eq (h'.determined _ (getElem_mem _)) ?_
  have hat := getElem_of_eq hblocks (by simpa using hi)
  rwa [getElem_map, getElem_map] at hat

theorem Lineage.unique_of_last (h : Lineage T checks spentOf db₀ stages) (h' : Lineage T checks spentOf db₀ stages')
    (hp : (db₀.blocks ++ stages.map (·.block.toBlock)).getLast? = some p)
    (hq : (db₀.blocks ++ stages'.map (·.block.toBlock)).getLast? = some q) (heq : p.hash = q.hash) :
    stages = stages' := by
  refine h.unique h' ((append_right_inj db₀.blocks).mp ?_)
  rw [← h.path.eq_pathTo hp, ← h'.path.eq_pathTo hq]
  exact congrArg T.pathTo heq

theorem Lineage.height_eq (h : Lineage T checks spentOf db₀ stages) (hi : stages[i]? = some stage) :
    stage.block.height = db₀.blocks.length + i := by
  refine h.path.height_eq (b := stage.block.toBlock) ?_
  rw [getElem?_append_right (by omega), Nat.add_sub_cancel_left, getElem?_map, hi, Option.map_some]

/-! ### The database -/

/-- The database agrees with the history of its blocks. -/
structure Recorded (checks : Bool) (db₀ db : ZebraDb) (stages : List Stage) : Prop where
  history : History checks db₀.snapshot stages
  snapshot : db.snapshot = lastSnapshot db₀.snapshot stages
  blocks : db.blocks = db₀.blocks ++ stages.map (·.block.toBlock)
  paired : Paired db.toFinalizedBonds
  infos : ∀ stage ∈ stages,
    db.blockInfo stage.block.height = some ⟨stage.after.pools, stage.block.size % 2 ^ 32⟩

variable {db db' : ZebraDb}

theorem Recorded.lineage (h : Recorded checks db₀ db ws) (hg : Grounded checks db c cs) (ha : Attached T db c)
    (hdetermined : ∀ stage ∈ ws ++ cs, Determined spentOf stage.block) : Lineage T checks spentOf db₀ (ws ++ cs) := by
  refine ⟨history_append.mpr ⟨h.history, h.snapshot ▸ hg.history⟩, ?_, hdetermined⟩
  have hpath := ha.path
  rw [h.blocks, hg.blocks, ← map_toBlock, append_assoc] at hpath
  rwa [map_append]

theorem Recorded.lineage_self (h : Recorded checks db₀ db ws) (hpath : T.Path db.blocks)
    (hdetermined : ∀ stage ∈ ws, Determined spentOf stage.block) : Lineage T checks spentOf db₀ ws :=
  ⟨h.history, h.blocks ▸ hpath, hdetermined⟩

theorem Recorded.write (h : Recorded checks db₀ db ws) (hg : Grounded checks db c (stage :: cs))
    (hlineage : Lineage T checks spentOf db₀ (ws ++ [stage])) (hdb : db₀.blocks ≠ [])
    (hpop : c.popRoot = .ok (popped, c')) (hwrite : db.writeBlock checks popped = .ok db') :
    Recorded checks db₀ db' (ws ++ [stage]) ∧ db'.snapshot = stage.after := by
  obtain ⟨hblock, hrewards, hamounts⟩ := hg.aligned.popRoot_eq hpop
  have hheight := hlineage.height_eq (i := ws.length) (getElem?_concat_length)
  have hpos : 0 < stage.block.height := by
    have := length_pos_iff.mpr hdb
    omega
  obtain ⟨hpaired, hsnap, hinfo⟩ := hg.history.1.written hpos h.paired rfl hblock hrewards hamounts hwrite
  refine ⟨⟨hlineage.history, ?_, ?_, hpaired, fun other hother => ?_⟩, hsnap⟩
  · rw [lastSnapshot_append]
    exact hsnap
  · rw [Storage.writeBlock_blocks hwrite, h.blocks, hblock, map_append, append_assoc]
    rfl
  · rw [hinfo]
    rcases List.mem_append.mp hother with hother | hother
    · obtain ⟨i, hi⟩ := List.mem_iff_getElem?.mp hother
      have hlt := (List.getElem?_eq_some_iff.mp hi).1
      have hheight' := hlineage.height_eq (i := i) (by rw [List.getElem?_append_left hlt, hi])
      rw [Function.update_of_ne (by omega), h.infos other hother]
    · rw [List.mem_singleton.mp hother, Function.update_self]

/-! ### The state -/

/-- Everything that the state holds agrees with the histories of the blocks. -/
structure Replays (T : HashTree.Tree Block) (checks : Bool) (spentOf : BlockHash → Table OutPoint Utxo) (db₀ : ZebraDb)
    (ws : List Stage) (s : ChainState) : Prop where
  start : db₀.blocks ≠ [] ∧ db₀.snapshot.Backed
  onTree : OnTree T s
  db : Recorded checks db₀ s.db ws
  determined : ∀ stage ∈ ws, Determined spentOf stage.block
  chains : ∀ c ∈ s.nonFinalizedState.chainSet, ∃ cs, Grounded checks s.db c cs ∧
    ∀ stage ∈ cs, Determined spentOf stage.block
  entries : ∀ x ∈ s.nonFinalizedState.invalidatedBlocks, ∃ pre es, x.2 = es.map Stage.block ∧
    Lineage T checks spentOf db₀ (pre ++ es)

namespace Replays

theorem lineage (h : Replays T checks spentOf db₀ ws s) (hg : Grounded checks s.db c cs) (ha : Attached T s.db c)
    (hdetermined : ∀ stage ∈ cs, Determined spentOf stage.block) : Lineage T checks spentOf db₀ (ws ++ cs) :=
  h.db.lineage hg ha fun stage hstage => (mem_append.mp hstage).elim (h.determined stage) (hdetermined stage)

theorem parent (h : Replays T checks spentOf db₀ ws s) (hp : ParentOf s hash c) :
    ∃ cs, Grounded checks s.db c cs ∧ ∀ stage ∈ cs, Determined spentOf stage.block := by
  rcases hp with ⟨-, rfl, -⟩ | hp
  · exact ⟨[], .new checks s.db, fun _ hstage => absurd hstage not_mem_nil⟩
  · cases hp with
    | tip _ hc _ => exact h.chains c hc
    | fork d _ hd _ hfork =>
      obtain ⟨cs, hg, hdetermined⟩ := h.chains d hd
      obtain ⟨pre, hpre, hg'⟩ := hg.fork (h.onTree.chains d hd) hfork
      exact ⟨pre, hg', fun stage hstage => hdetermined stage (hpre.subset hstage)⟩

theorem backed (h : Replays T checks spentOf db₀ ws s) (hg : Grounded checks s.db c cs) : BondedBacked c.toLedger := by
  rw [← backed_unlocate, hg.snapshot]
  refine hg.history.backed ?_
  rw [show (Chain.new s.db).snapshot.unlocate = _ from h.db.snapshot]
  exact h.db.history.backed h.start.2

end Replays

/-- What a run is made of: a committed block is one of the tree, comes with the outputs that it spends, and its values
went through the verifiers. -/
def ChainState.Verified (T : HashTree.Tree Block) (spentOf : BlockHash → Table OutPoint Utxo) : Event → Prop
  | .commit block spent _ => T.Mem block ∧ spent = spentOf block.hash ∧ ∀ db, (Offer.mk db block spent).ValuesVerified
  | _ => True

theorem Replays.inserted (h : Replays T checks spentOf db₀ ws s) (ht : OnTree T { s with nonFinalizedState := nfs })
    (hnew : ∃ cs, Grounded checks s.db new cs ∧ ∀ stage ∈ cs, Determined spentOf stage.block)
    (hinserted : Inserted s.nonFinalizedState.chainSet new keep nfs.chainSet)
    (hentries : ∀ x ∈ nfs.invalidatedBlocks, x ∈ s.nonFinalizedState.invalidatedBlocks ∨ ∃ pre es, x.2 = es.map Stage.block ∧ Lineage T checks spentOf db₀ (pre ++ es)) :
    Replays T checks spentOf db₀ ws { s with nonFinalizedState := nfs } where
  start := h.start
  onTree := ht
  db := h.db
  determined := h.determined
  chains c hc := by
    rcases mem_cons.mp (mem_of_mem_filter (hinserted.subperm.subset hc)) with rfl | hc
    · exact hnew
    · exact h.chains c hc
  entries x hx := (hentries x hx).elim (h.entries x) id

theorem Replays.committed (h : Replays T checks spentOf db₀ ws s) (hb : T.Mem block)
    (hall : ∀ db, (Offer.mk db block (spentOf block.hash)).ValuesVerified)
    (hok : s.validateAndCommitNonFinalized checks block (spentOf block.hash) outcomes = .ok s') :
    Replays T checks spentOf db₀ ws s' := by
  have ht := (h.onTree.committed hb hok).onTree
  obtain ⟨parent, new, haccept, hdb, hinvalidated, -, hcases⟩ := commit_eq_ok hok
  obtain ⟨hparent, keep, hinserted⟩ : ParentOf s block.previousBlockHash parent ∧ ∃ keep : Chain → Bool,
      Inserted s.nonFinalizedState.chainSet new keep s'.nonFinalizedState.chainSet := by
    rcases hcases with ⟨htip, hnew, hne, hinserted⟩ | ⟨-, hparent, hinserted⟩
    · exact ⟨.inl ⟨htip, hnew, hne⟩, _, hinserted⟩
    · exact ⟨.inr hparent, _, hinserted⟩
  obtain ⟨cs, hg, hdetermined⟩ := h.parent hparent
  obtain ⟨b, hblock, htoBlock, -, hp⟩ := accept_eq_ok haccept
  obtain ⟨filled, hact, hclose⟩ := hp.ledger
  obtain ⟨e, henter, -⟩ := enter_of_actAll hact hclose
  have hentered : Entered checks (lastSnapshot (Chain.new s.db).snapshot.unlocate cs) b e new.snapshot.unlocate :=
    ⟨hg.snapshot ▸ henter, parent, _, new, haccept, hall s.db, h.backed hg, hblock, hg.snapshot⟩
  have hnew : Grounded checks s.db new (cs ++ [⟨b, e, new.snapshot.unlocate⟩]) := by
    refine hg.push hp hentered fun x hx heq => ?_
    have hnodup := (h.onTree.accept hb hparent haccept).1.heights_nodup
    rw [hp.blocks, map_append, nodup_append] at hnodup
    exact hnodup.2.2 _ (mem_map_of_mem hx) _ (by simp) heq
  have hdetermined' : Determined spentOf b := by
    rw [Determined, htoBlock]
    exact hblock
  obtain ⟨db, nfs⟩ := s'
  obtain rfl : db = s.db := hdb
  refine h.inserted ht ⟨_, hnew, fun stage hstage => ?_⟩ hinserted fun x hx => .inl (hinvalidated ▸ hx)
  rcases mem_append.mp hstage with hstage | hstage
  · exact hdetermined stage hstage
  · rw [mem_singleton.mp hstage]
    exact hdetermined'

theorem Replays.reconsidered (h : Replays T checks spentOf db₀ ws s)
    (hok : s.nonFinalizedState.reconsiderBlock checks hash s.db = .ok nfs) :
    Replays T checks spentOf db₀ ws { s with nonFinalizedState := nfs } := by
  have ht := (h.onTree.reconsidered hok).onTree
  obtain ⟨height, blocks, root, parent, new, hentry, hroot, rfl, hcases, hpush, hinserted, hsub⟩ :=
    reconsiderBlock_eq_ok hok
  have hparent : ParentOf s root.previousBlockHash parent := hcases.imp id And.right
  have hoff : TakenOff T blocks := h.onTree.entries _ hentry
  obtain ⟨hattached, hblocks⟩ := h.onTree.reconsider hoff hroot hparent hpush
  obtain ⟨hattached', p, hlast, hhash⟩ := h.onTree.parent hparent
  obtain ⟨cs, hg, hdetermined⟩ := h.parent hparent
  obtain ⟨pre, es, rfl, hlineage⟩ : ∃ pre es, blocks = es.map Stage.block ∧ Lineage T checks spentOf db₀ (pre ++ es) :=
    h.entries _ hentry
  have hparentLineage := h.lineage hg hattached' hdetermined
  have hpre := hlineage.initial h.start.1 (prefix_append pre es)
  -- the parent is where the blocks were taken off
  obtain rfl : pre = ws ++ cs := by
    obtain ⟨q, hq⟩ : ∃ q, (db₀.blocks ++ pre.map (·.block.toBlock)).getLast? = some q :=
      ⟨_, getLast?_eq_some_getLast (by simp [h.start.1])⟩
    have hlinked := hlineage.path.linked
    rw [map_append, ← append_assoc] at hlinked
    have hlink := (isChain_append.mp hlinked).2.2 q hq root.toBlock (by
      rw [map_toBlock, head?_map, hroot]
      rfl)
    refine hpre.unique_of_last hparentLineage hq (q := p) ?_ (hlink.1.symm.trans hhash.symm)
    rw [map_append, ← append_assoc, ← h.db.blocks, map_toBlock cs, ← hg.blocks]
    exact hlast
  have hnew : Grounded checks s.db new (cs ++ es) := by
    refine hg.pushAll ?_ ?_ hpush
    · have hhistory := (history_append.mp hlineage.history).2
      rwa [lastSnapshot_append, ← h.db.snapshot] at hhistory
    · rw [← hblocks]
      exact hattached.heights_nodup
  refine h.inserted ht ⟨_, hnew, fun stage hstage => ?_⟩ hinserted fun x hx => .inl (hsub.subset hx)
  refine hlineage.determined stage ?_
  rw [append_assoc]
  exact mem_append_right _ hstage

theorem Replays.takenOff (h : Replays T checks spentOf db₀ ws s) (hc : c ∈ s.nonFinalizedState.chainSet) (i : ℕ) :
    ∃ pre es, c.blocks.drop i = es.map Stage.block ∧ Lineage T checks spentOf db₀ (pre ++ es) := by
  obtain ⟨cs, hg, hdetermined⟩ := h.chains c hc
  refine ⟨ws ++ cs.take i, cs.drop i, ?_, ?_⟩
  · rw [hg.blocks, map_drop]
  · rw [append_assoc, take_append_drop]
    exact h.lineage hg (h.onTree.chains c hc) hdetermined

theorem Replays.invalidated (h : Replays T checks spentOf db₀ ws s)
    (hok : s.nonFinalizedState.invalidateBlock hash = .ok (some nfs)) :
    Replays T checks spentOf db₀ ws { s with nonFinalizedState := nfs } := by
  have ht := (h.onTree.invalidated hok).onTree
  obtain ⟨c, hc, blocks, first, -, -, hinvalidated, hcases⟩ := invalidateBlock_eq_ok hok
  have hattached := h.onTree.chains c hc
  have hentries : (∃ pre es, blocks = es.map Stage.block ∧ Lineage T checks spentOf db₀ (pre ++ es)) →
      ∀ x ∈ nfs.invalidatedBlocks, x ∈ s.nonFinalizedState.invalidatedBlocks ∨
        ∃ pre es, x.2 = es.map Stage.block ∧ Lineage T checks spentOf db₀ (pre ++ es) := by
    intro hoff x hx
    rw [hinvalidated] at hx
    rcases mem_rememberInvalidated hx with hx | rfl
    · exact .inl hx
    · exact .inr hoff
  rcases hcases with ⟨-, rfl, hset⟩ | ⟨-, height, forked, new, hheight, hfork, hpop, rfl, hinserted⟩
  · have hoff := h.takenOff hc 0
    exact ⟨h.start, ht, h.db, h.determined, fun d hd => h.chains d (hset ▸ hd),
      fun x hx => (hentries hoff x hx).elim (h.entries x) id⟩
  · obtain ⟨b, hb, -, rfl⟩ := (hattached.keyed _ _).mp hheight
    obtain ⟨i, hi⟩ := mem_iff_getElem?.mp hb
    have hoff := h.takenOff hc i
    rw [← hattached.childBlocks_eq hi] at hoff
    obtain ⟨cs, hg, hdetermined⟩ := h.chains c hc
    obtain ⟨pre, hpre, hforked⟩ := hg.fork hattached hfork
    obtain ⟨pre', hpre', hnew⟩ := hforked.popTip (hattached.fork hfork).1 hpop
    exact h.inserted ht ⟨pre', hnew, fun stage hstage => hdetermined stage ((hpre'.trans hpre).subset hstage)⟩ hinserted
      (hentries hoff)

theorem Replays.crosslinkFinalized (h : Replays T checks spentOf db₀ ws s)
    (hok : s.nonFinalizedState.crosslinkFinalize hash = some (blocks, nfs)) :
    Replays T checks spentOf db₀ ws { s with nonFinalizedState := nfs } := by
  have ht := (h.onTree.crosslinkFinalized hok).onTree
  obtain ⟨rfl, -⟩ := crosslinkFinalize_eq_some hok
  exact ⟨h.start, ht, h.db, h.determined, fun c hc => h.chains c (mem_of_mem_filter hc), h.entries⟩

theorem Replays.shortened (h : Replays T checks spentOf db₀ ws s) (hc : c ∈ s.nonFinalizedState.chainSet)
    (hshort : Shortened stage.block.hash c c') (hstage : History checks s.db.snapshot [stage])
    (hdetermined : Determined spentOf stage.block) (hmem : T.Mem stage.block.toBlock)
    (hdb : db'.snapshot = stage.after) :
    ∃ cs, Grounded checks s.db c (stage :: cs) ∧ Grounded checks db' c' cs ∧
      ∀ stage ∈ cs, Determined spentOf stage.block := by
  obtain ⟨popped, hpop, hhash⟩ := hshort
  have hattached := h.onTree.chains c hc
  obtain ⟨cs, hg, hdetermined'⟩ := h.chains c hc
  have hblocks := (popRoot_eq_ok hpop).1
  cases cs with
  | nil =>
    rw [hg.blocks] at hblocks
    cases hblocks
  | cons first cs =>
    have hfirst : popped.block = first.block := (List.cons.inj (hblocks.symm.trans hg.blocks)).1
    have hsame : first.block = stage.block := by
      refine (hdetermined' first mem_cons_self).eq hdetermined ?_
      refine (hattached.mem ?_).eq hmem (hfirst ▸ hhash)
      rw [hblocks, hfirst]
      exact mem_cons_self
    obtain rfl : first = stage := by
      have hfirst' : History checks s.db.snapshot [first] := ⟨hg.history.1, trivial⟩
      exact head_eq_of_cons_eq (hfirst'.unique hstage (by simp [hsame]))
    exact ⟨cs, hg, hg.popRoot hattached hpop hdb, fun stage hstage => hdetermined' stage (mem_cons_of_mem _ hstage)⟩

theorem Replays.finalized (h : Replays T checks spentOf db₀ ws s) (hok : s.finalize checks = .ok s') :
    ∃ best stage, s.nonFinalizedState.bestChain = some best ∧ best.blocks.head? = some stage.block ∧
      Replays T checks spentOf db₀ (ws ++ [stage]) s' := by
  have ht := (h.onTree.finalized hok).onTree
  obtain ⟨root, hfinalizes, hwrite⟩ := chainStateFinalize_eq_ok hok
  obtain ⟨best, rest, sides, ps, hbest, hall, hpop, hps, hsub⟩ := hfinalizes.chains
  have hmem : best ∈ s.nonFinalizedState.chainSet := hall.subset (by simp)
  have hattached := h.onTree.chains best hmem
  obtain ⟨cs, hg, hdetermined⟩ := h.chains best hmem
  have hblocks := (popRoot_eq_ok hpop).1
  cases cs with
  | nil =>
    rw [hg.blocks] at hblocks
    cases hblocks
  | cons stage cs =>
    have hroot : root.block = stage.block := (hg.aligned.popRoot_eq hpop).1
    have hlineage := (h.lineage hg hattached hdetermined).initial h.start.1
      (show ws ++ [stage] <+: ws ++ stage :: cs from ⟨cs, by simp⟩)
    obtain ⟨hrecorded, hsnap⟩ := h.db.write hg hlineage h.start.1 hpop hwrite
    have hdetermined' := hlineage.determined
    have hstage : Determined spentOf stage.block := hdetermined stage mem_cons_self
    have hmem' : T.Mem stage.block.toBlock := hattached.mem (by rw [hblocks, hroot]; exact mem_cons_self)
    have hshort : ∀ {d d' : Chain}, d ∈ s.nonFinalizedState.chainSet → Shortened root.block.hash d d' →
        ∃ cs, Grounded checks s'.db d' cs ∧ ∀ stage ∈ cs, Determined spentOf stage.block := by
      intro d d' hd hshort
      obtain ⟨cs, -, hg', hdetermined⟩ := h.shortened hd (hroot ▸ hshort) ⟨hg.history.1, trivial⟩ hstage hmem' hsnap
      exact ⟨cs, hg', hdetermined⟩
    refine ⟨best, stage, hbest, by rw [hblocks, hroot]; rfl, h.start, ht, hrecorded, hdetermined', fun c hc => ?_, fun x hx => ?_⟩
    · rcases mem_append.mp (hsub.subset hc) with hc | hc
      · obtain ⟨d, hd, hd'⟩ := OrderedSet.exists_of_mem_right hps hc
        exact hshort (hall.subset (mem_append_left _ hd)) hd'
      · split_ifs at hc
        · cases hc
        · obtain rfl := mem_singleton.mp hc
          exact hshort hmem ⟨root, hpop, rfl⟩
    · rw [hfinalizes.invalidated] at hx
      exact h.entries x (mem_of_mem_filter hx)

/-! ### Runs -/

theorem Replays.step (h : Replays T checks spentOf db₀ ws s) (he : Verified T spentOf e)
    (hstep : s.step checks e = .ok s') : ∃ more, Replays T checks spentOf db₀ (ws ++ more) s' := by
  have hsame : ∃ more, Replays T checks spentOf db₀ (ws ++ more) s := ⟨[], by rwa [append_nil]⟩
  cases e with
  | commit block spent outcomes =>
    obtain ⟨hb, rfl, hall⟩ := he
    simp only [ChainState.step] at hstep
    split at hstep
    next hok =>
      obtain rfl := Except.ok.inj hstep
      exact ⟨[], by rw [append_nil]; exact h.committed hb hall hok⟩
    · exact Except.ok.inj hstep ▸ hsame
    · cases hstep
  | finalize =>
    obtain ⟨best, stage, -, -, hreplays⟩ := h.finalized hstep
    exact ⟨[stage], hreplays⟩
  | crosslinkFinalize hash =>
    simp only [ChainState.step] at hstep
    split at hstep
    next hok =>
      obtain rfl := Except.ok.inj hstep
      exact ⟨[], by rw [append_nil]; exact h.crosslinkFinalized hok⟩
    · exact Except.ok.inj hstep ▸ hsame
  | invalidate hash =>
    obtain ⟨found, hok, hstep⟩ := bind_eq_ok.mp hstep
    cases found with
    | some nfs =>
      obtain rfl := pure_eq_ok.mp hstep
      exact ⟨[], by rw [append_nil]; exact h.invalidated hok⟩
    | none =>
      obtain rfl := pure_eq_ok.mp hstep
      exact hsame
  | reconsider hash =>
    simp only [ChainState.step] at hstep
    split at hstep
    next hok =>
      obtain rfl := Except.ok.inj hstep
      exact ⟨[], by rw [append_nil]; exact h.reconsidered hok⟩
    · exact Except.ok.inj hstep ▸ hsame
    · cases hstep

theorem Replays.runs (h : Replays T checks spentOf db₀ ws s) (hQ : ∀ s e, Q s e → Verified T spentOf e)
    (hrun : Runs checks Q s s') :
    ∃ more, Replays T checks spentOf db₀ (ws ++ more) s' := by
  induction hrun with
  | refl => exact ⟨[], by rwa [append_nil]⟩
  | tail _ hstep ih =>
    obtain ⟨e, he, hstep⟩ := hstep
    obtain ⟨more, hreplays⟩ := ih
    obtain ⟨more', hreplays'⟩ := hreplays.step (hQ _ e he) hstep
    exact ⟨more ++ more', by rwa [← append_assoc]⟩

theorem Replays.started (hpath : T.Path db.blocks) (hpaired : Paired db.toFinalizedBonds)
    (hbacked : BondedBacked (Chain.new db).toLedger) : Replays T checks spentOf db [] (ChainState.started db) where
  start := ⟨hpath.ne_nil, backed_unlocate.mpr hbacked⟩
  onTree := OnTree.started hpath
  db := ⟨trivial, rfl, by simp [ChainState.started], hpaired, fun _ h => absurd h not_mem_nil⟩
  determined _ h := absurd h not_mem_nil
  chains _ h := absurd h not_mem_nil
  entries _ h := absurd h not_mem_nil

/-! ### Block info -/

theorem Replays.written_of_mem (h₁ : Replays T checks spentOf db₀ ws s₁) (hc : c ∈ s₁.nonFinalizedState.chainSet)
    (hg : Grounded checks s₁.db c (pre ++ stage :: post))
    (hdetermined : ∀ x ∈ pre ++ stage :: post, Determined spentOf x.block) (h₂ : Replays T checks spentOf db₀ ws' s₂)
    (hfinal : stage.block.toBlock ∈ s₂.db.blocks) : stage ∈ ws' := by
  have hattached := h₁.onTree.chains c hc
  have hlineage := (h₁.lineage hg hattached hdetermined).initial h₁.start.1
    (show ws ++ (pre ++ [stage]) <+: ws ++ (pre ++ stage :: post) from ⟨post, by simp⟩)
  have hwritten := h₂.db.lineage_self h₂.onTree.db h₂.determined
  -- the block stands above the database at the start
  have hheight : stage.block.height = db₀.blocks.length + (ws ++ pre).length := by
    refine hlineage.height_eq ?_
    rw [← append_assoc, getElem?_concat_length]
  have hget := h₂.onTree.db.of_mem hfinal
  rw [show HashTree.HashLinked.height stage.block.toBlock = stage.block.height from rfl, hheight, h₂.db.blocks,
    List.getElem?_append_right (by omega), Nat.add_sub_cancel_left, List.getElem?_map] at hget
  obtain ⟨other, hother, hsame⟩ := Option.map_eq_some_iff.mp hget
  obtain ⟨hlt, hat⟩ := List.getElem?_eq_some_iff.mp hother
  have htake : ws'.take (ws ++ pre).length ++ [other] = ws'.take ((ws ++ pre).length + 1) := by
    rw [List.take_succ_eq_append_getElem hlt, hat]
  have hinitial := hwritten.initial h₂.start.1 (htake ▸ List.take_prefix _ ws')
  have hlast : ∀ l : List Stage, ∀ x : Stage,
      (db₀.blocks ++ (l ++ [x]).map (·.block.toBlock)).getLast? = some x.block.toBlock := by
    intro l x
    rw [map_append, ← append_assoc]
    exact getLast?_concat
  rw [← append_assoc] at hlineage
  have heq := hlineage.unique_of_last hinitial (hlast _ _) (hlast _ _) (congrArg Block.hash hsame.symm)
  have hstage : stage = other := by
    have := congrArg List.getLast? heq
    simpa using this
  exact hstage ▸ mem_of_getElem? hother

/-- The block info that a chain holds for a block is the one that the database holds for it later, just when no bond is
active right after the block. -/
theorem blockInfo_kept_iff {s₁ s₂ : ChainState} {pre post : List ContextuallyVerifiedBlock} {b : ContextuallyVerifiedBlock}
    (hpath : T.Path db.blocks) (hpaired : Paired db.toFinalizedBonds) (hbacked : BondedBacked (Chain.new db).toLedger)
    (hrun : Runs checks (fun _ e => Verified T spentOf e) (ChainState.started db) s₁)
    (hc : c ∈ s₁.nonFinalizedState.chainSet) (hb : c.blocks = pre ++ b :: post)
    (hrun' : Runs checks (fun _ e => Verified T spentOf e) s₁ s₂) (hfinal : b.toBlock ∈ s₂.db.blocks) :
    s₂.db.blockInfo b.height = c.blockInfoByHeight b.height ↔
      ∀ after, s₁.db.snapshot.enterAll checks (pre ++ [b]) = .ok after → Ledger.activeBonds after.bonds = [] := by
  obtain ⟨ws, h₁⟩ := (Replays.started hpath hpaired hbacked).runs (fun _ _ he => he) hrun
  obtain ⟨ws', h₂⟩ := h₁.runs (fun _ _ he => he) hrun'
  obtain ⟨cs, hg, hdetermined⟩ := h₁.chains c hc
  obtain ⟨before, rest, rfl, rfl, hrest⟩ := map_eq_append_iff.mp (hg.blocks.symm.trans hb)
  obtain ⟨stage, later, rfl, rfl, rfl⟩ := map_eq_cons_iff.mp hrest
  have hwritten := h₁.written_of_mem hc hg hdetermined h₂ hfinal
  obtain ⟨hhistory, hstage, -⟩ := history_append.mp hg.history
  have hafter : s₁.db.snapshot.enterAll checks (before.map Stage.block ++ [stage.block]) = .ok stage.after := by
    have hsnoc := (history_snoc.mpr ⟨hhistory, hstage⟩).enterAll_eq
    rwa [map_append, lastSnapshot_append] at hsnoc
  rw [h₂.db.infos stage hwritten, hg.infos stage (by simp), Option.some.injEq, eq_comm, hstage.info_eq_iff]
  constructor
  · intro hnil after hok
    rwa [← Except.ok.inj (hafter.symm.trans hok)]
  · exact fun hall => hall stage.after hafter

theorem genesisDb_paired : Paired genesisDb.toFinalizedBonds := by
  intro key
  simp [genesisDb, sampleDb]

theorem genesisDb_backed : BondedBacked (Chain.new genesisDb).toLedger := by
  unfold BondedBacked
  decide +kernel

theorem sampleBlock_verified : Verified sampleTree (fun _ => Table.empty) (commitOf (sampleBlock 1 [])) :=
  ⟨sampleTree_commitOf (by simp), rfl, fun _ => (.of_computed (by decide +kernel) (by decide +kernel) :
    (Offer.mk genesisDb (sampleBlock 1 []) Table.empty).ValuesVerified)⟩

/-- Without bonds the info stays. -/
theorem blockInfo_kept_iff_noBonds : ∃ s₁ s₂ c b post,
    Runs true (fun _ e => Verified sampleTree (fun _ => Table.empty) e) (ChainState.started genesisDb) s₁ ∧
      c ∈ s₁.nonFinalizedState.chainSet ∧ c.blocks = [] ++ b :: post ∧
      Runs true (fun _ e => Verified sampleTree (fun _ => Table.empty) e) s₁ s₂ ∧ b.toBlock ∈ s₂.db.blocks ∧
      (s₂.db.blockInfo b.height = c.blockInfoByHeight b.height ↔
        ∀ after, s₁.db.snapshot.enterAll true ([] ++ [b]) = .ok after → Ledger.activeBonds after.bonds = []) := by
  obtain ⟨s₁, h₁, hcheck⟩ := exists_ok_of_any (x := (ChainState.started genesisDb).step true (commitOf (sampleBlock 1 [])))
    (p := fun s₁ => (s₁.step true .finalize).toOption.isSome) (by decide +kernel)
  obtain ⟨s₂, h₂⟩ := exists_ok_of_isSome hcheck
  obtain ⟨c, b, post, hbest, hblocks, hdb⟩ := finalize_writes h₂
  have hrun : Runs true (fun _ e => Verified sampleTree (fun _ => Table.empty) e) (ChainState.started genesisDb) s₁ :=
    .single ⟨_, sampleBlock_verified, h₁⟩
  have hrun' : Runs true (fun _ e => Verified sampleTree (fun _ => Table.empty) e) s₁ s₂ := .single ⟨.finalize, trivial, h₂⟩
  have hfinal : b.toBlock ∈ s₂.db.blocks := hdb ▸ mem_append_right _ mem_cons_self
  exact ⟨s₁, s₂, c, b, post, hrun, mem_of_getLast? hbest, hblocks, hrun', hfinal,
    blockInfo_kept_iff genesisDb_path genesisDb_paired genesisDb_backed hrun (mem_of_getLast? hbest) hblocks hrun' hfinal⟩

def bondingBlock : Block := sampleBlock 1 [stakingTx .createNewDelegationBond 1 1000000000]

def bondingTree : HashTree.Tree Block := .ofList (sampleBlock 0 []) [bondingBlock] (by decide +kernel)
  sampleTree.genesis_height

theorem bondingBlock_verified : Verified bondingTree (fun _ => Table.empty) (commitOf bondingBlock) :=
  ⟨HashTree.Tree.mem_ofList (by simp), rfl,
    fun _ => (.of_computed (by decide +kernel) (by decide +kernel) : (Offer.mk genesisDb bondingBlock Table.empty).ValuesVerified)⟩

/-- With an active bond the reward of the block is missing from what the chain notes. -/
theorem blockInfo_changes : ∃ s₁ s₂ c b post,
    Runs true (fun _ e => Verified bondingTree (fun _ => Table.empty) e) (ChainState.started genesisDb) s₁ ∧
      c ∈ s₁.nonFinalizedState.chainSet ∧ c.blocks = b :: post ∧
      Runs true (fun _ e => Verified bondingTree (fun _ => Table.empty) e) s₁ s₂ ∧ b.toBlock ∈ s₂.db.blocks ∧
      s₂.db.blockInfo b.height ≠ c.blockInfoByHeight b.height := by
  obtain ⟨s₁, h₁, hcheck⟩ := exists_ok_of_any (x := (ChainState.started genesisDb).step true (commitOf bondingBlock))
    (p := fun s₁ => (s₁.step true .finalize).toOption.any fun s₂ => s₁.nonFinalizedState.bestChain.any fun c =>
      c.blocks.head?.any fun b =>
        (s₂.db.blockInfo b.height).map (fun info => (info.valuePools .stakingBonded).zatoshis) !=
          (c.blockInfoByHeight b.height).map fun info => (info.valuePools .stakingBonded).zatoshis)
    (by decide +kernel)
  obtain ⟨s₂, h₂, hcheck⟩ := exists_ok_of_any hcheck
  obtain ⟨c, b, post, hbest, hblocks, hdb⟩ := finalize_writes h₂
  refine ⟨s₁, s₂, c, b, post, .single ⟨_, bondingBlock_verified, h₁⟩, mem_of_getLast? hbest, hblocks,
    .single ⟨.finalize, trivial, h₂⟩, hdb ▸ mem_append_right _ mem_cons_self, fun hsame => ?_⟩
  rw [hbest, Option.any_some, hblocks, head?_cons, Option.any_some, hsame, bne_self_eq_false] at hcheck
  cases hcheck

/-! ### Two nodes -/

theorem Replays.context (h : Replays T checks spentOf db₀ ws s) (hp : ParentOf s hash c) :
    ∃ stages p, Lineage T checks spentOf db₀ stages ∧ p.hash = hash ∧
      (db₀.blocks ++ stages.map (·.block.toBlock)).getLast? = some p ∧
      c.snapshot.unlocate = lastSnapshot db₀.snapshot stages := by
  obtain ⟨cs, hg, hdetermined⟩ := h.parent hp
  obtain ⟨hattached, p, hlast, hhash⟩ := h.onTree.parent hp
  refine ⟨ws ++ cs, p, h.lineage hg hattached hdetermined, hhash, ?_, ?_⟩
  · rw [map_append, ← append_assoc, ← h.db.blocks, map_toBlock cs, ← hg.blocks]
    exact hlast
  · rw [lastSnapshot_append, ← h.db.snapshot]
    exact hg.snapshot

section

variable (hpath : T.Path db.blocks) (hpaired : Paired db.toFinalizedBonds)
  (hbacked : BondedBacked (Chain.new db).toLedger)
  (h₁ : Runs checks (fun _ e => Verified T spentOf e) (ChainState.started db) s₁)
include hpath hpaired hbacked h₁

/-- Two nodes that started from one database put the children of a block on chains with the same pools and, up to the
locations of actions, the same bonds, whatever each of them committed, invalidated, reconsidered and finalized. -/
theorem same_parent_same_ledger (h₂ : Runs checks (fun _ e => Verified T spentOf e) (ChainState.started db) s₂)
    (hp₁ : ParentOf s₁ hash c₁) (hp₂ : ParentOf s₂ hash c₂) : c₁.snapshot.unlocate = c₂.snapshot.unlocate := by
  have hstart : Replays T checks spentOf db [] (ChainState.started db) := .started hpath hpaired hbacked
  obtain ⟨ws₁, hr₁⟩ := hstart.runs (fun _ _ he => he) h₁
  obtain ⟨ws₂, hr₂⟩ := hstart.runs (fun _ _ he => he) h₂
  obtain ⟨stages₁, p, hl₁, hhash₁, hlast₁, hsnap₁⟩ := hr₁.context hp₁
  obtain ⟨stages₂, q, hl₂, hhash₂, hlast₂, hsnap₂⟩ := hr₂.context hp₂
  rw [hsnap₁, hsnap₂, hl₁.unique_of_last hl₂ hlast₁ hlast₂ (hhash₁.trans hhash₂.symm)]

/-- What is final stays: the database only gets blocks on top, and what it holds of those it got is not rewritten. -/
theorem finalized_kept (h₂ : Runs checks (fun _ e => Verified T spentOf e) s₁ s₂) :
    s₁.db.blocks <+: s₂.db.blocks ∧
      ∀ b ∈ s₁.db.blocks, b ∉ db.blocks → s₂.db.blockInfo b.height = s₁.db.blockInfo b.height := by
  obtain ⟨ws, hr₁⟩ := (Replays.started hpath hpaired hbacked).runs (fun _ _ he => he) h₁
  obtain ⟨more, hr₂⟩ := hr₁.runs (fun _ _ he => he) h₂
  rw [nil_append] at hr₁ hr₂
  refine ⟨⟨more.map (·.block.toBlock), ?_⟩, fun b hb hnew => ?_⟩
  · rw [hr₁.db.blocks, hr₂.db.blocks, map_append, append_assoc]
  · rw [hr₁.db.blocks] at hb
    obtain ⟨stage, hstage, rfl⟩ := mem_map.mp ((mem_append.mp hb).resolve_left hnew)
    rw [hr₁.db.infos stage hstage, hr₂.db.infos stage (mem_append_left _ hstage)]

end

def SampleRuns : ChainState → ChainState → Prop := Runs true fun _ e => Verified sampleTree (fun _ => Table.empty) e

/-- The block is the tip of a chain, and later of the database. -/
theorem exists_sampleRuns : ∃ s₁ s₂ c, SampleRuns (ChainState.started genesisDb) s₁ ∧ SampleRuns s₁ s₂ ∧
    ParentOf s₁ (sampleBlock 1 []).hash c ∧ ParentOf s₂ (sampleBlock 1 []).hash (Chain.new s₂.db) := by
  obtain ⟨s₁, h₁, hcheck⟩ := exists_ok_of_any (x := (ChainState.started genesisDb).step true (commitOf (sampleBlock 1 [])))
    (p := fun s₁ => s₁.nonFinalizedState.chainSet.any (fun c => c.tip? == some (sampleBlock 1 []).hash) &&
      (s₁.step true .finalize).toOption.any fun s₂ => s₂.db.finalizedTipHash == (sampleBlock 1 []).hash)
    (by decide +kernel)
  obtain ⟨htip, hcheck⟩ := Bool.and_eq_true_iff.mp hcheck
  obtain ⟨s₂, h₂, hfinal⟩ := exists_ok_of_any hcheck
  obtain ⟨c, hc, htip⟩ := any_eq_true.mp htip
  obtain ⟨best, b, post, -, -, hdb⟩ := finalize_writes h₂
  exact ⟨s₁, s₂, c, .single ⟨_, sampleBlock_verified, h₁⟩, .single ⟨.finalize, trivial, h₂⟩,
    .inr (.tip c hc (beq_iff_eq.mp htip)), .inl ⟨(beq_iff_eq.mp hfinal).symm, rfl, by simp [hdb]⟩⟩

theorem same_parent_same_ledger_finalized : ∃ s₁ s₂ c, SampleRuns (ChainState.started genesisDb) s₁ ∧ SampleRuns s₁ s₂ ∧
    ParentOf s₁ (sampleBlock 1 []).hash c ∧ c.snapshot.unlocate = (Chain.new s₂.db).snapshot.unlocate := by
  obtain ⟨s₁, s₂, c, h₁, h₂, hp₁, hp₂⟩ := exists_sampleRuns
  exact ⟨s₁, s₂, c, h₁, h₂, hp₁,
    same_parent_same_ledger genesisDb_path genesisDb_paired genesisDb_backed h₁ (h₁.trans h₂) hp₁ hp₂⟩

theorem finalized_kept_sample : ∃ s₁ s₂, SampleRuns s₁ s₂ ∧ s₁.db.blocks <+: s₂.db.blocks := by
  obtain ⟨s₁, s₂, c, h₁, h₂, -⟩ := exists_sampleRuns
  exact ⟨s₁, s₂, h₂, (finalized_kept genesisDb_path genesisDb_paired genesisDb_backed h₁ h₂).1⟩

end Crosslink.State

import Crosslink.State.ChainSteps

/-!
# The shape of the set of chains

All blocks that a node has seen are taken from one tree in which a hash determines a block. Then every chain, put on the
blocks of the database, is a path of the tree, and this holds after any sequence of operations (`attached_of_run`). That
no chain ends inside another one is kept only by some operations: invalidating a block on whose parent there is another
block leaves a chain that the other block extends.
-/

namespace Crosslink.State

open Codec Fallible Bft Staking Relation List

variable {T : HashTree.Tree Block} {checks : Bool} {db : ZebraDb} {c d c' : Chain} {b x y : ContextuallyVerifiedBlock}
  {hash : BlockHash}

/-! ### Blocks and their index -/

theorem accept_eq_ok (h : c.accept checks offer = .ok c') :
    ∃ b, Chain.withBlockAndSpentUtxos offer.block offer.spent = .ok b ∧ b.toBlock = offer.block ∧
      offer.block.height = c.nextHeight offer.db ∧ Pushed checks c b c' := by
  unfold Chain.accept at h
  obtain ⟨⟨⟩, hheight, h⟩ := bind_eq_ok.mp h
  obtain ⟨notes, -, h⟩ := bind_eq_ok.mp h
  obtain ⟨b, hb, h⟩ := bind_eq_ok.mp h
  split_ifs at hheight with hheight'
  exact ⟨b, hb, (Chain.withBlockAndSpentUtxos_eq_ok hb).1, hheight', push_eq_ok h⟩

theorem revertIndex_heights (h : Chain.revertIndex b position c = .ok c') :
    c'.heightByHash = Function.update c.heightByHash b.hash none := by
  unfold Chain.revertIndex at h
  obtain ⟨heights, hremove, h⟩ := bind_eq_ok.mp h
  unfold Table.removeOld at hremove
  split_ifs at hremove
  obtain rfl := Except.ok.inj hremove
  refine foldlM_induction (R := fun _ c' => c'.heightByHash = Function.update c.heightByHash b.hash none) h rfl ?_
  intro _ t c₁ c₂ hc hstep
  unfold Chain.revertTx at hstep
  simp only [bind_eq_ok, pure_eq_ok] at hstep
  obtain ⟨_, -, _, -, _, -, _, -, _, -, _, -, _, -, _, -, rfl⟩ := hstep
  exact hc

theorem popTip_blocks (h : c.popTip = .ok c') : c'.blocks ≠ [] ∧ ∃ b, c.blocks = c'.blocks ++ [b] ∧
    c'.heightByHash = Function.update c.heightByHash b.hash none := by
  unfold Chain.popTip at h
  obtain ⟨b, hb, h⟩ := bind_eq_ok.mp h
  dsimp only at h
  obtain ⟨⟨⟩, hne, h⟩ := bind_eq_ok.mp h
  obtain ⟨l₁, -, h⟩ := bind_eq_ok.mp h
  obtain ⟨l₂, -, h⟩ := bind_eq_ok.mp h
  obtain ⟨c₃, h₃, h⟩ := bind_eq_ok.mp h
  obtain ⟨l₄, -, h⟩ := bind_eq_ok.mp h
  obtain rfl := pure_eq_ok.mp h
  obtain ⟨-, hblocks⟩ := revertIndex_inv h₃
  obtain ⟨blocks, hc⟩ := getLast?_eq_some_iff.mp (unwrap_eq_ok.mp hb)
  rw [hc, dropLast_concat] at hblocks hne
  have hheights := revertIndex_heights h₃
  exact ⟨hblocks ▸ ensure_eq_ok.mp hne, b, hc.trans (congrArg (· ++ [b]) hblocks.symm), hheights⟩

theorem popRoot_heights (h : c.popRoot = .ok (popped, c')) :
    c'.heightByHash = Function.update c.heightByHash popped.block.hash none := by
  unfold Chain.popRoot at h
  obtain ⟨block, -, h⟩ := bind_eq_ok.mp h
  dsimp only at h
  obtain ⟨amounts, -, h⟩ := bind_eq_ok.mp h
  obtain ⟨c₁, hrevert, h⟩ := bind_eq_ok.mp h
  obtain ⟨rfl, rfl⟩ := Prod.mk.inj (pure_eq_ok.mp h)
  have hheights := revertIndex_heights hrevert
  exact hheights

/-! ### Chains on the database -/

/-- The blocks of the chain continue those of the database, and its index has just these. -/
structure Attached (T : HashTree.Tree Block) (db : ZebraDb) (c : Chain) : Prop where
  path : T.Path (db.blocks ++ c.blocks.map (·.toBlock))
  keyed : ∀ hash height, c.heightByHash hash = some height ↔ ∃ b ∈ c.blocks, b.hash = hash ∧ b.height = height

namespace Attached

theorem new (h : T.Path db.blocks) : Attached T db (Chain.new db) :=
  ⟨by simpa [Chain.new] using h, by simp [Chain.new, Table.empty]⟩

theorem getElem?_path (db : ZebraDb) (c : Chain) (i : ℕ) :
    (db.blocks ++ c.blocks.map (·.toBlock))[db.blocks.length + i]? = c.blocks[i]?.map (·.toBlock) := by
  rw [getElem?_append_right (by omega), Nat.add_sub_cancel_left, getElem?_map]

theorem height_eq (h : Attached T db c) (hb : c.blocks[i]? = some b) : b.height = db.blocks.length + i :=
  h.path.height_eq (b := b.toBlock) (by rw [getElem?_path, hb, Option.map_some])

theorem mem_path (db : ZebraDb) (hb : b ∈ c.blocks) : b.toBlock ∈ db.blocks ++ c.blocks.map (·.toBlock) :=
  mem_append_right _ (mem_map_of_mem hb)

theorem mem (h : Attached T db c) (hb : b ∈ c.blocks) : T.Mem b.toBlock := h.path.mem _ (mem_path db hb)

theorem shares (hc : Attached T db c) (hd : Attached T db d) (hx : x ∈ c.blocks) (hy : y ∈ c.blocks)
    (hle : y.height ≤ x.height) (hshare : x.hash ∈ d.hashes) : ∃ z ∈ d.blocks, z.toBlock = y.toBlock := by
  obtain ⟨x', hx', heq⟩ := mem_map.mp hshare
  have hsame : x'.toBlock = x.toBlock := (hd.mem hx').eq (hc.mem hx) heq
  obtain ⟨i, hi⟩ := mem_iff_getElem?.mp hy
  have hagree := hc.path.agree hd.path (mem_path db hx) (hsame ▸ mem_path db hx') (hc.height_eq hi ▸ hle)
  rw [getElem?_path, getElem?_path, hi, Option.map_some] at hagree
  obtain ⟨z, hz, hzy⟩ := Option.map_eq_some_iff.mp hagree.symm
  exact ⟨z, mem_of_getElem? hz, hzy⟩

theorem contains_iff (h : Attached T db c) : c.containsBlockHash hash = true ↔ hash ∈ c.hashes := by
  rw [Chain.containsBlockHash, Option.isSome_iff_exists, Chain.hashes, mem_map]
  constructor
  · rintro ⟨height, hheight⟩
    obtain ⟨b, hb, hhash, -⟩ := (h.keyed _ _).mp hheight
    exact ⟨b, hb, hhash⟩
  · rintro ⟨b, hb, hhash⟩
    exact ⟨b.height, (h.keyed _ _).mpr ⟨b, hb, hhash, rfl⟩⟩

theorem index_unique (h : Attached T db c) {i j : ℕ} (hx : c.blocks[i]? = some x) (hy : c.blocks[j]? = some y)
    (heq : x.hash = y.hash) : i = j := by
  have hsame := (h.mem (mem_of_getElem? hx)).eq (h.mem (mem_of_getElem? hy)) heq
  have hi := h.height_eq hx
  have hj := h.height_eq hy
  rw [hsame] at hi
  omega

theorem heights_nodup (h : Attached T db c) : (c.blocks.map (·.height)).Nodup := by
  rw [nodup_iff_injective_getElem]
  rintro ⟨i, hi⟩ ⟨j, hj⟩ heq
  simp only [getElem_map] at heq
  rw [length_map] at hi hj
  rw [h.height_eq (getElem?_eq_getElem hi), h.height_eq (getElem?_eq_getElem hj)] at heq
  exact Fin.ext (by simpa using heq)

theorem linked (h : Attached T db c) : c.blocks.IsChain fun a b => b.previousBlockHash = a.hash := by
  have hchain := (isChain_append.mp h.path.linked).2.1
  rw [isChain_map] at hchain
  exact hchain.imp fun _ _ hfollows => hfollows.1

theorem pushed (h : Attached T db c) (hp : Pushed checks c b c')
    (hpath : T.Path (db.blocks ++ c.blocks.map (·.toBlock) ++ [b.toBlock])) : Attached T db c' where
  path := by rwa [hp.blocks, map_append, ← append_assoc]
  keyed hash height := by
    have hfresh : ∀ x ∈ c.blocks, x.hash ≠ b.hash := by
      intro x hx heq
      have := (h.keyed _ _).mpr ⟨x, hx, heq, rfl⟩
      rw [hp.fresh] at this
      cases this
    rw [hp.heights, hp.blocks]
    by_cases heq : hash = b.hash
    · subst heq
      rw [Function.update_self, Option.some.injEq]
      constructor
      · exact fun hheight => ⟨b, mem_concat_self, rfl, hheight⟩
      · rintro ⟨x, hx, hhash, hheight⟩
        rcases mem_append.mp hx with hx | hx
        · exact absurd hhash (hfresh x hx)
        · rwa [mem_singleton.mp hx] at hheight
    · rw [Function.update_of_ne heq, h.keyed]
      constructor
      · exact fun ⟨x, hx, hrest⟩ => ⟨x, mem_append_left _ hx, hrest⟩
      · rintro ⟨x, hx, hhash, hheight⟩
        rcases mem_append.mp hx with hx | hx
        · exact ⟨x, hx, hhash, hheight⟩
        · rw [mem_singleton.mp hx] at hhash
          exact absurd hhash.symm heq

theorem pushAll (h : Attached T db c) (hpush : blocks.foldlM (Chain.push checks) c = .ok c')
    (hpath : T.Path (db.blocks ++ (c.blocks ++ blocks).map (·.toBlock))) :
    Attached T db c' ∧ c'.blocks = c.blocks ++ blocks := by
  induction blocks generalizing c with
  | nil =>
    obtain rfl := foldlM_nil_eq_ok.mp hpush
    exact ⟨h, (append_nil _).symm⟩
  | cons b blocks ih =>
    obtain ⟨c₁, hstep, hpush⟩ := foldlM_cons_eq_ok.mp hpush
    have hp := push_eq_ok hstep
    rw [append_cons, ← hp.blocks] at hpath
    have hpath₁ : T.Path (db.blocks ++ c.blocks.map (·.toBlock) ++ [b.toBlock]) := by
      refine hpath.initial ?_ (by simp)
      rw [hp.blocks, map_append, map_append, ← append_assoc, ← append_assoc]
      exact prefix_append _ _
    obtain ⟨hc', hblocks⟩ := ih (h.pushed hp hpath₁) hpush hpath
    exact ⟨hc', by rw [hblocks, hp.blocks, ← append_cons]⟩

theorem keyed_erase (h : Attached T db c) (pre post : List ContextuallyVerifiedBlock) (hc : c.blocks = pre ++ b :: post)
    (hheights : c'.heightByHash = Function.update c.heightByHash b.hash none) (height : ℕ) :
    c'.heightByHash hash = some height ↔ ∃ x ∈ pre ++ post, x.hash = hash ∧ x.height = height := by
  have hat : c.blocks[pre.length]? = some b := by simp [hc]
  rw [hheights]
  by_cases heq : hash = b.hash
  · subst heq
    rw [Function.update_self]
    refine iff_of_false (by simp) ?_
    rintro ⟨x, hx, hhash, -⟩
    -- another block with this hash would stand at another place
    rcases List.mem_append.mp hx with hx | hx
    · obtain ⟨i, hi⟩ := List.mem_iff_getElem?.mp hx
      have hlt := (List.getElem?_eq_some_iff.mp hi).1
      have := h.index_unique (i := i) (by rw [hc, List.getElem?_append_left hlt, hi]) hat hhash
      omega
    · obtain ⟨i, hi⟩ := List.mem_iff_getElem?.mp hx
      have := h.index_unique (i := pre.length + (i + 1))
        (by rw [hc, List.getElem?_append_right (by omega), Nat.add_sub_cancel_left, List.getElem?_cons_succ, hi]) hat hhash
      omega
  · rw [Function.update_of_ne heq, h.keyed, hc]
    constructor
    · rintro ⟨x, hx, hhash, hheight⟩
      refine ⟨x, ?_, hhash, hheight⟩
      rcases mem_append.mp hx with hx | hx
      · exact mem_append_left _ hx
      · rcases mem_cons.mp hx with rfl | hx
        · exact absurd hhash.symm heq
        · exact mem_append_right _ hx
    · rintro ⟨x, hx, hrest⟩
      refine ⟨x, ?_, hrest⟩
      rcases mem_append.mp hx with hx | hx
      · exact mem_append_left _ hx
      · exact mem_append_right _ (mem_cons_of_mem _ hx)

theorem popTip (h : Attached T db c) (hpop : c.popTip = .ok c') : Attached T db c' := by
  obtain ⟨hne, b, hc, hheights⟩ := popTip_blocks hpop
  refine ⟨h.path.initial ?_ (by simp [hne]), fun hash height => ?_⟩
  · rw [hc, map_append, ← append_assoc]
    exact prefix_append _ _
  · simpa using h.keyed_erase c'.blocks [] hc hheights height

theorem popRoot (h : Attached T db c) (hpop : c.popRoot = .ok (popped, c'))
    (hdb : db'.blocks = db.blocks ++ [popped.block.toBlock]) : Attached T db' c' := by
  obtain ⟨hc, -⟩ := popRoot_eq_ok hpop
  have hpath := h.path
  refine ⟨?_, fun hash height => ?_⟩
  · rw [hc, map_cons, append_cons] at hpath
    rwa [hdb]
  · simpa using h.keyed_erase [] c'.blocks hc (popRoot_heights hpop) height

theorem popTo (h : Attached T db c) (hpop : Chain.popTo hash fuel c = .ok c') :
    Attached T db c' ∧ c'.blocks <+: c.blocks ∧ c'.tip? = some hash := by
  induction fuel generalizing c with
  | zero => cases hpop
  | succ fuel ih =>
    unfold Chain.popTo at hpop
    obtain ⟨tip, htip, hpop⟩ := bind_eq_ok.mp hpop
    split_ifs at hpop with heq
    · obtain rfl := pure_eq_ok.mp hpop
      exact ⟨h, prefix_rfl, heq ▸ Chain.nonFinalizedTipHash_eq_ok.mp htip⟩
    · obtain ⟨c₁, h₁, hpop⟩ := bind_eq_ok.mp hpop
      obtain ⟨-, b, hc, -⟩ := popTip_blocks h₁
      obtain ⟨hc', hinitial, htip'⟩ := ih (h.popTip h₁) hpop
      exact ⟨hc', hinitial.trans (hc ▸ prefix_append _ _), htip'⟩

theorem fork (h : Attached T db c) (hfork : c.fork hash = .ok (some c')) :
    Attached T db c' ∧ c'.blocks <+: c.blocks ∧ c'.tip? = some hash := by
  unfold Chain.fork at hfork
  split_ifs at hfork
  · cases hfork
  · obtain ⟨c₁, h₁, hfork⟩ := bind_eq_ok.mp hfork
    obtain rfl := Option.some.inj (pure_eq_ok.mp hfork)
    exact h.popTo h₁

theorem childBlocks_eq (h : Attached T db c) (hb : c.blocks[i]? = some b) :
    c.childBlocks b.height = c.blocks.drop i := by
  have hlt := (List.getElem?_eq_some_iff.mp hb).1
  have hlow : ∀ x ∈ c.blocks.take i, ¬ b.height ≤ x.height := by
    intro x hx
    obtain ⟨j, hj⟩ := List.mem_iff_getElem?.mp hx
    obtain ⟨hlt', -⟩ := List.getElem?_eq_some_iff.mp hj
    rw [List.length_take] at hlt'
    rw [getElem?_take_of_lt (by omega)] at hj
    rw [h.height_eq hb, h.height_eq hj]
    omega
  have hhigh : ∀ x ∈ c.blocks.drop i, b.height ≤ x.height := by
    intro x hx
    obtain ⟨j, hj⟩ := mem_iff_getElem?.mp hx
    rw [getElem?_drop] at hj
    rw [h.height_eq hb, h.height_eq hj]
    omega
  rw [Chain.childBlocks]
  conv_lhs => rw [← take_append_drop i c.blocks]
  rw [filter_append, filter_eq_nil_iff.mpr (by simpa using hlow), nil_append,
    filter_eq_self.mpr (by simpa using hhigh)]

end Attached

/-! ### All chains on one tree -/

variable {s s' : ChainState} {e : ChainState.Event}

/-- The tip of the chain, or of the database when the chain is empty. -/
def Chain.lastBlock? (db : ZebraDb) (c : Chain) : Option Block := (db.blocks ++ c.blocks.map (·.toBlock)).getLast?

theorem lastBlock_of_tip (db : ZebraDb) (h : c.tip? = some hash) : ∃ p, c.lastBlock? db = some p ∧ p.hash = hash := by
  obtain ⟨b, hb, hhash⟩ := Option.map_eq_some_iff.mp h
  refine ⟨b.toBlock, ?_, hhash⟩
  rw [Chain.lastBlock?, getLast?_append, getLast?_map, hb]
  rfl

theorem nextHeight_eq (h : c.lastBlock? db = some p) : c.nextHeight db = p.height + 1 := by
  rw [Chain.lastBlock?, getLast?_append, getLast?_map] at h
  rw [Chain.nextHeight, getLast?_map]
  cases hc : c.blocks.getLast? with
  | some b =>
    rw [hc] at h
    obtain rfl := Option.some.inj h
    rfl
  | none =>
    rw [hc] at h
    rw [show db.blocks.getLast? = some p from h]
    rfl

def TakenOff (T : HashTree.Tree Block) (blocks : List ContextuallyVerifiedBlock) : Prop :=
  ∃ pre ≠ [], T.Path (pre ++ blocks.map (·.toBlock))

/-- Everything that the state holds is on one tree. -/
structure OnTree (T : HashTree.Tree Block) (s : ChainState) : Prop where
  db : T.Path s.db.blocks
  chains : ∀ c ∈ s.nonFinalizedState.chainSet, Attached T s.db c
  entries : ∀ x ∈ s.nonFinalizedState.invalidatedBlocks, TakenOff T x.2
  length_le : s.nonFinalizedState.chainSet.length ≤ maxNonFinalizedChainForks

/-- The chain that a block with a given parent is put on: a new one on the database, or one of the set. -/
def ParentOf (s : ChainState) (parentHash : BlockHash) (parent : Chain) : Prop :=
  parentHash = s.db.finalizedTipHash ∧ parent = Chain.new s.db ∧ s.db.blocks ≠ [] ∨
    ParentChain s.nonFinalizedState.chainSet parentHash parent

theorem OnTree.parent (h : OnTree T s) (hp : ParentOf s hash c) :
    Attached T s.db c ∧ ∃ p, c.lastBlock? s.db = some p ∧ p.hash = hash := by
  rcases hp with ⟨hhash, rfl, hne⟩ | hp
  · obtain ⟨p, hlast⟩ : ∃ p, s.db.blocks.getLast? = some p := ⟨_, getLast?_eq_some_getLast hne⟩
    refine ⟨.new h.db, p, by simpa [Chain.lastBlock?, Chain.new] using hlast, ?_⟩
    rw [hhash, ZebraDb.finalizedTipHash, hlast]
    rfl
  · cases hp with
    | tip _ hc htip => exact ⟨h.chains c hc, lastBlock_of_tip s.db htip⟩
    | fork d _ hd hnone hfork =>
      obtain ⟨hc, -, htip⟩ := (h.chains d hd).fork hfork
      exact ⟨hc, lastBlock_of_tip s.db htip⟩

theorem OnTree.accept (h : OnTree T s) (hb : T.Mem block) (hp : ParentOf s block.previousBlockHash c)
    (haccept : c.accept checks ⟨s.db, block, spent⟩ = .ok new) :
    Attached T s.db new ∧ ∃ b, new.blocks = c.blocks ++ [b] ∧ b.toBlock = block := by
  obtain ⟨hc, p, hlast, hparent⟩ := h.parent hp
  obtain ⟨b, -, hblock, hheight, hpushed⟩ := accept_eq_ok haccept
  refine ⟨hc.pushed hpushed ?_, b, hpushed.blocks, hblock⟩
  rw [hblock]
  exact hc.path.snoc hlast ⟨hparent.symm, hheight.trans (nextHeight_eq hlast)⟩ hb

theorem OnTree.reconsider (h : OnTree T s) (hoff : TakenOff T blocks) (hroot : blocks.head? = some b)
    (hp : ParentOf s b.previousBlockHash c) (hpush : blocks.foldlM (Chain.push checks) c = .ok new) :
    Attached T s.db new ∧ new.blocks = c.blocks ++ blocks := by
  obtain ⟨hc, p, hlast, hparent⟩ := h.parent hp
  obtain ⟨pre, hne, hpath⟩ := hoff
  refine hc.pushAll hpush ?_
  obtain ⟨q, hq⟩ : ∃ q, pre.getLast? = some q := ⟨_, getLast?_eq_some_getLast hne⟩
  have hlink := (isChain_append.mp hpath.linked).2.2 q hq b.toBlock (by simp [hroot])
  have hpre := (hpath.initial (prefix_append _ _) hne).eq_pathTo hq
  have hsame := hc.path.eq_pathTo hlast
  rw [map_append, ← append_assoc, ← hsame]
  rw [← hpre, ← hlink.1] at hpath
  rwa [show HashTree.HashLinked.hash p = _ from hparent]

/-! ### Chains that end outside each other -/

def Apart (c d : Chain) : Prop := (∀ t, c.tip? = some t → t ∉ d.hashes) ∧ ∀ t, d.tip? = some t → t ∉ c.hashes

theorem Apart.symm (h : Apart c d) : Apart d c := ⟨h.2, h.1⟩

instance : Std.Symm Apart := ⟨fun _ _ => Apart.symm⟩

structure Spread (set : List Chain) : Prop where
  nonempty : ∀ c ∈ set, c.blocks ≠ []
  apart : set.Pairwise Apart

theorem Spread.subperm {set set' : List Chain} (h : Spread set) (hsub : set'.Subperm set) : Spread set' := by
  obtain ⟨kept, hperm, hkept⟩ := hsub
  exact ⟨fun c hc => h.nonempty c (hkept.subset (hperm.mem_iff.mpr hc)),
    (hperm.pairwise_iff Apart.symm).mp (h.apart.sublist hkept)⟩

theorem Spread.inserted {old set : List Chain} (h : Spread old) (hinserted : Inserted old new keep set)
    (hne : new.blocks ≠ []) (hnew : ∀ d ∈ old, keep d = true → Apart new d) :
    Spread set := by
  have hall : Spread (new :: old.filter keep) := by
    refine ⟨fun c hc => ?_, pairwise_cons.mpr ⟨fun d hd => ?_, h.apart.filter keep⟩⟩
    · rcases mem_cons.mp hc with rfl | hc
      · exact hne
      · exact h.nonempty c (mem_of_mem_filter hc)
    · exact hnew d (mem_of_mem_filter hd) (mem_filter.mp hd).2
  refine hall.subperm (hinserted.subperm.trans ?_)
  rw [filter_cons]
  split_ifs
  · exact .refl _
  · exact (sublist_cons_self _ _).subperm

theorem Spread.tip_notMem (h : OnTree T s) (hs : Spread s.nonFinalizedState.chainSet) (hp : ParentOf s hash c)
    (hd : d ∈ s.nonFinalizedState.chainSet) (hother : c.blocks ≠ [] → d.tip? ≠ some hash) (ht : d.tip? = some t) :
    t ∉ c.hashes := by
  intro hmem
  have hne : c.blocks ≠ [] := by
    rintro hnil
    simp [Chain.hashes, hnil] at hmem
  have htip := hother hne
  have hforall : ∀ {x y : Chain}, x ∈ s.nonFinalizedState.chainSet → y ∈ s.nonFinalizedState.chainSet → x ≠ y →
      Apart x y := fun hx hy => hs.apart.forall hx hy
  rcases hp with ⟨-, rfl, -⟩ | hp
  · exact hne rfl
  · cases hp with
    | tip _ hc hctip =>
      by_cases heq : d = c
      · exact htip (heq ▸ hctip)
      · exact (hforall hd hc heq).1 t ht hmem
    | fork f _ hf hnone hfork =>
      obtain ⟨hc, hinitial, hctip⟩ := (h.chains f hf).fork hfork
      by_cases heq : d = f
      · -- the tip of a chain is not in a shorter part of it
        subst heq
        obtain ⟨last, hlast, rfl⟩ := Option.map_eq_some_iff.mp ht
        obtain ⟨x, hx, hsame⟩ := mem_map.mp hmem
        obtain ⟨i, hi⟩ := List.mem_iff_getElem?.mp hx
        have hle := hinitial.length_le
        have hlt := (List.getElem?_eq_some_iff.mp hi).1
        have hi' : d.blocks[i]? = some x :=
          (List.prefix_iff_getElem?.mp hinitial i hlt).trans ((List.getElem?_eq_getElem hlt).symm.trans hi)
        rw [List.getLast?_eq_getElem?] at hlast
        have hidx := (h.chains d hf).index_unique hi' hlast hsame
        have heq : c.blocks = d.blocks := hinitial.eq_of_length (by omega)
        rw [Chain.tip?, heq] at hctip
        exact htip hctip
      · refine (hforall hd hf heq).1 t ht ?_
        obtain ⟨x, hx, hsame⟩ := mem_map.mp hmem
        exact mem_map.mpr ⟨x, hinitial.subset hx, hsame⟩

theorem Attached.apart {new : Chain} (hnew : Attached T db new) (hd : Attached T db d)
    (hblocks : new.blocks = c.blocks ++ blocks) (hroot : blocks.head? = some b) (hfresh : b.hash ∉ d.hashes)
    (htip : ∀ t, d.tip? = some t → t ∉ c.hashes) : Apart new d := by
  have hbelow : ∀ x ∈ blocks, x.hash ∉ d.hashes := by
    intro x hx hmem
    obtain ⟨rest, rfl⟩ := head?_eq_some_iff.mp hroot
    obtain ⟨i, hi⟩ := mem_iff_getElem?.mp hx
    have hb : new.blocks[c.blocks.length]? = some b := by simp [hblocks]
    have hx' : new.blocks[c.blocks.length + i]? = some x := by
      rw [hblocks, getElem?_append_right (by omega), Nat.add_sub_cancel_left, hi]
    have hle : b.height ≤ x.height := by
      rw [hnew.height_eq hb, hnew.height_eq hx']
      omega
    obtain ⟨z, hz, hzb⟩ := hnew.shares hd (mem_of_getElem? hx') (mem_of_getElem? hb) hle hmem
    exact hfresh (mem_map.mpr ⟨z, hz, by rw [hzb]⟩)
  refine ⟨fun t ht hmem => ?_, fun t ht hmem => ?_⟩
  · obtain ⟨last, hlast, rfl⟩ := Option.map_eq_some_iff.mp ht
    have hne : blocks ≠ [] := by
      rintro rfl
      cases hroot
    rw [hblocks, getLast?_append_of_ne_nil _ hne] at hlast
    exact hbelow last (mem_of_getLast? hlast) hmem
  · obtain ⟨x, hx, rfl⟩ := mem_map.mp hmem
    rw [hblocks] at hx
    rcases mem_append.mp hx with hx | hx
    · exact htip _ ht (mem_map_of_mem hx)
    · refine hbelow x hx ?_
      obtain ⟨last, hlast, hsame⟩ := Option.map_eq_some_iff.mp ht
      exact mem_map.mpr ⟨last, mem_of_getLast? hlast, hsame⟩

end Crosslink.State

import Crosslink.NewNet.CommitQueue
import Crosslink.NewNet.Segments

/-!
# Blocks offered to a peer

A peer's status shows the blocks the peer holds near its tip. A round of sending selects up to ten blocks for the peer:
those still in flight, blocks of the finalized database if the tip of the peer is below our finalized height, and from
each of our chains the blocks above the highest one that the status shows.
-/

namespace Crosslink.NewNet

open Codec Fallible Bft Runs CommitQueue List

/-- `dbg_verify`, a breakpoint in a debug build. -/
def dbgVerify {α : Type} (debug : Bool) (o : Option α) : Except Panic (Option α) :=
  if debug ∧ o.isNone then .error .unwrap else .ok o

namespace NearTipBranches

def default : NearTipBranches := ⟨0, 0, []⟩

def Shows (tree : NearTipBranches) (hash : BlockHash) : Prop := ∃ branch ∈ tree.branches, ∃ b ∈ branch, b.thisHash = hash

instance (tree : NearTipBranches) (hash : BlockHash) : Decidable (tree.Shows hash) :=
  inferInstanceAs (Decidable (∃ branch ∈ tree.branches, ∃ b ∈ branch, b.thisHash = hash))

end NearTipBranches

/-! ### The selection -/

/-- The blocks selected so far, each with its height, and how many blocks the peer then has to commit. -/
structure Selection where
  blocksToThisPeer : ℕ
  blocksToQueue : List (BlockHash × ℕ)

namespace Selection

def insert (s : Selection) (block : BlockHash × ℕ) : Selection :=
  if block ∈ s.blocksToQueue then s else ⟨s.blocksToThisPeer + 1, s.blocksToQueue ++ [block]⟩

def offer (theirQueue : List BlockHash) : Selection → List (BlockHash × ℕ) → Selection
  | s, [] => s
  | s, block :: blocks =>
    if block.1 ∈ theirQueue then offer theirQueue s blocks
    else if s.blocksToThisPeer < maxBlocksToQueueToCommit then offer theirQueue (s.insert block) blocks
    else s

def offerFinalized (debug : Bool) (bestChainBlockHash : ℕ → Option BlockHash) (theirQueue : List BlockHash) :
    Selection → List ℕ → Except Panic Selection
  | s, [] => .ok s
  | s, height :: heights => do
    let some hash ← dbgVerify debug (bestChainBlockHash height) | return s
    if hash ∈ theirQueue then offerFinalized debug bestChainBlockHash theirQueue s heights
    else if s.blocksToThisPeer < maxBlocksToQueueToCommit then
      offerFinalized debug bestChainBlockHash theirQueue (s.insert (hash, height)) heights
    else return s

/-- The loop over the heights of one of our chains, of which the first is `bgn`. -/
def offerHeights (checks : Bool) (theirQueue : List BlockHash) (blocks : List ShadowBlock) (bgn : ℕ) :
    Selection → List ℕ → Except Panic Selection
  | s, [] => .ok s
  | s, height :: heights => do
    let chainIdx ← subU checks 32 height bgn
    let block ← getIdx blocks chainIdx
    if block.thisHash ∈ theirQueue then offerHeights checks theirQueue blocks bgn s heights
    else if s.blocksToThisPeer < maxBlocksToQueueToCommit then
      offerHeights checks theirQueue blocks bgn (s.insert (block.thisHash, height)) heights
    else return s

end Selection

def maxShared (checks debug : Bool) (ourBlocks : List ShadowBlock) (ourEnd : ℕ) (shared : Option ℕ)
    (theirBranch : List ShadowBlock) : Except Panic (Option ℕ) := do
  let _ ← getIdx theirBranch 0
  let theirLast ← unwrap theirBranch.getLast?
  let theirEnd ← addU checks 32 theirLast.thisHeight 1
  let common ← chainIntersectPrefix checks debug theirBranch ourBlocks
  match common.getLast? with
  | none => return shared
  | some block =>
    ensure (block.thisHeight < ourEnd)
    ensure (block.thisHeight < theirEnd)
    return some (shared.elim block.thisHeight (max block.thisHeight))

/-- Everything above the greatest height that we share with the peer on one of our chains. -/
def offerChain (checks debug : Bool) (tree : NearTipBranches) (theirQueue : List BlockHash) (s : Selection)
    (ourChain : NearTipChain) : Except Panic Selection := do
  ensure (0 < ourChain.blocks.length)
  let first ← getIdx ourChain.blocks 0
  let last ← unwrap ourChain.blocks.getLast?
  let ourEnd ← addU checks 32 last.thisHeight 1
  let shared ← tree.branches.foldlM (maxShared checks debug ourChain.blocks ourEnd) none
  match shared with
  | none => return s
  | some height =>
    let bgn ← addU checks 32 height 1
    s.offerHeights checks theirQueue ourChain.blocks first.thisHeight (List.range' bgn (ourEnd - bgn))

/-- One round for one peer. `bestChainBlockHash` answers from the state, and `inFlight` are the blocks sent before that
are neither acknowledged nor timed out. -/
def blocksToSend (checks debug : Bool) (bestChainBlockHash : ℕ → Option BlockHash) (view : NearTipChains)
    (tree : NearTipBranches) (theirQueue : List BlockHash) (inFlight : List (BlockHash × ℕ)) :
    Except Panic (List (BlockHash × ℕ)) := do
  if tree = .default then return []
  let some ourTipHeight ← dbgVerify debug view.tipHeight | return []
  let inFlight := inFlight.filter fun block => tree.branches.all (·.all fun b => (b.thisHash, b.thisHeight) ≠ block)
  let s := Selection.offer [] ⟨theirQueue.length, []⟩ inFlight
  let s ← (if tree.tipHeight < view.finalizedHeight then
      s.offerFinalized debug bestChainBlockHash theirQueue
        (List.range' tree.tipHeight (view.finalizedHeight - tree.tipHeight))
    else pure s)
  if ourTipHeight < tree.finalizedHeight then return []
  let s ← view.chains.foldlM (offerChain checks debug tree theirQueue) s
  return s.blocksToQueue

/-! ### What a loop selects -/

namespace Selection

variable {s : Selection} {block : BlockHash × ℕ} {theirQueue : List BlockHash}

def Counted (s : Selection) : Prop :=
  s.blocksToThisPeer = s.blocksToQueue.length ∧ s.blocksToQueue.length ≤ maxBlocksToQueueToCommit

theorem mem_insert : p ∈ (s.insert block).blocksToQueue ↔ p ∈ s.blocksToQueue ∨ p = block := by
  rw [insert]
  split_ifs with hmem
  · exact ⟨.inl, fun h => h.elim id fun h => h ▸ hmem⟩
  · simp

theorem Counted.insert (h : s.Counted) (hlt : s.blocksToThisPeer < maxBlocksToQueueToCommit) : (s.insert block).Counted := by
  rw [Selection.insert]
  split_ifs
  · exact h
  · simp only [Counted, length_append, length_singleton]
    exact ⟨congrArg (· + 1) h.1, by have := h.1; omega⟩

theorem Counted.offer (h : s.Counted) (blocks : List (BlockHash × ℕ)) : (s.offer theirQueue blocks).Counted := by
  induction blocks generalizing s with
  | nil => exact h
  | cons block blocks ih =>
    rw [Selection.offer]
    split_ifs with _ hlt
    · exact ih h
    · exact ih (h.insert hlt)
    · exact h

theorem exists_mem_offer (s : Selection) (blocks : List (BlockHash × ℕ)) : ∃ k,
    (∀ p, p ∈ (s.offer [] blocks).blocksToQueue ↔ p ∈ s.blocksToQueue ∨ p ∈ blocks.take k) ∧
      (s.blocksToThisPeer < maxBlocksToQueueToCommit → 0 < k) := by
  induction blocks generalizing s with
  | nil => exact ⟨1, by simp [offer], fun _ => Nat.one_pos⟩
  | cons block blocks ih =>
    rw [offer, if_neg (not_mem_nil)]
    split_ifs with hlt
    · obtain ⟨k, hk, -⟩ := ih (s.insert block)
      refine ⟨k + 1, fun p => ?_, fun _ => Nat.succ_pos k⟩
      rw [hk, mem_insert, take_succ_cons, mem_cons, or_assoc]
    · exact ⟨0, by simp, fun h => absurd h hlt⟩

theorem offerHeights_eq (h : Segment blocks) (hfirst : blocks.head? = some first) (hbgn : first.thisHeight ≤ bgn)
    (hend : bgn + n ≤ first.thisHeight + blocks.length) :
    s.offerHeights checks theirQueue blocks first.thisHeight (List.range' bgn n) = .ok (s.offer theirQueue
      (((blocks.drop (bgn - first.thisHeight)).take n).map fun b => (b.thisHash, b.thisHeight))) := by
  induction n generalizing bgn s with
  | zero => simp [offerHeights, offer]
  | succ n ih =>
    have hlt : bgn - first.thisHeight < blocks.length := by omega
    have hget : blocks[bgn - first.thisHeight]? = some blocks[bgn - first.thisHeight] := getElem?_eq_getElem hlt
    have hheight := h.consecutive.key_eq hfirst hget
    have hrest : bgn - first.thisHeight + 1 = bgn + 1 - first.thisHeight := by omega
    rw [List.range'_succ, drop_eq_getElem_cons hlt, take_succ_cons, map_cons, hheight,
      Nat.add_sub_cancel' hbgn, offerHeights, offer, subU_ok hbgn, ok_bind, getIdx_ok hget, ok_bind, hrest]
    split_ifs
    · exact ih (by omega) (by omega)
    · exact ih (by omega) (by omega)
    · rfl

end Selection

/-! ### What we share with the peer -/

variable {checks debug : Bool} {blocks : List ShadowBlock} {branches : List (List ShadowBlock)}

/-- The hash of a block that both sides have stands for the same block on both sides. -/
def Coherent (blocks : List ShadowBlock) (branches : List (List ShadowBlock)) : Prop :=
  ∀ branch ∈ branches, ∀ y ∈ branch, ∀ x ∈ blocks, y.thisHash = x.thisHash → y = x

/-- The greatest height at which a branch has a block of ours. -/
structure SharesUpTo (blocks : List ShadowBlock) (branches : List (List ShadowBlock)) (shared : Option ℕ) : Prop where
  attained : ∀ height, shared = some height → ∃ x ∈ blocks, x.thisHeight = height ∧ ∃ branch ∈ branches, x ∈ branch
  bound : Coherent blocks branches → ∀ x ∈ blocks, ∀ branch ∈ branches, x ∈ branch →
    ∃ height, shared = some height ∧ x.thisHeight ≤ height

theorem SharesUpTo.maxShared {branch : List ShadowBlock} {shared : Option ℕ} {last : ShadowBlock}
    (h : SharesUpTo blocks branches shared) (hours : ProperSegment blocks) (hbranch : ProperSegment branch)
    (hlast : blocks.getLast? = some last) : ∃ shared',
      maxShared checks debug blocks (last.thisHeight + 1) shared branch = .ok shared' ∧
        SharesUpTo blocks (branches ++ [branch]) shared' := by
  obtain ⟨common, hcommon, hsegment, hmem, hall⟩ := chainIntersectPrefix_eq checks debug hbranch hours
  have htheirLast := getLast?_eq_some_getLast hbranch.ne_nil
  have hboundLast := hbranch.bounded _ (getLast_mem hbranch.ne_nil)
  rw [NewNet.maxShared, getIdx_ok (head?_eq_getElem? ▸ head?_eq_some_head hbranch.ne_nil), ok_bind,
    unwrap_eq_ok.mpr htheirLast, ok_bind, addU_ok hboundLast, ok_bind, hcommon, ok_bind]
  -- a block that is shared with an earlier branch, or else with this one
  have hcases (hcoherent : Coherent blocks (branches ++ [branch])) {x : ShadowBlock} (hx : x ∈ blocks)
      {br : List ShadowBlock} (hbr : br ∈ branches ++ [branch]) (hxbr : x ∈ br) :
      (∃ height, shared = some height ∧ x.thisHeight ≤ height) ∨ x ∈ common := by
    rcases mem_append.mp hbr with hbr | hbr
    · exact .inl (h.bound (fun br hbr => hcoherent br (mem_append_left _ hbr)) x hx br hbr hxbr)
    · obtain rfl := mem_singleton.mp hbr
      exact .inr (hall (hcoherent br (by simp)) x hxbr hx)
  cases hblock : common.getLast? with
  | none =>
    obtain rfl := getLast?_eq_none_iff.mp hblock
    refine ⟨shared, rfl, fun height hheight => ?_, fun hcoherent x hx br hbr hxbr => ?_⟩
    · obtain ⟨x, hx, hxheight, br, hbr, hxbr⟩ := h.attained height hheight
      exact ⟨x, hx, hxheight, br, mem_append_left _ hbr, hxbr⟩
    · exact (hcases hcoherent hx hbr hxbr).resolve_right not_mem_nil
  | some block =>
    obtain ⟨hblockBranch, hblockOurs⟩ := hmem block (mem_of_getLast? hblock)
    have hle := hours.segment.consecutive.key_le_last hlast hblockOurs
    have hleTheir := hbranch.segment.consecutive.key_le_last htheirLast hblockBranch
    simp only [ensure_ok (Nat.lt_succ_of_le hle), ensure_ok (Nat.lt_succ_of_le hleTheir), ok_bind]
    refine ⟨_, rfl, fun height hheight => ?_, fun hcoherent x hx br hbr hxbr => ?_⟩
    · obtain rfl := Option.some.inj hheight
      cases hshared : shared with
      | none => exact ⟨block, hblockOurs, rfl, branch, by simp, hblockBranch⟩
      | some old =>
        rcases max_choice block.thisHeight old with hmax | hmax
        · exact ⟨block, hblockOurs, hmax.symm, branch, by simp, hblockBranch⟩
        · obtain ⟨x, hx, hxheight, br, hbr, hxbr⟩ := h.attained old hshared
          exact ⟨x, hx, hxheight.trans hmax.symm, br, mem_append_left _ hbr, hxbr⟩
    · refine ⟨_, rfl, ?_⟩
      rcases hcases hcoherent hx hbr hxbr with ⟨old, rfl, hold⟩ | hcommon
      · exact hold.trans (le_max_right _ _)
      · have hxle := hsegment.consecutive.key_le_last hblock hcommon
        cases shared with
        | none => exact hxle
        | some old => exact hxle.trans (le_max_left _ _)

theorem exists_sharesUpTo (checks debug : Bool) (hours : ProperSegment blocks)
    (hbranches : ∀ branch ∈ branches, ProperSegment branch) (hlast : blocks.getLast? = some last) : ∃ shared,
      branches.foldlM (maxShared checks debug blocks (last.thisHeight + 1)) none = .ok shared ∧
        SharesUpTo blocks branches shared := by
  induction branches using List.reverseRecOn with
  | nil => exact ⟨none, rfl, fun _ h => (nomatch h), fun _ _ _ _ h => (nomatch h)⟩
  | append_singleton branches branch ih =>
    obtain ⟨shared, hfold, hshared⟩ := ih fun br hbr => hbranches br (mem_append_left _ hbr)
    obtain ⟨shared', hstep, hshared'⟩ := hshared.maxShared hours (hbranches branch (by simp)) hlast
    exact ⟨shared', foldlM_append_eq_ok.mpr ⟨shared, hfold, foldlM_cons_eq_ok.mpr ⟨shared', hstep,
      foldlM_nil_eq_ok.mpr rfl⟩⟩, hshared'⟩

/-- `above` is what follows a block of ours that a branch has too. -/
def FollowsShared (blocks : List ShadowBlock) (branches : List (List ShadowBlock)) (above : List ShadowBlock)
    (x : ShadowBlock) : Prop :=
  (∃ below, blocks = below ++ x :: above) ∧ ∃ branch ∈ branches, x ∈ branch

theorem offerChain_eq (checks debug : Bool) (hours : ProperSegment chain.blocks)
    (hbranches : ∀ branch ∈ tree.branches, ProperSegment branch) (theirQueue : List BlockHash) (s : Selection) :
    ∃ above,
      offerChain checks debug tree theirQueue s chain =
        .ok (s.offer theirQueue (above.map fun b => (b.thisHash, b.thisHeight))) ∧
      (above ≠ [] → ∃ x, FollowsShared chain.blocks tree.branches above x) ∧
      (Coherent chain.blocks tree.branches → ∀ y ∈ chain.blocks, ∀ branch ∈ tree.branches, y ∈ branch →
        ∃ x, FollowsShared chain.blocks tree.branches above x ∧ y.thisHeight ≤ x.thisHeight) := by
  have hfirst := head?_eq_some_head hours.ne_nil
  have hlast := getLast?_eq_some_getLast hours.ne_nil
  have hend := hours.segment.consecutive.key_last hfirst hlast
  have hbound := hours.bounded _ (getLast_mem hours.ne_nil)
  generalize chain.blocks.head hours.ne_nil = first at *
  generalize chain.blocks.getLast hours.ne_nil = last at *
  obtain ⟨shared, hfold, hshared⟩ := exists_sharesUpTo checks debug hours hbranches hlast
  rw [offerChain, ensure_ok (length_pos_iff.mpr hours.ne_nil), ok_bind,
    getIdx_ok (head?_eq_getElem? ▸ hfirst), ok_bind, unwrap_eq_ok.mpr hlast, ok_bind, addU_ok hbound, ok_bind,
    hfold, ok_bind]
  cases hheight : shared with
  | none =>
    refine ⟨[], rfl, fun h => absurd rfl h, fun hcoherent y hy branch hbranch hmem => ?_⟩
    obtain ⟨height, hsome, -⟩ := hshared.bound hcoherent y hy branch hbranch hmem
    exact nomatch hheight.symm.trans hsome
  | some height =>
    obtain ⟨x, hx, rfl, branch, hbranch, hmem⟩ := hshared.attained height hheight
    obtain ⟨hge, hget⟩ := hours.segment.consecutive.getElem? hfirst hx
    have hlt := hours.segment.consecutive.key_lt hfirst hx
    have hfollows : FollowsShared chain.blocks tree.branches
        (chain.blocks.drop (x.thisHeight + 1 - first.thisHeight)) x := by
      refine ⟨⟨chain.blocks.take (x.thisHeight - first.thisHeight), ?_⟩, branch, hbranch, hmem⟩
      obtain ⟨hi, hxi⟩ := List.getElem?_eq_some_iff.mp hget
      have hdrop := List.drop_eq_getElem_cons hi
      rw [hxi] at hdrop
      rw [Nat.sub_add_comm hge, ← hdrop, List.take_append_drop]
    refine ⟨_, ?_, fun _ => ⟨x, hfollows⟩, fun hcoherent y hy br hbr hybr => ⟨x, hfollows, ?_⟩⟩
    · dsimp only
      rw [addU_ok (hours.bounded x hx), ok_bind, Selection.offerHeights_eq hours.segment hfirst (by omega) (by omega),
        take_of_length_le]
      rw [length_drop]
      omega
    · obtain ⟨height, hsome, hle⟩ := hshared.bound hcoherent y hy br hbr hybr
      exact Option.some.inj (hheight.symm.trans hsome) ▸ hle

/-! ### Rounds -/

section Rounds

variable (parentOf : BlockHash → BlockHash) (heightOf : BlockHash → ℕ) (best : ℕ → Option BlockHash) (view : NearTipChains)
  (tree : NearTipBranches)

/-- Each block has the parent and the height of the block that its hash stands for. -/
def Truthful (blocks : List ShadowBlock) : Prop :=
  ∀ b ∈ blocks, b.parentHash = parentOf b.thisHash ∧ b.thisHeight = heightOf b.thisHash

instance (blocks : List ShadowBlock) : Decidable (Truthful parentOf heightOf blocks) :=
  inferInstanceAs (Decidable (∀ b ∈ blocks, b.parentHash = parentOf b.thisHash ∧ b.thisHeight = heightOf b.thisHash))

/-- Our chains are segments of real blocks, the first of them the end of the best chain, and the status is one of a peer
whose first branch is on the best chain and ends below our tip. -/
structure Behind : Prop where
  chains : ∀ c ∈ view.chains, ProperSegment c.blocks ∧ Truthful parentOf heightOf c.blocks
  onBest : ∀ c ∈ view.chains.head?, ∀ b ∈ c.blocks, best b.thisHeight = some b.thisHash
  parents : ∀ height hash, best (height + 1) = some hash → best height = some (parentOf hash)
  branches : ∀ branch ∈ tree.branches, ProperSegment branch
  first : ∃ branch tip, tree.branches.head? = some branch ∧ (∀ b ∈ branch, best b.thisHeight = some b.thisHash) ∧
    branch.getLast? = some tip ∧ tip.thisHeight = tree.tipHeight
  below : ∃ tip, view.tipHeight = some tip ∧ tree.tipHeight < tip

/-- The selected blocks include the one of the best chain above the tip of the peer and none that the peer shows, are at
most ten, and come with their parents unless the peer knows them: from its status, or below its tip. -/
structure Advances (selected : List (BlockHash × ℕ)) : Prop where
  above : ∃ hash, best (tree.tipHeight + 1) = some hash ∧ (hash, tree.tipHeight + 1) ∈ selected
  fresh : ∀ block ∈ selected, ¬ tree.Shows block.1
  few : selected.length ≤ maxBlocksToQueueToCommit
  linked : ∀ block ∈ selected, (tree.Shows (parentOf block.1) ∨ ∃ height ≤ tree.tipHeight, best height = some (parentOf block.1)) ∨
    ∃ parent ∈ selected, parent.1 = parentOf block.1

/-- The tip of the peer is not below our finalized height, nor our tip below the finalized height of the peer, and the
peer does not yet show the block above its tip. -/
structure WithinReach : Prop where
  finalized : view.finalizedHeight ≤ tree.tipHeight
  reached : ∀ tip, view.tipHeight = some tip → tree.finalizedHeight ≤ tip
  unseen : ∀ hash, best (tree.tipHeight + 1) = some hash → ¬ tree.Shows hash

/-- A status of real blocks, whose tip is within the best chain near our tip, and which shows a block of the best chain
above its tip only with the one directly above. -/
structure Plain : Prop where
  truthful : ∀ branch ∈ tree.branches, Truthful parentOf heightOf branch
  window : ∃ c first, view.chains.head? = some c ∧ c.blocks.head? = some first ∧ first.thisHeight ≤ tree.tipHeight
  connected : ∀ c ∈ view.chains.head?, ∀ b ∈ c.blocks, tree.tipHeight < b.thisHeight → tree.Shows b.thisHash →
    ∀ hash, best (tree.tipHeight + 1) = some hash → tree.Shows hash

end Rounds

section Sending

variable {parentOf : BlockHash → BlockHash} {heightOf : BlockHash → ℕ} {best : ℕ → Option BlockHash} {view : NearTipChains}
  {tree : NearTipBranches}

theorem Truthful.coherent (hblocks : Truthful parentOf heightOf blocks)
    (hbranches : ∀ branch ∈ branches, Truthful parentOf heightOf branch) : Coherent blocks branches := by
  intro branch hbranch y hy x hx heq
  obtain ⟨hparent, hheight⟩ := hblocks x hx
  obtain ⟨hparent', hheight'⟩ := hbranches branch hbranch y hy
  cases x
  cases y
  simp_all

theorem blocksToSend_eq (h : Behind parentOf heightOf best view tree) (htip : view.tipHeight = some tip) :
    blocksToSend checks debug best view tree [] [] = (do
      let s ← (if tree.tipHeight < view.finalizedHeight then
          Selection.offerFinalized debug best [] ⟨0, []⟩ (List.range' tree.tipHeight (view.finalizedHeight - tree.tipHeight))
        else pure ⟨0, []⟩)
      if tip < tree.finalizedHeight then return []
      let s ← view.chains.foldlM (offerChain checks debug tree []) s
      return s.blocksToQueue) := by
  obtain ⟨branch, -, hbranch, -⟩ := h.first
  have hdefault : tree ≠ .default := by
    rintro rfl
    exact nomatch hbranch
  rw [blocksToSend, if_neg hdefault, htip]
  have hverify : dbgVerify debug (some tip) = .ok (some tip) := if_neg (by simp)
  rw [hverify]
  rfl

theorem Selection.offerFinalized_subset {s s' : Selection}
    (h : s.offerFinalized debug best theirQueue heights = .ok s') : s.blocksToQueue ⊆ s'.blocksToQueue := by
  induction heights generalizing s with
  | nil =>
    obtain rfl := Except.ok.inj h
    exact List.Subset.refl _
  | cons height heights ih =>
    rw [offerFinalized] at h
    obtain ⟨hash, -, h⟩ := bind_eq_ok.mp h
    split at h
    · split_ifs at h
      · exact ih h
      · exact fun p hp => ih h (mem_insert.mpr (.inl hp))
      · exact (pure_eq_ok.mp h) ▸ List.Subset.refl _
    · exact (pure_eq_ok.mp h) ▸ List.Subset.refl _

theorem offerChains_subset (h : Behind parentOf heightOf best view tree)
    (hfold : view.chains.foldlM (offerChain checks debug tree []) s = .ok s') :
    s.blocksToQueue ⊆ s'.blocksToQueue := by
  have hstep (c : NearTipChain) (hc : c ∈ view.chains) (s₁ : Selection) (hs₁ : s.blocksToQueue ⊆ s₁.blocksToQueue) :
      ∃ s₂, offerChain checks debug tree [] s₁ c = .ok s₂ ∧ s.blocksToQueue ⊆ s₂.blocksToQueue := by
    obtain ⟨above, heq, -⟩ := offerChain_eq checks debug (h.chains c hc).1 h.branches [] s₁
    obtain ⟨k, hk, -⟩ := s₁.exists_mem_offer (above.map fun b => (b.thisHash, b.thisHeight))
    exact ⟨_, heq, fun p hp => (hk p).mpr (.inl (hs₁ hp))⟩
  obtain ⟨s'', hfold', hsub⟩ := foldlM_ok hstep (List.Subset.refl _)
  exact Except.ok.inj (hfold.symm.trans hfold') ▸ hsub

theorem Advances.withinReach (h : Behind parentOf heightOf best view tree)
    (hround : blocksToSend checks debug best view tree [] [] = .ok selected)
    (hadv : Advances parentOf best tree selected) : WithinReach best view tree := by
  obtain ⟨tip, htip, -⟩ := h.below
  rw [blocksToSend_eq h htip] at hround
  obtain ⟨s, hs, hround⟩ := bind_eq_ok.mp hround
  obtain ⟨above, habove, hmem⟩ := hadv.above
  have hreached : tree.finalizedHeight ≤ tip := by
    refine not_lt.mp fun hlt => ?_
    rw [if_pos hlt] at hround
    obtain rfl := pure_eq_ok.mp hround
    exact nomatch hmem
  rw [if_neg (not_lt.mpr hreached)] at hround
  obtain ⟨s', hfold, hround⟩ := bind_eq_ok.mp hround
  obtain rfl := pure_eq_ok.mp hround
  refine ⟨not_lt.mp fun hlt => ?_, fun tip' htip' => ?_, fun hash hhash => ?_⟩
  · -- the loop over the finalized database starts with the tip of the peer
    obtain ⟨branch, tipBlock, hbranch, honBest, hlast, hheight⟩ := h.first
    have htipBlock := mem_of_getLast? hlast
    have hbest := honBest tipBlock htipBlock
    obtain ⟨n, hn⟩ : ∃ n, view.finalizedHeight - tree.tipHeight = n + 1 := Nat.exists_eq_add_one.mpr (by omega)
    rw [if_pos hlt, hn, List.range'_succ, ← hheight, Selection.offerFinalized, hbest] at hs
    have hverify : dbgVerify debug (some tipBlock.thisHash) = .ok (some tipBlock.thisHash) := if_neg (by simp)
    rw [hverify, ok_bind] at hs
    dsimp only at hs
    rw [if_neg not_mem_nil, if_pos (by decide)] at hs
    have hsent := offerChains_subset h hfold (Selection.offerFinalized_subset hs (Selection.mem_insert.mpr (.inr rfl)))
    exact hadv.fresh _ hsent ⟨branch, mem_of_head? hbranch, tipBlock, htipBlock, rfl⟩
  · exact (Option.some.inj (htip.symm.trans htip')) ▸ hreached
  · exact Option.some.inj (habove.symm.trans hhash) ▸ hadv.fresh _ hmem

/-! ### Rounds within reach -/

/-- What is selected so far is not shown, and has its parent shown or selected. -/
structure Fitting (parentOf : BlockHash → BlockHash) (tree : NearTipBranches) (s : Selection) : Prop where
  counted : s.Counted
  fresh : ∀ block ∈ s.blocksToQueue, ¬ tree.Shows block.1
  linked : ∀ block ∈ s.blocksToQueue, tree.Shows (parentOf block.1) ∨ ∃ parent ∈ s.blocksToQueue, parent.1 = parentOf block.1

theorem FollowsShared.parentHash (hseg : Segment blocks) (h : FollowsShared blocks branches above x)
    (hy : y ∈ above.take k) :
    x.thisHeight < y.thisHeight ∧ (y.parentHash = x.thisHash ∨ ∃ p ∈ above.take k, y.parentHash = p.thisHash) := by
  obtain ⟨⟨below, rfl⟩, -⟩ := h
  have hseg : Segment (x :: above) := (isChain_append.mp hseg).2.1
  obtain ⟨i, hi⟩ := mem_iff_getElem?.mp hy
  rw [List.getElem?_take] at hi
  split_ifs at hi with hlt
  obtain ⟨hlength, rfl⟩ := List.getElem?_eq_some_iff.mp hi
  have hheight := hseg.consecutive.key_eq rfl (show (x :: above)[i + 1]? = some above[i] from hi)
  have hparent := hseg.parentHash_getElem (i := i) (Nat.succ_lt_succ hlength)
  refine ⟨by omega, ?_⟩
  cases i with
  | zero => exact .inl hparent
  | succ i =>
    refine .inr ⟨above[i], mem_of_getElem? (i := i) ?_, hparent⟩
    rw [getElem?_take, if_pos (by omega), getElem?_eq_getElem (by omega)]

theorem Fitting.offerChain (checks debug : Bool) {s : Selection} {c : NearTipChain} (hs : Fitting parentOf tree s)
    (h : Behind parentOf heightOf best view tree) (hplain : Plain parentOf heightOf best view tree) (hc : c ∈ view.chains) :
    ∃ above, offerChain checks debug tree [] s c =
        .ok (s.offer [] (above.map fun b => (b.thisHash, b.thisHeight))) ∧
      Fitting parentOf tree (s.offer [] (above.map fun b => (b.thisHash, b.thisHeight))) ∧
      ∀ y ∈ c.blocks, tree.Shows y.thisHash →
        ∃ x, FollowsShared c.blocks tree.branches above x ∧ y.thisHeight ≤ x.thisHeight := by
  obtain ⟨hproper, htruthful⟩ := h.chains c hc
  obtain ⟨above, heq, hfollows, hhighest⟩ := offerChain_eq checks debug hproper h.branches [] s
  have hcoherent := htruthful.coherent hplain.truthful
  have hhighest {y : ShadowBlock} (hy : y ∈ c.blocks) : tree.Shows y.thisHash →
      ∃ x, FollowsShared c.blocks tree.branches above x ∧ y.thisHeight ≤ x.thisHeight := by
    rintro ⟨branch, hbranch, b, hb, hhash⟩
    exact hhighest hcoherent y hy branch hbranch (hcoherent branch hbranch b hb y hy hhash ▸ hb)
  obtain ⟨k, hk, -⟩ := s.exists_mem_offer (above.map fun b => (b.thisHash, b.thisHeight))
  rw [← map_take] at hk
  -- what is new stands above a block that is shared, and above all that are
  have hnew {y : ShadowBlock} (hy : y ∈ above.take k) : ¬ tree.Shows y.thisHash ∧ (tree.Shows (parentOf y.thisHash) ∨
      ∃ p ∈ above.take k, p.thisHash = parentOf y.thisHash) := by
    have hmem := mem_of_mem_take hy
    obtain ⟨x, hx⟩ := hfollows (ne_nil_of_mem hmem)
    have hours : y ∈ c.blocks := by
      obtain ⟨below, hblocks⟩ := hx.1
      rw [hblocks]
      exact mem_append_right _ (mem_cons_of_mem _ hmem)
    refine ⟨fun hshows => ?_, ?_⟩
    · obtain ⟨x', hx', hle⟩ := hhighest hours hshows
      exact absurd (hx'.parentHash hproper.segment hy).1 (not_lt.mpr hle)
    · rw [← (htruthful y hours).1]
      refine (hx.parentHash hproper.segment hy).2.imp (fun hparent => ?_) fun ⟨p, hp, heq⟩ => ⟨p, hp, heq.symm⟩
      obtain ⟨branch, hbranch, hxbranch⟩ := hx.2
      exact ⟨branch, hbranch, x, hxbranch, hparent.symm⟩
  refine ⟨above, heq, ⟨hs.counted.offer _, fun p hp => ?_, fun p hp => ?_⟩, fun y hy => hhighest hy⟩
  · rcases (hk p).mp hp with hp | hp
    · exact hs.fresh p hp
    · obtain ⟨y, hy, rfl⟩ := mem_map.mp hp
      exact (hnew hy).1
  · rcases (hk p).mp hp with hp | hp
    · exact (hs.linked p hp).imp_right fun ⟨q, hq, heq⟩ => ⟨q, (hk q).mpr (.inl hq), heq⟩
    · obtain ⟨y, hy, rfl⟩ := mem_map.mp hp
      exact (hnew hy).2.imp_right fun ⟨q, hq, heq⟩ => ⟨_, (hk _).mpr (.inr (mem_map_of_mem hq)), heq⟩

theorem Plain.head_above (hplain : Plain parentOf heightOf best view tree)
    (h : Behind parentOf heightOf best view tree) (hreach : WithinReach best view tree)
    (hc : view.chains.head? = some c)
    (hhighest : ∀ y ∈ c.blocks, tree.Shows y.thisHash → ∃ x, FollowsShared c.blocks tree.branches above x ∧ y.thisHeight ≤ x.thisHeight) :
    ∃ y ys, above = y :: ys ∧ y.thisHeight = tree.tipHeight + 1 ∧ best (tree.tipHeight + 1) = some y.thisHash := by
  have hseg := (h.chains c (mem_of_head? hc)).1.segment
  have honBest := h.onBest c hc
  obtain ⟨tip, htip, hbelow⟩ := h.below
  obtain ⟨branch, tipBlock, hbranch, hbestBranch, hlastBranch, hheight⟩ := h.first
  obtain ⟨c', first, hc', hfirst, hwindow⟩ := hplain.window
  obtain rfl := Option.some.inj (hc.symm.trans hc')
  obtain ⟨last, hlast, hlastHeight⟩ : ∃ last, c.blocks.getLast? = some last ∧ last.thisHeight = tip := by
    simpa [NearTipChains.tipHeight, hc] using htip
  have hend := hseg.consecutive.key_last hfirst hlast
  -- our block at the height of the peer's tip is the peer's tip
  have hlt : tree.tipHeight - first.thisHeight < c.blocks.length := by omega
  have hget := getElem?_eq_getElem hlt
  have hgetHeight := hseg.consecutive.key_eq hfirst hget
  have hgetBest := honBest _ (getElem_mem hlt)
  have hshows : tree.Shows c.blocks[tree.tipHeight - first.thisHeight].thisHash := by
    refine ⟨branch, mem_of_head? hbranch, tipBlock, mem_of_getLast? hlastBranch, ?_⟩
    have hbestTip := hbestBranch tipBlock (mem_of_getLast? hlastBranch)
    rw [hgetHeight, Nat.add_sub_cancel' hwindow] at hgetBest
    rw [hheight] at hbestTip
    exact Option.some.inj (hbestTip.symm.trans hgetBest)
  obtain ⟨x, ⟨⟨below, hblocks⟩, branch', hbranch', hx⟩, hle⟩ := hhighest _ (getElem_mem hlt) hshows
  rw [hgetHeight, Nat.add_sub_cancel' hwindow] at hle
  have hxmem : x ∈ c.blocks := by
    rw [hblocks]
    simp
  have hxle : x.thisHeight ≤ tree.tipHeight := by
    refine not_lt.mp fun hgt => ?_
    have hlt' : tree.tipHeight + 1 - first.thisHeight < c.blocks.length := by omega
    have hnext := honBest _ (getElem_mem hlt')
    rw [hseg.consecutive.key_eq hfirst (getElem?_eq_getElem hlt'), Nat.add_sub_cancel' (by omega)] at hnext
    exact hreach.unseen _ hnext (hplain.connected c hc x hxmem hgt ⟨branch', hbranch', x, hx, rfl⟩ _ hnext)
  cases above with
  | nil =>
    rw [hblocks, getLast?_append, getLast?_singleton] at hlast
    obtain rfl := Option.some.inj hlast
    omega
  | cons y ys =>
    rw [hblocks] at hseg
    have hy := (isChain_cons_cons.mp (isChain_append.mp hseg).2.1).1.2
    have hheightY : y.thisHeight = tree.tipHeight + 1 := by omega
    exact ⟨y, ys, rfl, hheightY, hheightY ▸ honBest y (by rw [hblocks]; simp)⟩

theorem WithinReach.advances (hreach : WithinReach best view tree) (h : Behind parentOf heightOf best view tree)
    (hplain : Plain parentOf heightOf best view tree) : ∃ selected,
      blocksToSend checks debug best view tree [] [] = .ok selected ∧ Advances parentOf best tree selected := by
  obtain ⟨tip, htip, -⟩ := h.below
  obtain ⟨c, -, hc, -⟩ := hplain.window
  obtain ⟨cs, hcs⟩ : ∃ cs, view.chains = c :: cs := head?_eq_some_iff.mp hc
  have hstart : Fitting parentOf tree ⟨0, []⟩ := ⟨⟨rfl, Nat.zero_le _⟩, fun _ h => (nomatch h), fun _ h => (nomatch h)⟩
  -- the first chain offers the block above the tip
  obtain ⟨above, hfirst, hfit, hhighest⟩ := hstart.offerChain checks debug h hplain (mem_of_head? hc)
  obtain ⟨y, ys, rfl, hheight, hbest⟩ := hplain.head_above h hreach hc hhighest
  have hy : (y.thisHash, tree.tipHeight + 1) ∈
      (Selection.offer [] ⟨0, []⟩ ((y :: ys).map fun b => (b.thisHash, b.thisHeight))).blocksToQueue := by
    obtain ⟨k, hk, hpos⟩ := Selection.exists_mem_offer ⟨0, []⟩ ((y :: ys).map fun b => (b.thisHash, b.thisHeight))
    obtain ⟨k, rfl⟩ := Nat.exists_eq_add_one.mpr (hpos (by decide))
    refine (hk _).mpr (.inr ?_)
    rw [map_cons, take_succ_cons, hheight]
    exact mem_cons_self
  -- the others keep what there is
  have hstep (d : NearTipChain) (hd : d ∈ cs) (s : Selection)
      (hs : Fitting parentOf tree s ∧ (y.thisHash, tree.tipHeight + 1) ∈ s.blocksToQueue) :
      ∃ s', offerChain checks debug tree [] s d = .ok s' ∧ Fitting parentOf tree s' ∧
        (y.thisHash, tree.tipHeight + 1) ∈ s'.blocksToQueue := by
    obtain ⟨above, heq, hfit, -⟩ := hs.1.offerChain checks debug h hplain (hcs ▸ mem_cons_of_mem c hd)
    obtain ⟨k, hk, -⟩ := s.exists_mem_offer (above.map fun b => (b.thisHash, b.thisHeight))
    exact ⟨_, heq, hfit, (hk _).mpr (.inl hs.2)⟩
  obtain ⟨s, hfold, hfit, hmem⟩ := foldlM_ok hstep ⟨hfit, hy⟩
  refine ⟨s.blocksToQueue, ?_, ⟨y.thisHash, hbest, hmem⟩, hfit.fresh, hfit.counted.2, fun block hblock =>
    (hfit.linked block hblock).imp_left .inl⟩
  have hrest := foldlM_cons_eq_ok.mpr ⟨_, hfirst, hfold⟩
  rw [blocksToSend_eq h htip, if_neg (not_lt.mpr hreach.finalized), pure_bind, if_neg (not_lt.mpr (hreach.reached tip htip)),
    hcs, hrest]
  rfl

end Sending

/-! ### A peer two blocks behind -/

namespace TwoBehind

def line : List ShadowBlock := (List.range 5).map fun n => ⟨hashOf (n + 1), hashOf n, n⟩

def parentOf (hash : BlockHash) : BlockHash := ((line.find? (·.thisHash = hash)).map ShadowBlock.parentHash).getD (hashOf 0)

def heightOf (hash : BlockHash) : ℕ := ((line.find? (·.thisHash = hash)).map ShadowBlock.thisHeight).getD 0

def best (height : ℕ) : Option BlockHash := if height < 5 then some (hashOf (height + 1)) else none

def view (finalizedHeight : ℕ) : NearTipChains := ⟨finalizedHeight, [⟨5, line⟩]⟩

def status : NearTipBranches := ⟨2, 1, [(line.drop 1).take 2]⟩

theorem behind (finalizedHeight : ℕ) : Behind parentOf heightOf best (view finalizedHeight) status where
  chains := by
    simp only [view, mem_singleton, forall_eq]
    exact ⟨⟨by decide +kernel, by decide +kernel, by decide +kernel⟩, by decide +kernel⟩
  onBest := by
    simp only [view, head?_cons, Option.mem_def, Option.some.injEq, forall_eq']
    decide +kernel
  parents height hash h := by
    match height with
    | 0 | 1 | 2 | 3 =>
      obtain rfl := Option.some.inj h
      decide +kernel
    | height + 4 =>
      rw [best, if_neg (by omega)] at h
      exact nomatch h
  branches := by
    simp only [status, mem_singleton, forall_eq]
    exact ⟨by decide +kernel, by decide +kernel, by decide +kernel⟩
  first := ⟨_, _, rfl, by decide +kernel, rfl, rfl⟩
  below := ⟨4, rfl, by decide⟩

end TwoBehind

end Crosslink.NewNet

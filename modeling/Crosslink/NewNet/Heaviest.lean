import Crosslink.NewNet.Sequence

/-!
# The first chain is the heaviest

The work of a chain counts the blocks that it lost at the front, but a copy starts again from the blocks that are held.
As long as copies are only made of chains that lost no block, the work of a chain is the depth of its last block in the
tree of all blocks, whatever is trimmed later, and the first chain has the most blocks above any ancestor that it shares
with another. A copy of a chain that lost blocks weighs less than it should: the chain it was copied from stays first
although the copy has grown longer.
-/

namespace Crosslink.NewNet

open Codec Fallible Bft List

variable {blocks : List ShadowBlock} {b : ShadowBlock} {hash : BlockHash}

/-! ### The work of a chain -/

namespace NearTipChain

variable {c c' : NearTipChain} {k bound : ℕ}

/-- The work of a chain is the depth of its last block. -/
structure Weighed (blocks : List ShadowBlock) (c : NearTipChain) : Prop where
  mem : ∀ b ∈ c.blocks, b ∈ blocks
  linked : c.Linked
  work : ∃ b, c.blocks.getLast? = some b ∧ c.work = depth blocks b.thisHash

theorem Weighed.ne_nil (h : c.Weighed blocks) : c.blocks ≠ [] := by
  obtain ⟨b, hb, -⟩ := h.work
  exact ne_nil_of_mem (mem_of_getLast? hb)

theorem Weighed.trim (h : c.Weighed blocks) (ht : c.trim bound = some c') : c'.Weighed blocks := by
  obtain ⟨hwork, hsuffix, -⟩ := trim_eq_some ht
  refine ⟨fun b hb => h.mem b (hsuffix.subset hb), h.linked.trim ht, ?_⟩
  rw [getLast?_of_trim ht, hwork]
  exact h.work

theorem Weighed.pushBlock (h : c.Weighed blocks) (hblocks : ParentsFirst blocks) (hb : b ∈ blocks)
    (hp : c.blocks.getLast? = some p) (hparent : p.thisHash = b.parentHash) : (c.pushBlock b).Weighed blocks := by
  obtain ⟨p', hp', hwork⟩ := h.work
  obtain rfl : p = p' := Option.some.inj (hp.symm.trans hp')
  obtain ⟨kept, hsuffix, hpush, -⟩ := c.blocks_pushBlock b
  refine ⟨?_, h.linked.pushBlock fun q hq => ?_, b, c.getLast?_pushBlock b, ?_⟩
  · rw [hpush, forall_mem_append, forall_mem_singleton]
    exact ⟨fun q hq => h.mem q (hsuffix.subset hq), hb⟩
  · rw [← hparent, Option.some.inj (hp.symm.trans hq)]
  · rw [hblocks.depth_eq hb, ← hparent, ← hwork]
    rfl

theorem Weighed.depth_getElem (h : c.Weighed blocks) (hblocks : ParentsFirst blocks) (hi : i < c.blocks.length) :
    depth blocks c.blocks[i].thisHash = depth blocks c.blocks[0].parentHash + i + 1 := by
  rw [hblocks.depth_eq (h.mem _ (getElem_mem hi))]
  induction i with
  | zero => rfl
  | succ i ih =>
    rw [isChain_iff_getElem.mp h.linked i hi, hblocks.depth_eq (h.mem _ (getElem_mem (by omega))), ih (by omega)]
    rfl

theorem Weighed.copy (h : c.Weighed blocks) (hblocks : ParentsFirst blocks) (hwhole : c.work = c.blocks.length)
    (hp : c.blocks[k]? = some p) : (ofBlocks (c.blocks.take (k + 1))).Weighed blocks := by
  refine ⟨fun b hb => h.mem b (List.mem_of_mem_take hb), h.linked.take _, p, getLast?_ofBlocks_take hp, ?_⟩
  obtain ⟨hk, rfl⟩ := List.getElem?_eq_some_iff.mp hp
  obtain ⟨last, hlast, hwork⟩ := h.work
  rw [List.getLast?_eq_getElem?] at hlast
  obtain ⟨hn, rfl⟩ := List.getElem?_eq_some_iff.mp hlast
  rw [h.depth_getElem hblocks hn] at hwork
  rw [work_ofBlocks, List.length_take, h.depth_getElem hblocks hk]
  omega

theorem weighed_new (hblocks : ParentsFirst blocks) (hb : b ∈ blocks)
    (hparent : b.parentHash ∉ blocks.map ShadowBlock.thisHash) : ((ofBlocks []).pushBlock b).Weighed blocks := by
  refine ⟨?_, isChain_singleton b, b, rfl, ?_⟩
  · rintro b' hb'
    obtain rfl := mem_singleton.mp hb'
    exact hb
  · rw [hblocks.depth_eq hb, hblocks.depth_eq_zero hparent]
    rfl

end NearTipChain

/-! ### Runs -/

namespace NearTipChains

variable {s s' : NearTipChains} {groups : List (List ShadowBlock)}

/-- A condition on the chains before each block of a group is pushed. -/
def AlongGroup (P : NearTipChains → ShadowBlock → Prop) : NearTipChains → List ShadowBlock → Prop
  | _, [] => True
  | s, b :: bs => P s b ∧ AlongGroup P (s.pushOne b) bs

/-- A condition on the chains before each block of a run is pushed. -/
def Along (P : NearTipChains → ShadowBlock → Prop) : NearTipChains → List (List ShadowBlock) → Prop
  | _, [] => True
  | s, g :: gs => AlongGroup P s g ∧ ∀ s', s.pushBlocks g = .ok s' → Along P s' gs

instance decidableAlongGroup {P : NearTipChains → ShadowBlock → Prop} [∀ s b, Decidable (P s b)] :
    ∀ s g, Decidable (AlongGroup P s g)
  | _, [] => .isTrue trivial
  | s, b :: bs =>
    have : Decidable (AlongGroup P (s.pushOne b) bs) := decidableAlongGroup (s.pushOne b) bs
    inferInstanceAs (Decidable (P s b ∧ AlongGroup P (s.pushOne b) bs))

instance decidableAlong {P : NearTipChains → ShadowBlock → Prop} [∀ s b, Decidable (P s b)] :
    ∀ s groups, Decidable (Along P s groups)
  | _, [] => .isTrue trivial
  | s, g :: gs =>
    match h : s.pushBlocks g with
    | .error _ => decidable_of_iff (AlongGroup P s g) (by simp [Along, h])
    | .ok s' =>
      have : Decidable (Along P s' gs) := decidableAlong s' gs
      decidable_of_iff (AlongGroup P s g ∧ Along P s' gs) (by simp [Along, h])

/-- The parent of a block is still held, unless it is none of `blocks`. -/
def Held (blocks : List ShadowBlock) (s : NearTipChains) (b : ShadowBlock) : Prop :=
  b.parentHash ∈ blocks.map ShadowBlock.thisHash → ∃ c ∈ s.chains, ∃ p ∈ c.blocks, p.thisHash = b.parentHash

/-- If a part of a chain is copied, the chain has not lost a block. -/
def CopiesWhole (s : NearTipChains) (b : ShadowBlock) : Prop := ∀ c ∈ s.copied b, c.work = c.blocks.length

instance (blocks : List ShadowBlock) (s : NearTipChains) (b : ShadowBlock) : Decidable (s.Held blocks b) :=
  inferInstanceAs (Decidable (_ → _))

instance (s : NearTipChains) (b : ShadowBlock) : Decidable (s.CopiesWhole b) :=
  inferInstanceAs (Decidable (∀ c ∈ s.copied b, _))

/-- The first chain has the most blocks above each ancestor that it shares with another chain. -/
def Heaviest (blocks : List ShadowBlock) (s : NearTipChains) : Prop :=
  ∀ best ∈ s.chains.head?, ∀ c ∈ s.chains, ∀ tip ∈ best.blocks.getLast?, ∀ tip' ∈ c.blocks.getLast?,
    ∀ a n m, Above blocks a tip.thisHash n → Above blocks a tip'.thisHash m → m ≤ n

theorem pushOne_weighed (hblocks : ParentsFirst blocks) (hb : b ∈ blocks) (hs : ∀ c ∈ s.chains, c.Weighed blocks)
    (hheld : s.Held blocks b) (hwhole : s.CopiesWhole b) : ∀ c ∈ (s.pushOne b).chains, c.Weighed blocks := by
  refine (s.pushed_pushOne b).forall hs (fun c hc hends => ?_) (fun c hc k hcopied hk => ?_) fun hnone => ?_
  · obtain ⟨p, hp, hparent⟩ := hends.getLast?
    exact (hs c hc).pushBlock hblocks hb hp hparent
  · obtain ⟨p, hp, hparent⟩ := NearTipChain.locate_eq_some hk
    exact ((hs c hc).copy hblocks (hwhole c hcopied) hp).pushBlock hblocks hb (NearTipChain.getLast?_ofBlocks_take hp) hparent
  · refine NearTipChain.weighed_new hblocks hb fun hmem => ?_
    obtain ⟨c, hc, p, hp, heq⟩ := hheld hmem
    exact NearTipChain.locate_eq_none.mp (hnone c hc) p hp heq

theorem foldl_weighed (hblocks : ParentsFirst blocks) (hg : ∀ b ∈ g, b ∈ blocks)
    (hs : ∀ c ∈ s.chains, c.Weighed blocks) (hheld : AlongGroup (Held blocks) s g)
    (hwhole : AlongGroup CopiesWhole s g) :
    ∀ c ∈ (g.foldl pushOne s).chains, c.Weighed blocks := by
  induction g generalizing s with
  | nil => exact hs
  | cons b bs ih =>
    obtain ⟨hb, hbs⟩ := forall_mem_cons.mp hg
    exact ih hbs (pushOne_weighed hblocks hb hs hheld.1 hwhole.1) hheld.2 hwhole.2

theorem foldl_ne_nil (hg : g ≠ []) : (g.foldl pushOne s).chains ≠ [] := by
  obtain ⟨g', b, rfl⟩ := eq_nil_or_concat g |>.resolve_left hg
  rw [concat_eq_append, foldl_append]
  exact (pushed_pushOne _ b).ne_nil

/-- The chains are in the order of their work and weigh what their last blocks do. -/
structure Ranked (blocks : List ShadowBlock) (s : NearTipChains) : Prop where
  weighed : ∀ c ∈ s.chains, c.Weighed blocks
  sorted : s.chains.Pairwise fun c d => d.work ≤ c.work

theorem Ranked.heaviest (h : s.Ranked blocks) (hblocks : ParentsFirst blocks) : s.Heaviest blocks := by
  intro best hbest c hc tip htip tip' htip' a n m hn hm
  obtain ⟨rest, hrest⟩ : ∃ rest, s.chains = best :: rest := head?_eq_some_iff.mp hbest
  have hwork : c.work ≤ best.work := by
    have hsorted := h.sorted
    rw [hrest] at hc hsorted
    rcases mem_cons.mp hc with rfl | hc
    · exact le_rfl
    · exact (pairwise_cons.mp hsorted).1 c hc
  obtain ⟨b, hb, hbestWork⟩ := (h.weighed best (hrest ▸ mem_cons_self)).work
  obtain rfl : tip = b := Option.some.inj (htip.symm.trans hb)
  obtain ⟨b', hb', hcWork⟩ := (h.weighed c hc).work
  obtain rfl : tip' = b' := Option.some.inj (htip'.symm.trans hb')
  rw [hbestWork, hcWork, hblocks.depth_above hn, hblocks.depth_above hm] at hwork
  omega

theorem Ranked.pushBlocks (h : s.Ranked blocks) (hblocks : ParentsFirst blocks) (hg : ∀ b ∈ g, b ∈ blocks)
    (hheld : AlongGroup (Held blocks) s g) (hwhole : AlongGroup CopiesWhole s g) :
    ∃ s', s.pushBlocks g = .ok s' ∧ s'.Ranked blocks := by
  by_cases hnil : g = []
  · exact ⟨s, if_pos hnil, h⟩
  have hweighed := foldl_weighed hblocks hg h.weighed hheld hwhole
  obtain ⟨tip, -, hsettle⟩ := settle_ok (foldl_ne_nil hnil) fun c hc => (hweighed c hc).ne_nil
  refine ⟨_, by rw [NearTipChains.pushBlocks, if_neg hnil]; exact hsettle, fun c hc => ?_, ?_⟩
  · obtain ⟨bound, d, hd, htrim⟩ := mem_settle hsettle hc
    exact (hweighed d hd).trim htrim
  · exact pairwise_insertionSort _ _

theorem Ranked.run (hblocks : ParentsFirst blocks) (h : s.Ranked blocks) (hg : ∀ b ∈ groups.flatten, b ∈ blocks)
    (hheld : Along (Held blocks) s groups) (hwhole : Along CopiesWhole s groups) :
    ∃ s', groups.foldlM NearTipChains.pushBlocks s = .ok s' ∧ s'.Ranked blocks := by
  induction groups generalizing s with
  | nil => exact ⟨s, rfl, h⟩
  | cons g gs ih =>
    rw [flatten_cons, forall_mem_append] at hg
    obtain ⟨s₁, hs₁, hranked⟩ := h.pushBlocks hblocks hg.1 hheld.1 hwhole.1
    obtain ⟨s', hs', hranked'⟩ := ih hranked hg.2 (hheld.2 s₁ hs₁) (hwhole.2 s₁ hs₁)
    exact ⟨s', foldlM_cons_eq_ok.mpr ⟨s₁, hs₁, hs'⟩, hranked'⟩

/-- Where no copy is made of a chain that lost blocks, the first chain is the heaviest after every group of blocks. -/
theorem first_heaviest (hblocks : ParentsFirst groups.flatten) (hheld : Along (Held groups.flatten) empty groups)
    (hwhole : Along CopiesWhole empty groups) :
    ∃ s, groups.foldlM NearTipChains.pushBlocks empty = .ok s ∧ s.Heaviest groups.flatten := by
  have hempty : empty.Ranked groups.flatten := ⟨by simp [empty], List.Pairwise.nil⟩
  obtain ⟨s, hs, hranked⟩ := hempty.run hblocks (fun _ => id) hheld hwhole
  exact ⟨s, hs, hranked.heaviest hblocks⟩

end NearTipChains

/-! ### A fork of a trimmed chain -/

/-- A block of height `top`, then three blocks above block 0 at height 398, then two above the second of them. -/
def forkedGroups (top : ℕ) : List (List ShadowBlock) :=
  [[⟨hashOf 9, hashOf 8, top⟩, ⟨hashOf 1, hashOf 0, 399⟩, ⟨hashOf 2, hashOf 1, 400⟩, ⟨hashOf 3, hashOf 2, 401⟩],
    [⟨hashOf 4, hashOf 2, 401⟩, ⟨hashOf 5, hashOf 4, 402⟩]]

theorem first_heaviest_fork :
    ∃ s, (forkedGroups 499).foldlM NearTipChains.pushBlocks .empty = .ok s ∧ s.Heaviest (forkedGroups 499).flatten :=
  NearTipChains.first_heaviest (by decide +kernel) (by decide +kernel) (by decide +kernel)

/-- With the first chain one block higher, the block at height 399 is trimmed before the fork is copied: the fork has two
blocks above the common ancestor and the chain it was copied from has one, but stays first. -/
theorem trimmed_chain_stays_first :
    ParentsFirst (forkedGroups 500).flatten ∧
    NearTipChains.Along (NearTipChains.Held (forkedGroups 500).flatten) .empty (forkedGroups 500) ∧
    ∃ s, (forkedGroups 500).foldlM NearTipChains.pushBlocks .empty = .ok s ∧ ¬ s.Heaviest (forkedGroups 500).flatten := by
  refine ⟨by decide +kernel, by decide +kernel, ⟨0, [⟨3, [⟨hashOf 2, hashOf 1, 400⟩, ⟨hashOf 3, hashOf 2, 401⟩]⟩,
    ⟨3, [⟨hashOf 2, hashOf 1, 400⟩, ⟨hashOf 4, hashOf 2, 401⟩, ⟨hashOf 5, hashOf 4, 402⟩]⟩, ⟨1, [⟨hashOf 9, hashOf 8, 500⟩]⟩]⟩,
    by decide +kernel, fun h => ?_⟩
  have hfork := h _ rfl _ (mem_cons_of_mem _ mem_cons_self) _ rfl _ rfl (hashOf 2) 1 2
    (.step (b := ⟨hashOf 3, hashOf 2, 401⟩) (by decide +kernel) .refl)
    (.step (b := ⟨hashOf 5, hashOf 4, 402⟩) (by decide +kernel)
      (.step (b := ⟨hashOf 4, hashOf 2, 401⟩) (by decide +kernel) .refl))
  omega

end Crosslink.NewNet

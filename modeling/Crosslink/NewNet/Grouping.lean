import Crosslink.NewNet.Sequence
import Crosslink.Lib.Ranking
import Mathlib.Data.List.SplitLengths

/-!
# Pushing blocks in groups

As long as all blocks lie within a hundred heights nothing is trimmed, and each chain is the whole path to its last
block. The chains are then known from the list of their last blocks, the tips: a block replaces its parent among the
tips or joins them at the end, and every group of blocks sorts them by depth. Ties keep the order they had, so how the
blocks are grouped makes a difference exactly when, of two chains that end with the same work, the one that started later
was ahead of the other at some time.
-/

namespace Crosslink.NewNet

open Codec Fallible Bft List NearTipChain NearTipChains Ranking

/-! ### Sequences within a window -/

/-- Different blocks in consecutive heights above their parents, all within a hundred heights. -/
structure InWindow (blocks : List ShadowBlock) : Prop extends ParentsFirst blocks where
  nodup : (blocks.map ShadowBlock.thisHash).Nodup
  heights : ∀ b ∈ blocks, ∀ p ∈ blocks, p.thisHash = b.parentHash → b.thisHeight = p.thisHeight + 1
  window : ∀ b ∈ blocks, ∀ b' ∈ blocks, b'.thisHeight < b.thisHeight + nearTipChainLen

instance (blocks : List ShadowBlock) : Decidable (InWindow blocks) :=
  decidable_of_iff (ParentsFirst blocks ∧ _ ∧ _ ∧ _)
    ⟨fun h => ⟨h.1, h.2.1, h.2.2.1, h.2.2.2⟩, fun h => ⟨h.toParentsFirst, h.nodup, h.heights, h.window⟩⟩

variable {blocks pre : List ShadowBlock} {b t x : ShadowBlock} {hash : BlockHash} {i k : ℕ}

namespace ParentsFirst

theorem path_induction (h : ParentsFirst blocks) {P : List ShadowBlock → Prop} (hnil : P [])
    (hsnoc : ∀ b ∈ blocks, P (path blocks b.parentHash) → P (path blocks b.parentHash ++ [b])) (hb : b ∈ blocks) :
    P (path blocks b.thisHash) := by
  refine h.induction (P := fun b => P (path blocks b.thisHash)) (fun b hb hroot => ?_) (fun b hb p hp heq ih => ?_) hb
  · rw [h.path_eq hb]
    exact hsnoc b hb (h.path_eq_nil hroot ▸ hnil)
  · rw [h.path_eq hb]
    exact hsnoc b hb (heq ▸ ih)

theorem mem_path (h : ParentsFirst blocks) (hb : b ∈ blocks) : ∀ x ∈ path blocks b.thisHash, x ∈ blocks := by
  refine h.path_induction (P := fun l => ∀ x ∈ l, x ∈ blocks) (by simp) (fun b hb ih => ?_) hb
  rw [forall_mem_append]
  exact ⟨ih, by simpa using hb⟩

theorem take_path (h : ParentsFirst blocks) (hb : b ∈ blocks) (hx : (path blocks b.thisHash)[i]? = some x) :
    (path blocks b.thisHash).take (i + 1) = path blocks x.thisHash := by
  refine h.path_induction (P := fun l => ∀ i x, l[i]? = some x → l.take (i + 1) = path blocks x.thisHash) (by simp)
    (fun b hb ih => ?_) hb i x hx
  intro i x hx
  rcases lt_or_ge i (path blocks b.parentHash).length with hi | hi
  · rw [getElem?_append_left hi] at hx
    rw [List.take_append_of_le_length hi, ih i x hx]
  · rw [List.getElem?_append_right hi] at hx
    obtain ⟨hlt, rfl⟩ := List.getElem?_eq_some_iff.mp hx
    rw [List.length_singleton] at hlt
    rw [List.take_of_length_le (by rw [List.length_append, List.length_singleton]; omega), List.getElem_singleton,
      h.path_eq hb]

theorem depth_getElem_path (h : ParentsFirst blocks) (hb : b ∈ blocks) (hx : (path blocks b.thisHash)[i]? = some x) :
    depth blocks x.thisHash = i + 1 := by
  obtain ⟨hi, -⟩ := List.getElem?_eq_some_iff.mp hx
  rw [← length_path, ← h.take_path hb hx, List.length_take]
  omega

theorem getLast?_path (h : ParentsFirst blocks) (hb : b ∈ blocks) : (path blocks b.thisHash).getLast? = some b := by
  rw [h.path_eq hb, List.getLast?_concat]

theorem endsWith_path (h : ParentsFirst blocks) (ht : t ∈ blocks) :
    (NearTipChain.ofBlocks (path blocks t.thisHash)).EndsWith hash ↔ t.thisHash = hash := by
  constructor
  · intro hends
    obtain ⟨p, hp, rfl⟩ := hends.getLast?
    rw [Option.some.inj ((h.getLast?_path ht).symm.trans hp)]
  · rintro rfl
    have hlast := h.getLast?_path ht
    rw [List.getLast?_eq_getElem?] at hlast
    obtain ⟨hlen, hget⟩ := List.getElem?_eq_some_iff.mp hlast
    change (path blocks t.thisHash).findIdx? _ = some ((path blocks t.thisHash).length - 1)
    refine List.findIdx?_eq_some_iff_getElem.mpr ⟨hlen, by simp [hget], fun j hj heq => ?_⟩
    have hdepth := h.depth_getElem_path ht (List.getElem?_eq_getElem (hj.trans hlen))
    rw [of_decide_eq_true heq, h.depth_getElem_path ht hlast] at hdepth
    omega

end ParentsFirst

namespace InWindow

theorem height_path (h : InWindow blocks) (hb : b ∈ blocks) (hx : x ∈ path blocks b.thisHash) :
    x.thisHeight + depth blocks b.thisHash = b.thisHeight + depth blocks x.thisHash := by
  refine h.induction (P := fun b => ∀ x ∈ path blocks b.thisHash,
    x.thisHeight + depth blocks b.thisHash = b.thisHeight + depth blocks x.thisHash) (fun b hb hroot => ?_)
    (fun b hb p hp heq ih => ?_) hb x hx
  · rw [h.path_eq hb, h.path_eq_nil hroot]
    simp
  · intro x hx
    rw [h.path_eq hb, ← heq, mem_append, mem_singleton] at hx
    rcases hx with hx | rfl
    · rw [h.depth_eq hb, ← heq, h.heights b hb p hp heq]
      have := ih x hx
      omega
    · rfl

theorem length_path_le (h : InWindow blocks) (hb : b ∈ blocks) : (path blocks b.thisHash).length ≤ nearTipChainLen := by
  have hpos : 0 < (path blocks b.thisHash).length := by
    rw [h.path_eq hb]
    simp
  have hroot : (path blocks b.thisHash)[0]? = some (path blocks b.thisHash)[0] := getElem?_eq_getElem hpos
  have hmem := mem_of_getElem? hroot
  have hheight := h.height_path hb hmem
  have hwindow := h.window _ (h.mem_path hb _ hmem) b hb
  rw [h.depth_getElem_path hb hroot, ← length_path] at hheight
  omega

end InWindow

/-! ### Tips -/

instance : Inhabited ShadowBlock := ⟨⟨Bytes.zero 32, Bytes.zero 32, 0⟩⟩

def growTips (tips : List ShadowBlock) (b : ShadowBlock) : List ShadowBlock :=
  if ∃ t ∈ tips, t.thisHash = b.parentHash then tips.map fun t => if t.thisHash = b.parentHash then b else t
  else tips ++ [b]

/-- The blocks without a child, each in the place of the line of first children that it continues. -/
def tips (blocks : List ShadowBlock) : List ShadowBlock := blocks.foldl growTips []

def view (blocks tips : List ShadowBlock) : NearTipChains :=
  ⟨0, tips.map fun t => .ofBlocks (path blocks t.thisHash)⟩

/-- Different blocks of `pre` whose paths cover `pre`. -/
structure Covers (blocks pre tips : List ShadowBlock) : Prop where
  mem : ∀ t ∈ tips, t ∈ pre
  nodup : tips.Nodup
  cover : ∀ b ∈ pre, ∃ t ∈ tips, b ∈ path blocks t.thisHash

theorem Covers.perm (h : Covers blocks pre ts) (hperm : ts'.Perm ts) : Covers blocks pre ts' :=
  ⟨fun t ht => h.mem t (hperm.mem_iff.mp ht), hperm.nodup_iff.mpr h.nodup, fun b hb =>
    (h.cover b hb).imp fun _ ht => ⟨hperm.mem_iff.mpr ht.1, ht.2⟩⟩

theorem InWindow.pushBlock_path (h : InWindow blocks) (hb : b ∈ blocks) :
    (NearTipChain.ofBlocks (path blocks b.parentHash)).pushBlock b = .ofBlocks (path blocks b.thisHash) := by
  have hlen := h.length_path_le hb
  rw [h.path_eq hb] at hlen ⊢
  rw [length_append, length_singleton] at hlen
  have hblocks : ((ofBlocks (path blocks b.parentHash)).pushBlock b).blocks = path blocks b.parentHash ++ [b] := by
    rw [pushBlock, if_neg (by simp only [ofBlocks]; omega)]
    rfl
  have hwork : ((ofBlocks (path blocks b.parentHash)).pushBlock b).work =
      (ofBlocks (path blocks b.parentHash ++ [b])).work := by
    rw [pushBlock, work_ofBlocks, work_ofBlocks, length_append]
    rfl
  exact NearTipChain.ext hwork hblocks

section Step

variable {post ts : List ShadowBlock} (h : InWindow blocks) (hblocks : blocks = pre ++ b :: post) (hts : Covers blocks pre ts)

include hblocks in
theorem mem_of_mem_pre (hx : x ∈ pre) : x ∈ blocks := by
  rw [hblocks]
  exact mem_append_left _ hx

include hblocks in
theorem mem_of_next : b ∈ blocks := by
  rw [hblocks]
  exact mem_append_right _ mem_cons_self

include h hblocks in
theorem InWindow.next_not_mem : b ∉ pre := by
  intro hin
  have hnodup := h.nodup
  rw [hblocks, map_append, nodup_append] at hnodup
  exact hnodup.2.2 _ (mem_map_of_mem hin) _ (by simp) rfl

include h hblocks in
theorem InWindow.parent_mem_pre (hparent : b.parentHash ∈ blocks.map ShadowBlock.thisHash) :
    ∃ p ∈ pre, p.thisHash = b.parentHash := by
  subst hblocks
  have hfirst := h.first pre.length (by simp)
  simp only [getElem_append_right le_rfl, Nat.sub_self, getElem_cons_zero, take_left] at hfirst
  exact mem_map.mp (hfirst hparent)

include h hblocks hts in
theorem InWindow.covers_growTips : Covers blocks (pre ++ [b]) (growTips ts b) := by
  have hb := mem_of_next hblocks
  have hmem {t : ShadowBlock} (ht : t ∈ ts) : t ∈ blocks := mem_of_mem_pre hblocks (hts.mem t ht)
  have hself : b ∈ path blocks b.thisHash := mem_of_getLast? (h.getLast?_path hb)
  rw [growTips]
  split_ifs with hext
  · refine ⟨fun t ht => ?_, hts.nodup.map_on fun t ht t' ht' heq => ?_, fun x hx => ?_⟩
    · obtain ⟨t', ht', rfl⟩ := mem_map.mp ht
      split_ifs
      · simp
      · exact mem_append_left _ (hts.mem t' ht')
    · have hnew {t : ShadowBlock} (ht : t ∈ ts) : b ≠ t := fun heq => h.next_not_mem hblocks (heq ▸ hts.mem t ht)
      split_ifs at heq with hp hp' hp'
      · exact h.determined t (hmem ht) t' (hmem ht') (hp.trans hp'.symm)
      · exact absurd heq (hnew ht')
      · exact absurd heq.symm (hnew ht)
      · exact heq
    · rcases mem_append.mp hx with hx | hx
      · obtain ⟨t, ht, hxt⟩ := hts.cover x hx
        refine ⟨_, mem_map_of_mem ht, ?_⟩
        split_ifs with hp
        · rw [h.path_eq hb, ← hp]
          exact mem_append_left _ hxt
        · exact hxt
      · obtain rfl := mem_singleton.mp hx
        obtain ⟨t, ht, hp⟩ := hext
        exact ⟨x, mem_map.mpr ⟨t, ht, if_pos hp⟩, hself⟩
  · refine ⟨fun t ht => ?_, ?_, fun x hx => ?_⟩
    · rcases mem_append.mp ht with ht | ht
      · exact mem_append_left _ (hts.mem t ht)
      · exact mem_append_right _ ht
    · refine nodup_append.mpr ⟨hts.nodup, nodup_singleton b, fun t ht t' ht' heq => ?_⟩
      obtain rfl := mem_singleton.mp ht'
      exact h.next_not_mem hblocks (heq ▸ hts.mem t ht)
    · rcases mem_append.mp hx with hx | hx
      · exact (hts.cover x hx).imp fun t ht => ⟨mem_append_left _ ht.1, ht.2⟩
      · obtain rfl := mem_singleton.mp hx
        exact ⟨x, by simp, hself⟩

include h hblocks hts in
theorem InWindow.pushOne_view : (view blocks ts).pushOne b = view blocks (growTips ts b) := by
  have hb := mem_of_next hblocks
  have hmem {t : ShadowBlock} (ht : t ∈ ts) : t ∈ blocks := mem_of_mem_pre hblocks (hts.mem t ht)
  refine NearTipChains.ext (NearTipChains.finalizedHeight_pushOne) ?_
  have hpushed := (view blocks ts).pushed_pushOne b
  generalize ((view blocks ts).pushOne b).chains = cs at hpushed
  have hgrow (hnone : ∀ t ∈ ts, t.thisHash ≠ b.parentHash) : growTips ts b = ts ++ [b] :=
    if_neg fun ⟨t, ht, heq⟩ => hnone t ht heq
  have happend {c : NearTipChain} (hc : c = .ofBlocks (path blocks b.thisHash)) :
      (view blocks ts).chains ++ [c] = (view blocks (ts ++ [b])).chains := by
    rw [view, view, map_append, hc]
    rfl
  cases hpushed with
  | extend hs hc _ =>
    obtain ⟨ts₁, rest, rfl, rfl, hrest⟩ := map_eq_append_iff.mp hs
    obtain ⟨t, ts₂, rfl, rfl, rfl⟩ := map_eq_cons_iff.mp hrest
    have ht : t.thisHash = b.parentHash := (h.endsWith_path (hmem (by simp))).mp hc
    have hnodup := hts.nodup
    rw [nodup_middle, nodup_cons, mem_append, not_or] at hnodup
    have hothers {u : ShadowBlock} (hu : u ∈ ts₁ ∨ u ∈ ts₂) : u.thisHash ≠ b.parentHash := by
      intro heq
      obtain rfl := h.determined u (hmem (by simp; tauto)) t (hmem (by simp)) (heq.trans ht.symm)
      tauto
    have hsame {l : List ShadowBlock} (hl : ∀ u ∈ l, u ∈ ts₁ ∨ u ∈ ts₂) :
        (l.map fun t => if t.thisHash = b.parentHash then b else t) = l :=
      (map_congr_left fun u hu => if_neg (hothers (hl u hu))).trans (map_id' l)
    rw [growTips, if_pos ⟨t, by simp, ht⟩, map_append, map_cons, if_pos ht, hsame fun u => .inl,
      hsame fun u => .inr, view, map_append, map_cons, ht, h.pushBlock_path hb]
  | copy hnone hc _ hk =>
    obtain ⟨t, ht, rfl⟩ := mem_map.mp hc
    obtain ⟨p, hp, hparent⟩ := locate_eq_some hk
    rw [hgrow fun u hu heq => hnone _ (mem_map_of_mem hu) ((h.endsWith_path (hmem hu)).mpr heq)]
    refine happend ?_
    rw [show (ofBlocks (path blocks t.thisHash)).blocks = path blocks t.thisHash from rfl,
      h.take_path (hmem ht) hp, hparent, h.pushBlock_path hb]
  | new hnone =>
    have hnowhere (t : ShadowBlock) (ht : t ∈ ts) (p : ShadowBlock) (hp : p ∈ path blocks t.thisHash) :
        p.thisHash ≠ b.parentHash := locate_eq_none.mp (hnone _ (mem_map_of_mem ht)) p hp
    rw [hgrow fun t ht => hnowhere t ht t (mem_of_getLast? (h.getLast?_path (hmem ht)))]
    refine happend ?_
    rw [← h.pushBlock_path hb, h.path_eq_nil]
    intro hparent
    obtain ⟨p, hp, heq⟩ := h.parent_mem_pre hblocks hparent
    obtain ⟨t, ht, hpt⟩ := hts.cover p hp
    exact hnowhere t ht p hpt heq

end Step

theorem InWindow.settle_view (h : InWindow blocks) (hts : ∀ t ∈ ts, t ∈ blocks) (hne : ts ≠ []) :
    (view blocks ts).settle =
      .ok (view blocks (ts.insertionSort fun t u => depth blocks u.thisHash ≤ depth blocks t.thisHash)) := by
  have hchains (c : NearTipChain) (hc : c ∈ (view blocks ts).chains) : ∃ t ∈ blocks, c = .ofBlocks (path blocks t.thisHash) := by
    obtain ⟨t, ht, rfl⟩ := mem_map.mp hc
    exact ⟨t, hts t ht, rfl⟩
  have hpath {t : ShadowBlock} (ht : t ∈ blocks) : path blocks t.thisHash ≠ [] := by
    rw [h.path_eq ht]
    simp
  obtain ⟨tip, htip, hsettle⟩ := settle_ok (s := view blocks ts) (by simpa [view] using hne) fun c hc => by
    obtain ⟨t, ht, rfl⟩ := hchains c hc
    exact hpath ht
  obtain ⟨best, hbest, rfl⟩ : ∃ best ∈ blocks, tip = best.thisHeight := by
    obtain ⟨t, rest, rfl⟩ := exists_cons_of_ne_nil hne
    have ht := hts t mem_cons_self
    refine ⟨t, ht, ?_⟩
    simpa [tipHeight, view, ofBlocks, h.getLast?_path ht] using htip.symm
  have htrim : (view blocks ts).chains.filterMap (trim (best.thisHeight - nearTipChainLen)) =
      (view blocks ts).chains := by
    conv_rhs => rw [← filterMap_some (l := (view blocks ts).chains)]
    refine filterMap_congr fun c hc => ?_
    obtain ⟨t, ht, rfl⟩ := hchains c hc
    obtain ⟨b, bs, hbs⟩ := exists_cons_of_ne_nil (hpath ht)
    have hb : b ∈ blocks := h.mem_path ht b (by rw [hbs]; exact mem_cons_self)
    have hwindow := h.window b hb best hbest
    have hkeep : (path blocks t.thisHash).dropWhile (·.thisHeight < best.thisHeight - nearTipChainLen) = b :: bs := by
      rw [hbs, dropWhile_cons_of_neg]
      simp only [decide_eq_true_eq]
      omega
    simp only [trim, ofBlocks, hkeep]
    rw [hbs]
  have hsort : (ts.insertionSort fun t u => depth blocks u.thisHash ≤ depth blocks t.thisHash).map
      (fun t => ofBlocks (path blocks t.thisHash)) =
      (view blocks ts).chains.insertionSort fun c d => d.work ≤ c.work := by
    refine map_insertionSort _ _ _ _ fun t _ u _ => ?_
    rw [work_ofBlocks, work_ofBlocks, length_path, length_path]
  rw [hsettle, htrim, ← hsort]
  rfl

/-! ### Places -/

/-- How many tips there are after `k` blocks. -/
def tipCount (blocks : List ShadowBlock) (k : ℕ) : ℕ := (tips (blocks.take k)).length

/-- The tip in place `i` after `k` blocks. -/
def tipAt (blocks : List ShadowBlock) (k i : ℕ) : ShadowBlock := (tips (blocks.take k))[i]?.getD default

def tipDepth (blocks : List ShadowBlock) (k i : ℕ) : ℕ := depth blocks (tipAt blocks k i).thisHash

/-- Of two lines that end at the same depth, the one that started later was never ahead. -/
def NeverOvertaken (blocks : List ShadowBlock) : Prop :=
  Ranking.NeverAhead (tipCount blocks) (tipDepth blocks) blocks.length

instance (blocks : List ShadowBlock) : Decidable (NeverOvertaken blocks) :=
  inferInstanceAs (Decidable (Ranking.NeverAhead _ _ _))

theorem tipAt_eq (hi : i < (tips (blocks.take k)).length) : tipAt blocks k i = (tips (blocks.take k))[i] := by
  rw [tipAt, getElem?_eq_getElem hi, Option.getD_some]

theorem tips_succ (hk : k < blocks.length) : tips (blocks.take (k + 1)) = growTips (tips (blocks.take k)) blocks[k] := by
  rw [take_succ_eq_append_getElem hk, tips, foldl_append]
  rfl

theorem eq_take_append (hk : k < blocks.length) : blocks = blocks.take k ++ blocks[k] :: blocks.drop (k + 1) := by
  rw [← drop_eq_getElem_cons hk, take_append_drop]

theorem InWindow.covers_tips (h : InWindow blocks) (hk : k ≤ blocks.length) :
    Covers blocks (blocks.take k) (tips (blocks.take k)) := by
  induction k with
  | zero => exact ⟨by simp [tips], nodup_nil, by simp⟩
  | succ k ih =>
    rw [tips_succ hk, take_succ_eq_append_getElem hk]
    exact h.covers_growTips (eq_take_append hk) (ih (by omega))

theorem length_growTips_ge (ts : List ShadowBlock) (b : ShadowBlock) : ts.length ≤ (growTips ts b).length := by
  rw [growTips]
  split_ifs <;> simp

theorem tipCount_mono (blocks : List ShadowBlock) : Monotone (tipCount blocks) := by
  refine monotone_nat_of_le_succ fun k => ?_
  by_cases hk : k < blocks.length
  · rw [tipCount, tipCount, tips_succ hk]
    exact length_growTips_ge _ _
  · rw [tipCount, tipCount, take_of_length_le (by omega), take_of_length_le (by omega)]

theorem map_range_getD {α : Type} [Inhabited α] (l : List α) : ((List.range l.length).map fun i => l[i]?.getD default) = l := by
  apply ext_getElem
  · simp
  · intro i h₁ h₂
    simp [h₂]

theorem perm_tips {places : List ℕ} (hperm : places.Perm (List.range (tipCount blocks k))) :
    (places.map (tipAt blocks k)).Perm (tips (blocks.take k)) := by
  have := hperm.map (tipAt blocks k)
  rwa [show (List.range (tipCount blocks k)).map (tipAt blocks k) = _ from map_range_getD (tips (blocks.take k))] at this

theorem growTips_places (hperm : places.Perm (List.range (tipCount blocks k))) (hk : k < blocks.length) :
    growTips (places.map (tipAt blocks k)) blocks[k] =
      (places ++ List.range' (tipCount blocks k) (tipCount blocks (k + 1) - tipCount blocks k)).map (tipAt blocks (k + 1)) := by
  have hsucc := tips_succ hk
  have hmem {t : ShadowBlock} : t ∈ places.map (tipAt blocks k) ↔ t ∈ tips (blocks.take k) := (perm_tips hperm).mem_iff
  have hlt {i : ℕ} (hi : i ∈ places) : i < (tips (blocks.take k)).length := mem_range.mp (hperm.mem_iff.mp hi)
  by_cases hext : ∃ t ∈ tips (blocks.take k), t.thisHash = blocks[k].parentHash
  · rw [growTips, if_pos hext] at hsucc
    rw [growTips, if_pos (hext.imp fun t ht => ⟨hmem.mpr ht.1, ht.2⟩), map_map, tipCount, tipCount, hsucc,
      length_map, Nat.sub_self, List.range'_zero, append_nil]
    refine map_congr_left fun i hi => ?_
    simp [tipAt, hsucc, hlt hi]
  · rw [growTips, if_neg hext] at hsucc
    rw [growTips, if_neg fun hex => hext (hex.imp fun t ht => ⟨hmem.mp ht.1, ht.2⟩), tipCount, tipCount, hsucc,
      length_append, length_singleton, Nat.add_sub_cancel_left, List.range'_one, map_append]
    congr 1
    · refine map_congr_left fun i hi => ?_
      simp [tipAt, hsucc, getElem?_append_left (hlt hi)]
    · simp [tipAt, hsucc]

theorem range'_tipCount (hkj : k ≤ j) :
    List.range' (tipCount blocks k) (tipCount blocks j - tipCount blocks k) ++
      List.range' (tipCount blocks j) (tipCount blocks (j + 1) - tipCount blocks j) =
        List.range' (tipCount blocks k) (tipCount blocks (j + 1) - tipCount blocks k) := by
  have h₁ := tipCount_mono blocks hkj
  have h₂ := tipCount_mono blocks (show j ≤ j + 1 by omega)
  have happend := @List.range'_append_1 (tipCount blocks k) (tipCount blocks j - tipCount blocks k)
    (tipCount blocks (j + 1) - tipCount blocks j)
  rw [Nat.add_sub_cancel' h₁] at happend
  rw [happend]
  congr 1
  omega

theorem InWindow.foldl_view (h : InWindow blocks) (hperm : places.Perm (List.range (tipCount blocks k)))
    (hsize : k + size ≤ blocks.length) :
    ((blocks.drop k).take size).foldl NearTipChains.pushOne (view blocks (places.map (tipAt blocks k))) =
      view blocks ((places ++ List.range' (tipCount blocks k) (tipCount blocks (k + size) - tipCount blocks k)).map
        (tipAt blocks (k + size))) := by
  induction size with
  | zero => simp
  | succ size ih =>
    have hlt : k + size < blocks.length := by omega
    have hnext : (blocks.drop k).take (size + 1) = (blocks.drop k).take size ++ [blocks[k + size]] := by
      rw [take_succ_eq_append_getElem (by rw [length_drop]; omega), getElem_drop]
    have hperm' := perm_append_range' (tipCount_mono blocks) hperm size
    have hcovers := (h.covers_tips (k := k + size) (by omega)).perm (perm_tips hperm')
    rw [hnext, foldl_append, ih (by omega), foldl_cons, foldl_nil,
      h.pushOne_view (eq_take_append hlt) hcovers, growTips_places hperm' hlt, append_assoc,
      range'_tipCount (by omega)]
    rfl

theorem InWindow.pushBlocks_view (h : InWindow blocks) (hperm : places.Perm (List.range (tipCount blocks k)))
    (hsize : k + (size + 1) ≤ blocks.length) :
    (view blocks (places.map (tipAt blocks k))).pushBlocks ((blocks.drop k).take (size + 1)) =
      .ok (view blocks ((Ranking.rank (tipDepth blocks (k + (size + 1))) (places ++ List.range' (tipCount blocks k)
        (tipCount blocks (k + (size + 1)) - tipCount blocks k))).map (tipAt blocks (k + (size + 1))))) := by
  have hne : (blocks.drop k).take (size + 1) ≠ [] := by
    rw [ne_eq, take_eq_nil_iff, drop_eq_nil_iff]
    omega
  rw [pushBlocks, if_neg hne, h.foldl_view hperm hsize]
  generalize hplaces : places ++ List.range' (tipCount blocks k) (tipCount blocks (k + (size + 1)) - tipCount blocks k) = places'
  have hperm' := perm_append_range' (tipCount_mono blocks) hperm (size + 1)
  rw [hplaces] at hperm'
  have hcovers := (h.covers_tips hsize).perm (perm_tips hperm')
  rw [h.settle_view fun t ht => mem_of_mem_take (hcovers.mem t ht)]
  · refine congrArg (fun ts => Except.ok (view blocks ts)) (Eq.symm ?_)
    exact map_insertionSort _ _ _ _ fun _ _ _ _ => Iff.rfl
  · intro hnil
    have hfirst : blocks[k] ∈ blocks.take (k + (size + 1)) := mem_take_iff_getElem.mpr ⟨k, by omega, rfl⟩
    obtain ⟨t, ht, -⟩ := hcovers.cover _ hfirst
    rw [hnil] at ht
    cases ht

theorem InWindow.run_view (h : InWindow blocks) {groups : List (List ShadowBlock)}
    (hperm : places.Perm (List.range (tipCount blocks k))) (hk : k ≤ blocks.length)
    (hgroups : groups.flatten = blocks.drop k) :
    groups.foldlM NearTipChains.pushBlocks (view blocks (places.map (tipAt blocks k))) =
      .ok (view blocks ((Ranking.regroup (tipCount blocks) (tipDepth blocks) k places (groups.map List.length)).map
        (tipAt blocks blocks.length))) := by
  induction groups generalizing k places with
  | nil =>
    have hlen := drop_eq_nil_iff.mp hgroups.symm
    obtain rfl : k = blocks.length := by omega
    rfl
  | cons g gs ih =>
    have hg : g = (blocks.drop k).take g.length := by rw [← hgroups, flatten_cons, take_left]
    have hgs : gs.flatten = blocks.drop (k + g.length) := by
      rw [← drop_drop, ← hgroups, flatten_cons, drop_left]
    have hlen : k + g.length ≤ blocks.length := by
      have := congrArg List.length hgroups
      rw [flatten_cons, length_append, length_drop] at this
      omega
    cases hsize : g.length with
    | zero =>
      obtain rfl := eq_nil_of_length_eq_zero hsize
      exact ih hperm hk hgs
    | succ size =>
      rw [hsize] at hg hgs hlen
      rw [foldlM_cons_eq_ok, map_cons, hsize]
      exact ⟨_, by rw [hg]; exact h.pushBlocks_view hperm hlen,
        ih ((rank_perm _ _).trans (perm_append_range' (tipCount_mono blocks) hperm _)) hlen hgs⟩

/-! ### When the grouping does not matter -/

theorem eq_of_map_eq {α β : Type} {f : α → β} {l m : List α} (hf : ∀ a ∈ l, ∀ b ∈ m, f a = f b → a = b)
    (h : l.map f = m.map f) : l = m := by
  induction l generalizing m with
  | nil => exact (map_eq_nil_iff.mp h.symm).symm
  | cons a l ih =>
    obtain ⟨b, m', rfl, hb, hm'⟩ := map_eq_cons_iff.mp h.symm
    rw [hf a mem_cons_self b mem_cons_self hb.symm]
    exact congrArg (b :: ·) (ih (fun x hx y hy => hf x (mem_cons_of_mem _ hx) y (mem_cons_of_mem _ hy)) hm'.symm)

theorem InWindow.places_inj (h : InWindow blocks) {places places' : List ℕ}
    (hplaces : places.Perm (List.range (tipCount blocks blocks.length)))
    (hplaces' : places'.Perm (List.range (tipCount blocks blocks.length)))
    (heq : view blocks (places.map (tipAt blocks blocks.length)) = view blocks (places'.map (tipAt blocks blocks.length))) :
    places = places' := by
  have hcovers := h.covers_tips (k := blocks.length) le_rfl
  have hlt {l : List ℕ} (hl : l.Perm (List.range (tipCount blocks blocks.length))) {i : ℕ} (hi : i ∈ l) :
      i < (tips (blocks.take blocks.length)).length := mem_range.mp (hl.mem_iff.mp hi)
  have hchains := congrArg NearTipChains.chains heq
  rw [view, view, map_map, map_map] at hchains
  refine eq_of_map_eq (fun i hi j hj hij => ?_) hchains
  have hi := hlt hplaces hi
  have hj := hlt hplaces' hj
  have hpaths : path blocks (tipAt blocks blocks.length i).thisHash = path blocks (tipAt blocks blocks.length j).thisHash :=
    congrArg NearTipChain.blocks hij
  have hmem {t : ShadowBlock} (ht : t ∈ tips (blocks.take blocks.length)) : t ∈ blocks := mem_of_mem_take (hcovers.mem t ht)
  have hlast := h.getLast?_path (hmem (getElem_mem hi))
  rw [tipAt_eq hi, tipAt_eq hj] at hpaths
  rw [hpaths, h.getLast?_path (hmem (getElem_mem hj))] at hlast
  exact (hcovers.nodup.getElem_inj_iff).mp (Option.some.inj hlast).symm

/-- Two blocks above a common parent, then one above the second and one above the first. -/
def twoForks (first second : ℕ) : List ShadowBlock :=
  [⟨hashOf 1, hashOf 0, 1⟩, ⟨hashOf 2, hashOf 1, 2⟩, ⟨hashOf 3, hashOf 1, 2⟩, ⟨hashOf first, hashOf (first - 2), 3⟩,
    ⟨hashOf second, hashOf (second - 2), 3⟩]

end Crosslink.NewNet

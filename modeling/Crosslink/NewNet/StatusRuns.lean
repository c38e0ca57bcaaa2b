import Crosslink.NewNet.StatusTree

/-!
# What the records of a status stand for

Each record stands for a segment of a chain: the one that starts on the parent it names and has the hashes from where
the record before it ends up to where it ends itself.
-/

namespace Crosslink.NewNet

open Codec Fallible Bft Runs List

variable {hashes more : List BlockHash} {hash : BlockHash} {blocks seg : List ShadowBlock} {run : StatusRun}
  {runs : List StatusRun} {segs : List (List ShadowBlock)} {c c' : ℕ}

/-- The number of hashes that come before those of the segment: its parent, if that is new. -/
def StatusRun.lead (run : StatusRun) (c : ℕ) : ℕ := if run.branch.parentHashIdx = c then 1 else 0

/-- The record describes a segment, with the hashes before place `c` taken. -/
structure Describes (hashes : List BlockHash) (c : ℕ) (run : StatusRun) (seg : List ShadowBlock) : Prop where
  proper : ProperSegment seg
  onParent : ∀ b ∈ seg.head?, hashes[run.branch.parentHashIdx]? = some b.parentHash ∧ run.height = b.thisHeight
  earlier : run.branch.parentHashIdx ≤ c
  taken : (hashes.drop (c + run.lead c)).take seg.length = seg.map ShadowBlock.thisHash
  ends : run.branch.branchEndIdx = c + run.lead c + seg.length
  fits : run.branch.branchEndIdx < 2 ^ 16

/-- The records describe the segments in turn, from place `c` up to `c'`. -/
inductive Described (hashes : List BlockHash) : ℕ → List StatusRun → List (List ShadowBlock) → ℕ → Prop
  | nil (c : ℕ) : Described hashes c [] [] c
  | cons {c c' : ℕ} {run : StatusRun} {seg : List ShadowBlock} {runs : List StatusRun} {segs : List (List ShadowBlock)}
      (head : Describes hashes c run seg) (tail : Described hashes run.branch.branchEndIdx runs segs c') :
      Described hashes c (run :: runs) (seg :: segs) c'

theorem Describes.end_le (h : Describes hashes c run seg) : run.branch.branchEndIdx ≤ hashes.length := by
  have hlength := congrArg List.length h.taken
  have hpos := length_pos_iff.mpr h.proper.ne_nil
  rw [length_take, length_drop, length_map] at hlength
  have := h.ends
  omega

theorem Describes.lt_end (h : Describes hashes c run seg) : c < run.branch.branchEndIdx := by
  have hpos := length_pos_iff.mpr h.proper.ne_nil
  have := h.ends
  omega

theorem Describes.append (h : Describes hashes c run seg) (more : List BlockHash) : Describes (hashes ++ more) c run seg where
  proper := h.proper
  onParent b hb := by
    obtain ⟨hparent, hheight⟩ := h.onParent b hb
    exact ⟨List.getElem?_append_left (List.getElem?_eq_some_iff.mp hparent).1 ▸ hparent, hheight⟩
  earlier := h.earlier
  taken := by
    have hend := h.end_le
    have := h.ends
    rw [List.drop_append_of_le_length (by omega), List.take_append_of_le_length (by rw [List.length_drop]; omega), h.taken]
  ends := h.ends
  fits := h.fits

theorem Described.le (h : Described hashes c runs segs c') : c ≤ c' := by
  induction h with
  | nil => exact le_rfl
  | cons head _ ih => exact head.lt_end.le.trans ih

theorem Described.end_le (h : Described hashes c runs segs c') (hc : c ≤ hashes.length) : c' ≤ hashes.length := by
  induction h with
  | nil => exact hc
  | cons head _ ih => exact ih head.end_le

theorem Described.length_eq (h : Described hashes c runs segs c') : runs.length = segs.length := by
  induction h with
  | nil => rfl
  | cons _ _ ih => exact congrArg (· + 1) ih

theorem Described.append (h : Described hashes c runs segs c') (more : List BlockHash) :
    Described (hashes ++ more) c runs segs c' := by
  induction h with
  | nil c => exact .nil c
  | cons head _ ih => exact .cons (head.append more) ih

theorem Described.concat (h : Described hashes c runs segs c') (hlast : Describes hashes c' run seg) :
    Described hashes c (runs ++ [run]) (segs ++ [seg]) run.branch.branchEndIdx := by
  induction h with
  | nil c => exact .cons hlast (.nil _)
  | cons head _ ih => exact .cons head (ih hlast)

/-! ### Collecting -/

theorem rposition_eq_some (h : rposition hashes hash = some i) : hashes[i]? = some hash := by
  obtain ⟨j, hj, rfl⟩ := Option.map_eq_some_iff.mp h
  obtain ⟨hlt, heq, -⟩ := findIdx?_eq_some_iff_getElem.mp hj
  rw [length_reverse] at hlt
  rw [getElem_reverse, beq_iff_eq] at heq
  exact heq ▸ getElem?_eq_getElem (by omega)

theorem findParentIdx_eq_some (h : findParentIdx hashes blocks = some (parentIdx, baseIdx)) :
    ∃ b, blocks[baseIdx]? = some b ∧ hashes[parentIdx]? = some b.parentHash := by
  obtain ⟨chainIdx, -, hfound⟩ := exists_of_findSome?_eq_some h
  obtain ⟨b, hb, hfound⟩ := Option.bind_eq_some_iff.mp hfound
  obtain ⟨i, hi, heq⟩ := Option.map_eq_some_iff.mp hfound
  obtain ⟨rfl, rfl⟩ := Prod.mk.inj heq
  exact ⟨b, hb, rposition_eq_some hi⟩

theorem toU16_ok (h : n < 2 ^ 16) : toU16 n = .ok n := if_pos h

theorem ProperSegment.drop (h : ProperSegment blocks) (hi : i < blocks.length) : ProperSegment (blocks.drop i) where
  ne_nil := drop_eq_nil_iff.not.mpr (by omega)
  segment := List.IsChain.drop h.segment i
  bounded b hb := h.bounded b (mem_of_mem_drop hb)

theorem describes_added (lead : List BlockHash) (h : ProperSegment blocks) (hbase : blocks[baseIdx]? = some base)
    (hparent : (hashes ++ lead)[parentIdx]? = some base.parentHash)
    (hlead : lead.length = if parentIdx = hashes.length then 1 else 0)
    (hfits : hashes.length + blocks.length + 1 < 2 ^ 16) :
    let added := hashes ++ (lead ++ (blocks.drop baseIdx).map ShadowBlock.thisHash)
    toU16 parentIdx = .ok parentIdx ∧ toU16 added.length = .ok added.length ∧
      Describes added hashes.length ⟨⟨parentIdx, added.length⟩, base.thisHeight⟩ (blocks.drop baseIdx) := by
  have hlt := (List.getElem?_eq_some_iff.mp hbase).1
  have hparentLt := (List.getElem?_eq_some_iff.mp hparent).1
  rw [List.length_append, hlead] at hparentLt
  have hearlier : parentIdx ≤ hashes.length := by
    split_ifs at hparentLt <;> omega
  have hle : lead.length ≤ 1 := by
    rw [hlead]
    split_ifs <;> omega
  intro added
  have hlength : added.length = hashes.length + lead.length + (blocks.length - baseIdx) := by
    simp only [added, length_append, length_map, length_drop]
    omega
  refine ⟨toU16_ok (by omega), toU16_ok (by omega), h.drop hlt, fun b hb => ?_, hearlier, ?_, ?_, ?_⟩
  · obtain rfl : base = b := by
      rw [head?_drop, hbase] at hb
      exact Option.some.inj hb
    refine ⟨?_, rfl⟩
    rw [show added = hashes ++ lead ++ (blocks.drop baseIdx).map ShadowBlock.thisHash from (List.append_assoc ..).symm,
      List.getElem?_append_left (List.getElem?_eq_some_iff.mp hparent).1, hparent]
  · rw [StatusRun.lead, ← hlead, show added = hashes ++ lead ++ (blocks.drop baseIdx).map ShadowBlock.thisHash from
      (List.append_assoc ..).symm, ← List.length_append, List.drop_left]
    exact List.take_of_length_le (by rw [List.length_map])
  · rw [StatusRun.lead, ← hlead, List.length_drop]
    exact hlength
  · change added.length < 2 ^ 16
    omega

theorem addRun_eq (hashes : List BlockHash) (runs : List StatusRun) (hproper : ProperSegment chain.blocks)
    (hfirst : chain.blocks.head? = some first) (hfits : hashes.length + chain.blocks.length + 1 < 2 ^ 16) :
    ∃ lead baseIdx run, addRun (hashes, runs) chain =
        .ok (hashes ++ (lead ++ (chain.blocks.drop baseIdx).map ShadowBlock.thisHash), runs ++ [run]) ∧
      Describes (hashes ++ (lead ++ (chain.blocks.drop baseIdx).map ShadowBlock.thisHash)) hashes.length run
        (chain.blocks.drop baseIdx) ∧
      run.branch.branchEndIdx = (hashes ++ (lead ++ (chain.blocks.drop baseIdx).map ShadowBlock.thisHash)).length ∧
      (lead = [first.parentHash] ∧ baseIdx = 0 ∨ lead = [] ∧ hashes ≠ [] ∧ ∃ b, chain.blocks[baseIdx]? = some b ∧
        b.parentHash ∈ hashes) := by
  have hget : chain.blocks[0]? = some first := head?_eq_getElem? ▸ hfirst
  simp only [addRun, ensure_ok (length_pos_iff.mpr hproper.ne_nil), getIdx_ok hget, ok_bind]
  cases hfound : findParentIdx hashes chain.blocks with
  | none =>
    obtain ⟨hparentIdx, hend, hdescribes⟩ := describes_added [first.parentHash] hproper hget
      (show (hashes ++ [first.parentHash])[hashes.length]? = _ by simp) (by simp) hfits
    refine ⟨[first.parentHash], 0, _, ?_, hdescribes, rfl, .inl ⟨rfl, rfl⟩⟩
    simp only [getIdx_ok hget, ok_bind, hparentIdx, append_assoc, hend]
    rfl
  | some found =>
    obtain ⟨parentIdx, baseIdx⟩ := found
    obtain ⟨base, hbase, hparent⟩ := findParentIdx_eq_some hfound
    have hlt := (List.getElem?_eq_some_iff.mp hparent).1
    obtain ⟨hparentIdx, hend, hdescribes⟩ := describes_added [] hproper hbase (by rwa [List.append_nil])
      (by rw [if_neg (by omega)]; rfl) hfits
    refine ⟨[], baseIdx, _, ?_, hdescribes, rfl, .inr ⟨rfl, List.ne_nil_of_length_pos (by omega), base, hbase,
      List.mem_of_getElem? hparent⟩⟩
    rw [List.nil_append] at hend
    simp only [getIdx_ok hbase, ok_bind, hparentIdx, hend, nil_append]
    rfl

theorem addRun_extends (h : addRun (hashes, runs) chain = .ok collected) :
    ∃ more run, collected = (hashes ++ more, runs ++ [run]) := by
  obtain ⟨-, -, h⟩ := bind_eq_ok.mp h
  obtain ⟨first, -, h⟩ := bind_eq_ok.mp h
  obtain ⟨base, -, h⟩ := bind_eq_ok.mp h
  obtain ⟨parentHashIdx, -, h⟩ := bind_eq_ok.mp h
  obtain ⟨branchEndIdx, -, h⟩ := bind_eq_ok.mp h
  obtain rfl := pure_eq_ok.mp h
  cases findParentIdx hashes chain.blocks with
  | none => exact ⟨_, _, Prod.ext (append_assoc ..) rfl⟩
  | some found => exact ⟨_, _, rfl⟩

theorem foldlM_addRun_extends {chains : List NearTipChain} (h : chains.foldlM addRun (hashes, runs) = .ok collected) :
    ∃ more more', collected = (hashes ++ more, runs ++ more') := by
  induction chains generalizing hashes runs with
  | nil => exact ⟨[], [], by simpa using (foldlM_nil_eq_ok.mp h).symm⟩
  | cons chain chains ih =>
    obtain ⟨_, hadd, h⟩ := foldlM_cons_eq_ok.mp h
    obtain ⟨more, run, rfl⟩ := addRun_extends hadd
    obtain ⟨more', more'', rfl⟩ := ih h
    exact ⟨more ++ more', [run] ++ more'', by simp⟩

/-- No chain starts right above a block that one of the chains holds. -/
def NoGap (chains : List NearTipChain) : Prop :=
  ∀ c ∈ chains, ∀ first ∈ c.blocks.head?, ∀ d ∈ chains, ∀ b ∈ d.blocks, b.thisHash ≠ first.parentHash

/-- The hashes and the records of some chains. -/
structure Collected (chains : List NearTipChain) (hashes : List BlockHash) (runs : List StatusRun)
    (segs : List (List ShadowBlock)) : Prop where
  described : Described hashes 0 runs segs hashes.length
  parts : List.Forall₂ (fun seg c => seg <:+ c.blocks) segs chains
  first : segs.head? = chains.head?.map NearTipChain.blocks
  short : hashes.length ≤ (chains.map fun c => c.blocks.length + 1).sum
  origin : ∀ hash ∈ hashes, (∃ seg ∈ segs, ∃ b ∈ seg, b.thisHash = hash) ∨
    ∃ c ∈ chains, ∃ first ∈ c.blocks.head?, hash = first.parentHash

theorem Collected.add {chains : List NearTipChain} (h : Collected chains hashes runs segs)
    (hproper : ProperSegment chain.blocks) (hfits : hashes.length + chain.blocks.length + 1 < 2 ^ 16) :
    ∃ hashes' run baseIdx, addRun (hashes, runs) chain = .ok (hashes', runs ++ [run]) ∧
      Collected (chains ++ [chain]) hashes' (runs ++ [run]) (segs ++ [chain.blocks.drop baseIdx]) ∧
      (baseIdx = 0 ∨ ∃ b, chain.blocks[baseIdx]? = some b ∧ b.parentHash ∈ hashes) := by
  obtain ⟨first, hfirst⟩ := Option.isSome_iff_exists.mp (isSome_head?.mpr hproper.ne_nil)
  obtain ⟨lead, baseIdx, run, heq, hdescribes, hend, hcases⟩ := addRun_eq hashes runs hproper hfirst hfits
  have hlead : lead.length ≤ 1 := by
    rcases hcases with ⟨rfl, -⟩ | ⟨rfl, -⟩ <;> simp
  refine ⟨_, run, baseIdx, heq, ⟨?_, ?_, ?_, ?_, fun hash hhash => ?_⟩, ?_⟩
  · rw [← hend]
    exact (h.described.append _).concat hdescribes
  · exact rel_append h.parts (.cons (drop_suffix _ _) .nil)
  · have hparts := h.parts
    have hfirstSeg := h.first
    cases segs with
    | cons seg segs =>
      cases hparts
      exact hfirstSeg
    | nil =>
      cases hparts
      have hnil : hashes = [] := by
        have hdescribed := h.described
        generalize hn : hashes.length = n at hdescribed
        cases hdescribed
        exact length_eq_zero_iff.mp hn
      rcases hcases with ⟨-, rfl⟩ | ⟨-, hne, -⟩
      · rfl
      · exact absurd hnil hne
  · have := h.short
    simp only [length_append, length_map, length_drop, map_append, sum_append, map_cons,
      map_nil, sum_singleton]
    omega
  · simp only [mem_append, mem_map] at hhash
    rcases hhash with hhash | hhash | ⟨b, hb, rfl⟩
    · rcases h.origin hash hhash with ⟨seg, hseg, hb⟩ | ⟨c, hc, hparent⟩
      · exact .inl ⟨seg, mem_append_left _ hseg, hb⟩
      · exact .inr ⟨c, mem_append_left _ hc, hparent⟩
    · rcases hcases with ⟨rfl, -⟩ | ⟨rfl, -⟩
      · exact .inr ⟨chain, by simp, first, hfirst, mem_singleton.mp hhash⟩
      · exact nomatch hhash
    · exact .inl ⟨_, by simp, b, hb, rfl⟩
  · exact hcases.imp And.right fun h => h.2.2

/-! ### Coverage -/

/-- Each block has the parent of the block its hash stands for, and a height that its parent decides. -/
def Rooted (parentOf : BlockHash → BlockHash) (childHeight : BlockHash → ℕ) (blocks : List ShadowBlock) : Prop :=
  ∀ b ∈ blocks, b.parentHash = parentOf b.thisHash ∧ b.thisHeight = childHeight b.parentHash ∧
    childHeight b.thisHash = b.thisHeight + 1

variable {parentOf : BlockHash → BlockHash} {childHeight : BlockHash → ℕ} {chains : List NearTipChain}

theorem Rooted.eq_of_thisHash (has : Rooted parentOf childHeight as) (hbs : Rooted parentOf childHeight bs)
    (hx : x ∈ as) (hy : y ∈ bs) (heq : x.thisHash = y.thisHash) :
    x = y := by
  obtain ⟨hparent, hheight, -⟩ := has x hx
  obtain ⟨hparent', hheight', -⟩ := hbs y hy
  cases x
  cases y
  simp_all

theorem Segment.mem_below (ha : Segment as) (hb : Segment bs) (hrootA : Rooted parentOf childHeight as)
    (hrootB : Rooted parentOf childHeight bs) (hgap : ∀ first ∈ bs.head?, ∀ a ∈ as, a.thisHash ≠ first.parentHash)
    (hk : k < as.length) (hmem : as[k] ∈ bs) (hj : j ≤ k) : as[j] ∈ bs := by
  induction k with
  | zero => simpa [Nat.le_zero.mp hj] using hmem
  | succ k ih =>
    rcases Nat.lt_or_eq_of_le hj with hj | rfl
    swap
    · exact hmem
    refine ih (by omega) ?_ (by omega)
    obtain ⟨i, hi, heq⟩ := mem_iff_getElem.mp hmem
    have hparent := ha.parentHash_getElem hk
    cases i with
    | zero =>
      refine absurd ?_ (hgap bs[0] (by rw [head?_eq_getElem?, getElem?_eq_getElem hi]; rfl) as[k] (getElem_mem _))
      rw [heq, hparent]
    | succ i =>
      have hparentB := hb.parentHash_getElem hi
      rw [heq, hparent] at hparentB
      exact hrootA.eq_of_thisHash hrootB (getElem_mem _) (getElem_mem _) hparentB ▸ getElem_mem _

def Covered (chains : List NearTipChain) (segs : List (List ShadowBlock)) : Prop :=
  ∀ c ∈ chains, ∀ b ∈ c.blocks, ∃ seg ∈ segs, b ∈ seg

theorem Collected.covered_add (h : Collected chains hashes runs segs) (hcovered : Covered chains segs)
    (hproper : ∀ c ∈ chains ++ [chain], ProperSegment c.blocks)
    (hrooted : ∀ c ∈ chains ++ [chain], Rooted parentOf childHeight c.blocks) (hgap : NoGap (chains ++ [chain]))
    (hbase : baseIdx = 0 ∨ ∃ b, chain.blocks[baseIdx]? = some b ∧ b.parentHash ∈ hashes) :
    Covered (chains ++ [chain]) (segs ++ [chain.blocks.drop baseIdx]) := by
  have hchain : chain ∈ chains ++ [chain] := by simp
  intro c hc b hb
  rcases mem_append.mp hc with hc | hc
  · obtain ⟨seg, hseg, hmem⟩ := hcovered c hc b hb
    exact ⟨seg, mem_append_left _ hseg, hmem⟩
  obtain rfl := mem_singleton.mp hc
  obtain ⟨j, hj, rfl⟩ := mem_iff_getElem.mp hb
  rcases Nat.lt_or_ge j baseIdx with hlt | hge
  swap
  · exact ⟨_, mem_append_right _ (mem_singleton.mpr rfl), mem_drop_iff_getElem.mpr
      ⟨j - baseIdx, by omega, by simp only [Nat.add_sub_cancel' hge]⟩⟩
  -- the block below the first one that is added is in an earlier chain, and so are those below
  obtain ⟨base, hget, hparent⟩ := hbase.resolve_left (by omega)
  obtain ⟨hbaseLt, rfl⟩ := List.getElem?_eq_some_iff.mp hget
  obtain ⟨k, rfl⟩ : ∃ k, baseIdx = k + 1 := Nat.exists_eq_add_one.mpr (by omega)
  have hseg := (hproper c hchain).segment
  rw [hseg.parentHash_getElem hbaseLt] at hparent
  rcases h.origin _ hparent with ⟨seg, hsegMem, x, hx, hhash⟩ | ⟨d, hd, first, hfirst, hhash⟩
  · obtain ⟨i, hi, rfl⟩ := List.mem_iff_getElem.mp hsegMem
    have hi' : i < chains.length := h.parts.length_eq ▸ hi
    have hsuffix := h.parts.get hi hi'
    have hd : chains[i] ∈ chains ++ [c] := mem_append_left _ (getElem_mem hi')
    have hxd : x ∈ chains[i].blocks := hsuffix.subset hx
    obtain rfl := (hrooted _ hd).eq_of_thisHash (hrooted c hchain) hxd (getElem_mem _) hhash
    have hbelow := hseg.mem_below (hproper _ hd).segment (hrooted c hchain) (hrooted _ hd)
      (fun first hfirst a ha => hgap _ hd first hfirst c hchain a ha) (by omega) hxd (show j ≤ k by omega)
    obtain ⟨seg, hseg, hmem⟩ := hcovered _ (getElem_mem hi') _ hbelow
    exact ⟨seg, mem_append_left _ hseg, hmem⟩
  · exact absurd hhash (hgap d (mem_append_left _ hd) first hfirst c hchain _ (getElem_mem _))

theorem exists_collected (parentOf : BlockHash → BlockHash) (childHeight : BlockHash → ℕ)
    (hproper : ∀ c ∈ chains, ProperSegment c.blocks)
    (hfits : (chains.map fun c => c.blocks.length + 1).sum < 2 ^ 16) : ∃ hashes runs segs,
      chains.foldlM addRun ([], []) = .ok (hashes, runs) ∧ Collected chains hashes runs segs ∧
        ((∀ c ∈ chains, Rooted parentOf childHeight c.blocks) → NoGap chains → Covered chains segs) := by
  induction chains using List.reverseRecOn with
  | nil => exact ⟨[], [], [], rfl, ⟨.nil 0, .nil, rfl, le_rfl, fun _ h => nomatch h⟩, fun _ _ _ h => nomatch h⟩
  | append_singleton chains chain ih =>
    rw [map_append, sum_append, map_singleton, sum_singleton] at hfits
    obtain ⟨hashes, runs, segs, hfold, hcollected, hcovered⟩ := ih (fun c hc => hproper c (mem_append_left _ hc)) (by omega)
    have hshort := hcollected.short
    obtain ⟨hashes', run, baseIdx, hadd, hcollected', hbase⟩ := hcollected.add (hproper chain (by simp)) (by omega)
    refine ⟨hashes', _, _, ?_, hcollected', fun hrooted hgap => ?_⟩
    · exact foldlM_append_eq_ok.mpr ⟨_, hfold, foldlM_cons_eq_ok.mpr ⟨_, hadd, foldlM_nil_eq_ok.mpr rfl⟩⟩
    · refine hcollected.covered_add (hcovered (fun c hc => hrooted c (mem_append_left _ hc)) ?_) hproper hrooted hgap hbase
      exact fun c hc first hfirst d hd => hgap c (mem_append_left _ hc) first hfirst d (mem_append_left _ hd)

end Crosslink.NewNet

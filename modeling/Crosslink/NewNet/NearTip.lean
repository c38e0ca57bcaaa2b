import Crosslink.Bft.Block
import Crosslink.Lib.Fallible

/-!
# Chains near the tip

The sync loop keeps its own picture of the chains near the tip: for each chain the last hundred blocks and a count of
the work. A block goes on the end of a chain that its parent ends, else on a copy of a chain up to its parent, else on a
chain of its own. After each group of blocks the chains lose what lies more than a hundred below the tip of the first
chain, and are sorted by their work, the greatest first.
-/

namespace Crosslink.NewNet

open Codec Fallible Bft List

structure ShadowBlock where
  thisHash : BlockHash
  parentHash : BlockHash
  thisHeight : ℕ
  deriving DecidableEq

def ShadowBlock.work (_ : ShadowBlock) : ℕ := 1

def nearTipChainLen : ℕ := 100

@[ext]
structure NearTipChain where
  work : ℕ
  blocks : List ShadowBlock
  deriving DecidableEq

namespace NearTipChain

/-- The oldest block makes room for the new one, but still counts in the work. -/
def pushBlock (c : NearTipChain) (b : ShadowBlock) : NearTipChain where
  work := c.work + b.work
  blocks := (if c.blocks.length = nearTipChainLen then c.blocks.tail else c.blocks) ++ [b]

def ofBlocks (blocks : List ShadowBlock) : NearTipChain := ⟨(blocks.map ShadowBlock.work).sum, blocks⟩

def locate (c : NearTipChain) (hash : BlockHash) : Option ℕ := c.blocks.findIdx? (·.thisHash = hash)

/-- Removes the blocks at the front that are below `bound`, and the chain with the last of them. -/
def trim (bound : ℕ) (c : NearTipChain) : Option NearTipChain :=
  match c.blocks.dropWhile (·.thisHeight < bound) with
  | [] => none
  | b :: bs => some { c with blocks := b :: bs }

end NearTipChain

@[ext]
structure NearTipChains where
  finalizedHeight : ℕ
  chains : List NearTipChain
  deriving DecidableEq

/-- The chain and the position in it of the block with a given hash: the first chain that ends with it, or else the
last chain that holds it. -/
def findParent (hash : BlockHash) : ℕ → Option (ℕ × ℕ) → List NearTipChain → Option (ℕ × ℕ)
  | _, found, [] => found
  | chainIdx, found, c :: cs =>
    match c.locate hash with
    | some parentIdx =>
      if parentIdx = c.blocks.length - 1 then some (chainIdx, parentIdx)
      else findParent hash (chainIdx + 1) (some (chainIdx, parentIdx)) cs
    | none => findParent hash (chainIdx + 1) found cs

namespace NearTipChains

def empty : NearTipChains := ⟨0, []⟩

def tipHeight (s : NearTipChains) : Option ℕ :=
  s.chains.head?.bind fun c => c.blocks.getLast?.map ShadowBlock.thisHeight

def pushChain (s : NearTipChains) (blocks : List ShadowBlock) : ℕ × NearTipChains :=
  (s.chains.length, { s with chains := s.chains ++ [.ofBlocks blocks] })

/-- One turn of the loop of `push_blocks`. -/
def pushOne (s : NearTipChains) (b : ShadowBlock) : NearTipChains :=
  let (chainIdx, s) :=
    match findParent b.parentHash 0 none s.chains with
    | some (chainIdx, parentIdx) =>
      let blocks := (s.chains[chainIdx]?.map NearTipChain.blocks).getD []
      if parentIdx ≠ blocks.length - 1 then s.pushChain (blocks.take (parentIdx + 1)) else (chainIdx, s)
    | none => s.pushChain []
  { s with chains := s.chains.modify chainIdx (·.pushBlock b) }

/-- What `push_blocks` does after its loop. -/
def settle (s : NearTipChains) : Except Panic NearTipChains := do
  let bcTipHeight ← unwrap s.tipHeight
  ensure (∀ c ∈ s.chains, c.blocks ≠ [])
  let kept := s.chains.filterMap (NearTipChain.trim (bcTipHeight - nearTipChainLen))
  return { s with chains := kept.insertionSort fun c d => d.work ≤ c.work }

def pushBlocks (s : NearTipChains) (blocks : List ShadowBlock) : Except Panic NearTipChains :=
  if blocks = [] then .ok s else (blocks.foldl pushOne s).settle

end NearTipChains

/-! ### Where a block goes -/

def NearTipChain.EndsWith (c : NearTipChain) (hash : BlockHash) : Prop := c.locate hash = some (c.blocks.length - 1)

theorem findParent_cases (hash : BlockHash) (idx : ℕ) (found : Option (ℕ × ℕ)) (cs : List NearTipChain) :
    (∃ pre c post, cs = pre ++ c :: post ∧ c.EndsWith hash ∧ (∀ d ∈ pre, ¬ d.EndsWith hash) ∧
        findParent hash idx found cs = some (idx + pre.length, c.blocks.length - 1)) ∨
      (∀ d ∈ cs, ¬ d.EndsWith hash) ∧
        ((∃ pre c post k, cs = pre ++ c :: post ∧ c.locate hash = some k ∧ (∀ d ∈ post, d.locate hash = none) ∧
            findParent hash idx found cs = some (idx + pre.length, k)) ∨
          (∀ d ∈ cs, d.locate hash = none) ∧ findParent hash idx found cs = found) := by
  induction cs generalizing idx found with
  | nil => exact .inr ⟨by simp, .inr ⟨by simp, rfl⟩⟩
  | cons c cs ih =>
    have hshift (pre : List NearTipChain) : idx + 1 + pre.length = idx + (c :: pre).length := by
      rw [length_cons]
      omega
    by_cases hends : c.EndsWith hash
    · refine .inl ⟨[], c, cs, rfl, hends, by simp, ?_⟩
      rw [findParent, show c.locate hash = _ from hends]
      simp
    -- the rest of the loop starts with this chain as the one found, if it holds the block
    obtain ⟨found', hrest, hfound'⟩ : ∃ found', findParent hash idx found (c :: cs) = findParent hash (idx + 1) found' cs ∧
        ((c.locate hash = none ∧ found' = found) ∨ ∃ k, c.locate hash = some k ∧ found' = some (idx, k)) := by
      cases hk : c.locate hash with
      | none => exact ⟨found, by rw [findParent, hk], .inl ⟨rfl, rfl⟩⟩
      | some k =>
        have hne : k ≠ c.blocks.length - 1 := fun heq => hends (hk.trans (congrArg some heq))
        exact ⟨some (idx, k), by rw [findParent, hk]; exact if_neg hne, .inr ⟨k, rfl, rfl⟩⟩
    rw [hrest]
    rcases ih (idx + 1) found' with ⟨pre, d, post, rfl, hd, hpre, heq⟩ | ⟨hnone, ⟨pre, d, post, k, rfl, hd, hpost, heq⟩ |
      ⟨hnowhere, heq⟩⟩
    · refine .inl ⟨c :: pre, d, post, rfl, hd, ?_, by rw [heq, hshift]⟩
      rintro e (_ | ⟨_, he⟩)
      exacts [hends, hpre e he]
    all_goals
      have hall : ∀ d ∈ c :: _, ¬ d.EndsWith hash := forall_mem_cons.mpr ⟨hends, hnone⟩
      refine .inr ⟨hall, ?_⟩
    · exact .inl ⟨c :: pre, d, post, k, rfl, hd, hpost, by rw [heq, hshift]⟩
    · rcases hfound' with ⟨hc, rfl⟩ | ⟨k, hc, rfl⟩
      · exact .inr ⟨forall_mem_cons.mpr ⟨hc, hnowhere⟩, heq⟩
      · exact .inl ⟨[], c, cs, k, rfl, hc, hnowhere, heq⟩

/-! ### Chains on their own -/

namespace NearTipChain

variable {c c' : NearTipChain} {b p : ShadowBlock} {hash : BlockHash} {k bound : ℕ}

def Linked (c : NearTipChain) : Prop := c.blocks.IsChain fun p b => b.parentHash = p.thisHash

@[simp] theorem work_ofBlocks (blocks : List ShadowBlock) : (ofBlocks blocks).work = blocks.length := by
  induction blocks with
  | nil => rfl
  | cons b bs ih =>
    rw [ofBlocks, map_cons, sum_cons, length_cons, add_comm]
    exact congrArg (· + 1) ih

theorem locate_eq_some (h : c.locate hash = some k) : ∃ p, c.blocks[k]? = some p ∧ p.thisHash = hash := by
  obtain ⟨hk, hp, -⟩ := findIdx?_eq_some_iff_getElem.mp h
  exact ⟨_, getElem?_eq_getElem hk, by simpa using hp⟩

theorem locate_eq_none : c.locate hash = none ↔ ∀ p ∈ c.blocks, p.thisHash ≠ hash := by
  simp [locate, findIdx?_eq_none_iff]

theorem EndsWith.getLast? (h : c.EndsWith hash) : ∃ p, c.blocks.getLast? = some p ∧ p.thisHash = hash := by
  rw [getLast?_eq_getElem?]
  exact locate_eq_some h

theorem getLast?_ofBlocks_take (h : c.blocks[k]? = some p) :
    (ofBlocks (c.blocks.take (k + 1))).blocks.getLast? = some p := by
  obtain ⟨hk, rfl⟩ := List.getElem?_eq_some_iff.mp h
  rw [ofBlocks, List.take_succ_eq_append_getElem hk, List.getLast?_append]
  rfl

theorem getLast?_pushBlock (c : NearTipChain) (b : ShadowBlock) : (c.pushBlock b).blocks.getLast? = some b := by
  simp [pushBlock]

theorem blocks_pushBlock (c : NearTipChain) (b : ShadowBlock) :
    ∃ kept, kept <:+ c.blocks ∧ (c.pushBlock b).blocks = kept ++ [b] ∧ kept.getLast? = c.blocks.getLast? := by
  rw [pushBlock]
  split_ifs with hlen
  · refine ⟨c.blocks.tail, tail_suffix _, rfl, ?_⟩
    rw [getLast?_tail, if_neg]
    rw [hlen]
    decide
  · exact ⟨c.blocks, suffix_refl _, rfl, rfl⟩

theorem Linked.pushBlock (h : c.Linked) (hlast : ∀ p ∈ c.blocks.getLast?, b.parentHash = p.thisHash) :
    (c.pushBlock b).Linked := by
  obtain ⟨kept, ⟨pre, hpre⟩, hblocks, hkept⟩ := c.blocks_pushBlock b
  rw [Linked, ← hpre] at h
  rw [Linked, hblocks, isChain_append]
  refine ⟨(isChain_append.mp h).2.1, isChain_singleton b, fun p hp b' hb' => ?_⟩
  obtain rfl : b = b' := by simpa using hb'
  exact hlast p (hkept ▸ hp)

theorem Linked.take (h : c.Linked) (n : ℕ) : (ofBlocks (c.blocks.take n)).Linked := by
  rw [Linked, ← take_append_drop n c.blocks] at h
  exact (isChain_append.mp h).1

theorem trim_eq_some (h : c.trim bound = some c') : c'.work = c.work ∧ c'.blocks <:+ c.blocks ∧ c'.blocks ≠ [] := by
  have hsuffix := dropWhile_suffix (l := c.blocks) fun b : ShadowBlock => b.thisHeight < bound
  unfold trim at h
  split at h
  · cases h
  · next b bs heq =>
    obtain rfl := Option.some.inj h
    exact ⟨rfl, heq ▸ hsuffix, cons_ne_nil _ _⟩

theorem getLast?_of_trim (h : c.trim bound = some c') : c'.blocks.getLast? = c.blocks.getLast? := by
  obtain ⟨-, ⟨pre, hpre⟩, hne⟩ := trim_eq_some h
  rw [← hpre, getLast?_append_of_ne_nil _ hne]

theorem Linked.trim (h : c.Linked) (ht : c.trim bound = some c') : c'.Linked := by
  obtain ⟨-, ⟨pre, hpre⟩, -⟩ := trim_eq_some ht
  rw [Linked, ← hpre] at h
  exact (isChain_append.mp h).2.1

end NearTipChain

namespace NearTipChains

variable {s s' : NearTipChains} {b : ShadowBlock}

def copied (s : NearTipChains) (b : ShadowBlock) : Option NearTipChain :=
  match findParent b.parentHash 0 none s.chains with
  | some (chainIdx, parentIdx) => s.chains[chainIdx]?.filter fun c => parentIdx ≠ c.blocks.length - 1
  | none => none

/-- What pushing a block does to the list of chains. -/
inductive Pushed (s : NearTipChains) (b : ShadowBlock) : List NearTipChain → Prop
  | extend {pre c post} (hs : s.chains = pre ++ c :: post) (hc : c.EndsWith b.parentHash)
      (hpre : ∀ d ∈ pre, ¬ d.EndsWith b.parentHash) : Pushed s b (pre ++ c.pushBlock b :: post)
  | copy {c k} (hnone : ∀ d ∈ s.chains, ¬ d.EndsWith b.parentHash) (hmem : c ∈ s.chains) (hcopied : s.copied b = some c)
      (hc : c.locate b.parentHash = some k) : Pushed s b (s.chains ++ [(NearTipChain.ofBlocks (c.blocks.take (k + 1))).pushBlock b])
  | new (hnone : ∀ d ∈ s.chains, d.locate b.parentHash = none) :
      Pushed s b (s.chains ++ [(NearTipChain.ofBlocks []).pushBlock b])

theorem modify_middle {α : Type} (pre post : List α) (a : α) (f : α → α) :
    (pre ++ a :: post).modify pre.length f = pre ++ f a :: post := by
  simp [modify_eq_take_drop]

theorem pushed_pushOne (s : NearTipChains) (b : ShadowBlock) : s.Pushed b (s.pushOne b).chains := by
  rcases findParent_cases b.parentHash 0 none s.chains with ⟨pre, c, post, hs, hc, hpre, heq⟩ | ⟨hnone,
    ⟨pre, c, post, k, hs, hc, -, heq⟩ | ⟨hnowhere, heq⟩⟩
  · have hget : s.chains[0 + pre.length]? = some c := by simp [hs]
    have hchains : (s.pushOne b).chains = pre ++ c.pushBlock b :: post := by
      simp only [pushOne, heq, hget, Option.map_some, Option.getD_some, ne_eq, not_true_eq_false, if_false]
      rw [hs, Nat.zero_add, modify_middle]
    rw [hchains]
    exact .extend hs hc hpre
  · have hget : s.chains[0 + pre.length]? = some c := by simp [hs]
    have hmem : c ∈ s.chains := mem_of_getElem? hget
    have hne : k ≠ c.blocks.length - 1 := fun heq => hnone c hmem (hc.trans (congrArg some heq))
    have hchains : (s.pushOne b).chains = s.chains ++ [(NearTipChain.ofBlocks (c.blocks.take (k + 1))).pushBlock b] := by
      simp only [pushOne, heq, hget, Option.map_some, Option.getD_some, ne_eq, hne, not_false_eq_true, if_true, pushChain]
      exact modify_middle s.chains [] _ _
    rw [hchains]
    refine .copy hnone hmem ?_ hc
    simp only [copied, heq, hget]
    simp [hne]
  · have hchains : (s.pushOne b).chains = s.chains ++ [(NearTipChain.ofBlocks []).pushBlock b] := by
      simp only [pushOne, heq, pushChain]
      exact modify_middle s.chains [] _ _
    rw [hchains]
    exact .new hnowhere

@[simp] theorem finalizedHeight_pushOne : (s.pushOne b).finalizedHeight = s.finalizedHeight := by
  cases h : findParent b.parentHash 0 none s.chains with
  | none => simp only [pushOne, h, pushChain]
  | some found =>
    simp only [pushOne, h]
    split_ifs <;> rfl

/-! ### What is kept -/

theorem Pushed.ne_nil (h : s.Pushed b cs) : cs ≠ [] := by
  cases h <;> simp

theorem Pushed.forall {P : NearTipChain → Prop} (h : s.Pushed b cs) (hs : ∀ c ∈ s.chains, P c)
    (hextend : ∀ c ∈ s.chains, c.EndsWith b.parentHash → P (c.pushBlock b))
    (hcopy : ∀ c ∈ s.chains, ∀ k, s.copied b = some c → c.locate b.parentHash = some k → P ((NearTipChain.ofBlocks (c.blocks.take (k + 1))).pushBlock b))
    (hnew : (∀ d ∈ s.chains, d.locate b.parentHash = none) → P ((NearTipChain.ofBlocks []).pushBlock b)) :
    ∀ c ∈ cs, P c := by
  cases h with
  | extend heq hends _ =>
    have hpushed := hextend _ (by rw [heq]; simp) hends
    simp only [heq, forall_mem_append, forall_mem_cons] at hs ⊢
    exact ⟨hs.1, hpushed, hs.2.2⟩
  | copy _ hmem hcopied hc => exact forall_mem_append.mpr ⟨hs, by simpa using hcopy _ hmem _ hcopied hc⟩
  | new hnone => exact forall_mem_append.mpr ⟨hs, by simpa using hnew hnone⟩

theorem settle_ok (hne : s.chains ≠ []) (hs : ∀ c ∈ s.chains, c.blocks ≠ []) :
    ∃ tip, s.tipHeight = some tip ∧ s.settle = .ok { s with chains :=
      (s.chains.filterMap (NearTipChain.trim (tip - nearTipChainLen))).insertionSort fun c d => d.work ≤ c.work } := by
  obtain ⟨c, cs, hc⟩ := exists_cons_of_ne_nil hne
  obtain ⟨b, hb⟩ := getLast?_isSome.mpr (hs c (hc ▸ mem_cons_self)) |> Option.isSome_iff_exists.mp
  have htip : s.tipHeight = some b.thisHeight := by simp [tipHeight, hc, hb]
  refine ⟨b.thisHeight, htip, ?_⟩
  rw [settle, htip, ensure_ok hs]
  rfl

theorem mem_settle (h : s.settle = .ok s') (hc : c' ∈ s'.chains) :
    ∃ bound, ∃ c ∈ s.chains, c.trim bound = some c' := by
  simp only [settle, bind_eq_ok] at h
  obtain ⟨tip, -, -, -, h⟩ := h
  obtain rfl := pure_eq_ok.mp h
  rw [mem_insertionSort, mem_filterMap] at hc
  exact ⟨_, hc⟩

end NearTipChains

end Crosslink.NewNet

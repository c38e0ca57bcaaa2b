import Crosslink.NewNet.NearTip

/-!
# Sequences of blocks

Blocks arrive one after the other, each after its parent. Such a sequence is a forest, and a value for each block that
is computed from the value of its parent can be filled in as the blocks arrive: the depth of a block and the path that
leads to it.
-/

namespace Crosslink.NewNet

open Codec Fallible Bft List

/-- A hash stands for one block, and a block comes after its parent unless the parent does not come at all. -/
structure ParentsFirst (blocks : List ShadowBlock) : Prop where
  determined : ∀ b ∈ blocks, ∀ b' ∈ blocks, b.thisHash = b'.thisHash → b = b'
  first : ∀ i (hi : i < blocks.length), blocks[i].parentHash ∈ blocks.map ShadowBlock.thisHash →
    blocks[i].parentHash ∈ (blocks.take i).map ShadowBlock.thisHash

instance (blocks : List ShadowBlock) : Decidable (ParentsFirst blocks) :=
  decidable_of_iff (_ ∧ _) ⟨fun h => ⟨h.1, h.2⟩, fun h => ⟨h.determined, h.first⟩⟩

variable {α β : Type} {f : α → ShadowBlock → α} {z : α} {blocks : List ShadowBlock} {b : ShadowBlock} {a hash : BlockHash}

/-- The value of each block, given by `f` from that of its parent, and `z` for the hashes that do not arrive. -/
def tabulate (f : α → ShadowBlock → α) (z : α) (blocks : List ShadowBlock) : BlockHash → α :=
  blocks.foldl (fun t b => Function.update t b.thisHash (f (t b.parentHash) b)) fun _ => z

theorem tabulate_append_singleton (pre : List ShadowBlock) (b : ShadowBlock) :
    tabulate f z (pre ++ [b]) = Function.update (tabulate f z pre) b.thisHash (f (tabulate f z pre b.parentHash) b) := by
  simp [tabulate]

theorem ParentsFirst.tabulate_take (h : ParentsFirst blocks) (hn : n ≤ blocks.length) :
    (∀ b ∈ blocks.take n, tabulate f z (blocks.take n) b.thisHash = f (tabulate f z (blocks.take n) b.parentHash) b) ∧
      ∀ hash ∉ (blocks.take n).map ShadowBlock.thisHash, tabulate f z (blocks.take n) hash = z := by
  induction n with
  | zero => simp [tabulate]
  | succ n ih =>
    obtain ⟨hstep, hzero⟩ := ih (by omega)
    have hlt : n < blocks.length := by omega
    have htake : blocks.take (n + 1) = blocks.take n ++ [blocks[n]] := take_succ_eq_append_getElem hlt
    generalize hpre : blocks.take n = pre at *
    have hmemPre {b : ShadowBlock} (hb : b ∈ pre) : b ∈ blocks := mem_of_mem_take (hpre ▸ hb)
    have hmem : blocks[n] ∈ blocks := getElem_mem hlt
    rw [htake, tabulate_append_singleton]
    by_cases hold : blocks[n].thisHash ∈ pre.map ShadowBlock.thisHash
    · -- pushed before: nothing changes
      obtain ⟨b, hb, heq⟩ := mem_map.mp hold
      obtain rfl : b = blocks[n] := h.determined b (hmemPre hb) _ hmem heq
      rw [← hstep _ hb, Function.update_eq_self]
      refine ⟨fun b' hb' => hstep b' ?_, fun hash hhash => hzero hash fun hin => hhash ?_⟩
      · rcases mem_append.mp hb' with hb' | hb'
        · exact hb'
        · exact (mem_singleton.mp hb') ▸ hb
      · rw [map_append]
        exact mem_append_left _ hin
    · -- new, and no block before it is its child
      have hparent {b : ShadowBlock} (hb : b ∈ pre ∨ b = blocks[n]) : b.parentHash ≠ blocks[n].thisHash := by
        intro heq
        obtain ⟨i, hi, hin⟩ : ∃ i, ∃ hi : i < blocks.length, blocks[i] = b ∧ i ≤ n := by
          rcases hb with hb | rfl
          · obtain ⟨i, hi, rfl⟩ := mem_iff_getElem.mp (hpre ▸ hb)
            rw [length_take] at hi
            exact ⟨i, by omega, by simp, by omega⟩
          · exact ⟨n, hlt, rfl, le_rfl⟩
        have hfirst := h.first i hi (by rw [hin.1, heq]; exact mem_map_of_mem hmem)
        rw [hin.1, heq] at hfirst
        refine hold (map_subset _ ?_ hfirst)
        rw [← hpre]
        exact take_subset_take_left _ hin.2
      refine ⟨fun b hb => ?_, fun hash hhash => ?_⟩
      · rcases mem_append.mp hb with hb | hb
        · have hne : b.thisHash ≠ blocks[n].thisHash := fun heq => hold (heq ▸ mem_map_of_mem hb)
          rw [Function.update_of_ne hne, Function.update_of_ne (hparent (.inl hb)), hstep b hb]
        · obtain rfl := mem_singleton.mp hb
          rw [Function.update_self, Function.update_of_ne (hparent (.inr rfl))]
      · simp only [map_append, mem_append, not_or, map_singleton, mem_singleton] at hhash
        rw [Function.update_of_ne hhash.2, hzero hash hhash.1]

theorem ParentsFirst.tabulate_eq (h : ParentsFirst blocks) (hb : b ∈ blocks) :
    tabulate f z blocks b.thisHash = f (tabulate f z blocks b.parentHash) b := by
  have := (h.tabulate_take (f := f) (z := z) le_rfl).1 b
  rw [take_length] at this
  exact this hb

theorem ParentsFirst.tabulate_of_not_mem (h : ParentsFirst blocks) (hhash : hash ∉ blocks.map ShadowBlock.thisHash) :
    tabulate f z blocks hash = z := by
  have := (h.tabulate_take (f := f) (z := z) le_rfl).2 hash
  rw [take_length] at this
  exact this hhash

theorem map_tabulate (g : α → β) (hg : ∀ a b, g (f a b) = f' (g a) b) (blocks : List ShadowBlock) :
    g ∘ tabulate f z blocks = tabulate f' (g z) blocks := by
  induction blocks using List.reverseRecOn with
  | nil => rfl
  | append_singleton pre b ih => rw [tabulate_append_singleton, tabulate_append_singleton, Function.comp_update, hg, ← ih]; rfl

def depth (blocks : List ShadowBlock) : BlockHash → ℕ := tabulate (fun n _ => n + 1) 0 blocks

def path (blocks : List ShadowBlock) : BlockHash → List ShadowBlock := tabulate (fun l b => l ++ [b]) [] blocks

theorem length_path (blocks : List ShadowBlock) (hash : BlockHash) : (path blocks hash).length = depth blocks hash :=
  congrFun (map_tabulate List.length (by simp) blocks) hash

theorem ParentsFirst.depth_eq (h : ParentsFirst blocks) (hb : b ∈ blocks) :
    depth blocks b.thisHash = depth blocks b.parentHash + 1 := h.tabulate_eq hb

theorem ParentsFirst.depth_eq_zero (h : ParentsFirst blocks) (hhash : hash ∉ blocks.map ShadowBlock.thisHash) :
    depth blocks hash = 0 := h.tabulate_of_not_mem hhash

theorem ParentsFirst.path_eq (h : ParentsFirst blocks) (hb : b ∈ blocks) :
    path blocks b.thisHash = path blocks b.parentHash ++ [b] := h.tabulate_eq hb

theorem ParentsFirst.path_eq_nil (h : ParentsFirst blocks) (hhash : hash ∉ blocks.map ShadowBlock.thisHash) :
    path blocks hash = [] := h.tabulate_of_not_mem hhash

theorem ParentsFirst.induction (h : ParentsFirst blocks) {P : ShadowBlock → Prop}
    (hroot : ∀ b ∈ blocks, b.parentHash ∉ blocks.map ShadowBlock.thisHash → P b)
    (hchild : ∀ b ∈ blocks, ∀ p ∈ blocks, p.thisHash = b.parentHash → P p → P b) (hb : b ∈ blocks) : P b := by
  induction hn : depth blocks b.thisHash generalizing b with
  | zero => exact absurd hn (by rw [h.depth_eq hb]; omega)
  | succ n ih =>
    by_cases hparent : b.parentHash ∈ blocks.map ShadowBlock.thisHash
    · obtain ⟨p, hp, heq⟩ := mem_map.mp hparent
      refine hchild b hb p hp heq (ih hp ?_)
      rw [h.depth_eq hb, ← heq] at hn
      omega
    · exact hroot b hb hparent

/-- `hash` is `n` blocks above its ancestor `a`. -/
inductive Above (blocks : List ShadowBlock) (a : BlockHash) : BlockHash → ℕ → Prop
  | refl : Above blocks a a 0
  | step {b n} (hb : b ∈ blocks) (h : Above blocks a b.parentHash n) : Above blocks a b.thisHash (n + 1)

theorem ParentsFirst.depth_above (h : ParentsFirst blocks) (ha : Above blocks a hash n) :
    depth blocks hash = depth blocks a + n := by
  induction ha with
  | refl => rfl
  | step hb _ ih => rw [h.depth_eq hb, ih, add_assoc]

def hashOf (n : ℕ) : BlockHash := ⟨leBytes 32 n, leBytes_length32 n⟩

end Crosslink.NewNet

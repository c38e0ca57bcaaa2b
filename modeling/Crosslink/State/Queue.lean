import Crosslink.Staking.Transaction

/-!
# The block queue

Blocks whose parent is not known yet wait in a queue. Their hashes are filed under the hash of the parent, which is how
the children of a committed block are found, and under the height, which is how blocks at or below the finalized tip
are found. Draining the children of a block removes the whole bucket of each child's height: blocks of that height with
another parent stay queued but are no longer filed there.
-/

namespace Crosslink.State

open Codec Fallible Bft Staking Buckets
open Std (ExtTreeMap)

/-- `Height::MAX`. -/
def maxHeight : ℕ := 2 ^ 31 - 1

structure QueuedBlocks where
  blocks : ExtTreeMap BlockHash Block
  byParent : Buckets BlockHash BlockHash
  byHeight : Buckets ℕ BlockHash
  knownUtxos : Table OutPoint Utxo

namespace QueuedBlocks

def empty : QueuedBlocks := ⟨∅, ∅, ∅, .empty⟩

/-- Forgets the outputs of a block, also those that another queued block creates. -/
def forgetUtxos (utxos : Table OutPoint Utxo) (b : Block) : Table OutPoint Utxo :=
  b.newOutputs.foldl (fun t output => Function.update t output.1 none) utxos

def queue (q : QueuedBlocks) (new : Block) : QueuedBlocks :=
  if q.blocks.contains new.hash then q
  else
    { knownUtxos := new.newOutputs.foldl (fun t output => Function.update t output.1 (some output.2)) q.knownUtxos
      blocks := q.blocks.insert new.hash new
      byHeight := q.byHeight.file new.height new.hash
      byParent := q.byParent.file new.previousBlockHash new.hash }

def hasQueuedChildren (q : QueuedBlocks) (parentHash : BlockHash) : Bool := q.byParent.contains parentHash

def dequeueChildren (q : QueuedBlocks) (parentHash : BlockHash) : Except Panic (List Block × QueuedBlocks) := do
  let (queuedChildren, blocks) ← takeAll q.blocks (q.byParent.bucket parentHash)
  return (queuedChildren,
    { blocks
      byParent := q.byParent.erase parentHash
      byHeight := (queuedChildren.map Block.height).foldl ExtTreeMap.erase q.byHeight
      knownUtxos := queuedChildren.foldl forgetUtxos q.knownUtxos })

/-- Removes one block below the finalized tip, which is no longer filed under its height. -/
def expire (q : QueuedBlocks) (hash : BlockHash) : Except Panic QueuedBlocks := do
  let expired ← unwrap q.blocks[hash]?
  let byParent ← q.byParent.unfile expired.previousBlockHash hash
  return { q with blocks := q.blocks.erase hash, byParent, knownUtxos := forgetUtxos q.knownUtxos expired }

def pruneByHeight (q : QueuedBlocks) (finalizedTipHeight : ℕ) : Except Panic QueuedBlocks := do
  let splitHeight ← unwrap (if finalizedTipHeight + 1 ≤ maxHeight then some (finalizedTipHeight + 1) else none)
  let expired : Buckets ℕ BlockHash := q.byHeight.filter fun height _ => height < splitHeight
  let kept : Buckets ℕ BlockHash := q.byHeight.filter fun height _ => splitHeight ≤ height
  expired.names.foldlM expire { q with byHeight := kept }

/-! ### What the indexes describe -/

/-- The index by parent is exact. -/
structure Linked (q : QueuedBlocks) : Prop where
  own : ∀ {hash : BlockHash} {b : Block}, q.blocks[hash]? = some b → b.hash = hash
  parents : ∀ {parent hash : BlockHash}, q.byParent.Files parent hash ↔ ∃ b, q.blocks[hash]? = some b ∧ b.previousBlockHash = parent

/-- What holds whatever happens to the queue: nothing but queued blocks is filed under a height. -/
structure Indexed (q : QueuedBlocks) : Prop extends q.Linked where
  heights : ∀ {height : ℕ} {hash : BlockHash}, q.byHeight.Files height hash → ∃ b, q.blocks[hash]? = some b ∧ b.height = height

/-- The three indexes describe the same set of blocks. -/
structure Consistent (q : QueuedBlocks) : Prop extends q.Indexed where
  filed : ∀ {hash : BlockHash} {b : Block}, q.blocks[hash]? = some b → q.byHeight.Files b.height hash

variable {q q' : QueuedBlocks} {hash parent : BlockHash} {height : ℕ} {b : Block}

theorem consistent_empty : empty.Consistent where
  own h := by simp [empty] at h
  parents := by simp [empty]
  heights := by simp [empty]
  filed h := by simp [empty] at h

theorem queue_of_mem (h : q.blocks.contains new.hash = true) : q.queue new = q := if_pos h

theorem blocks_queue (h : ¬ q.blocks.contains new.hash = true) :
    (q.queue new).blocks[hash]? = some b ↔ (hash = new.hash ∧ b = new) ∨ q.blocks[hash]? = some b := by
  rw [ExtTreeMap.contains_iff_mem] at h
  have hnone : q.blocks[new.hash]? = none := ExtTreeMap.getElem?_eq_none h
  simp only [queue, ExtTreeMap.contains_iff_mem, h, if_false, ExtTreeMap.getElem?_insert, compare_eq_iff_eq]
  by_cases heq : new.hash = hash
  · subst heq
    simp [hnone, @eq_comm _ new b]
  · simp [heq, Ne.symm heq]

theorem byHeight_queue (h : ¬ q.blocks.contains new.hash = true) :
    (q.queue new).byHeight = q.byHeight.file new.height new.hash := by
  rw [queue, if_neg h]

theorem Indexed.queue (h : q.Indexed) (new : Block) : (q.queue new).Indexed := by
  by_cases hmem : q.blocks.contains new.hash = true
  · rwa [queue_of_mem hmem]
  have hparents : (q.queue new).byParent = q.byParent.file new.previousBlockHash new.hash := by
    rw [QueuedBlocks.queue, if_neg hmem]
  refine ⟨⟨fun {hash b} hb => ?_, fun {parent hash} => ?_⟩, fun {height hash} hfiles => ?_⟩
  · obtain ⟨rfl, rfl⟩ | hb := (blocks_queue hmem).mp hb
    · rfl
    · exact h.own hb
  · simp only [hparents, files_file, h.parents, blocks_queue hmem, or_and_right, exists_or]
    refine or_congr_left ⟨?_, ?_⟩
    · rintro ⟨rfl, rfl⟩
      exact ⟨new, ⟨rfl, rfl⟩, rfl⟩
    · rintro ⟨_, ⟨rfl, rfl⟩, rfl⟩
      exact ⟨rfl, rfl⟩
  · rw [byHeight_queue hmem, files_file] at hfiles
    obtain ⟨rfl, rfl⟩ | hfiles := hfiles
    · exact ⟨new, (blocks_queue hmem).mpr (.inl ⟨rfl, rfl⟩), rfl⟩
    · obtain ⟨b, hb, rfl⟩ := h.heights hfiles
      exact ⟨b, (blocks_queue hmem).mpr (.inr hb), rfl⟩

theorem Consistent.queue (h : q.Consistent) (new : Block) : (q.queue new).Consistent := by
  refine ⟨h.toIndexed.queue new, fun {hash b} hb => ?_⟩
  by_cases hmem : q.blocks.contains new.hash = true
  · rw [queue_of_mem hmem] at hb ⊢
    exact h.filed hb
  · rw [byHeight_queue hmem, files_file]
    obtain ⟨rfl, rfl⟩ | hb := (blocks_queue hmem).mp hb
    · exact .inl ⟨rfl, rfl⟩
    · exact .inr (h.filed hb)

/-! ### Draining -/

/-- The children are drained, and with them the heights they have. -/
structure Drained (q : QueuedBlocks) (parent : BlockHash) (children : List Block) (q' : QueuedBlocks) : Prop where
  mem_children : ∀ {b}, b ∈ children ↔ ∃ hash : BlockHash, q.blocks[hash]? = some b ∧ b.previousBlockHash = parent
  blocks : ∀ {hash : BlockHash} {b : Block}, q'.blocks[hash]? = some b ↔ q.blocks[hash]? = some b ∧ b.previousBlockHash ≠ parent
  byParent : ∀ {p hash}, q'.byParent.Files p hash ↔ p ≠ parent ∧ q.byParent.Files p hash
  byHeight : ∀ {height hash}, q'.byHeight.Files height hash ↔
    (∀ c ∈ children, c.height ≠ height) ∧ q.byHeight.Files height hash

theorem Linked.dequeueChildren (h : q.Linked) (parent : BlockHash) :
    ∃ children q', q.dequeueChildren parent = .ok (children, q') ∧ q.Drained parent children q' := by
  have hbucket {hash : BlockHash} : hash ∈ q.byParent.bucket parent ↔
      ∃ b, q.blocks[hash]? = some b ∧ b.previousBlockHash = parent := mem_bucket.trans h.parents
  obtain ⟨children, blocks, htake, hchildren, hblocks⟩ := takeAll_ok (q.byParent.nodup_bucket parent) fun hash hmem =>
    (hbucket.mp hmem).imp fun _ => And.left
  refine ⟨children, _, by rw [QueuedBlocks.dequeueChildren, htake]; rfl, ⟨fun {b} => ?_, fun {hash b} => ?_,
    files_erase, fun {height hash} => ?_⟩⟩
  · rw [hchildren]
    refine exists_congr fun hash => ⟨?_, fun ⟨hb, hparent⟩ => ⟨hbucket.mpr ⟨b, hb, hparent⟩, hb⟩⟩
    rintro ⟨hmem, hb⟩
    obtain ⟨b', hb', hparent⟩ := hbucket.mp hmem
    obtain rfl : b' = b := Option.some.inj (hb'.symm.trans hb)
    exact ⟨hb, hparent⟩
  · rw [hblocks]
    by_cases hmem : hash ∈ q.byParent.bucket parent
    · obtain ⟨b', hb', hparent⟩ := hbucket.mp hmem
      rw [if_pos hmem, hb']
      simp only [reduceCtorEq, Option.some.injEq, false_iff, not_and, not_not]
      rintro rfl
      exact hparent
    · rw [if_neg hmem]
      exact ⟨fun hb => ⟨hb, fun hparent => hmem (hbucket.mpr ⟨b, hb, hparent⟩)⟩, And.left⟩
  · rw [files_eraseAll, List.mem_map]
    simp

theorem Drained.indexed (hd : q.Drained parent children q') (h : q.Indexed) : q'.Indexed where
  own hb := h.own (hd.blocks.mp hb).1
  parents {p hash} := by
    simp only [hd.byParent, h.parents, hd.blocks]
    constructor
    · rintro ⟨hne, b, hb, rfl⟩
      exact ⟨b, ⟨hb, hne⟩, rfl⟩
    · rintro ⟨b, ⟨hb, hne⟩, rfl⟩
      exact ⟨hne, b, hb, rfl⟩
  heights {height hash} hfiles := by
    obtain ⟨hheight, hfiles⟩ := hd.byHeight.mp hfiles
    obtain ⟨b, hb, rfl⟩ := h.heights hfiles
    exact ⟨b, hd.blocks.mpr ⟨hb, fun hparent => hheight b (hd.mem_children.mpr ⟨hash, hb, hparent⟩) rfl⟩, rfl⟩

/-- Every queued block that has the height of a child of `parent` is a child of `parent`. -/
def SoleAtHeights (q : QueuedBlocks) (parent : BlockHash) : Prop :=
  ∀ (hash : BlockHash) (b : Block) (hash' : BlockHash) (c : Block), q.blocks[hash]? = some b → q.blocks[hash']? = some c → c.previousBlockHash = parent →
    b.height = c.height → b.previousBlockHash = parent

theorem Drained.consistent_iff (hd : q.Drained parent children q') (h : q.Consistent) :
    q'.Consistent ↔ q.SoleAtHeights parent := by
  constructor
  · intro h' hash b hash' c hb hc hparent hheight
    by_contra hne
    refine (hd.byHeight.mp (h'.filed (hd.blocks.mpr ⟨hb, hne⟩))).1 c (hd.mem_children.mpr ⟨hash', hc, hparent⟩) hheight.symm
  · intro hsole
    refine ⟨hd.indexed h.toIndexed, fun {hash b} hb => ?_⟩
    obtain ⟨hb, hne⟩ := hd.blocks.mp hb
    refine hd.byHeight.mpr ⟨fun c hc hheight => hne ?_, h.filed hb⟩
    obtain ⟨hash', hc, hparent⟩ := hd.mem_children.mp hc
    exact hsole hash b hash' c hb hc hparent hheight.symm

/-! ### Pruning -/

theorem Linked.expire (h : q.Linked) (hb : q.blocks[hash]? = some b) :
    ∃ q', q.expire hash = .ok q' ∧ q'.Linked ∧ q'.byHeight = q.byHeight ∧
      ∀ hash' : BlockHash, q'.blocks[hash']? = if hash' = hash then none else q.blocks[hash']? := by
  obtain ⟨byParent, hunfile, hfiles⟩ := unfile_ok (h.parents.mpr ⟨b, hb, rfl⟩)
  have hblocks (hash' : BlockHash) : (q.blocks.erase hash)[hash']? = if hash' = hash then none else q.blocks[hash']? := by
    simp only [ExtTreeMap.getElem?_erase, compare_eq_iff_eq, @eq_comm _ hash hash']
  have hexpire : q.expire hash =
      .ok ⟨q.blocks.erase hash, byParent, q.byHeight, forgetUtxos q.knownUtxos b⟩ := by
    rw [QueuedBlocks.expire, unwrap_eq_ok.mpr hb, ok_bind, hunfile]
    rfl
  refine ⟨_, hexpire, ⟨fun {hash' b'} hb' => ?_, fun {parent hash'} => ?_⟩, rfl, hblocks⟩
  · rw [hblocks] at hb'
    split_ifs at hb'
    exact h.own hb'
  · simp only [hfiles, h.parents, hblocks]
    by_cases heq : hash' = hash
    · subst heq
      simp only [and_true, if_true, hb, Option.some.injEq, exists_eq_left', reduceCtorEq, false_and, exists_false, iff_false]
      exact fun ⟨hparent, hne⟩ => hne hparent.symm
    · simp [heq]

theorem Linked.expireAll {hashes : List BlockHash} (h : q.Linked) (hnodup : hashes.Nodup)
    (hmem : ∀ hash ∈ hashes, ∃ b, q.blocks[hash]? = some b) :
    ∃ q', hashes.foldlM QueuedBlocks.expire q = .ok q' ∧ q'.Linked ∧ q'.byHeight = q.byHeight ∧
      ∀ hash : BlockHash, q'.blocks[hash]? = if hash ∈ hashes then none else q.blocks[hash]? := by
  induction hashes generalizing q with
  | nil => exact ⟨q, rfl, h, rfl, by simp⟩
  | cons hash hashes ih =>
    obtain ⟨hnot, hnodup⟩ := List.nodup_cons.mp hnodup
    obtain ⟨b, hb⟩ := hmem hash List.mem_cons_self
    obtain ⟨q₁, hstep, hlinked, hheight, hblocks⟩ := h.expire hb
    obtain ⟨q', hrun, hlinked', hheight', hblocks'⟩ := ih hlinked hnodup fun hash' hmem' => by
      rw [hblocks, if_neg (ne_of_mem_of_not_mem hmem' hnot)]
      exact hmem hash' (List.mem_cons_of_mem _ hmem')
    refine ⟨q', foldlM_cons_eq_ok.mpr ⟨q₁, hstep, hrun⟩, hlinked', hheight'.trans hheight, fun hash' => ?_⟩
    rw [hblocks', hblocks]
    by_cases heq : hash' = hash <;> simp [heq]

theorem pruneByHeight_error (hheight : maxHeight ≤ height) : q.pruneByHeight height = .error .unwrap := by
  rw [pruneByHeight, if_neg (by omega)]
  rfl

theorem Indexed.pruneByHeight (h : q.Indexed) (hheight : height < maxHeight) :
    ∃ q', q.pruneByHeight height = .ok q' ∧ q'.Indexed ∧
      (∀ {hash : BlockHash} {b : Block}, q'.blocks[hash]? = some b ↔
        q.blocks[hash]? = some b ∧ (q.byHeight.Files b.height hash → height < b.height)) ∧
      ∀ {k : ℕ} {hash : BlockHash}, q'.byHeight.Files k hash ↔ height < k ∧ q.byHeight.Files k hash := by
  have hkey {k : ℕ} {hash : BlockHash} {b : Block} (hb : q.blocks[hash]? = some b) (hf : q.byHeight.Files k hash) :
      b.height = k := by
    obtain ⟨b', hb', rfl⟩ := h.heights hf
    rw [Option.some.inj (hb.symm.trans hb')]
  have hexpired {k : ℕ} {hash : BlockHash} :
      Buckets.Files (q.byHeight.filter fun k _ => decide (k < height + 1)) k hash ↔
        k ≤ height ∧ q.byHeight.Files k hash := by
    rw [files_filter, decide_eq_true_iff, Nat.lt_succ_iff]
  have hnodup : (names (q.byHeight.filter fun k _ => decide (k < height + 1))).Nodup :=
    nodup_names fun k k' hash hf hf' => by
      obtain ⟨b, hb, rfl⟩ := h.heights (hexpired.mp hf).2
      exact hkey hb (hexpired.mp hf').2
  have hstart : Linked { q with byHeight := q.byHeight.filter (fun k _ => decide (height + 1 ≤ k)) } := ⟨h.own, h.parents⟩
  obtain ⟨q', hrun, hlinked, hkept, hblocks⟩ := hstart.expireAll hnodup fun hash hmem => by
    obtain ⟨k, hf⟩ := mem_names.mp hmem
    exact (h.heights (hexpired.mp hf).2).imp fun _ => And.left
  have hkeptBlocks {hash : BlockHash} {b : Block} : q'.blocks[hash]? = some b ↔
      q.blocks[hash]? = some b ∧ (q.byHeight.Files b.height hash → height < b.height) := by
    rw [hblocks]
    split_ifs with hnamed <;> simp only [mem_names, hexpired] at hnamed
    · obtain ⟨k, hle, hf⟩ := hnamed
      simp only [false_iff, not_and]
      intro hb hlt
      obtain rfl := hkey hb hf
      exact absurd (hlt hf) (by omega)
    · refine ⟨fun hb => ⟨hb, fun hf => ?_⟩, And.left⟩
      by_contra hle
      exact hnamed ⟨b.height, by omega, hf⟩
  have hkeptHeights {k : ℕ} {hash : BlockHash} : q'.byHeight.Files k hash ↔ height < k ∧ q.byHeight.Files k hash := by
    rw [hkept, files_filter, decide_eq_true_iff, Nat.succ_le_iff]
  refine ⟨q', ?_, ⟨hlinked, fun {k hash} hf => ?_⟩, hkeptBlocks, hkeptHeights⟩
  · rw [QueuedBlocks.pruneByHeight, if_pos (by omega)]
    exact hrun
  · obtain ⟨hlt, hf⟩ := hkeptHeights.mp hf
    obtain ⟨b, hb, rfl⟩ := h.heights hf
    exact ⟨b, hkeptBlocks.mpr ⟨hb, fun _ => hlt⟩, rfl⟩

theorem Consistent.pruneByHeight (h : q.Consistent) (hheight : height < maxHeight) :
    ∃ q', q.pruneByHeight height = .ok q' ∧ q'.Consistent ∧
      ∀ (hash : BlockHash) (b : Block), q'.blocks[hash]? = some b ↔ q.blocks[hash]? = some b ∧ height < b.height := by
  obtain ⟨q', hok, hindexed, hblocks, hheights⟩ := h.toIndexed.pruneByHeight hheight
  have hblocks {hash : BlockHash} {b : Block} :
      q'.blocks[hash]? = some b ↔ q.blocks[hash]? = some b ∧ height < b.height :=
    hblocks.trans (and_congr_right fun hb => ⟨fun hlt => hlt (h.filed hb), fun hlt _ => hlt⟩)
  refine ⟨q', hok, ⟨hindexed, fun {hash b} hb => ?_⟩, fun _ _ => hblocks⟩
  obtain ⟨hb, hlt⟩ := hblocks.mp hb
  exact hheights.mpr ⟨hlt, h.filed hb⟩

end QueuedBlocks

/-! ### Runs -/

inductive QueueOp where
  | queue (new : Block)
  | drain (parentHash : BlockHash)
  | prune (finalizedTipHeight : ℕ)

namespace QueuedBlocks

variable {q q' : QueuedBlocks}

def step (q : QueuedBlocks) : QueueOp → Except Panic QueuedBlocks
  | .queue new => .ok (q.queue new)
  | .drain parentHash => do return (← q.dequeueChildren parentHash).2
  | .prune finalizedTipHeight => q.pruneByHeight finalizedTipHeight

theorem Indexed.step (h : q.Indexed) {op : QueueOp} (hop : ∀ height, op = .prune height → height < maxHeight) :
    ∃ q', q.step op = .ok q' ∧ q'.Indexed := by
  cases op with
  | queue new => exact ⟨_, rfl, h.queue new⟩
  | drain parent =>
    obtain ⟨children, q', hok, hdrained⟩ := h.dequeueChildren parent
    exact ⟨q', by rw [QueuedBlocks.step, hok]; rfl, hdrained.indexed h⟩
  | prune height =>
    obtain ⟨q', hok, hindexed, -⟩ := h.pruneByHeight (hop height rfl)
    exact ⟨q', hok, hindexed⟩

/-- Queueing, draining and pruning never panic in any order, and whatever gets lost from the index of heights, the blocks
that wait for a parent are found under it and nothing but queued blocks is filed. -/
theorem indexed_after_ops (h : q.Indexed) {ops : List QueueOp} (hops : ∀ height, .prune height ∈ ops → height < maxHeight) :
    ∃ q', ops.foldlM QueuedBlocks.step q = .ok q' ∧ q'.Indexed := by
  induction ops generalizing q with
  | nil => exact ⟨q, rfl, h⟩
  | cons op ops ih =>
    obtain ⟨q₁, hstep, hindexed⟩ := h.step fun height heq => hops height (heq ▸ List.mem_cons_self)
    obtain ⟨q', hrun, hindexed'⟩ := ih hindexed fun height hmem => hops height (List.mem_cons_of_mem _ hmem)
    exact ⟨q', foldlM_cons_eq_ok.mpr ⟨q₁, hstep, hrun⟩, hindexed'⟩

/-- A step that prunes removes exactly the blocks up to its height. -/
def PrunesExactly (q q' : QueuedBlocks) : QueueOp → Prop
  | .prune height =>
    ∀ (hash : BlockHash) (b : Block), q'.blocks[hash]? = some b ↔ q.blocks[hash]? = some b ∧ height < b.height
  | _ => True

/-- No panic, consistent indexes and exact pruning in every step of a run. -/
def Sound (q : QueuedBlocks) : List QueueOp → Prop
  | [] => True
  | op :: ops => ∃ q', q.step op = .ok q' ∧ q'.Consistent ∧ q.PrunesExactly q' op ∧ q'.Sound ops

/-- What a step must meet: a drained height belongs to one parent, and there is a height above a pruned one. -/
def Allows (q : QueuedBlocks) : QueueOp → Prop
  | .queue _ => True
  | .drain parentHash => q.SoleAtHeights parentHash
  | .prune height => height < maxHeight

def AllowsAll (q : QueuedBlocks) : List QueueOp → Prop
  | [] => True
  | op :: ops => q.Allows op ∧ ∀ q', q.step op = .ok q' → q'.AllowsAll ops

theorem Consistent.step_iff (h : q.Consistent) (op : QueueOp) :
    (∃ q', q.step op = .ok q' ∧ q'.Consistent ∧ q.PrunesExactly q' op) ↔ q.Allows op := by
  cases op with
  | queue new => exact iff_of_true ⟨_, rfl, h.queue new, trivial⟩ trivial
  | drain parent =>
    obtain ⟨children, q', hok, hdrained⟩ := h.dequeueChildren parent
    have hstep : q.step (.drain parent) = .ok q' := by
      rw [step, hok]
      rfl
    simp only [hstep, Except.ok.injEq, exists_eq_left', PrunesExactly, and_true, Allows]
    exact hdrained.consistent_iff h
  | prune height =>
    constructor
    · rintro ⟨q', hok, -⟩
      by_contra hle
      rw [step, pruneByHeight_error (by simpa [Allows] using hle)] at hok
      exact nomatch hok
    · exact fun hheight => h.pruneByHeight hheight

theorem Consistent.sound_iff (h : q.Consistent) (ops : List QueueOp) : q.Sound ops ↔ q.AllowsAll ops := by
  induction ops generalizing q with
  | nil => exact Iff.rfl
  | cons op ops ih =>
    rw [AllowsAll, ← h.step_iff]
    constructor
    · rintro ⟨q', hok, hconsistent, hexact, hrest⟩
      refine ⟨⟨q', hok, hconsistent, hexact⟩, fun q₁ hok₁ => ?_⟩
      obtain rfl := Except.ok.inj (hok.symm.trans hok₁)
      exact (ih hconsistent).mp hrest
    · rintro ⟨⟨q', hok, hconsistent, hexact⟩, hrest⟩
      exact ⟨q', hok, hconsistent, hexact, (ih hconsistent).mpr (hrest q' hok)⟩

/-- The indexes stay consistent, without a panic and with exact pruning, through the runs that never drain a height that
blocks with another parent have too, nor prune at the greatest height. -/
theorem queue_sound_iff (ops : List QueueOp) : empty.Sound ops ↔ empty.AllowsAll ops := consistent_empty.sound_iff ops

def bareBlock (hash parent : BlockHash) (height : ℕ) : Block where
  hash
  previousBlockHash := parent
  fatPointerToBftBlock := ⟨Bytes.zero 44, []⟩
  height
  work := 1
  size := 0
  transactions := []
  deferredPoolBalanceChange := none

theorem indexed_after_ops_orphan : ∃ q', [.queue (bareBlock (Bytes.zero 32) (Bytes.zero 32) 7), .drain (Bytes.zero 32),
    .prune 7].foldlM QueuedBlocks.step empty = .ok q' ∧ q'.Indexed :=
  indexed_after_ops consistent_empty.toIndexed fun height hmem => by
    obtain rfl : height = 7 := by simpa using hmem
    decide

/-- Two blocks of height 7 with different parents: after the children of the first parent are drained the other block
is not pruned at height 7. -/
theorem sibling_height_lost :
    let hash (n : ℕ) : BlockHash := ⟨leBytes 32 n, leBytes_length 32 n⟩
    let ops := [.queue (bareBlock (hash 3) (hash 1) 7), .queue (bareBlock (hash 4) (hash 2) 7), .drain (hash 1), .prune 7]
    (((ops.foldlM step empty).toOption.bind fun q => q.blocks[hash 4]?).map Block.height) = some 7 := by
  decide +kernel

end QueuedBlocks

end Crosslink.State

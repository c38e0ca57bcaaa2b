import Crosslink.State.Storage
import Crosslink.State.Writer

/-!
# What the operations on the chains do

For each operation of `ChainState` the set of chains that it leaves, in terms of chains that are taken from the set,
forked, extended or shortened. Everything that is shown of all chains over whole runs is shown from these lemmas.
-/

namespace Crosslink.State

open Codec Fallible Bft Staking NonFinalizedState Option

/-! ### Chains -/

namespace Chain

variable (c : Chain)

def hashes : List BlockHash := c.blocks.map fun b => b.hash

def tip? : Option BlockHash := c.blocks.getLast?.map fun b => b.hash

def root? : Option BlockHash := c.blocks.head?.map fun b => b.hash

variable {c} {a b : Chain} {hash : BlockHash}

theorem nonFinalizedTipHash_eq_ok : c.nonFinalizedTipHash = .ok hash ↔ c.tip? = some hash := unwrap_eq_ok

theorem nonFinalizedRootHash_eq_ok : c.nonFinalizedRootHash = .ok hash ↔ c.root? = some hash := unwrap_eq_ok

theorem cmp_eq_ok : a.cmp b = .ok o ↔
    (a.partialCumulativeWork ≠ b.partialCumulativeWork ∧ compare a.partialCumulativeWork b.partialCumulativeWork = o) ∨
      a.partialCumulativeWork = b.partialCumulativeWork ∧ ∃ s t, a.tip? = some s ∧ b.tip? = some t ∧ s ≠ t ∧ compare s t = o := by
  unfold cmp
  by_cases hwork : a.partialCumulativeWork ≠ b.partialCumulativeWork
  · rw [if_pos hwork]
    simp [hwork]
  · rw [if_neg hwork]
    simp only [bind_eq_ok, nonFinalizedTipHash_eq_ok, ensure_eq_ok, pure_eq_ok, not_not.mp hwork, ne_eq, not_true_eq_false,
      false_and, false_or, true_and]
    constructor
    · rintro ⟨s, hs, t, ht, ⟨⟩, hne, hcmp⟩
      exact ⟨s, t, hs, ht, hne, hcmp⟩
    · rintro ⟨s, t, hs, ht, hne, hcmp⟩
      exact ⟨s, hs, t, ht, ⟨⟩, hne, hcmp⟩

theorem cmp_ne_eq (a b : Chain) : a.cmp b ≠ .ok .eq := by
  intro h
  rcases cmp_eq_ok.mp h with ⟨hne, hcmp⟩ | ⟨-, s, t, -, -, hne, hcmp⟩
  · exact hne (compare_eq_iff_eq.mp hcmp)
  · exact hne (compare_eq_iff_eq.mp hcmp)

theorem cmp_swap (h : a.cmp b = .ok .gt) : b.cmp a = .ok .lt := by
  rcases cmp_eq_ok.mp h with ⟨hne, hcmp⟩ | ⟨heq, s, t, hs, ht, hne, hcmp⟩
  · exact cmp_eq_ok.mpr (.inl ⟨hne.symm, compare_lt_iff_lt.mpr (compare_gt_iff_gt.mp hcmp)⟩)
  · exact cmp_eq_ok.mpr (.inr ⟨heq.symm, t, s, ht, hs, hne.symm, compare_lt_iff_lt.mpr (compare_gt_iff_gt.mp hcmp)⟩)

theorem cmp_trans (h : a.cmp b = .ok .lt) (h' : b.cmp c = .ok .lt) : a.cmp c = .ok .lt := by
  rw [cmp_eq_ok] at h h' ⊢
  simp only [compare_lt_iff_lt] at h h' ⊢
  rcases h with ⟨-, hlt⟩ | ⟨heq, s, t, hs, ht, -, hlt⟩ <;> rcases h' with ⟨-, hlt'⟩ | ⟨heq', t', u, ht', hu, -, hlt'⟩
  · exact .inl ⟨(hlt.trans hlt').ne, hlt.trans hlt'⟩
  · exact .inl ⟨(heq' ▸ hlt).ne, heq' ▸ hlt⟩
  · exact .inl ⟨(heq ▸ hlt').ne, heq ▸ hlt'⟩
  · obtain rfl := some.inj (ht.symm.trans ht')
    exact .inr ⟨heq.trans heq', s, u, hs, hu, (hlt.trans hlt').ne, hlt.trans hlt'⟩

end Chain

/-! ### Sets of chains -/

def Ordered (set : List Chain) : Prop := set.Pairwise fun a b => a.cmp b = .ok .lt

/-- A chain comes into a set, some chains go, and the number of chains is limited. -/
def Inserted (old : List Chain) (new : Chain) (keep : Chain → Bool) (set : List Chain) : Prop :=
  ∃ kept : List Chain, kept.Perm ((new :: old).filter keep) ∧ set = limitForks kept ∧ (Ordered old → Ordered kept)

variable {old set : List Chain} {new : Chain}

theorem limitForks_length (set : List Chain) : (limitForks set).length ≤ maxNonFinalizedChainForks := by
  unfold limitForks
  rw [List.length_drop]
  omega

theorem limitForks_eq (h : set.length ≤ maxNonFinalizedChainForks) : limitForks set = set := by
  rw [limitForks, Nat.sub_eq_zero_of_le h, List.drop_zero]

theorem limitForks_sublist (set : List Chain) : (limitForks set).Sublist set := List.drop_sublist _ _

theorem Inserted.subperm (h : Inserted old new keep set) :
    set.Subperm ((new :: old).filter keep) := by
  obtain ⟨kept, hperm, rfl, -⟩ := h
  exact (limitForks_sublist kept).subperm.trans hperm.subperm

theorem Inserted.ordered (h : Inserted old new keep set) (hold : Ordered old) : Ordered set := by
  obtain ⟨kept, -, rfl, hkept⟩ := h
  exact (hkept hold).sublist (limitForks_sublist kept)

theorem Inserted.length_le (h : Inserted old new keep set) :
    set.length ≤ maxNonFinalizedChainForks := by
  obtain ⟨kept, -, rfl, -⟩ := h
  exact limitForks_length kept

theorem insertWith_filter (hf : ∀ all kept, f all = .ok kept → kept = all.filter keep)
    (h : insertWith new f old = .ok set) :
    Inserted old new keep set := by
  unfold insertWith at h
  obtain ⟨all, hall, h⟩ := bind_eq_ok.mp h
  obtain ⟨kept, hkept, h⟩ := bind_eq_ok.mp h
  obtain rfl := pure_eq_ok.mp h
  obtain rfl := hf all kept hkept
  refine ⟨_, (OrderedSet.insert_perm (Chain.cmp_ne_eq new) hall).filter keep, rfl, fun hold => ?_⟩
  exact (OrderedSet.insert_ascending (Chain.cmp_ne_eq new) (fun _ => Chain.cmp_swap) (fun _ _ => Chain.cmp_trans) hold
    hall).filter keep

theorem retainOtherTips_eq_ok (h : retainOtherTips parentHash all = .ok kept) :
    kept = all.filter fun c => c.tip? != some parentHash := by
  refine (OrderedSet.retain_eq (q := fun c => c.tip? != some parentHash) ?_ h).1
  intro c keep hc
  obtain ⟨tip, htip, hc⟩ := bind_eq_ok.mp hc
  obtain rfl := pure_eq_ok.mp hc
  rw [Chain.nonFinalizedTipHash_eq_ok.mp htip]
  simp [bne, beq_eq_decide]

theorem insertWith_retain (h : insertWith new (retainOtherTips parentHash) old = .ok set) :
    Inserted old new (fun c => c.tip? != some parentHash) set :=
  insertWith_filter (fun _ _ => retainOtherTips_eq_ok) h

theorem insertWith_pure (h : insertWith new pure old = .ok set) : Inserted old new (fun _ => true) set :=
  insertWith_filter (fun all kept hkept => by rw [← pure_eq_ok.mp hkept, List.filter_true]) h

/-! ### Finding chains -/

variable {nfs nfs' : NonFinalizedState}

/-- The chain that a block with a given parent is put on: one with that tip, or else a fork. -/
inductive ParentChain (set : List Chain) (parentHash : BlockHash) : Chain → Prop
  | tip (c : Chain) (hc : c ∈ set) (htip : c.tip? = some parentHash) : ParentChain set parentHash c
  | fork (c forked : Chain) (hc : c ∈ set) (hnone : ∀ d ∈ set, d.tip? ≠ some parentHash)
      (hfork : c.fork parentHash = .ok (some forked)) : ParentChain set parentHash forked

theorem parentChain_eq_ok (h : nfs.parentChain parentHash = .ok (some c)) :
    ParentChain nfs.chainSet parentHash c := by
  unfold parentChain at h
  obtain ⟨found, hfound, h⟩ := bind_eq_ok.mp h
  cases found with
  | some chain =>
    obtain rfl := some.inj (pure_eq_ok.mp h)
    obtain ⟨hmem, hfound⟩ := findM?_eq_some hfound
    obtain ⟨tip, htip, heq⟩ := bind_eq_ok.mp hfound
    obtain rfl := of_decide_eq_true (pure_eq_ok.mp heq)
    exact .tip chain (List.mem_reverse.mp hmem) (Chain.nonFinalizedTipHash_eq_ok.mp htip)
  | none =>
    obtain ⟨chain, hmem, hfork⟩ := findSomeM?_eq_some h
    refine .fork chain c (List.mem_reverse.mp hmem) ?_ hfork
    intro d hd htip
    obtain ⟨tip, htip', hne⟩ := bind_eq_ok.mp (findM?_eq_none hfound d (List.mem_reverse.mpr hd))
    refine of_decide_eq_false (pure_eq_ok.mp hne) ?_
    exact some.inj ((Chain.nonFinalizedTipHash_eq_ok.mp htip').symm.trans htip)

theorem findChain_eq_some (h : nfs.findChain p = some c) :
    c ∈ nfs.chainSet ∧ p c = true :=
  ⟨List.mem_reverse.mp (List.mem_of_find?_eq_some h), List.find?_some h⟩

/-! ### Finalizing -/

def Shortened (rootHash : BlockHash) (c c' : Chain) : Prop :=
  ∃ root, c.popRoot = .ok (root, c') ∧ root.block.hash = rootHash

def withRoot (rootHash : BlockHash) (set : List Chain) : List Chain := set.filter fun c => c.root? == some rootHash

theorem insertSides_eq_ok (h : sides.foldlM (insertSides rootHash) set = .ok set')
    (hlen : set.length ≤ maxNonFinalizedChainForks) :
    ∃ ps, List.Forall₂ (Shortened rootHash) (withRoot rootHash sides) ps ∧ set'.Subperm (ps ++ set) ∧
      set'.length ≤ maxNonFinalizedChainForks ∧ (Ordered set → Ordered set') ∧
      (ps.length + set.length ≤ maxNonFinalizedChainForks → set'.Perm (ps ++ set)) := by
  induction sides generalizing set with
  | nil =>
    obtain rfl := foldlM_nil_eq_ok.mp h
    exact ⟨[], .nil, .refl _, hlen, id, fun _ => .refl _⟩
  | cons side sides ih =>
    obtain ⟨set₁, hstep, h⟩ := foldlM_cons_eq_ok.mp h
    unfold insertSides at hstep
    obtain ⟨hash, hhash, hstep⟩ := bind_eq_ok.mp hstep
    rw [Chain.nonFinalizedRootHash_eq_ok] at hhash
    by_cases hroot : hash ≠ rootHash
    · rw [if_pos hroot] at hstep
      obtain rfl := pure_eq_ok.mp hstep
      obtain ⟨ps, hps, hrest⟩ := ih h hlen
      refine ⟨ps, ?_, hrest⟩
      rwa [withRoot, List.filter_cons_of_neg (by simp [hhash, hroot])]
    · rw [if_neg hroot] at hstep
      rw [not_not] at hroot
      obtain ⟨⟨root, rest⟩, hpop, hstep⟩ := bind_eq_ok.mp hstep
      obtain ⟨⟨⟩, hsame, hstep⟩ := bind_eq_ok.mp hstep
      have hinserted := insertWith_pure hstep
      have hordered := hinserted.ordered
      obtain ⟨kept, hperm, rfl, -⟩ := hinserted
      rw [List.filter_true] at hperm
      obtain ⟨ps, hps, hsub, hlen', hordered', hexact⟩ := ih h (limitForks_length kept)
      refine ⟨rest :: ps, ?_, ?_, hlen', hordered' ∘ hordered, ?_⟩
      · rw [withRoot, List.filter_cons_of_pos (by simp [hhash, hroot])]
        exact .cons ⟨root, hpop, ensure_eq_ok.mp hsame⟩ hps
      · have hkept : (limitForks kept).Subperm (rest :: set) := (limitForks_sublist kept).subperm.trans hperm.subperm
        exact hsub.trans (((List.subperm_append_left ps).mpr hkept).trans List.perm_middle.subperm)
      · intro hle
        have hkept := hperm.length_eq
        rw [List.length_cons] at hkept hle
        have hfull : limitForks kept = kept := limitForks_eq (by omega)
        rw [hfull] at hexact
        exact (hexact (by omega)).trans ((hperm.append_left ps).trans List.perm_middle)

/-- What finalizing the lowest block of the best chain does to the set of chains. -/
structure Finalizes (nfs : NonFinalizedState) (root : Chain.PoppedRoot) (nfs' : NonFinalizedState) : Prop where
  best : ∃ best rest sides, nfs.chainSet = sides ++ [best] ∧ best.popRoot = .ok (root, rest) ∧
    ∃ ps, List.Forall₂ (Shortened root.block.hash) (withRoot root.block.hash sides.reverse) ps ∧
      nfs'.chainSet.Subperm (ps ++ if rest.blocks = [] then [] else [rest]) ∧
      (nfs.chainSet.length ≤ maxNonFinalizedChainForks →
        nfs'.chainSet.Perm (ps ++ if rest.blocks = [] then [] else [rest]))
  length_le : nfs'.chainSet.length ≤ maxNonFinalizedChainForks
  ordered : Ordered nfs'.chainSet
  invalidated : nfs'.invalidatedBlocks = nfs.invalidatedBlocks.filter fun x => root.block.height ≤ x.1

theorem finalize_eq_ok (h : nfs.finalize = .ok (root, nfs')) : Finalizes nfs root nfs' := by
  unfold finalize at h
  obtain ⟨best, hbest, h⟩ := bind_eq_ok.mp h
  obtain ⟨⟨root', rest⟩, hpop, h⟩ := bind_eq_ok.mp h
  obtain ⟨sides, hset⟩ := List.getLast?_eq_some_iff.mp (unwrap_eq_ok.mp hbest)
  rw [hset, List.dropLast_concat] at h
  obtain ⟨set₁, hset₁, h⟩ := bind_eq_ok.mp h
  replace hset₁ : set₁ = if rest.blocks = [] then [] else [rest] := by
    by_cases hempty : rest.blocks = []
    · rw [if_neg (not_not.mpr hempty), pure_eq_ok] at hset₁
      rw [if_pos hempty, hset₁]
    · simpa [hempty, insertWith, OrderedSet.insert, limitForks, maxNonFinalizedChainForks, eq_comm] using hset₁
  obtain ⟨set', hsides, h⟩ := bind_eq_ok.mp h
  obtain ⟨rfl, rfl⟩ := Prod.mk.inj (pure_eq_ok.mp h)
  have hlen : set₁.length ≤ 1 := by
    rw [hset₁]
    split_ifs <;> simp
  obtain ⟨ps, hps, hsub, hlen', hordered, hexact⟩ := insertSides_eq_ok hsides (hlen.trans (by decide))
  have hordered₁ : Ordered set₁ := by
    rw [hset₁]
    split_ifs
    · exact List.Pairwise.nil
    · exact List.pairwise_singleton _ _
  refine ⟨⟨best, rest, sides, hset, hpop, ps, hps, hset₁ ▸ hsub, fun hle => hset₁ ▸ hexact ?_⟩, hlen', hordered hordered₁, rfl⟩
  have hcount : ps.length ≤ sides.length := by
    rw [← hps.length_eq, ← sides.length_reverse]
    exact List.length_filter_le _ _
  rw [hset, List.length_append, List.length_singleton] at hle
  omega

/-! ### Operations -/

variable {checks : Bool} {s s' : ChainState}

theorem commitFinalizedDirect_eq_ok {db db' : ZebraDb} (h : db.commitFinalizedDirect checks popped = .ok db') :
    db.writeBlock checks popped = .ok db' := by
  unfold ZebraDb.commitFinalizedDirect at h
  dsimp only at h
  split at h
  all_goals
    obtain ⟨⟨⟩, -, h⟩ := bind_eq_ok.mp h
    obtain ⟨⟨⟩, -, h⟩ := bind_eq_ok.mp h
    exact h

theorem chainStateFinalize_eq_ok (h : s.finalize checks = .ok s') : ∃ root,
    Finalizes s.nonFinalizedState root s'.nonFinalizedState ∧ s.db.writeBlock checks root = .ok s'.db := by
  unfold ChainState.finalize at h
  obtain ⟨⟨root, nfs⟩, hroot, h⟩ := bind_eq_ok.mp h
  obtain ⟨db, hdb, h⟩ := bind_eq_ok.mp h
  obtain rfl := pure_eq_ok.mp h
  exact ⟨root, finalize_eq_ok hroot, commitFinalizedDirect_eq_ok (mapError_eq_ok.mp hdb)⟩

theorem commit_eq_ok (h : s.validateAndCommitNonFinalized checks block spent outcomes = .ok s') :
    ∃ parent new, parent.accept checks ⟨s.db, block, spent⟩ = .ok new ∧
      s'.db = s.db ∧ s'.nonFinalizedState.invalidatedBlocks = s.nonFinalizedState.invalidatedBlocks ∧
      (∀ x ∈ s.nonFinalizedState.invalidatedBlocks, x.1 ≠ block.height) ∧
      (block.previousBlockHash = s.db.finalizedTipHash ∧ parent = Chain.new s.db ∧ s.db.blocks ≠ [] ∧
          Inserted s.nonFinalizedState.chainSet new (fun _ => true) s'.nonFinalizedState.chainSet ∨
        block.previousBlockHash ≠ s.db.finalizedTipHash ∧
          ParentChain s.nonFinalizedState.chainSet block.previousBlockHash parent ∧
          Inserted s.nonFinalizedState.chainSet new (fun c => c.tip? != some block.previousBlockHash)
            s'.nonFinalizedState.chainSet) := by
  have hvalidate : ∀ {parent new}, s.nonFinalizedState.validateAndCommit checks parent ⟨s.db, block, spent⟩ outcomes =
      .ok new → parent.accept checks ⟨s.db, block, spent⟩ = .ok new ∧
        ∀ x ∈ s.nonFinalizedState.invalidatedBlocks, x.1 ≠ block.height := by
    intro parent new hok
    unfold validateAndCommit at hok
    split_ifs at hok with hheight hbefore hparallel
    · obtain ⟨chain, haccept, hok⟩ := bind_eq_ok.mp hok
      obtain rfl := pure_eq_ok.mp hok
      refine ⟨mapError_eq_ok.mp haccept, fun x hx heq => hheight (List.any_eq_true.mpr ⟨x, hx, ?_⟩)⟩
      rw [heq]
      exact beq_self_eq_true _
    · obtain ⟨chain, -, hok⟩ := bind_eq_ok.mp hok
      cases hok
  unfold ChainState.validateAndCommitNonFinalized at h
  obtain ⟨nfs, hnfs, h⟩ := bind_eq_ok.mp h
  obtain rfl := pure_eq_ok.mp h
  split_ifs at hnfs with htip
  · unfold commitNewChain at hnfs
    obtain ⟨height, hheight, hnfs⟩ := bind_eq_ok.mp hnfs
    obtain ⟨new, hnew, hnfs⟩ := bind_eq_ok.mp hnfs
    obtain ⟨set, hset, hnfs⟩ := bind_eq_ok.mp hnfs
    obtain rfl := pure_eq_ok.mp hnfs
    obtain ⟨haccept, hheights⟩ := hvalidate hnew
    refine ⟨_, new, haccept, rfl, rfl, hheights, .inl ⟨htip.symm, rfl, ?_, insertWith_pure (mapError_eq_ok.mp hset)⟩⟩
    rintro hnil
    rw [mapError_eq_ok, unwrap_eq_ok, ZebraDb.finalizedTipHeight] at hheight
    simp [hnil] at hheight
  · unfold commitBlock at hnfs
    dsimp only at hnfs
    obtain ⟨found, hfound, hnfs⟩ := bind_eq_ok.mp hnfs
    cases found with
    | none => cases hnfs
    | some parent =>
      obtain ⟨new, hnew, hnfs⟩ := bind_eq_ok.mp hnfs
      obtain ⟨set, hset, hnfs⟩ := bind_eq_ok.mp hnfs
      obtain rfl := pure_eq_ok.mp hnfs
      obtain ⟨haccept, hheights⟩ := hvalidate hnew
      exact ⟨parent, new, haccept, rfl, rfl, hheights, .inr ⟨Ne.symm htip,
        parentChain_eq_ok (mapError_eq_ok.mp hfound), insertWith_retain (mapError_eq_ok.mp hset)⟩⟩

theorem crosslinkFinalize_eq_some {hash : BlockHash} (h : nfs.crosslinkFinalize hash = some (blocks, nfs')) :
    nfs' = { nfs with chainSet := nfs.chainSet.filter fun c => c.containsBlockHash hash } ∧
      ∃ c ∈ nfs.chainSet, ∃ height, c.heightByHash hash = some height ∧
        blocks = c.blocks.filter fun b => b.height ≤ height := by
  unfold NonFinalizedState.crosslinkFinalize at h
  obtain ⟨c, hc, h⟩ := Option.bind_eq_some_iff.mp h
  obtain ⟨height, hheight, h⟩ := Option.bind_eq_some_iff.mp h
  obtain ⟨rfl, rfl⟩ := Prod.mk.inj (Option.some.inj h)
  exact ⟨rfl, c, (findChain_eq_some hc).1, height, hheight, rfl⟩

theorem chainInvalidateBlock_eq_ok {c new : Chain} {hash : BlockHash}
    (h : c.invalidateBlock hash = .ok (some (new, blocks))) : ∃ height forked, c.heightByHash hash = some height ∧
      c.fork hash = .ok (some forked) ∧ forked.popTip = .ok new ∧ blocks = c.childBlocks height := by
  unfold Chain.invalidateBlock at h
  split at h
  · cases h
  next height hheight =>
    obtain ⟨found, hfork, h⟩ := bind_eq_ok.mp h
    cases found with
    | none => cases h
    | some forked =>
      obtain ⟨popped, hpop, h⟩ := bind_eq_ok.mp h
      obtain ⟨rfl, rfl⟩ := Prod.mk.inj (Option.some.inj (pure_eq_ok.mp h))
      exact ⟨height, forked, hheight, hfork, hpop, rfl⟩

/-- What invalidating a block does: a root cannot be taken out of the set without a panic, and another block is taken
off with all above it. -/
theorem invalidateBlock_eq_ok {hash : BlockHash} (h : nfs.invalidateBlock hash = .ok (some nfs')) :
    ∃ c ∈ nfs.chainSet, ∃ blocks first, c.containsBlockHash hash = true ∧ blocks.head? = some first ∧
      nfs'.invalidatedBlocks = nfs.rememberInvalidated first.height blocks ∧
      (c.root? = some hash ∧ blocks = c.blocks ∧ nfs'.chainSet = nfs.chainSet ∨
        c.root? ≠ some hash ∧ ∃ height forked new, c.heightByHash hash = some height ∧
          c.fork hash = .ok (some forked) ∧ forked.popTip = .ok new ∧ blocks = c.childBlocks height ∧
          Inserted nfs.chainSet new (fun d => !d.containsBlockHash hash) nfs'.chainSet) := by
  unfold NonFinalizedState.invalidateBlock at h
  split at h
  · cases h
  next c hc =>
    obtain ⟨hmem, hcontains⟩ := findChain_eq_some hc
    obtain ⟨rootHash, hroot, h⟩ := bind_eq_ok.mp h
    obtain ⟨⟨set, blocks⟩, hset, h⟩ := bind_eq_ok.mp h
    obtain ⟨first, hfirst, h⟩ := bind_eq_ok.mp h
    obtain rfl := some.inj (pure_eq_ok.mp h)
    rw [Chain.nonFinalizedRootHash_eq_ok] at hroot
    refine ⟨c, hmem, blocks, first, hcontains, unwrap_eq_ok.mp hfirst, rfl, ?_⟩
    by_cases hsame : rootHash = hash
    · rw [if_pos hsame] at hset
      obtain ⟨set', hremove, hset⟩ := bind_eq_ok.mp hset
      obtain ⟨rfl, rfl⟩ := Prod.mk.inj (pure_eq_ok.mp hset)
      exact .inl ⟨hsame ▸ hroot, rfl, OrderedSet.remove_eq (Chain.cmp_ne_eq c) hremove⟩
    · rw [if_neg hsame] at hset
      obtain ⟨found, hfound, hset⟩ := bind_eq_ok.mp hset
      obtain ⟨⟨new, blocks'⟩, hnew, hset⟩ := bind_eq_ok.mp hset
      obtain ⟨set', hinsert, hset⟩ := bind_eq_ok.mp hset
      obtain ⟨rfl, rfl⟩ := Prod.mk.inj (pure_eq_ok.mp hset)
      obtain rfl := unwrap_eq_ok.mp hnew
      obtain ⟨height, forked, hheight, hfork, hpop, rfl⟩ := chainInvalidateBlock_eq_ok hfound
      refine .inr ⟨?_, height, forked, new, hheight, hfork, hpop, rfl, ?_⟩
      · rw [hroot]
        exact fun heq => hsame (some.inj heq)
      · exact insertWith_filter (fun all kept hkept => (pure_eq_ok.mp hkept).symm) hinsert

theorem reconsiderBlock_eq_ok {hash : BlockHash} (h : nfs.reconsiderBlock checks hash db = .ok nfs') :
    ∃ height blocks root parent new, (height, blocks) ∈ nfs.invalidatedBlocks ∧ blocks.head? = some root ∧ root.hash = hash ∧
      (root.previousBlockHash = db.finalizedTipHash ∧ parent = Chain.new db ∧ db.blocks ≠ [] ∨
        root.previousBlockHash ≠ db.finalizedTipHash ∧ ParentChain nfs.chainSet root.previousBlockHash parent) ∧
      blocks.foldlM (Chain.push checks) parent = .ok new ∧
      Inserted nfs.chainSet new (fun c => c.tip? != some root.previousBlockHash) nfs'.chainSet ∧
      nfs'.invalidatedBlocks.Sublist nfs.invalidatedBlocks := by
  unfold reconsiderBlock at h
  split at h
  · cases h
  next height blocks hfind =>
    split at h
    · cases h
    next root hroot =>
      obtain ⟨found, hfound, h⟩ := bind_eq_ok.mp h
      cases found with
      | none => cases h
      | some parent =>
        obtain ⟨new, hnew, h⟩ := bind_eq_ok.mp h
        dsimp only at h
        obtain ⟨set, hset, h⟩ := bind_eq_ok.mp h
        obtain rfl := pure_eq_ok.mp h
        have hhash : root.hash = hash := by
          have hany := List.find?_some hfind
          simpa [hroot] using hany
        refine ⟨height, blocks, root, parent, new, List.mem_of_find?_eq_some hfind, hroot, hhash, ?_,
          mapError_eq_ok.mp hnew, insertWith_retain (mapError_eq_ok.mp hset), ?_⟩
        · rw [mapError_eq_ok] at hfound
          split_ifs at hfound with htip hheight
          · obtain rfl := some.inj (pure_eq_ok.mp hfound)
            refine .inl ⟨htip, rfl, ?_⟩
            rintro hnil
            simp [ZebraDb.finalizedTipHeight, hnil] at hheight
          · cases hfound
          · exact .inr ⟨htip, parentChain_eq_ok hfound⟩
        · split
          · exact List.filter_sublist
          · exact .refl _

end Crosslink.State

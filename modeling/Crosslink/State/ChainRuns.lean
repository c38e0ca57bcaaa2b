import Crosslink.State.ChainShape

/-!
# Runs of the write task

What every sequence of operations keeps. That all chains lie on one tree, with the database, holds in every run. That no
chain is empty and none ends inside another one holds in the runs whose steps are orderly: a block is committed and
reconsidered only when no chain has it, and invalidated only when no other block was put on its parent.
-/

namespace Crosslink.State

open Codec Fallible Bft Staking Relation List

variable {T : HashTree.Tree Block} {checks : Bool} {s s' : ChainState} {e : ChainState.Event} {hash : BlockHash}

namespace ChainState

def FromTree (T : HashTree.Tree Block) : Event → Prop
  | .commit block _ _ => T.Mem block
  | _ => True

def Orderly (s : ChainState) : Event → Prop
  | .commit block _ _ => ∀ c ∈ s.nonFinalizedState.chainSet, block.hash ∉ c.hashes
  | .reconsider hash => ∀ c ∈ s.nonFinalizedState.chainSet, hash ∉ c.hashes
  | .invalidate hash => ∀ c ∈ s.nonFinalizedState.chainSet, ∀ b ∈ c.blocks, b.hash = hash →
      ∀ d ∈ s.nonFinalizedState.chainSet, b.previousBlockHash ∈ d.hashes → hash ∈ d.hashes
  | .finalize | .crosslinkFinalize _ => True

/-- What holds of the state after an operation. -/
structure Keeps (T : HashTree.Tree Block) (s : ChainState) (e : Event) (s' : ChainState) : Prop where
  onTree : OnTree T s'
  spread : s.Orderly e → Spread s.nonFinalizedState.chainSet → Spread s'.nonFinalizedState.chainSet

theorem Keeps.same (h : OnTree T s) : Keeps T s e s := ⟨h, fun _ hs => hs⟩

end ChainState

open ChainState

/-! ### Blocks come in -/

theorem OnTree.inserted (h : OnTree T s) (hnew : Attached T s.db new)
    (hinserted : Inserted s.nonFinalizedState.chainSet new keep nfs.chainSet)
    (hentries : ∀ x ∈ nfs.invalidatedBlocks, x ∈ s.nonFinalizedState.invalidatedBlocks ∨ TakenOff T x.2) :
    OnTree T { s with nonFinalizedState := nfs } where
  db := h.db
  chains c hc := by
    rcases mem_cons.mp (mem_of_mem_filter (hinserted.subperm.subset hc)) with rfl | hc
    · exact hnew
    · exact h.chains c hc
  entries x hx := (hentries x hx).elim (h.entries x) id
  length_le := hinserted.length_le

theorem OnTree.committed (h : OnTree T s) (hb : T.Mem block)
    (hok : s.validateAndCommitNonFinalized checks block spent outcomes = .ok s') :
    Keeps T s (.commit block spent outcomes) s' := by
  obtain ⟨parent, new, haccept, hdb, hinvalidated, -, hcases⟩ := commit_eq_ok hok
  obtain ⟨hparent, keep, hinserted, hkeep⟩ : ParentOf s block.previousBlockHash parent ∧ ∃ keep : Chain → Bool,
      Inserted s.nonFinalizedState.chainSet new keep s'.nonFinalizedState.chainSet ∧
        ∀ d, parent.blocks ≠ [] → keep d = true → d.tip? ≠ some block.previousBlockHash := by
    rcases hcases with ⟨htip, hnew, hne, hinserted⟩ | ⟨-, hparent, hinserted⟩
    · exact ⟨.inl ⟨htip, hnew, hne⟩, _, hinserted, fun _ hblocks => absurd (hnew ▸ rfl) hblocks⟩
    · exact ⟨.inr hparent, _, hinserted, fun d _ hd => bne_iff_ne.mp hd⟩
  obtain ⟨hnew, b, hblocks, hblock⟩ := h.accept hb hparent haccept
  obtain ⟨db, nfs⟩ := s'
  obtain rfl : db = s.db := hdb
  refine ⟨h.inserted hnew hinserted fun x hx => .inl (hinvalidated ▸ hx), fun horderly hs => ?_⟩
  refine hs.inserted hinserted (by simp [hblocks]) fun d hd hd' => ?_
  refine hnew.apart (h.chains d hd) hblocks rfl (hblock ▸ horderly d hd) fun t ht => ?_
  exact Spread.tip_notMem h hs hparent hd (fun hne => hkeep d hne hd') ht

theorem OnTree.reconsidered (h : OnTree T s) (hok : s.nonFinalizedState.reconsiderBlock checks hash s.db = .ok nfs) :
    Keeps T s (.reconsider hash) { s with nonFinalizedState := nfs } := by
  obtain ⟨height, blocks, root, parent, new, hentry, hroot, rfl, hcases, hpush, hinserted, hsub⟩ :=
    reconsiderBlock_eq_ok hok
  have hparent : ParentOf s root.previousBlockHash parent := hcases.imp id And.right
  have hoff : TakenOff T blocks := h.entries _ hentry
  obtain ⟨hnew, hblocks⟩ := h.reconsider hoff hroot hparent hpush
  refine ⟨h.inserted hnew hinserted fun x hx => .inl (hsub.subset hx), fun horderly hs => ?_⟩
  have hne : new.blocks ≠ [] := by
    rw [hblocks]
    rintro hnil
    rw [(append_eq_nil_iff.mp hnil).2] at hroot
    cases hroot
  refine hs.inserted hinserted hne fun d hd hd' => ?_
  refine hnew.apart (h.chains d hd) hblocks hroot (horderly d hd) fun t ht => ?_
  exact Spread.tip_notMem h hs hparent hd (fun _ => bne_iff_ne.mp hd') ht

/-! ### Blocks go -/

theorem mem_rememberInvalidated {nfs : NonFinalizedState} (h : x ∈ nfs.rememberInvalidated height blocks) :
    x ∈ nfs.invalidatedBlocks ∨ x = (height, blocks) := by
  unfold NonFinalizedState.rememberInvalidated at h
  replace h := mem_of_mem_drop h
  split_ifs at h
  · obtain ⟨y, hy, hx⟩ := mem_map.mp h
    split_ifs at hx
    · exact .inr hx.symm
    · exact .inl (hx ▸ hy)
  · simpa using h

theorem Attached.takenOff {db : ZebraDb} (h : Attached T db c) (hdb : db.blocks ≠ []) (i : ℕ) :
    TakenOff T (c.blocks.drop i) := by
  refine ⟨db.blocks ++ (c.blocks.take i).map (·.toBlock), by simp [hdb], ?_⟩
  rw [append_assoc, ← map_append, take_append_drop]
  exact h.path

theorem OnTree.invalidated (h : OnTree T s) (hok : s.nonFinalizedState.invalidateBlock hash = .ok (some nfs)) :
    Keeps T s (.invalidate hash) { s with nonFinalizedState := nfs } := by
  obtain ⟨c, hc, blocks, first, hcontains, -, hinvalidated, hcases⟩ := invalidateBlock_eq_ok hok
  have hattached := h.chains c hc
  have hentries : TakenOff T blocks → ∀ x ∈ nfs.invalidatedBlocks,
      x ∈ s.nonFinalizedState.invalidatedBlocks ∨ TakenOff T x.2 := by
    intro hoff x hx
    rw [hinvalidated] at hx
    rcases mem_rememberInvalidated hx with hx | rfl
    · exact .inl hx
    · exact .inr hoff
  rcases hcases with ⟨-, rfl, hset⟩ | ⟨-, height, forked, new, hheight, hfork, hpop, rfl, hinserted⟩
  · have hoff := hattached.takenOff h.db.ne_nil 0
    exact ⟨⟨h.db, fun d hd => h.chains d (hset ▸ hd), fun x hx => (hentries hoff x hx).elim (h.entries x) id,
      hset ▸ h.length_le⟩, fun _ hs => by rwa [hset]⟩
  · obtain ⟨b, hb, hhash, rfl⟩ := (hattached.keyed _ _).mp hheight
    obtain ⟨i, hi⟩ := mem_iff_getElem?.mp hb
    have hoff := hattached.childBlocks_eq hi ▸ hattached.takenOff h.db.ne_nil i
    obtain ⟨hforked, hinitial, htip⟩ := hattached.fork hfork
    obtain ⟨hne, b', hblocks, -⟩ := popTip_blocks hpop
    refine ⟨h.inserted (hforked.popTip hpop) hinserted (hentries hoff), fun horderly hs => ?_⟩
    refine hs.inserted hinserted hne fun d hd hd' => ?_
    have hd' : hash ∉ d.hashes := by
      rw [← (h.chains d hd).contains_iff]
      simpa using hd'
    refine ⟨fun t ht hmem => ?_, fun t ht hmem => ?_⟩
    · obtain ⟨last, hlast, rfl⟩ := Option.map_eq_some_iff.mp ht
      have hlink : b'.previousBlockHash = last.hash := by
        have := hforked.linked
        rw [hblocks] at this
        exact (isChain_append.mp this).2.2 last hlast b' rfl
      have hhash' : b'.hash = hash := by simpa [Chain.tip?, hblocks] using htip
      have hmem' : b' ∈ c.blocks := hinitial.subset (by simp [hblocks])
      exact hd' (horderly c hc b' hmem' hhash' d hd (hlink ▸ hmem))
    · have hne : d ≠ c := by
        rintro rfl
        exact hd' (hattached.contains_iff.mp hcontains)
      obtain ⟨x, hx, rfl⟩ := mem_map.mp hmem
      refine (hs.apart.forall hd hc hne).1 _ ht (mem_map_of_mem (hinitial.subset ?_))
      exact hblocks ▸ mem_append_left _ hx

theorem OnTree.crosslinkFinalized (h : OnTree T s)
    (hok : s.nonFinalizedState.crosslinkFinalize hash = some (blocks, nfs)) :
    Keeps T s (.crosslinkFinalize hash) { s with nonFinalizedState := nfs } := by
  obtain ⟨rfl, -⟩ := crosslinkFinalize_eq_some hok
  refine ⟨⟨h.db, fun c hc => h.chains c (mem_of_mem_filter hc), h.entries, ?_⟩, fun _ hs => ?_⟩
  · exact (length_filter_le _ _).trans h.length_le
  · exact hs.subperm filter_sublist.subperm

/-! ### Blocks become final -/

theorem Attached.shortened {db db' : ZebraDb} (h : Attached T db c) (hroot : T.Mem root)
    (hshort : Shortened root.hash c c') (hdb : db'.blocks = db.blocks ++ [root]) : Attached T db' c' := by
  obtain ⟨popped, hpop, hhash⟩ := hshort
  refine h.popRoot hpop (hdb.trans ?_)
  have hmem : popped.block ∈ c.blocks := (popRoot_eq_ok hpop).1 ▸ mem_cons_self
  rw [(h.mem hmem).eq hroot hhash]

theorem Shortened.blocks_eq (h : Shortened hash c c') : ∃ b, c.blocks = b :: c'.blocks ∧ b.hash = hash := by
  obtain ⟨popped, hpop, hhash⟩ := h
  exact ⟨popped.block, (popRoot_eq_ok hpop).1, hhash⟩

theorem Shortened.apart (hc : Shortened hash c c') (hd : Shortened hash d d') (h : Apart c d) :
    Apart c' d' := by
  have hhalf : ∀ {c c' d d' : Chain}, Shortened hash c c' → Shortened hash d d' → Apart c d →
      ∀ t, c'.tip? = some t → t ∉ d'.hashes := by
    intro c c' d d' hc hd h t ht hmem
    obtain ⟨b, hb, -⟩ := hc.blocks_eq
    obtain ⟨b', hb', -⟩ := hd.blocks_eq
    obtain ⟨last, hlast, rfl⟩ := Option.map_eq_some_iff.mp ht
    refine h.1 last.hash ?_ ?_
    · rw [Chain.tip?, hb, ← singleton_append, getLast?_append, hlast]
      rfl
    · rw [Chain.hashes, hb']
      exact mem_cons_of_mem _ hmem
  exact ⟨hhalf hc hd h, hhalf hd hc h.symm⟩

theorem Finalizes.chains (h : Finalizes nfs root nfs') :
    ∃ best rest sides ps, nfs.bestChain = some best ∧ (sides ++ [best]).Subperm nfs.chainSet ∧
      best.popRoot = .ok (root, rest) ∧ List.Forall₂ (Shortened root.block.hash) sides ps ∧
      nfs'.chainSet.Subperm (ps ++ if rest.blocks = [] then [] else [rest]) := by
  obtain ⟨best, rest, sides, hset, hpop, ps, hps, hsub, -⟩ := h.best
  refine ⟨best, rest, _, ps, by simp [NonFinalizedState.bestChain, hset], ?_, hpop, hps, hsub⟩
  rw [hset]
  refine (subperm_append_right [best]).mpr ?_
  exact filter_sublist.subperm.trans (reverse_perm sides).subperm

theorem OnTree.finalized (h : OnTree T s) (hok : s.finalize checks = .ok s') : Keeps T s .finalize s' := by
  obtain ⟨root, hfinalizes, hwrite⟩ := chainStateFinalize_eq_ok hok
  obtain ⟨best, rest, sides, ps, -, hall, hpop, hps, hsub⟩ := hfinalizes.chains
  have hdb := Storage.writeBlock_blocks hwrite
  have hbest : best ∈ s.nonFinalizedState.chainSet := hall.subset (by simp)
  have hsides : ∀ c ∈ sides, c ∈ s.nonFinalizedState.chainSet := fun c hc => hall.subset (mem_append_left _ hc)
  have hrest : Shortened root.block.hash best rest := ⟨root, hpop, rfl⟩
  have hmem : T.Mem root.block.toBlock :=
    (h.chains best hbest).mem ((popRoot_eq_ok hpop).1 ▸ mem_cons_self)
  refine ⟨⟨?_, fun c hc => ?_, fun x hx => ?_, hfinalizes.length_le⟩, fun _ hs => ?_⟩
  · have hpath := (h.chains best hbest).popRoot hpop hdb
    exact hpath.path.initial (prefix_append _ _) (by simp [hdb])
  · rcases mem_append.mp (hsub.subset hc) with hc | hc
    · obtain ⟨d, hd, hshort⟩ := OrderedSet.exists_of_mem_right hps hc
      exact (h.chains d (hsides d hd)).shortened hmem hshort hdb
    · split_ifs at hc
      · cases hc
      · obtain rfl := mem_singleton.mp hc
        exact (h.chains best hbest).shortened hmem hrest hdb
  · rw [hfinalizes.invalidated] at hx
    exact h.entries x (mem_of_mem_filter hx)
  · have hapart := (hs.subperm hall).apart
    refine Spread.subperm ⟨fun c hc => ?_, ?_⟩ hsub
    · rcases mem_append.mp hc with hc | hc
      · -- a side chain that is used up would end inside the best chain
        obtain ⟨d, hd, hshort⟩ := OrderedSet.exists_of_mem_right hps hc
        obtain ⟨b, hb, hhash⟩ := hshort.blocks_eq
        intro hnil
        refine ((pairwise_append.mp hapart).2.2 d hd best (by simp)).1 root.block.hash ?_ ?_
        · rw [Chain.tip?, hb, hnil, ← hhash]
          rfl
        · rw [Chain.hashes, (popRoot_eq_ok hpop).1]
          exact mem_cons_self
      · split_ifs at hc with hnil
        · cases hc
        · exact mem_singleton.mp hc ▸ hnil
    · have hall₂ : List.Forall₂ (Shortened root.block.hash) (sides ++ [best]) (ps ++ [rest]) :=
        rel_append hps (.cons hrest .nil)
      refine (OrderedSet.pairwise_of_forall₂ hall₂ hapart fun _ _ hR hc hd => hc.apart hd hR).sublist ?_
      refine List.Sublist.append_left ?_ ps
      split_ifs
      · exact nil_sublist _
      · exact .refl _

theorem finalize_writes (h : s.finalize checks = .ok s') : ∃ best b post, s.nonFinalizedState.bestChain = some best ∧
    best.blocks = b :: post ∧ s'.db.blocks = s.db.blocks ++ [b.toBlock] := by
  obtain ⟨root, hfinalizes, hwrite⟩ := chainStateFinalize_eq_ok h
  obtain ⟨best, rest, sides, ps, hbest, -, hpop, -, -⟩ := hfinalizes.chains
  exact ⟨best, root.block, rest.blocks, hbest, (popRoot_eq_ok hpop).1, Storage.writeBlock_blocks hwrite⟩

/-! ### Runs -/

theorem OnTree.step (h : OnTree T s) (he : FromTree T e) (hstep : s.step checks e = .ok s') : Keeps T s e s' := by
  cases e with
  | commit block spent outcomes =>
    simp only [ChainState.step] at hstep
    split at hstep
    next hok =>
      obtain rfl := Except.ok.inj hstep
      exact h.committed he hok
    · exact Except.ok.inj hstep ▸ .same h
    · cases hstep
  | finalize => exact h.finalized hstep
  | crosslinkFinalize hash =>
    simp only [ChainState.step] at hstep
    split at hstep
    next hok =>
      obtain rfl := Except.ok.inj hstep
      exact h.crosslinkFinalized hok
    · exact Except.ok.inj hstep ▸ .same h
  | invalidate hash =>
    obtain ⟨found, hok, hstep⟩ := bind_eq_ok.mp hstep
    cases found with
    | some nfs =>
      obtain rfl := pure_eq_ok.mp hstep
      exact h.invalidated hok
    | none =>
      obtain rfl := pure_eq_ok.mp hstep
      exact .same h
  | reconsider hash =>
    simp only [ChainState.step] at hstep
    split at hstep
    next hok =>
      obtain rfl := Except.ok.inj hstep
      exact h.reconsidered hok
    · exact Except.ok.inj hstep ▸ .same h
    · cases hstep

namespace ChainState

def Runs (checks : Bool) (Q : ChainState → Event → Prop) : ChainState → ChainState → Prop :=
  ReflTransGen fun s s' => ∃ e, Q s e ∧ s.step checks e = .ok s'

/-- A node that has just been started: there are no chains above the database. -/
def started (db : ZebraDb) : ChainState := ⟨db, ⟨[], []⟩⟩

/-- The shape that the set of chains should have. -/
structure WellShaped (s : ChainState) : Prop where
  nonempty : ∀ c ∈ s.nonFinalizedState.chainSet, c.blocks ≠ []
  rooted : ∀ c ∈ s.nonFinalizedState.chainSet, ∀ b, c.blocks.head? = some b →
    b.previousBlockHash = s.db.finalizedTipHash
  linked : ∀ c ∈ s.nonFinalizedState.chainSet, c.blocks.IsChain fun a b => b.previousBlockHash = a.hash
  tips : s.nonFinalizedState.chainSet.Pairwise fun c d => c.tip? ≠ d.tip?
  prefixFree : s.nonFinalizedState.chainSet.Pairwise fun c d => ¬ c.hashes <+: d.hashes ∧ ¬ d.hashes <+: c.hashes
  limit : s.nonFinalizedState.chainSet.length ≤ maxNonFinalizedChainForks

end ChainState

theorem OnTree.started {db : ZebraDb} (h : T.Path db.blocks) : OnTree T (ChainState.started db) :=
  ⟨h, nofun, nofun, Nat.zero_le _⟩

theorem Apart.not_initial (h : Apart c d) (hc : c.blocks ≠ []) : ¬ c.hashes <+: d.hashes := by
  obtain ⟨last, hlast⟩ : ∃ b, c.blocks.getLast? = some b := ⟨_, getLast?_eq_some_getLast hc⟩
  intro hinitial
  refine h.1 last.hash (by rw [Chain.tip?, hlast, Option.map_some]) (hinitial.subset ?_)
  exact mem_map_of_mem (mem_of_getLast? hlast)

theorem OnTree.wellShaped (h : OnTree T s) (hs : Spread s.nonFinalizedState.chainSet) : s.WellShaped where
  nonempty := hs.nonempty
  rooted c hc b hb := by
    obtain ⟨tip, htip⟩ : ∃ p, s.db.blocks.getLast? = some p := ⟨_, getLast?_eq_some_getLast h.db.ne_nil⟩
    have hlink := (isChain_append.mp (h.chains c hc).path.linked).2.2 tip htip b.toBlock (by simp [hb])
    rw [ZebraDb.finalizedTipHash, htip]
    exact hlink.1
  linked c hc := (h.chains c hc).linked
  tips := by
    refine hs.apart.imp_of_mem fun {c d} hc hd hapart heq => ?_
    obtain ⟨last, hlast⟩ : ∃ b, d.blocks.getLast? = some b := ⟨_, getLast?_eq_some_getLast (hs.nonempty d hd)⟩
    have htip : d.tip? = some last.hash := by rw [Chain.tip?, hlast, Option.map_some]
    exact hapart.1 last.hash (heq.trans htip) (mem_map_of_mem (mem_of_getLast? hlast))
  prefixFree := hs.apart.imp_of_mem fun hc hd hapart =>
    ⟨hapart.not_initial (hs.nonempty _ hc), hapart.symm.not_initial (hs.nonempty _ hd)⟩
  limit := h.length_le

/-- In every run whose operations are orderly the set of chains has its shape in every state. -/
theorem wellShaped_of_orderly {db : ZebraDb} (hdb : T.Path db.blocks)
    (hrun : Runs checks (fun s e => FromTree T e ∧ s.Orderly e) (ChainState.started db) s) : s.WellShaped := by
  have hkeep : OnTree T s ∧ Spread s.nonFinalizedState.chainSet := by
    induction hrun with
    | refl => exact ⟨OnTree.started hdb, nofun, List.Pairwise.nil⟩
    | tail _ hstep ih =>
      obtain ⟨e, ⟨he, horderly⟩, hstep⟩ := hstep
      have hkeeps := ih.1.step he hstep
      exact ⟨hkeeps.onTree, hkeeps.spread horderly ih.2⟩
  exact hkeep.1.wellShaped hkeep.2

/-! ### Blocks on blocks -/

def siblingBlock (height : ℕ) : Block := { sampleBlock height [] with hash := bytesNo 32 (2000 + height) }

/-- Two blocks on the genesis block, one on the first of them, and two on that one. -/
def sampleTree : HashTree.Tree Block :=
  .ofList (sampleBlock 0 []) [sampleBlock 1 [], sampleBlock 2 [], sampleBlock 3 [], siblingBlock 1, siblingBlock 3]
    (by decide +kernel) rfl

def genesisDb : ZebraDb := sampleDb 0 .active []

theorem genesisDb_path : sampleTree.Path genesisDb.blocks := HashTree.Tree.Path.genesis sampleTree

def commitOf (b : Block) : Event := .commit b Table.empty ⟨true, true⟩

theorem sampleTree_commitOf
    (h : b ∈ [sampleBlock 0 [], sampleBlock 1 [], sampleBlock 2 [], sampleBlock 3 [], siblingBlock 1, siblingBlock 3]) :
    FromTree sampleTree (commitOf b) := HashTree.Tree.mem_ofList h

instance (s : ChainState) (e : Event) : Decidable (s.Orderly e) := by
  cases e <;> (unfold ChainState.Orderly; infer_instance)

/-- Two chains on the genesis block. -/
theorem wellShaped_of_orderly_siblings : ∃ s, Runs true (fun s e => FromTree sampleTree e ∧ s.Orderly e)
    (ChainState.started genesisDb) s ∧ s.nonFinalizedState.chainSet.length = 2 ∧ s.WellShaped := by
  obtain ⟨s₁, h₁, hcheck⟩ := exists_ok_of_any (x := (ChainState.started genesisDb).step true (commitOf (sampleBlock 1 [])))
    (p := fun s₁ : ChainState => decide (s₁.Orderly (commitOf (siblingBlock 1))) &&
      (s₁.step true (commitOf (siblingBlock 1))).toOption.any fun s₂ => s₂.nonFinalizedState.chainSet.length == 2)
    (by decide +kernel)
  obtain ⟨horderly, hcheck⟩ := Bool.and_eq_true_iff.mp hcheck
  obtain ⟨s₂, h₂, hlength⟩ := exists_ok_of_any hcheck
  have hrun : Runs true (fun s e => FromTree sampleTree e ∧ s.Orderly e) (ChainState.started genesisDb) s₂ :=
    .tail (.single ⟨commitOf (sampleBlock 1 []), ⟨sampleTree_commitOf (by simp), fun _ hc => nomatch hc⟩, h₁⟩)
      ⟨commitOf (siblingBlock 1), ⟨sampleTree_commitOf (by simp), of_decide_eq_true horderly⟩, h₂⟩
  exact ⟨s₂, hrun, beq_iff_eq.mp hlength, wellShaped_of_orderly genesisDb_path hrun⟩

theorem runs_of_foldlM {events : List Event} (hQ : ∀ s, ∀ e ∈ events, Q s e)
    (h : events.foldlM (fun s e => s.step checks e) s = .ok s') : Runs checks Q s s' := by
  induction events generalizing s with
  | nil =>
    obtain rfl := foldlM_nil_eq_ok.mp h
    exact .refl
  | cons e events ih =>
    obtain ⟨s₁, hstep, h⟩ := foldlM_cons_eq_ok.mp h
    exact .head ⟨e, hQ s e mem_cons_self, hstep⟩ (ih (fun s e he => hQ s e (mem_cons_of_mem _ he)) h)

def invalidateSibling : List Event :=
  [commitOf (sampleBlock 1 []), commitOf (sampleBlock 2 []), commitOf (sampleBlock 3 []), commitOf (siblingBlock 3),
    .invalidate (sampleBlock 3 []).hash]

/-- The parent stays as a chain of its own, which the other block extends. -/
theorem invalidate_leaves_shorter_chain : ∃ s, Runs true (fun _ e => FromTree sampleTree e) (ChainState.started genesisDb) s ∧
    ¬ s.WellShaped := by
  obtain ⟨s, hrun, hs⟩ := exists_ok_of_any
    (x := invalidateSibling.foldlM (fun s e => s.step true e) (ChainState.started genesisDb))
    (p := fun s => s.nonFinalizedState.chainSet.map Chain.hashes ==
      [[(sampleBlock 1 []).hash, (sampleBlock 2 []).hash],
        [(sampleBlock 1 []).hash, (sampleBlock 2 []).hash, (siblingBlock 3).hash]])
    (by decide +kernel)
  refine ⟨s, runs_of_foldlM (fun _ e he => ?_) hrun, fun hshape => ?_⟩
  · simp only [invalidateSibling, mem_cons, not_mem_nil, or_false] at he
    obtain rfl | rfl | rfl | rfl | rfl := he
    all_goals first | exact sampleTree_commitOf (by simp) | trivial
  · have hfree : (s.nonFinalizedState.chainSet.map Chain.hashes).Pairwise fun c d => ¬ c <+: d ∧ ¬ d <+: c :=
      pairwise_map.mpr hshape.prefixFree
    rw [beq_iff_eq.mp hs] at hfree
    exact (pairwise_pair.mp hfree).1 ⟨[(siblingBlock 3).hash], rfl⟩

end Crosslink.State

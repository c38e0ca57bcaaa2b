import Crosslink.Lib.TwoEnded
import Crosslink.NewNet.Sequence

/-!
# The queue of blocks to commit

A block that a peer sends waits in a queue until its parent is known. The queue has room for ten: when it is full a
block that no other waits for makes room. At the end of each turn of the sync loop the queue is gone through by height,
every block whose parent is known is handed to the state and leaves the queue whatever the state says, and if there was
no such block the queue is cleared.
-/

namespace Crosslink.NewNet

open Codec Fallible Bft TwoEnded List

def maxBlocksToQueueToCommit : ℕ := 10

/-- `known` is the answer of the state to `KnownBlock`; an error counts as no. -/
def isParentInChains (chains : NearTipChains) (known : BlockHash → Bool) (parentHash : BlockHash) : Bool :=
  chains.chains.any (·.blocks.any (·.thisHash = parentHash)) || known parentHash

/-! ### Receiving a block -/

/-- What deserialisation makes of the bytes of a block. -/
structure ReceivedBlock where
  hash : BlockHash
  previousBlockHash : BlockHash
  coinbaseHeight : Option ℕ

/-- The parts of a block message in the order they are read, each absent if it cannot be read. -/
structure BlockMessage where
  allegedHeight : Option ℕ
  allegedHash : Option BlockHash
  parentHash : Option BlockHash
  block : Option ReceivedBlock

namespace CommitQueue

def isTail (queue : List ShadowBlock) (b : ShadowBlock) : Bool := !queue.any (·.parentHash = b.thisHash)

/-- The block that makes room for a child of `parentHash`: the first tail that cannot be committed yet, else the last
tail if the new block can be committed. -/
def evictIdx (chains : NearTipChains) (known : BlockHash → Bool) (queue : List ShadowBlock) (parentHash : BlockHash) :
    Option ℕ :=
  let spare (i : ℕ) := queue[i]?.any fun b => b.thisHash ≠ parentHash && isTail queue b
  let waits (i : ℕ) := queue[i]?.any fun b => !isParentInChains chains known b.parentHash
  ((List.range queue.length).find? fun i => spare i && waits i).or
    (if isParentInChains chains known parentHash then ((List.range queue.length).filter spare).getLast? else none)

def makeRoom (chains : NearTipChains) (known : BlockHash → Bool) (queue : List ShadowBlock) (parentHash : BlockHash) :
    Option (List ShadowBlock) :=
  if queue.length < maxBlocksToQueueToCommit then some queue
  else (evictIdx chains known queue parentHash).map (swapRemove queue)

/-- A message that is dropped, or that kills the connection, leaves the queue as it is. -/
def receiveBlock (chains : NearTipChains) (known : BlockHash → Bool) (queue : List ShadowBlock) (msg : BlockMessage) :
    Except Panic (List ShadowBlock) := do
  if chains.tipHeight = none then return queue
  let some allegedHeight := msg.allegedHeight | return queue
  let best ← getIdx chains.chains 0
  let base ← getIdx best.blocks 0
  if allegedHeight < base.thisHeight then return queue
  if allegedHeight ≤ chains.finalizedHeight then return queue
  let some allegedHash := msg.allegedHash | return queue
  if queue.any (·.thisHash = allegedHash) then return queue
  if chains.chains.any (·.blocks.any (·.thisHash = allegedHash)) then return queue
  let some parentHash := msg.parentHash | return queue
  if !isParentInChains chains known parentHash && !queue.any (·.thisHash = parentHash) then return queue
  let some block := msg.block | return queue
  if block.hash ≠ allegedHash then return queue
  if block.previousBlockHash ≠ parentHash then return queue
  let some height := block.coinbaseHeight | return queue
  if height ≠ allegedHeight then return queue
  let some room := makeRoom chains known queue parentHash | return queue
  return room ++ [⟨block.hash, block.previousBlockHash, height⟩]

/-! ### The commit pass -/

inductive CommitResult
  | committed
  | duplicate
  | other
  deriving DecidableEq

def CommitResult.keeps : CommitResult → Bool
  | .committed => false
  | .duplicate => false
  | .other => false

/-- What the state answers while one block of the queue is looked at: which blocks it knows, and what comes of the
commit if there is one. -/
structure Visit where
  known : BlockHash → Bool
  result : CommitResult

/-- The blocks that stay, and whether any block could make progress. -/
def retain (chains : NearTipChains) (visits : ℕ → Visit) : ℕ → List ShadowBlock → List ShadowBlock × Bool
  | _, [] => ([], false)
  | k, b :: queue =>
    let (kept, progress) := retain chains visits (k + 1) queue
    if isParentInChains chains (visits k).known b.parentHash then
      (if (visits k).result.keeps then b :: kept else kept, true)
    else (b :: kept, progress)

def byHeight (queue : List ShadowBlock) : List ShadowBlock := queue.insertionSort fun b c => b.thisHeight ≤ c.thisHeight

def commitPass (chains : NearTipChains) (visits : ℕ → Visit) (queue : List ShadowBlock) : List ShadowBlock :=
  let (kept, progress) := retain chains visits 0 (byHeight queue)
  if 0 < kept.length ∧ ¬ progress then [] else kept

/-! ### The loop -/

def receiveBlocks (chains : NearTipChains) (messages : List ((BlockHash → Bool) × BlockMessage))
    (queue : List ShadowBlock) : Except Panic (List ShadowBlock) :=
  messages.foldlM (fun queue m => receiveBlock chains m.1 queue m.2) queue

/-- What one turn of the sync loop meets: the chains near the tip, whether a status is due, the block messages, and
the answers of the state during the commit pass; from the length of the queue on they are the answers after it. -/
structure Tick where
  chains : NearTipChains
  statusDue : Bool
  messages : List ((BlockHash → Bool) × BlockMessage)
  visits : ℕ → Visit

namespace Tick

variable (t : Tick) (queue : List ShadowBlock)

def start : Except Panic Unit := do
  ensure (t.chains.tipHeight ≠ none)
  if t.statusDue then ensure (queue.length < maxBlocksToQueueToCommit)

def receive : Except Panic (List ShadowBlock) := receiveBlocks t.chains t.messages queue

def step : Except Panic (List ShadowBlock) := do
  t.start queue
  let queue ← t.receive queue
  return commitPass t.chains t.visits queue

end Tick

def run (ticks : List Tick) : Except Panic (List ShadowBlock) := ticks.foldlM (fun queue t => t.step queue) []

/-! ### What a message does -/

variable {chains : NearTipChains} {known : BlockHash → Bool} {queue queue' : List ShadowBlock} {parentHash : BlockHash}

theorem isTail_iff : isTail queue b = true ↔ ∀ c ∈ queue, c.parentHash ≠ b.thisHash := by
  simp [isTail]

theorem evictIdx_eq_some (h : evictIdx chains known queue parentHash = some i) :
    ∃ e, queue[i]? = some e ∧ e.thisHash ≠ parentHash ∧ ∀ c ∈ queue, c.parentHash ≠ e.thisHash := by
  -- both searches ask for this
  have hspare : (queue[i]?.any fun b => b.thisHash ≠ parentHash && isTail queue b) = true := by
    rcases Option.or_eq_some_iff.mp h with h | ⟨-, h⟩
    · have hboth := List.find?_some h
      exact (Bool.and_eq_true_iff.mp hboth).1
    · split_ifs at h
      exact (List.mem_filter.mp (List.mem_of_getLast? h)).2
  obtain ⟨e, he, hboth⟩ := (Option.any_eq_true ..).mp hspare
  simp only [ne_eq, Bool.and_eq_true, decide_eq_true_eq, isTail_iff] at hboth
  exact ⟨e, he, hboth⟩

theorem makeRoom_eq_some (h : makeRoom chains known queue parentHash = some room) :
    (room = queue ∧ queue.length < maxBlocksToQueueToCommit) ∨ maxBlocksToQueueToCommit ≤ queue.length ∧
      ∃ e, (e :: room).Perm queue ∧ e.thisHash ≠ parentHash ∧ ∀ c ∈ queue, c.parentHash ≠ e.thisHash := by
  rw [makeRoom] at h
  split_ifs at h with hlt
  · exact .inl ⟨(Option.some.inj h).symm, hlt⟩
  · obtain ⟨i, hi, rfl⟩ := Option.map_eq_some_iff.mp h
    obtain ⟨e, he, hspare⟩ := evictIdx_eq_some hi
    exact .inr ⟨not_lt.mp hlt, e, swapRemove_perm he, hspare⟩

theorem receiveBlock_cases (h : receiveBlock chains known queue msg = .ok queue') :
    queue' = queue ∨ ∃ b room, makeRoom chains known queue b.parentHash = some room ∧ queue' = room ++ [b] ∧
      (∀ c ∈ queue, c.thisHash ≠ b.thisHash) ∧
      (isParentInChains chains known b.parentHash = true ∨ ∃ c ∈ queue, c.thisHash = b.parentHash) := by
  refine or_iff_not_imp_left.mpr fun hne => ?_
  have hskip : (pure queue : Except Panic _) ≠ .ok queue' := fun h => hne (pure_eq_ok.mp h).symm
  rw [receiveBlock] at h
  split_ifs at h; · exact absurd h hskip
  split at h; swap; · exact absurd h hskip
  obtain ⟨best, -, h⟩ := bind_eq_ok.mp h
  obtain ⟨base, -, h⟩ := bind_eq_ok.mp h
  split_ifs at h; iterate 2 exact absurd h hskip
  split at h; swap; · exact absurd h hskip
  split_ifs at h with hqueued; iterate 2 exact absurd h hskip
  split at h; swap; · exact absurd h hskip
  split_ifs at h with hlinks; · exact absurd h hskip
  split at h; swap; · exact absurd h hskip
  rename_i block _
  split_ifs at h with hhash hparent; iterate 2 exact absurd h hskip
  split at h; swap; · exact absurd h hskip
  rename_i height _
  split_ifs at h; · exact absurd h hskip
  split at h; swap; · exact absurd h hskip
  rename_i room hroom
  obtain rfl := pure_eq_ok.mp h
  obtain rfl := of_not_not hhash
  obtain rfl := of_not_not hparent
  refine ⟨⟨block.hash, block.previousBlockHash, height⟩, room, hroom, rfl, by simpa using hqueued, ?_⟩
  simpa [or_iff_not_imp_left] using hlinks

theorem exists_base (h : chains.tipHeight ≠ none) :
    ∃ best base, chains.chains[0]? = some best ∧ best.blocks[0]? = some base := by
  obtain ⟨height, hheight⟩ := Option.ne_none_iff_exists'.mp h
  obtain ⟨best, hbest, htip⟩ := Option.bind_eq_some_iff.mp hheight
  obtain ⟨tip, htip, -⟩ := Option.map_eq_some_iff.mp htip
  have hne : 0 < best.blocks.length := List.length_pos_of_mem (List.mem_of_getLast? htip)
  exact ⟨best, best.blocks[0], by rwa [← List.head?_eq_getElem?], List.getElem?_eq_getElem hne⟩

theorem receiveBlock_ok (msg : BlockMessage) : ∃ queue', receiveBlock chains known queue msg = .ok queue' := by
  rw [receiveBlock]
  split_ifs with htip
  · exact ⟨queue, rfl⟩
  obtain ⟨best, base, hbest, hbase⟩ := exists_base htip
  simp only [getIdx_ok hbest, getIdx_ok hbase, ok_bind]
  repeat' split
  all_goals exact ⟨_, rfl⟩

/-! ### Bounds -/

structure Sound (queue : List ShadowBlock) : Prop where
  bounded : queue.length ≤ maxBlocksToQueueToCommit
  distinct : (queue.map ShadowBlock.thisHash).Nodup

theorem Sound.receiveBlock {msg : BlockMessage} (h : Sound queue) (hreceive : receiveBlock chains known queue msg = .ok queue') :
    Sound queue' := by
  rcases receiveBlock_cases hreceive with rfl | ⟨b, room, hroom, rfl, hnew, -⟩
  · exact h
  obtain ⟨hlt, hsub, hdistinct⟩ : room.length < maxBlocksToQueueToCommit ∧ room ⊆ queue ∧
      (room.map ShadowBlock.thisHash).Nodup := by
    rcases makeRoom_eq_some hroom with ⟨rfl, hlt⟩ | ⟨-, e, hperm, -⟩
    · exact ⟨hlt, List.Subset.refl _, h.distinct⟩
    · have hlength := hperm.length_eq
      have hbounded := h.bounded
      rw [List.length_cons] at hlength
      exact ⟨by omega, fun c hc => hperm.subset (List.mem_cons_of_mem _ hc),
        (List.nodup_cons.mp ((hperm.map _).nodup_iff.mpr h.distinct)).2⟩
  refine ⟨by rw [List.length_append]; exact hlt, ?_⟩
  rw [List.map_append, List.map_singleton, List.nodup_append_comm, List.singleton_append, List.nodup_cons, List.mem_map]
  exact ⟨fun ⟨c, hc, heq⟩ => hnew c (hsub hc) heq, hdistinct⟩

theorem Sound.receiveBlocks (h : Sound queue) (chains : NearTipChains) (messages : List ((BlockHash → Bool) × BlockMessage)) :
    ∃ queue', receiveBlocks chains messages queue = .ok queue' ∧ Sound queue' := by
  refine foldlM_ok (I := Sound) (fun m _ q hq => ?_) h
  obtain ⟨q', hq'⟩ := receiveBlock_ok m.2
  exact ⟨q', hq', hq.receiveBlock hq'⟩

variable {visits : ℕ → Visit} {b : ShadowBlock}

theorem retain_cons (b : ShadowBlock) (queue : List ShadowBlock) : retain chains visits k (b :: queue) =
    if isParentInChains chains (visits k).known b.parentHash then ((retain chains visits (k + 1) queue).1, true)
    else (b :: (retain chains visits (k + 1) queue).1, (retain chains visits (k + 1) queue).2) := by
  have hkeeps : (visits k).result.keeps = false := by cases (visits k).result <;> rfl
  rw [retain, hkeeps]
  rfl

theorem mem_retain : b ∈ (retain chains visits k queue).1 ↔
    ∃ i, queue[i]? = some b ∧ isParentInChains chains (visits (k + i)).known b.parentHash = false := by
  induction queue generalizing k with
  | nil => simp [retain]
  | cons c queue ih =>
    have hshift := ih (k := k + 1)
    simp only [Nat.add_assoc, Nat.add_comm 1] at hshift
    rw [retain_cons, ← Nat.or_exists_add_one]
    simp only [List.getElem?_cons_zero, Option.some.injEq, List.getElem?_cons_succ, Nat.add_zero, ← hshift]
    split_ifs with hparent
    · exact ⟨.inr, fun h => h.resolve_left fun ⟨heq, hfalse⟩ => by simp [heq ▸ hparent] at hfalse⟩
    · rw [List.mem_cons]
      refine or_congr_left ⟨?_, fun h => h.1.symm⟩
      rintro rfl
      exact ⟨rfl, Bool.not_eq_true _ ▸ hparent⟩

theorem retain_sublist (k : ℕ) (queue : List ShadowBlock) : (retain chains visits k queue).1 <+ queue := by
  induction queue generalizing k with
  | nil => exact List.Sublist.refl _
  | cons c queue ih =>
    rw [retain_cons]
    split_ifs
    · exact (ih _).cons _
    · exact (ih _).cons_cons _

theorem retain_length_lt (h : (retain chains visits k queue).2 = true) :
    (retain chains visits k queue).1.length < queue.length := by
  induction queue generalizing k with
  | nil => exact nomatch h
  | cons c queue ih =>
    rw [retain_cons] at h ⊢
    split_ifs at h ⊢
    · exact Nat.lt_succ_of_le (retain_sublist _ _).length_le
    · exact Nat.succ_lt_succ (ih h)

theorem byHeight_perm (queue : List ShadowBlock) : (byHeight queue).Perm queue := List.perm_insertionSort _ _

theorem commitPass_eq (h : commitPass chains visits queue ≠ []) :
    commitPass chains visits queue = (retain chains visits 0 (byHeight queue)).1 := by
  simp only [commitPass] at h ⊢
  split_ifs at h ⊢ <;> simp_all

theorem Sound.commitPass (h : Sound queue) :
    Sound (commitPass chains visits queue) ∧ (commitPass chains visits queue).length < maxBlocksToQueueToCommit := by
  have hsub : (retain chains visits 0 (byHeight queue)).1 <+ byHeight queue := retain_sublist _ _
  have hperm := byHeight_perm queue
  have hbounded : (byHeight queue).length ≤ maxBlocksToQueueToCommit := hperm.length_eq ▸ h.bounded
  rw [CommitQueue.commitPass]
  dsimp only
  split_ifs with hclear
  · exact ⟨⟨Nat.zero_le _, List.nodup_nil⟩, Nat.zero_lt_succ _⟩
  refine ⟨⟨hsub.length_le.trans hbounded, ((hperm.map _).nodup_iff.mpr h.distinct).sublist (hsub.map _)⟩, ?_⟩
  rcases Nat.eq_zero_or_pos (retain chains visits 0 (byHeight queue)).1.length with hzero | hpos
  · rw [hzero]
    exact Nat.zero_lt_succ _
  · exact (retain_length_lt (not_not.mp fun hno => hclear ⟨hpos, hno⟩)).trans_le hbounded

/-! ### Parents -/

/-- Every block of the queue has its parent among the known blocks or in the queue. -/
def Linked (has : BlockHash → Bool) (queue : List ShadowBlock) : Prop :=
  ∀ b ∈ queue, has b.parentHash = true ∨ ∃ c ∈ queue, c.thisHash = b.parentHash

theorem Linked.mono (h : Linked has queue) (hle : has ≤ has') : Linked has' queue :=
  fun b hb => (h b hb).imp_left (Bool.le_iff_imp.mp (hle b.parentHash))

theorem Linked.receiveBlock {msg : BlockMessage} (h : Linked (isParentInChains chains known) queue)
    (hreceive : receiveBlock chains known queue msg = .ok queue') : Linked (isParentInChains chains known) queue' := by
  rcases receiveBlock_cases hreceive with rfl | ⟨b, room, hroom, rfl, -, hlinks⟩
  · exact h
  -- the block that makes room is nobody's parent
  have hstays {c d : ShadowBlock} (hc : c ∈ queue) (hd : d ∈ queue ∨ d = b) (heq : c.thisHash = d.parentHash) : c ∈ room := by
    rcases makeRoom_eq_some hroom with ⟨rfl, -⟩ | ⟨-, e, hperm, hnew, hold⟩
    · exact hc
    · refine (List.mem_cons.mp (hperm.mem_iff.mpr hc)).resolve_left ?_
      rintro rfl
      rcases hd with hd | rfl
      exacts [hold d hd heq.symm, hnew heq]
  have hsub : room ⊆ queue := by
    rcases makeRoom_eq_some hroom with ⟨rfl, -⟩ | ⟨-, e, hperm, -⟩
    · exact List.Subset.refl _
    · exact fun c hc => hperm.subset (List.mem_cons_of_mem _ hc)
  have hparent {d : ShadowBlock} (hd : d ∈ queue ∨ d = b) (hlinks : isParentInChains chains known d.parentHash = true ∨
      ∃ c ∈ queue, c.thisHash = d.parentHash) :
      isParentInChains chains known d.parentHash = true ∨ ∃ c ∈ room ++ [b], c.thisHash = d.parentHash :=
    hlinks.imp_right fun ⟨c, hc, heq⟩ => ⟨c, List.mem_append_left _ (hstays hc hd heq), heq⟩
  intro d hd
  rcases List.mem_append.mp hd with hd | hd
  · exact hparent (.inl (hsub hd)) (h d (hsub hd))
  · obtain rfl := List.mem_singleton.mp hd
    exact hparent (.inr rfl) hlinks

namespace Tick

variable {t : Tick} {had : BlockHash → Bool}

def has (t : Tick) (k : ℕ) : BlockHash → Bool := isParentInChains t.chains (t.visits k).known

/-- Blocks stay known, from what was known before the turn on; a commit does not fail while a child of the block is in
the queue; and a block that is committed, or was before, is known from then on. `queue` is the queue when the commit
pass starts. -/
structure Calm (t : Tick) (had : BlockHash → Bool) (queue : List ShadowBlock) : Prop where
  asked : (had :: t.messages.map (fun m => isParentInChains t.chains m.1) ++ [t.has 0]).IsChain (· ≤ ·)
  visited : Monotone t.has
  succeeds : ∀ k b, (byHeight queue)[k]? = some b → t.has k b.parentHash → (∃ c ∈ queue, c.parentHash = b.thisHash) →
    (t.visits k).result ≠ .other
  enters : ∀ k b, (byHeight queue)[k]? = some b → t.has k b.parentHash → (t.visits k).result ≠ .other →
    t.has (k + 1) b.thisHash

theorem start_ok (htip : t.chains.tipHeight ≠ none) (hlt : queue.length < maxBlocksToQueueToCommit) :
    t.start queue = .ok () := by
  rw [start, ensure_ok htip, ok_bind, ensure_ok hlt]
  exact ite_self _

theorem Calm.receive (hcalm : t.Calm had queue') (h : Linked had queue) (hreceive : t.receive queue = .ok queue') :
    Linked (t.has 0) queue' := by
  have hasked := hcalm.asked
  rw [Tick.receive, receiveBlocks] at hreceive
  generalize t.messages = messages at hasked hreceive
  clear hcalm
  -- one message after the other, each with at least what was known at the last
  induction messages generalizing had queue with
  | nil =>
    obtain rfl := foldlM_nil_eq_ok.mp hreceive
    exact h.mono (List.isChain_cons_cons.mp hasked).1
  | cons m messages ih =>
    obtain ⟨q, hq, hreceive⟩ := foldlM_cons_eq_ok.mp hreceive
    obtain ⟨hle, hasked⟩ := List.isChain_cons_cons.mp hasked
    exact ih ((h.mono hle).receiveBlock hq) hasked hreceive

theorem Calm.commitPass (hcalm : t.Calm had queue) (h : Linked (t.has 0) queue) :
    Linked (t.has queue.length) (commitPass t.chains t.visits queue) := by
  intro b hb
  have hkept := commitPass_eq (List.ne_nil_of_mem hb)
  rw [hkept] at hb ⊢
  obtain ⟨i, hi, hunknown⟩ := mem_retain.mp hb
  rw [Nat.zero_add] at hunknown
  have hmem : b ∈ queue := (byHeight_perm queue).subset (List.mem_of_getElem? hi)
  rcases h b hmem with hparent | ⟨c, hc, heq⟩
  · -- known before the pass, so known when the block was looked at
    have hknown := Bool.le_iff_imp.mp (hcalm.visited (Nat.zero_le i) b.parentHash) hparent
    exact absurd hknown (Bool.eq_false_iff.mp hunknown)
  obtain ⟨j, hj⟩ := List.mem_iff_getElem?.mp ((byHeight_perm queue).symm.subset hc)
  cases hprogress : t.has j c.parentHash with
  | false => exact .inr ⟨c, mem_retain.mpr ⟨j, hj, by rwa [Nat.zero_add]⟩, heq⟩
  | true =>
    have hresult := hcalm.succeeds j c hj hprogress ⟨b, hmem, heq.symm⟩
    have hlt : j < queue.length := (byHeight_perm queue).length_eq ▸ (List.getElem?_eq_some_iff.mp hj).1
    exact .inl (heq ▸ Bool.le_iff_imp.mp (hcalm.visited hlt c.thisHash) (hcalm.enters j c hj hprogress hresult))

end Tick

/-- Every turn of a run that goes on from `queue` is calm. -/
def Calm : (BlockHash → Bool) → List ShadowBlock → List Tick → Prop
  | _, _, [] => True
  | had, queue, t :: ticks => ∀ queue', t.receive queue = .ok queue' →
      t.Calm had queue' ∧ Calm (t.has queue'.length) (commitPass t.chains t.visits queue') ticks

theorem Calm.linked (hcalm : Calm had queue (ticks ++ [t])) (h : Linked had queue)
    (hrun : ticks.foldlM (fun queue t => t.step queue) queue = .ok queue₁) (hreceive : t.receive queue₁ = .ok queue') :
    Linked (t.has 0) queue' := by
  induction ticks generalizing had queue with
  | nil =>
    obtain rfl := foldlM_nil_eq_ok.mp hrun
    exact (hcalm queue' hreceive).1.receive h hreceive
  | cons u ticks ih =>
    obtain ⟨queue₂, hstep, hrun⟩ := foldlM_cons_eq_ok.mp hrun
    obtain ⟨-, -, hstep⟩ := bind_eq_ok.mp hstep
    obtain ⟨q, hq, hstep⟩ := bind_eq_ok.mp hstep
    obtain rfl := pure_eq_ok.mp hstep
    obtain ⟨hnow, hlater⟩ := hcalm q hq
    exact ih hlater (hnow.commitPass (hnow.receive h hq)) hrun

theorem run_sound (h : ∀ t ∈ ticks, t.chains.tipHeight ≠ none) :
    ∃ queue, run ticks = .ok queue ∧ Sound queue ∧ queue.length < maxBlocksToQueueToCommit := by
  refine foldlM_ok (I := fun queue => Sound queue ∧ queue.length < maxBlocksToQueueToCommit) (fun t ht q hq => ?_)
    ⟨⟨Nat.zero_le _, List.nodup_nil⟩, Nat.zero_lt_succ _⟩
  obtain ⟨q', hreceive, hq'⟩ := hq.1.receiveBlocks t.chains t.messages
  refine ⟨commitPass t.chains t.visits q', ?_, hq'.commitPass⟩
  rw [Tick.step, Tick.start_ok (h t ht) hq.2, ok_bind, Tick.receive, hreceive]
  rfl

/-- In every run, up to any message of the next turn, the queue has at most ten blocks, no two of the same hash, and
the block that makes room for a new one is the parent neither of a queued block nor of the new one. Between turns there
are fewer than ten, so the assertion before a status holds. If all turns are calm, every queued block has its parent
known or queued when the commit pass starts. -/
theorem queue_bounded_linked (ticks : List Tick) (t : Tick) (h : ∀ u ∈ ticks ++ [t], u.chains.tipHeight ≠ none) :
    ∃ queue queue', run ticks = .ok queue ∧ t.start queue = .ok () ∧ t.receive queue = .ok queue' ∧
      queue.length < maxBlocksToQueueToCommit ∧
      (commitPass t.chains t.visits queue').length < maxBlocksToQueueToCommit ∧
      (∀ n, ∃ q, receiveBlocks t.chains (t.messages.take n) queue = .ok q ∧ q.length ≤ maxBlocksToQueueToCommit ∧
        (q.map ShadowBlock.thisHash).Nodup ∧
        ∀ known parentHash i e, evictIdx t.chains known q parentHash = some i → q[i]? = some e →
          e.thisHash ≠ parentHash ∧ ∀ c ∈ q, c.parentHash ≠ e.thisHash) ∧
      (Calm (fun _ => false) [] (ticks ++ [t]) → Linked (t.has 0) queue') := by
  obtain ⟨queue, hrun, hqueue, hlt⟩ := run_sound fun u hu => h u (List.mem_append_left _ hu)
  obtain ⟨queue', hreceive, hqueue'⟩ := hqueue.receiveBlocks t.chains t.messages
  refine ⟨queue, queue', hrun, Tick.start_ok (h t (by simp)) hlt, hreceive, hlt, hqueue'.commitPass.2, fun n => ?_,
    fun hcalm => hcalm.linked (fun b hb => nomatch hb) hrun hreceive⟩
  obtain ⟨q, hq, hsound⟩ := hqueue.receiveBlocks t.chains (t.messages.take n)
  refine ⟨q, hq, hsound.bounded, hsound.distinct, fun known parentHash i e hi he => ?_⟩
  obtain ⟨e', he', hspare⟩ := evictIdx_eq_some hi
  obtain rfl := Option.some.inj (he.symm.trans he')
  exact hspare

/-- A turn that starts with the genesis block only and receives its child and the child of that. -/
def twoBlocks (result : CommitResult) : Tick where
  chains := ⟨0, [⟨1, [⟨hashOf 1, hashOf 0, 0⟩]⟩]⟩
  statusDue := true
  messages := [2, 3].map fun n => (fun _ => false,
    ⟨some (n - 1), some (hashOf n), some (hashOf (n - 1)), some ⟨hashOf n, hashOf (n - 1), some (n - 1)⟩⟩)
  visits k := ⟨fun hash => result ≠ .other && (0 < k && hash = hashOf 2 || 1 < k && hash = hashOf 3), result⟩

theorem twoBlocks_receive (result : CommitResult) : (twoBlocks result).receive [] =
    .ok [⟨hashOf 2, hashOf 1, 1⟩, ⟨hashOf 3, hashOf 2, 2⟩] := by
  cases result <;> decide +kernel

theorem queue_bounded_linked_twoBlocks : Calm (fun _ => false) [] ([] ++ [twoBlocks .committed]) ∧
    Linked ((twoBlocks .committed).has 0) [⟨hashOf 2, hashOf 1, 1⟩, ⟨hashOf 3, hashOf 2, 2⟩] := by
  have hcalm : Calm (fun _ => false) [] ([] ++ [twoBlocks .committed]) := by
    intro queue' hqueue'
    obtain rfl := Except.ok.inj ((twoBlocks_receive _).symm.trans hqueue')
    refine ⟨⟨?_, ?_, fun _ _ _ _ _ => by simp [twoBlocks], fun k b hb _ _ => ?_⟩, trivial⟩
    · exact .cons_cons (fun _ => Bool.false_le _) (.cons_cons le_rfl (.cons_cons (le_of_eq rfl) (.singleton _)))
    · refine monotone_nat_of_le_succ fun k hash => Bool.le_iff_imp.mpr ?_
      simp only [Tick.has, isParentInChains, twoBlocks, Bool.or_eq_true, Bool.and_eq_true, decide_eq_true_eq]
      exact Or.imp_right (And.imp_right (Or.imp (And.imp_left (by omega)) (And.imp_left (by omega))))
    · have hsorted : byHeight [⟨hashOf 2, hashOf 1, 1⟩, ⟨hashOf 3, hashOf 2, 2⟩] = [⟨hashOf 2, hashOf 1, 1⟩,
        ⟨hashOf 3, hashOf 2, 2⟩] := by decide +kernel
      rw [hsorted] at hb
      match k, hb with
      | 0, rfl => decide +kernel
      | 1, rfl => decide +kernel
  obtain ⟨queue, queue', hrun, -, hreceive, -, -, -, hlinked⟩ :=
    queue_bounded_linked [] (twoBlocks .committed) (by decide +kernel)
  obtain rfl := Except.ok.inj hrun
  obtain rfl := Except.ok.inj ((twoBlocks_receive _).symm.trans hreceive)
  exact ⟨hcalm, hlinked hcalm⟩

/-- The commit of the first block fails, and the second is still queued when the next pass starts. -/
theorem failed_parent_leaves_orphan : run [twoBlocks .other] = .ok [⟨hashOf 3, hashOf 2, 2⟩] ∧
    { twoBlocks .other with messages := [] }.receive [⟨hashOf 3, hashOf 2, 2⟩] = .ok [⟨hashOf 3, hashOf 2, 2⟩] ∧
    ¬ Linked ({ twoBlocks .other with messages := [] }.has 0) [⟨hashOf 3, hashOf 2, 2⟩] := by
  refine ⟨by decide +kernel, rfl, fun h => ?_⟩
  have := h _ List.mem_cons_self
  revert this
  decide +kernel

end CommitQueue

end Crosslink.NewNet

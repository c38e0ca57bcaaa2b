import Crosslink.Bft.Validation

/-!
# Proposing a BFT block

A proposal carries `σ` headers of the best PoW chain, and deciding it finalizes the block of the first one. Its height
is the result of four steps: the candidate height below the tip, the request for the headers that follow the
candidate, the cut after `σ` of them, and reading the first one as the final block. The request leaves out the block it
is asked about, so the first header is one block above the candidate.
-/

namespace Crosslink.Bft

open Codec Fallible Tenderlink List Option ServiceParams

variable {P : ServiceParams}

/-! ### Reading the best chain -/

/-- The best non-finalized chain: consecutive blocks, the first one at height `root`. -/
structure NonFinalizedChain where
  root : ℕ
  blocks : List BlockHeaderData
  nonempty : blocks ≠ []

/-- What the read requests see: the finalized blocks by height, and the best chain above them. The two may
overlap. -/
structure ReadState where
  db : List BlockHeaderData
  chain : Option NonFinalizedChain

def indexOfHash (P : ServiceParams) (blocks : List BlockHeaderData) (hash : BlockHash) : Option ℕ :=
  blocks.findIdx? fun b => fromHeaderData P b = hash

namespace NonFinalizedChain

def nonFinalizedTip (P : ServiceParams) (c : NonFinalizedChain) : ℕ × BlockHash :=
  (c.root + (c.blocks.length - 1), fromHeaderData P (c.blocks.getLast c.nonempty))

def heightByHash (P : ServiceParams) (c : NonFinalizedChain) (hash : BlockHash) : Option ℕ :=
  (indexOfHash P c.blocks hash).map (c.root + ·)

def header (c : NonFinalizedChain) (height : ℕ) : Option BlockHeaderData :=
  if c.root ≤ height then c.blocks[height - c.root]? else none

end NonFinalizedChain

/-- `map_while`: the results up to the first that is missing. -/
def mapWhile {α β : Type} (f : α → Option β) : List α → List β
  | [] => []
  | a :: l =>
    match f a with
    | none => []
    | some b => b :: mapWhile f l

namespace ReadState

variable (P) (s : ReadState)

def tip : Option (ℕ × BlockHash) :=
  match s.chain with
  | some c => some (c.nonFinalizedTip P)
  | none => s.db.getLast?.map fun b => (s.db.length - 1, fromHeaderData P b)

def tipHeight : Option ℕ := (s.tip P).map Prod.fst

def heightByHash (hash : BlockHash) : Option ℕ :=
  (s.chain.bind fun c => c.heightByHash P hash).or (indexOfHash P s.db hash)

def blockHeader (height : ℕ) : Option BlockHeaderData :=
  (s.chain.bind fun c => c.header height).or s.db[height]?

def hashByHeight (height : ℕ) : Option BlockHash :=
  (s.chain.bind fun c => (c.header height).map (fromHeaderData P)).or (s.db[height]?.map (fromHeaderData P))

def chainContainsHash (hash : BlockHash) : Bool :=
  (s.chain.bind fun c => c.heightByHash P hash).isSome || (indexOfHash P s.db hash).isSome

def findChainIntersection (knownBlocks : List BlockHash) : Option BlockHash :=
  if s.chain.isNone ∧ s.db = [] then none else knownBlocks.find? (s.chainContainsHash P)

/-- Where the answer starts, after the intersection or at genesis, and where it ends at the latest. -/
def heightBounds (intersectionHeight : Option ℕ) (maxLen : ℕ) : Except Panic (ℕ × ℕ) :=
  match intersectionHeight with
  | some height => do
    let startHeight ← addU P.overflowChecks 32 height 1
    let maxHeight ← addU P.overflowChecks 32 height maxLen
    return (startHeight, maxHeight)
  | none => .ok (0, maxLen - 1)

def heightRangeAfter (chainTipHeight : ℕ) (intersectionHeight : Option ℕ) (stop : Option BlockHash) (maxLen : ℕ) :
    Except Panic (ℕ × ℕ) := do
  let (startHeight, maxHeight) ← heightBounds P intersectionHeight maxLen
  let finalHeight := min maxHeight chainTipHeight
  let finalHeight := match stop.bind (s.heightByHash P) with
    | some stopHeight => min finalHeight stopHeight
    | none => finalHeight
  ensure (finalHeight + 1 - startHeight ≤ maxLen)
  return (startHeight, finalHeight)

def findChainHeightRange (intersection stop : Option BlockHash) (maxLen : ℕ) : Except Panic (ℕ × ℕ) := do
  ensure (0 < maxLen)
  match s.tipHeight P with
  | none => return (1, 0)
  | some chainTipHeight =>
    match intersection with
    | none => s.heightRangeAfter P chainTipHeight none stop maxLen
    | some hash =>
      match s.heightByHash P hash with
      | none => return (1, 0)
      | some height => s.heightRangeAfter P chainTipHeight (some height) stop maxLen

def collectChainHeaders (intersection stop : Option BlockHash) (maxLen : ℕ) :
    Except Panic (List BlockHeaderData) := do
  let (first, last) ← s.findChainHeightRange P intersection stop maxLen
  return mapWhile s.blockHeader (List.range' first (last + 1 - first))

def findChainHeaders (knownBlocks : List BlockHash) (stop : Option BlockHash) (maxLen : ℕ) :
    Except Panic (List BlockHeaderData) :=
  s.collectChainHeaders P (s.findChainIntersection P knownBlocks) stop maxLen

def maxFindBlockHeadersResults : ℕ := 160

/-- `Height::MAX`. -/
def maxHeight : ℕ := 2 ^ 31 - 1

/-- The hash in the answer to a `BlockHeader` request for a height; `none` for an error. The request also looks for
the next block, whose height has to be one. -/
def blockHeaderRequest (height : ℕ) : Option BlockHash := do
  let hash ← s.hashByHeight P height
  if maxHeight ≤ height then none
  else
    let _ ← s.blockHeader height
    return hash

end ReadState

/-! ### The proposal -/

/-- `bc_confirmation_depth_sigma` of the prototype parameters. -/
def sigma : ℕ := 3

/-- The only check that is implemented is on the number of headers. -/
def BftBlock.tryFrom (height : ℕ) (previousBlockFatPtr : FatPointerToBftBlock) (finalizationCandidateHeight : ℕ)
    (headers : List BlockHeaderData) : Option BftBlock :=
  if headers.length ≠ sigma then none
  else some ⟨1, height, previousBlockFatPtr, finalizationCandidateHeight, headers⟩

/-- The height of the block that is to become final, if the tip is high enough and it is above the latest final
one. -/
def finalityCandidateHeight (P : ServiceParams) (tipHeight : ℕ) (latestFinalBlock : Option (ℕ × BlockHash)) :
    Except Panic (Option ℕ) :=
  if tipHeight < sigma then return none
  else
    match latestFinalBlock with
    | none => return some (min (tipHeight - sigma) (2 ^ 32 - 1))
    | some (finalHeight, _) =>
      if finalHeight < tipHeight - sigma then do
        return some (min (tipHeight - sigma) (← addU P.overflowChecks 32 finalHeight 10))
      else return none

/-- The two `panic!`s on unexpected answers are unwraps here. -/
def proposeNewBftBlock (P : ServiceParams) (s : ReadState) (internal : TFLServiceInternal) :
    Except Panic (Option BftBlock) := do
  match s.tip P with
  | none => return none
  | some (tipHeight, _) =>
    match ← finalityCandidateHeight P tipHeight internal.latestFinalBlock with
    | none => return none
    | some candidateHeight =>
      let candidateHash ← unwrap (s.blockHeaderRequest P candidateHeight)
      let headers ← s.findChainHeaders P [candidateHash] none ReadState.maxFindBlockHeadersResults
      let height ← addU P.overflowChecks 32 (internal.bftBlocks.length % 2 ^ 32) 1
      return BftBlock.tryFrom height internal.fatPointerToTip 0 (headers.take sigma)

/-! ### One chain -/

def ReadState.bestChain (s : ReadState) : List BlockHeaderData :=
  match s.chain with
  | some c => s.db.take c.root ++ c.blocks
  | none => s.db

/-- The non-finalized chain has no gap below it, heights are in range, and no two blocks have one hash. -/
structure ReadState.Coherent (P : ServiceParams) (s : ReadState) : Prop where
  joined : ∀ c, s.chain = some c → c.root ≤ s.db.length
  distinct : (s.bestChain.map (fromHeaderData P)).Nodup
  height : s.bestChain.length ≤ ReadState.maxHeight + 1

section Coherent

variable {s : ReadState} {height : ℕ} {b : BlockHeaderData}

theorem ReadState.Coherent.blockHeader (hs : s.Coherent P) (h : s.bestChain[height]? = some b) :
    s.blockHeader height = some b := by
  unfold ReadState.bestChain at h
  unfold ReadState.blockHeader
  cases hc : s.chain with
  | none =>
    rw [hc] at h
    exact h
  | some c =>
    rw [hc] at h
    have hroot := hs.joined c hc
    dsimp only at h
    rw [bind_some, NonFinalizedChain.header]
    by_cases hlt : height < c.root
    · rw [getElem?_append_left (by rw [length_take]; omega), getElem?_take_of_lt hlt] at h
      rw [if_neg (by omega), none_or]
      exact h
    · rw [getElem?_append_right (by rw [length_take]; omega), length_take, Nat.min_eq_left hroot] at h
      rw [if_pos (by omega), h, some_or]

theorem ReadState.hashByHeight_eq (P : ServiceParams) (s : ReadState) (height : ℕ) :
    s.hashByHeight P height = (s.blockHeader height).map (fromHeaderData P) := by
  unfold ReadState.hashByHeight ReadState.blockHeader
  cases s.chain with
  | none => rfl
  | some c => cases h : c.header height <;> simp [h]

theorem ReadState.Coherent.tip (hs : s.Coherent P) {tipHeight : ℕ} {hash : BlockHash}
    (h : s.tip P = some (tipHeight, hash)) : s.bestChain.length = tipHeight + 1 := by
  unfold ReadState.tip at h
  unfold ReadState.bestChain
  cases hc : s.chain with
  | none =>
    rw [hc] at h
    obtain ⟨last, hlast, heq⟩ := map_eq_some_iff.mp h
    have hpos : 0 < s.db.length := length_pos_of_mem (mem_of_getLast? hlast)
    have := (Prod.mk.inj heq).1
    dsimp only
    omega
  | some c =>
    rw [hc] at h
    have hroot := hs.joined c hc
    have hpos := length_pos_of_ne_nil c.nonempty
    have := (Prod.mk.inj (some.inj h)).1
    rw [length_append, length_take]
    omega

theorem ReadState.Coherent.index_unique (hs : s.Coherent P) {i j : ℕ} (hi : s.bestChain[i]? = some b)
    (hj : s.bestChain[j]? = some b') (hhash : fromHeaderData P b = fromHeaderData P b') :
    i = j := by
  have hlt := (List.getElem?_eq_some_iff.mp hi).1
  refine (List.getElem?_inj (by rw [List.length_map]; exact hlt) hs.distinct).mp ?_
  rw [List.getElem?_map, List.getElem?_map, hi, hj, map_some, map_some, hhash]

theorem indexOfHash_eq (hi : blocks[i]? = some b)
    (hfirst : ∀ j b', j < i → blocks[j]? = some b' → fromHeaderData P b' ≠ fromHeaderData P b) :
    indexOfHash P blocks (fromHeaderData P b) = some i := by
  obtain ⟨hlt, rfl⟩ := List.getElem?_eq_some_iff.mp hi
  refine List.findIdx?_eq_some_iff_getElem.mpr ⟨hlt, decide_eq_true rfl, fun j hj => ?_⟩
  have hne := hfirst j blocks[j] hj (List.getElem?_eq_getElem (hj.trans hlt))
  simpa using hne

theorem ReadState.Coherent.heightByHash (hs : s.Coherent P) (h : s.bestChain[height]? = some b) :
    s.heightByHash P (fromHeaderData P b) = some height := by
  have hunique : ∀ j b', s.bestChain[j]? = some b' → fromHeaderData P b' = fromHeaderData P b → j = height :=
    fun j b' hj hhash => hs.index_unique hj h hhash
  unfold ReadState.bestChain at h hunique
  unfold ReadState.heightByHash
  cases hc : s.chain with
  | none =>
    rw [hc] at h hunique
    rw [bind_none, none_or]
    refine indexOfHash_eq h fun j b' hj hb' hhash => ?_
    have := hunique j b' hb' hhash
    omega
  | some c =>
    rw [hc] at h hunique
    dsimp only at h hunique
    have hroot := hs.joined c hc
    have hlen : (s.db.take c.root).length = c.root := by rw [length_take]; omega
    rw [bind_some]
    unfold NonFinalizedChain.heightByHash
    have hchain : ∀ j b', c.blocks[j]? = some b' → fromHeaderData P b' = fromHeaderData P b → c.root + j = height := by
      intro j b' hj hhash
      refine hunique (c.root + j) b' ?_ hhash
      rw [getElem?_append_right (by omega), hlen, Nat.add_sub_cancel_left, hj]
    by_cases hlt : height < c.root
    · rw [getElem?_append_left (by omega), getElem?_take_of_lt hlt] at h
      have hnone : indexOfHash P c.blocks (fromHeaderData P b) = none := by
        refine findIdx?_eq_none_iff.mpr fun b' hb' => ?_
        obtain ⟨j, hj⟩ := getElem?_of_mem hb'
        by_contra hhash
        have := hchain j b' hj (by simpa using hhash)
        omega
      rw [hnone, map_none, none_or]
      refine indexOfHash_eq h fun j b' hj hb' hhash => ?_
      have := hunique j b' (by
        rw [getElem?_append_left (by omega), getElem?_take_of_lt (by omega), hb']) hhash
      omega
    · rw [getElem?_append_right (by omega), hlen] at h
      rw [indexOfHash_eq h fun j b' hj hb' hhash => ?_, map_some, some_or, Nat.add_sub_cancel' (by omega)]
      have := hchain j b' hb' hhash
      omega

theorem ReadState.chainContainsHash_eq (P : ServiceParams) (s : ReadState) (hash : BlockHash) :
    s.chainContainsHash P hash = (s.heightByHash P hash).isSome := by
  rw [ReadState.chainContainsHash, ReadState.heightByHash, isSome_or]

theorem ReadState.Coherent.mapWhile_blockHeader (hs : s.Coherent P) (first n : ℕ) (h : first + n ≤ s.bestChain.length) :
    mapWhile s.blockHeader (List.range' first n) = (s.bestChain.drop first).take n := by
  induction n generalizing first with
  | zero => rw [List.range'_zero, take_zero, mapWhile]
  | succ n ih =>
    have hlt : first < s.bestChain.length := by omega
    rw [List.range'_succ, mapWhile, hs.blockHeader (getElem?_eq_getElem hlt), ih (first + 1) (by omega),
      drop_eq_getElem_cons hlt, take_succ_cons]

theorem ReadState.Coherent.findChainHeaders (hs : s.Coherent P) {tipHeight : ℕ} {hash : BlockHash}
    (htip : s.tip P = some (tipHeight, hash)) (h : s.bestChain[height]? = some b) :
    s.findChainHeaders P [fromHeaderData P b] none ReadState.maxFindBlockHeadersResults =
      .ok ((s.bestChain.drop (height + 1)).take (min ReadState.maxFindBlockHeadersResults (tipHeight - height))) := by
  have hlen := hs.tip htip
  have hlt := (List.getElem?_eq_some_iff.mp h).1
  have hfound := hs.heightByHash h
  have hmax := hs.height
  have hintersection : s.findChainIntersection P [fromHeaderData P b] = some (fromHeaderData P b) := by
    unfold ReadState.findChainIntersection
    rw [if_neg]
    · rw [find?_cons_of_pos]
      rw [ReadState.chainContainsHash_eq, hfound, isSome_some]
    · rintro ⟨hchain, hdb⟩
      rw [ReadState.tip, isNone_iff_eq_none.mp hchain, hdb] at htip
      cases htip
  have hbounds : ReadState.heightBounds P (some height) ReadState.maxFindBlockHeadersResults =
      .ok (height + 1, height + ReadState.maxFindBlockHeadersResults) := by
    unfold ReadState.maxHeight at hmax
    unfold ReadState.maxFindBlockHeadersResults ReadState.heightBounds
    dsimp only
    rw [addU_ok (by omega), addU_ok (by omega)]
    rfl
  have hshort : min (height + ReadState.maxFindBlockHeadersResults) tipHeight + 1 - (height + 1) ≤
      ReadState.maxFindBlockHeadersResults := by omega
  have hrange : s.findChainHeightRange P (some (fromHeaderData P b)) none ReadState.maxFindBlockHeadersResults =
      .ok (height + 1, min (height + ReadState.maxFindBlockHeadersResults) tipHeight) := by
    unfold ReadState.findChainHeightRange ReadState.heightRangeAfter
    rw [ensure_ok (by decide), ok_bind]
    simp only [ReadState.tipHeight, htip, map_some, hfound, hbounds, ok_bind, bind_none]
    rw [ensure_ok hshort, ok_bind]
    rfl
  unfold ReadState.findChainHeaders ReadState.collectChainHeaders
  rw [hintersection, hrange, ok_bind]
  dsimp only
  have hcount : min (height + ReadState.maxFindBlockHeadersResults) tipHeight + 1 - (height + 1) =
      min ReadState.maxFindBlockHeadersResults (tipHeight - height) := by omega
  rw [hcount, hs.mapWhile_blockHeader _ _ (by omega)]
  rfl

end Coherent

/-! ### The depth of the proposed block -/

theorem finalityCandidateHeight_some (hmax : tipHeight ≤ ReadState.maxHeight)
    (h : finalityCandidateHeight P tipHeight latest = .ok (some c)) :
    c + sigma ≤ tipHeight ∧ (∀ final hash, latest = some (final, hash) → final < c ∧ c ≤ final + 10) ∧
      (c + sigma = tipHeight ∨ ∃ final hash, latest = some (final, hash) ∧ c = final + 10) := by
  unfold ReadState.maxHeight at hmax
  unfold finalityCandidateHeight at h
  by_cases hlow : tipHeight < sigma
  · rw [if_pos hlow] at h
    cases h
  rw [if_neg hlow] at h
  cases latest with
  | none =>
    obtain rfl : min (tipHeight - sigma) (2 ^ 32 - 1) = c := some.inj (Except.ok.inj h)
    exact ⟨by omega, nofun, .inl (by omega)⟩
  | some final =>
    obtain ⟨finalHeight, finalHash⟩ := final
    dsimp only at h
    by_cases hbetter : finalHeight < tipHeight - sigma
    · rw [if_pos hbetter, addU_ok (by omega), ok_bind] at h
      obtain rfl : min (tipHeight - sigma) (finalHeight + 10) = c := some.inj (Except.ok.inj h)
      refine ⟨by omega, fun final hash heq => ?_, ?_⟩
      · cases heq
        omega
      · rcases Nat.le_total (tipHeight - sigma) (finalHeight + 10) with hle | hle
        · exact .inl (by omega)
        · exact .inr ⟨_, _, rfl, Nat.min_eq_right hle⟩
    · rw [if_neg hbetter] at h
      cases h

theorem proposeNewBftBlock_eq {hash : BlockHash} (hs : s.Coherent P) (htip : s.tip P = some (tipHeight, hash))
    (hc : finalityCandidateHeight P tipHeight internal.latestFinalBlock = .ok (some c)) :
    proposeNewBftBlock P s internal = (do
      let height ← addU P.overflowChecks 32 (internal.bftBlocks.length % 2 ^ 32) 1
      return some ⟨1, height, internal.fatPointerToTip, 0, (s.bestChain.drop (c + 1)).take sigma⟩) := by
  have hlen := hs.tip htip
  have hheight := hs.height
  obtain ⟨hdeep, -, -⟩ := finalityCandidateHeight_some (by omega) hc
  have hsigma : sigma = 3 := rfl
  obtain ⟨b, hb⟩ : ∃ b, s.bestChain[c]? = some b := ⟨_, getElem?_eq_getElem (by omega)⟩
  have hrequest : unwrap (s.blockHeaderRequest P c) = .ok (fromHeaderData P b) := by
    refine unwrap_eq_ok.mpr ?_
    unfold ReadState.blockHeaderRequest
    rw [ReadState.hashByHeight_eq, hs.blockHeader hb]
    simp only [Option.map_some, Option.bind_eq_bind, Option.bind_some]
    rw [if_neg (by omega)]
    rfl
  unfold proposeNewBftBlock
  have hcut : ((s.bestChain.drop (c + 1)).take
      (min ReadState.maxFindBlockHeadersResults (tipHeight - c))).take sigma = (s.bestChain.drop (c + 1)).take sigma := by
    rw [take_take]
    unfold ReadState.maxFindBlockHeadersResults
    congr 1
    omega
  have hcount : ((s.bestChain.drop (c + 1)).take sigma).length = sigma := by
    rw [length_take, length_drop]
    omega
  simp only [htip, hc, ok_bind, hrequest, hs.findChainHeaders htip hb, hcut, BftBlock.tryFrom, hcount,
    ne_eq, not_true_eq_false, if_false]

/-- The block that deciding `block` finalizes is the one at the candidate height: with `σ` blocks above it, above the
latest final block and at most ten blocks above that. -/
def Confirmed (P : ServiceParams) (s : ReadState) (internal : TFLServiceInternal) (block : BftBlock) : Prop :=
  ∃ tipHeight c, s.tipHeight P = some tipHeight ∧
    finalityCandidateHeight P tipHeight internal.latestFinalBlock = .ok (some c) ∧
    block.finalHash? P = s.hashByHeight P c ∧ c + sigma ≤ tipHeight ∧
    ∀ final hash, internal.latestFinalBlock = some (final, hash) → final < c ∧ c ≤ final + 10

/-- A proposed block finalizes the block above the candidate, and so no proposed block is confirmed as it should be:
that block has fewer than `σ` blocks above it, or is more than ten blocks above the latest final one. -/
theorem proposed_not_confirmed {s : ReadState} {internal : TFLServiceInternal} {block : BftBlock} (hs : s.Coherent P)
    (h : proposeNewBftBlock P s internal = .ok (some block)) :
    ¬ Confirmed P s internal block ∧
      ∃ tipHeight c, s.tipHeight P = some tipHeight ∧
        finalityCandidateHeight P tipHeight internal.latestFinalBlock = .ok (some c) ∧
        block.finalHash? P = s.hashByHeight P (c + 1) ∧
        (tipHeight < c + 1 + sigma ∨
          ∃ final hash, internal.latestFinalBlock = some (final, hash) ∧ final + 10 < c + 1) := by
  obtain ⟨tipHeight, hash, htip⟩ : ∃ tipHeight hash, s.tip P = some (tipHeight, hash) := by
    cases htip : s.tip P with
    | none =>
      rw [proposeNewBftBlock, htip] at h
      cases h
    | some t => exact ⟨t.1, t.2, rfl⟩
  have htipHeight : s.tipHeight P = some tipHeight := by rw [ReadState.tipHeight, htip, map_some]
  obtain ⟨c, hc⟩ : ∃ c, finalityCandidateHeight P tipHeight internal.latestFinalBlock = .ok (some c) := by
    rw [proposeNewBftBlock, htip] at h
    obtain ⟨candidate, hcandidate, h⟩ := bind_eq_ok.mp h
    cases candidate with
    | none => cases h
    | some c => exact ⟨c, hcandidate⟩
  have hlen := hs.tip htip
  have hheight := hs.height
  obtain ⟨hdeep, -, hlimit⟩ := finalityCandidateHeight_some (by omega) hc
  have hsigma : sigma = 3 := rfl
  rw [proposeNewBftBlock_eq hs htip hc] at h
  obtain ⟨height, -, h⟩ := bind_eq_ok.mp h
  obtain rfl := some.inj (Except.ok.inj h)
  obtain ⟨b, hb⟩ : ∃ b, s.bestChain[c + 1]? = some b := ⟨_, getElem?_eq_getElem (by omega)⟩
  have hfirst : BftBlock.finalHash? P ⟨1, height, internal.fatPointerToTip, 0, (s.bestChain.drop (c + 1)).take sigma⟩ =
      some (fromHeaderData P b) := by
    rw [BftBlock.finalHash?, head?_take, if_neg (by omega), head?_drop, hb, map_some]
  refine ⟨?_, tipHeight, c, htipHeight, hc, ?_, ?_⟩
  · rintro ⟨tipHeight', c', htip', hc', hat, -, -⟩
    obtain rfl : tipHeight = tipHeight' := some.inj (htipHeight.symm.trans htip')
    obtain rfl : c = c' := some.inj (Except.ok.inj (hc.symm.trans hc'))
    obtain ⟨b', hb'⟩ : ∃ b', s.bestChain[c]? = some b' := ⟨_, getElem?_eq_getElem (by omega)⟩
    rw [hfirst, ReadState.hashByHeight_eq, hs.blockHeader hb', map_some] at hat
    have := hs.index_unique hb hb' (some.inj hat)
    omega
  · rw [hfirst, ReadState.hashByHeight_eq, hs.blockHeader hb, map_some]
  · rcases hlimit with heq | ⟨final, hash, hlatest, heq⟩
    · exact .inl (by omega)
    · exact .inr ⟨final, hash, hlatest, by omega⟩

/-! ### Five blocks -/

def fiveBlocks : ReadState where
  db := [sampleHeader 0 (Bytes.zero 32)]
  chain := some ⟨1, [1, 2, 3, 4].map fun nonce => sampleHeader nonce (Bytes.zero 32), by simp⟩

theorem fiveBlocks_coherent : fiveBlocks.Coherent ServiceParams.sample where
  joined c hc := by
    cases hc
    decide
  distinct := by decide +kernel
  height := by decide +kernel

theorem proposed_not_confirmed_fiveBlocks : ∃ block,
    proposeNewBftBlock ServiceParams.sample fiveBlocks sampleService = .ok (some block) ∧
      ¬ Confirmed ServiceParams.sample fiveBlocks sampleService block := by
  obtain ⟨block, hblock, hsome⟩ := exists_ok_of_any
    (x := proposeNewBftBlock sample fiveBlocks sampleService) (p := isSome) (by decide +kernel)
  cases block with
  | none => cases hsome
  | some block => exact ⟨block, hblock, (proposed_not_confirmed fiveBlocks_coherent hblock).1⟩

/-- The tip is at height 4, so the candidate is at height 1. The proposed block makes the block at height 2 final,
which has two blocks above it. -/
theorem proposal_one_above :
    fiveBlocks.tipHeight ServiceParams.sample = some 4 ∧
      finalityCandidateHeight ServiceParams.sample 4 sampleService.latestFinalBlock = .ok (some 1) ∧
      ∃ block, proposeNewBftBlock ServiceParams.sample fiveBlocks sampleService = .ok (some block) ∧
        block.finalHash? ServiceParams.sample = fiveBlocks.hashByHeight ServiceParams.sample 2 ∧
        block.finalHash? ServiceParams.sample ≠ fiveBlocks.hashByHeight ServiceParams.sample 1 := by
  refine ⟨by decide +kernel, rfl, ?_⟩
  obtain ⟨block, hblock, hfinal⟩ := exists_ok_of_any
    (x := proposeNewBftBlock sample fiveBlocks sampleService)
    (p := fun block => block.any fun block =>
      block.finalHash? sample = fiveBlocks.hashByHeight sample 2 ∧
        block.finalHash? sample ≠ fiveBlocks.hashByHeight sample 1) (by decide +kernel)
  cases block with
  | none => cases hfinal
  | some block => exact ⟨block, hblock, of_decide_eq_true hfinal⟩

end Crosslink.Bft

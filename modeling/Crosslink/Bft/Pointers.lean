import Crosslink.Bft.Validation
import Mathlib.Data.List.Chain

/-!
# Pointers into the decided chain

Two uses of certificates as pointers. A PoW header names a decided BFT block, and the state service asks
whether the pointer of a child is behind that of its parent. A syncing peer asks for the block of a height
and gets a pointer to it, which for every height below the tip is the one that the next block embeds.

Heights count from one, as everywhere in the service: the block of height `h` is at index `h - 1`, and
`null` stands at height zero (`pointedHeight`).
-/

namespace Crosslink.Bft

open Codec Fallible Tenderlink List

variable {P : ServiceParams} {genesis : List RosterMember} {s s' : TFLServiceInternal} {blocks blocks' : List BftBlock}
  {parent child p : FatPointerToBftBlock} {ps : List FatPointerToBftBlock}

/-! ### The check on PoW headers -/

/-- The number the check compares: an index, or zero for `null`. -/
def positionOf (P : ServiceParams) (blocks : List BftBlock) (p : FatPointerToBftBlock) : Option ℕ :=
  if p = FatPointerToBftBlock.null then some 0
  else blocks.findIdx? fun b => b.blake3Hash P.toParams = p.pointsAtBlockHash

/-- `call_from_state_to_crosslink_to_ask_about_fat_pointers`. -/
def askAboutFatPointers (P : ServiceParams) (blocks : List BftBlock) (parent child : FatPointerToBftBlock) : Bool :=
  match positionOf P blocks parent with
  | none => false
  | some parentHeight =>
    match positionOf P blocks child with
    | none => false
    | some childHeight => parentHeight ≤ childHeight

/-- The height of the block that `p` points at, zero for `null`. -/
def pointedHeight (P : ServiceParams) (blocks : List BftBlock) (p : FatPointerToBftBlock) : Option ℕ :=
  if p = FatPointerToBftBlock.null then some 0
  else (blocks.findIdx? fun b => b.blake3Hash P.toParams = p.pointsAtBlockHash).map (· + 1)

theorem positionOf_eq (P : ServiceParams) (blocks : List BftBlock) (p : FatPointerToBftBlock) :
    positionOf P blocks p = (pointedHeight P blocks p).map (· - 1) := by
  unfold positionOf pointedHeight
  split_ifs with h
  · rfl
  · rw [Option.map_map]
    exact Option.map_id'.symm

theorem pointedHeight_eq_zero (h : pointedHeight P blocks p = some 0) : p = FatPointerToBftBlock.null := by
  unfold pointedHeight at h
  split_ifs at h with hnull
  · exact hnull
  · simp at h

theorem askAboutFatPointers_eq_true :
    askAboutFatPointers P blocks parent child = true ↔
      ∃ m n, pointedHeight P blocks parent = some m ∧ pointedHeight P blocks child = some n ∧ m - 1 ≤ n - 1 := by
  unfold askAboutFatPointers
  rw [positionOf_eq, positionOf_eq]
  cases pointedHeight P blocks parent <;> cases pointedHeight P blocks child <;> simp

theorem pointedHeight_mono (hgrow : blocks <+: blocks') (h : pointedHeight P blocks p = some m) :
    pointedHeight P blocks' p = some m := by
  obtain ⟨more, rfl⟩ := hgrow
  unfold pointedHeight at h ⊢
  split_ifs at h ⊢ with hnull
  · exact h
  · obtain ⟨i, hi, rfl⟩ := Option.map_eq_some_iff.mp h
    rw [findIdx?_append, hi]
    rfl

/-- The pointer `later` does not point below the pointer `earlier`. -/
def NotBefore (P : ServiceParams) (blocks : List BftBlock) (earlier later : FatPointerToBftBlock) : Prop :=
  ∃ m n, pointedHeight P blocks earlier = some m ∧ pointedHeight P blocks later = some n ∧ m ≤ n

theorem NotBefore.trans (hab : NotBefore P blocks a b) (hbc : NotBefore P blocks b c) :
    NotBefore P blocks a c := by
  obtain ⟨m, n, hm, hn, hmn⟩ := hab
  obtain ⟨n', k, hn', hk, hnk⟩ := hbc
  obtain rfl : n = n' := Option.some.inj (hn.symm.trans hn')
  exact ⟨m, k, hm, hk, hmn.trans hnk⟩

/-- The header of a child falls back to `null` after its parent named the first decided block. -/
def FallsBack (P : ServiceParams) (blocks : List BftBlock) (parent child : FatPointerToBftBlock) : Prop :=
  pointedHeight P blocks parent = some 1 ∧ child = FatPointerToBftBlock.null

theorem notBefore_iff_of_ask (h : askAboutFatPointers P blocks parent child = true) :
    NotBefore P blocks parent child ↔ ¬ FallsBack P blocks parent child := by
  obtain ⟨m, n, hm, hn, hle⟩ := askAboutFatPointers_eq_true.mp h
  constructor
  · rintro ⟨m', n', hm', hn', hle'⟩ ⟨hone, rfl⟩
    obtain rfl : 1 = m' := Option.some.inj (hone.symm.trans hm')
    obtain rfl : 0 = n' := Option.some.inj (by rw [← hn', pointedHeight, if_pos rfl])
    omega
  · intro hnot
    refine ⟨m, n, hm, hn, ?_⟩
    by_contra hlt
    obtain ⟨rfl, rfl⟩ : m = 1 ∧ n = 0 := by omega
    exact hnot ⟨hm, pointedHeight_eq_zero hn⟩

theorem ask_mono (hgrow : blocks <+: blocks') (h : askAboutFatPointers P blocks parent child = true) :
    askAboutFatPointers P blocks' parent child = true := by
  obtain ⟨m, n, hm, hn, hle⟩ := askAboutFatPointers_eq_true.mp h
  exact askAboutFatPointers_eq_true.mpr ⟨m, n, pointedHeight_mono hgrow hm, pointedHeight_mono hgrow hn, hle⟩

/-- The pointers along a chain of PoW blocks, each of which passed the check against its parent at a time
when some of `blocks` had been decided. -/
def Passed (P : ServiceParams) (blocks : List BftBlock) (ps : List FatPointerToBftBlock) : Prop :=
  ps.IsChain fun parent child => ∃ earlier, earlier <+: blocks ∧ askAboutFatPointers P earlier parent child = true

/-- Along a chain of PoW blocks that passed the check, no pointer is behind an earlier one exactly when no
block falls back from the first decided block to `null`. -/
theorem Passed.never_goes_back_iff (h : Passed P blocks ps) :
    ps.Pairwise (NotBefore P blocks) ↔ ps.IsChain fun parent child => ¬ FallsBack P blocks parent child := by
  have : Trans (NotBefore P blocks) (NotBefore P blocks) (NotBefore P blocks) := ⟨NotBefore.trans⟩
  rw [← isChain_iff_pairwise, isChain_iff_getElem, isChain_iff_getElem]
  refine forall₂_congr fun i hi => notBefore_iff_of_ask ?_
  obtain ⟨earlier, hearlier, hask⟩ := isChain_iff_getElem.mp h i hi
  exact ask_mono hearlier hask

/-- The chain with one decided block: a header that names it follows one with `null`. -/
theorem never_goes_back_sampleCertificate :
    [FatPointerToBftBlock.null, sampleCertificate goodProposal].Pairwise
      (NotBefore ServiceParams.sample [sampleBlock 1 [sampleHeader 0 (Bytes.zero 32)]]) := by
  refine (Passed.never_goes_back_iff (isChain_pair.mpr ⟨_, prefix_rfl, by decide +kernel⟩)).mpr ?_
  exact isChain_pair.mpr fun h => absurd h.2 (by decide +kernel)

/-- A PoW block passes with the `null` pointer on a parent that names the first decided block. -/
theorem null_passes_after_first_block :
    let blocks := [sampleBlock 1 [sampleHeader 0 (Bytes.zero 32)]]
    askAboutFatPointers ServiceParams.sample blocks (sampleCertificate goodProposal) FatPointerToBftBlock.null = true ∧
    pointedHeight ServiceParams.sample blocks (sampleCertificate goodProposal) = some 1 ∧
    pointedHeight ServiceParams.sample blocks FatPointerToBftBlock.null = some 0 := by
  decide +kernel

/-! ### Blocks for syncing peers -/

def fatPointerToBlockAtHeight (bftBlocks : List BftBlock) (fatPointerToTip : FatPointerToBftBlock) (atHeight : ℕ) :
    Except Panic (Option FatPointerToBftBlock) :=
  if atHeight = 0 ∨ bftBlocks.length ≤ atHeight - 1 then .ok none
  else if atHeight = bftBlocks.length then .ok (some fatPointerToTip)
  else do
    let next ← getIdx bftBlocks atHeight
    return some next.previousBlockFatPtr

def getHistoricalBftBlockAtHeight (s : TFLServiceInternal) (atHeight : ℕ) :
    Except Panic (Option (BftBlock × FatPointerToBftBlock)) :=
  if atHeight = 0 ∨ s.bftBlocks.length ≤ atHeight - 1 then .ok none
  else do
    let block ← getIdx s.bftBlocks (atHeight - 1)
    let pointer ← fatPointerToBlockAtHeight s.bftBlocks s.fatPointerToTip atHeight
    let pointer ← unwrap pointer
    return some (block, pointer)

/-- The pointer that goes with the block at index `i`: the one in the next block, or the tip pointer. -/
def pointerTo (s : TFLServiceInternal) (i : ℕ) : FatPointerToBftBlock :=
  (s.bftBlocks[i + 1]?.map BftBlock.previousBlockFatPtr).getD s.fatPointerToTip

theorem getHistoricalBftBlockAtHeight_succ (h : s.bftBlocks[i]? = some block) :
    getHistoricalBftBlockAtHeight s (i + 1) = .ok (some (block, pointerTo s i)) := by
  have hlt : i < s.bftBlocks.length := (List.getElem?_eq_some_iff.mp h).1
  have hpointer : fatPointerToBlockAtHeight s.bftBlocks s.fatPointerToTip (i + 1) = .ok (some (pointerTo s i)) := by
    rw [fatPointerToBlockAtHeight, if_neg (by omega)]
    unfold pointerTo
    by_cases hlast : i + 1 = s.bftBlocks.length
    · rw [if_pos hlast, List.getElem?_eq_none hlast.ge]
      rfl
    · rw [if_neg hlast, getIdx_ok (getElem?_eq_getElem (by omega)), getElem?_eq_getElem (by omega)]
      rfl
  rw [getHistoricalBftBlockAtHeight, if_neg (by omega), Nat.add_sub_cancel, getIdx_ok h, ok_bind, hpointer, ok_bind]
  rfl

/-- The embedded pointers link the chain, and the tip pointer and the stored certificates are signed. -/
structure Linked (P : ServiceParams) (s : TFLServiceInternal) : Prop where
  next : ∀ i b next, s.bftBlocks[i]? = some b → s.bftBlocks[i + 1]? = some next →
    next.previousBlockFatPtr.pointsAtBlockHash = b.blake3Hash P.toParams
  tip : s.bftBlocks ≠ [] → validateSignatures P.batch s.fatPointerToTip = true
  store : ∀ records, s.posStore = some records → ∀ r ∈ records, validateSignatures P.batch r.fatPointer = true

theorem links_append (hinv : Inv P s)
    (hlinks : ∀ i b next, s.bftBlocks[i]? = some b → s.bftBlocks[i + 1]? = some next → next.previousBlockFatPtr.pointsAtBlockHash = b.blake3Hash P.toParams)
    (hprev : block.previousBlockFatPtr.pointsAtBlockHash = s.fatPointerToTip.pointsAtBlockHash) (i : ℕ)
    (b next : BftBlock) (hb : (s.bftBlocks ++ [block])[i]? = some b)
    (hnext : (s.bftBlocks ++ [block])[i + 1]? = some next) :
    next.previousBlockFatPtr.pointsAtBlockHash = b.blake3Hash P.toParams := by
  have hlt : i + 1 < (s.bftBlocks ++ [block]).length := (List.getElem?_eq_some_iff.mp hnext).1
  rw [List.length_append, List.length_singleton] at hlt
  rw [List.getElem?_append_left (by omega)] at hb
  rcases Nat.lt_or_ge (i + 1) s.bftBlocks.length with hin | hout
  · rw [List.getElem?_append_left hin] at hnext
    exact hlinks i b next hb hnext
  · have hlast : i + 1 = s.bftBlocks.length := by omega
    obtain rfl : block = next := by simpa [hlast] using hnext
    have htip : s.bftBlocks.getLast? = some b := by rwa [getLast?_eq_getElem?, ← hlast]
    rw [hprev, hinv.tip b htip]

theorem Linked.recorded {hash : BlockHash} (hinv : Inv P s) (hlinked : Linked P s)
    (h : Recordable P validating recording block fatPointer s height hash) :
    Linked P { s.recorded block fatPointer height hash with
      validatorsAtCurrentHeight := validators
      posStore := s.posStore.map fun records => records ++ [⟨block, fatPointer, validators⟩] } := by
  obtain ⟨hprev, -⟩ := validateBftBlock_pass.mp h.valid
  refine ⟨links_append hinv hlinked.next hprev, fun _ => h.signed, fun records hrecords r hr => ?_⟩
  obtain ⟨old, hold, rfl⟩ := Option.map_eq_some_iff.mp hrecords
  rcases mem_append.mp hr with hr | hr
  · exact hlinked.store old hold r hr
  · exact (mem_singleton.mp hr) ▸ h.signed

theorem Linked.loadRecords {records : List StoreRecord} (hinv : Inv P s) (hlinked : Linked P s)
    (hpoints : ∀ r ∈ records, r.block.headers ≠ [] ∧ r.fatPointer.pointsAtBlockHash = r.block.blake3Hash P.toParams)
    (hsigned : ∀ r ∈ records, validateSignatures P.batch r.fatPointer = true) : Linked P (loadRecords s records) := by
  induction records generalizing s with
  | nil => exact hlinked
  | cons r rs ih =>
    -- one more record, on its own, keeps the invariant of the hashes
    have hone := hinv.loadRecords (forall_mem_singleton.mpr (hpoints r mem_cons_self))
    rw [Bft.loadRecords] at hone ⊢
    split_ifs at hone ⊢ with hprev
    · exact hlinked
    · refine ih hone ⟨links_append hinv hlinked.next (not_not.mp hprev), fun _ => hsigned r mem_cons_self, ?_⟩
        (fun r' hr' => hpoints r' (mem_cons_of_mem _ hr')) fun r' hr' => hsigned r' (mem_cons_of_mem _ hr')
      intro records hstore r' hr'
      obtain ⟨old, hold, rfl⟩ := Option.map_eq_some_iff.mp hstore
      rcases mem_append.mp hr' with hr' | hr'
      · exact hlinked.store old hold r' hr'
      · exact (mem_singleton.mp hr') ▸ hsigned r mem_cons_self

theorem Linked.initial (P : ServiceParams) (genesis : List RosterMember) (persistent : Bool) :
    Linked P (TFLServiceInternal.initial genesis persistent) := by
  refine ⟨nofun, fun hne => absurd rfl hne, fun records hrecords r hr => ?_⟩
  cases persistent
  · exact absurd hrecords (by simp [TFLServiceInternal.initial])
  · obtain rfl : [] = records := by simpa [TFLServiceInternal.initial] using hrecords
    exact absurd hr not_mem_nil

theorem Linked.of_final (h : Linked P s) (final : Option (ℕ × BlockHash)) : Linked P { s with latestFinalBlock := final } :=
  ⟨h.next, h.tip, h.store⟩

theorem Reaches.linked (h : Reaches P genesis s) : Linked P s := by
  induction h with
  | start persistent => exact Linked.initial P genesis persistent
  | decide h hclear hstep ih =>
    obtain ⟨⟨s₁, hash⟩, hrecord, hfinish⟩ := bind_eq_ok.mp hstep
    obtain ⟨height, hrec, rfl⟩ := recordDecided_eq_ok h.inv hclear hrecord
    obtain ⟨validators, rfl⟩ := finishDecided_eq_ok hfinish
    exact ih.recorded h.inv hrec
  | restart h hstore hstep ih =>
    obtain ⟨final, rfl⟩ := startFrom_eq_ok hstep
    refine ((Linked.initial P genesis true).loadRecords (Inv.initial P genesis true) ?_ ?_).of_final final
    · exact fun r hr => h.inv.store _ hstore r (mem_of_mem_take hr)
    · exact fun r hr => ih.store _ hstore r (mem_of_mem_take hr)

theorem Reaches.pointerTo_hash (h : Reaches P genesis s) (hblock : s.bftBlocks[i]? = some block) :
    (pointerTo s i).pointsAtBlockHash = block.blake3Hash P.toParams := by
  unfold pointerTo
  cases hnext : s.bftBlocks[i + 1]? with
  | some next => exact h.linked.next i block next hblock hnext
  | none =>
    have hlt : i < s.bftBlocks.length := (List.getElem?_eq_some_iff.mp hblock).1
    have hlen : s.bftBlocks.length ≤ i + 1 := List.getElem?_eq_none_iff.mp hnext
    refine h.inv.tip block ?_
    rwa [List.getLast?_eq_getElem?, show s.bftBlocks.length - 1 = i by omega]

/-- In every state reached, each height has its block with a pointer to it whose signatures verify, exactly
when every block after the first embeds a pointer whose signatures verify. -/
theorem historical_certificates_iff (h : Reaches P genesis s) :
    (∀ atHeight, 1 ≤ atHeight → atHeight ≤ s.bftBlocks.length → ∃ block pointer,
      s.bftBlocks[atHeight - 1]? = some block ∧
      getHistoricalBftBlockAtHeight s atHeight = .ok (some (block, pointer)) ∧
      pointer.pointsAtBlockHash = block.blake3Hash P.toParams ∧ validateSignatures P.batch pointer = true) ↔
    ∀ block ∈ s.bftBlocks.tail, validateSignatures P.batch block.previousBlockFatPtr = true := by
  constructor
  · intro hall next hmem
    obtain ⟨i, hnext⟩ := List.mem_iff_getElem?.mp hmem
    rw [List.getElem?_tail] at hnext
    have hlt : i + 1 < s.bftBlocks.length := (List.getElem?_eq_some_iff.mp hnext).1
    obtain ⟨block, pointer, hblock, hget, -, hsigned⟩ := hall (i + 1) (by omega) (by omega)
    rw [Nat.add_sub_cancel] at hblock
    rw [getHistoricalBftBlockAtHeight_succ hblock, Except.ok.injEq, Option.some.injEq, Prod.mk.injEq] at hget
    rw [← hget.2, pointerTo, hnext] at hsigned
    exact hsigned
  · intro hall atHeight hpos hle
    obtain ⟨i, rfl⟩ : ∃ i, atHeight = i + 1 := ⟨atHeight - 1, by omega⟩
    have hblock : s.bftBlocks[i]? = some s.bftBlocks[i] := getElem?_eq_getElem (by omega)
    refine ⟨_, _, hblock, getHistoricalBftBlockAtHeight_succ hblock, h.pointerTo_hash hblock, ?_⟩
    unfold pointerTo
    cases hnext : s.bftBlocks[i + 1]? with
    | some next => exact hall next (mem_iff_getElem?.mpr ⟨i, by rw [getElem?_tail, hnext]⟩)
    | none => exact h.linked.tip (ne_nil_of_length_pos (by omega))

/-! ### A run with a forged pointer -/

/-- The commit votes for `bytes` of the only validator, who signs `template`. -/
def sampleSigned (bytes : List UInt8) (height : ℕ) (template : List UInt8) : FatPointerToBftBlock :=
  ⟨⟨(sampleDigest bytes).toList ++ leBytes 8 height ++ leBytes 4 (2 ^ 31), by simp⟩,
    [⟨keyNo 2, (sampleSign (keyNo 2).bytes ((keyNo 2).bytes.toList ++ template)).bytes⟩]⟩

def sampleDecision (bytes : List UInt8) (height : ℕ) : FatPointerToBftBlock :=
  sampleSigned bytes height ((sampleDigest bytes).toList ++ leBytes 8 height ++ leBytes 4 (2 ^ 31))

/-- A second block on `goodProposal` with the given pointer to it. -/
def sampleSecond (pointer : FatPointerToBftBlock) : BftBlock := ⟨1, 2, pointer, 0, [sampleHeader 1 (Bytes.zero 32)]⟩

/-- The service after `goodProposal` and a second block were decided. -/
def sampleTwoDecided (pointer : FatPointerToBftBlock) : Except Panic TFLServiceInternal := do
  let first := sampleBlock 1 [sampleHeader 0 (Bytes.zero 32)]
  let (s, _) ← handleNewDecidedBftBlock ServiceParams.sample sampleAnswers first (sampleDecision goodProposal 0)
    sampleService
  let second := sampleSecond pointer
  let (s, _) ← handleNewDecidedBftBlock ServiceParams.sample sampleAnswers second (sampleDecision second.zcashSerialize 1) s
  return s

theorem leNat_placeholder (i : ℕ) :
    ∃ k < 2 ^ 32, leNat (BftBlock.placeholder i).zcashSerialize = 2 ^ 32 * k := by
  have hrest : FatPointerToBftBlock.null.zcashSerialize ++ leBytes 4 0 ++ leBytes 4 0 ++ [] = List.replicate 54 0 := by
    decide
  have hbytes : (BftBlock.placeholder i).zcashSerialize =
      0 :: 0 :: 0 :: 0 :: (leBytes 4 (i % 2 ^ 32) ++ List.replicate 54 0) := by
    rw [← hrest, BftBlock.zcashSerialize]
    simp only [BftBlock.placeholder, append_assoc, show leBytes 4 0 = [0, 0, 0, 0] by decide]
    rfl
  have hzero : leNat (List.replicate 54 0) = 0 := by decide
  refine ⟨leNat (leBytes 4 (i % 2 ^ 32) ++ List.replicate 54 0), ?_, ?_⟩
  · simp only [leBytes, cons_append, nil_append, leNat, hzero, UInt8.toNat_ofNat']
    omega
  · rw [hbytes]
    simp only [leNat, UInt8.toNat_zero]
    omega

theorem placeholder_ne_goodProposal (i : ℕ) :
    sampleDigest (BftBlock.placeholder i).zcashSerialize ≠ sampleDigest goodProposal := by
  intro h
  obtain ⟨k, hk, hnat⟩ := leNat_placeholder i
  have hlist : leBytes 32 (1 + leNat (BftBlock.placeholder i).zcashSerialize % (2 ^ 255 - 19)) =
      leBytes 32 (1 + leNat goodProposal % (2 ^ 255 - 19)) := congrArg List.Vector.toList h
  have hgood : leNat goodProposal % (2 ^ 255 - 19) % 2 ^ 32 ≠ 0 := by decide +kernel
  have hlt : leNat goodProposal % (2 ^ 255 - 19) < 2 ^ 255 - 19 := Nat.mod_lt _ (by norm_num)
  rw [hnat, Nat.mod_eq_of_lt (by omega)] at hlist
  have := leBytes_inj (by omega) (by omega) hlist
  omega

theorem reaches_sampleTwoDecided (h : sampleTwoDecided pointer = .ok s) :
    Reaches ServiceParams.sample [⟨keyNo 2, 10⟩] s := by
  unfold sampleTwoDecided at h
  obtain ⟨⟨s₁, r₁⟩, h₁, h⟩ := bind_eq_ok.mp h
  obtain ⟨⟨s₂, r₂⟩, h₂, h⟩ := bind_eq_ok.mp h
  obtain rfl := pure_eq_ok.mp h
  have hs₁ : Reaches ServiceParams.sample [⟨keyNo 2, 10⟩] s₁ := .decide (.start false) (fun i => sampleDigest_ne_zero _) h₁
  have htip : s₁.fatPointerToTip.pointsAtBlockHash = sampleDigest goodProposal := by
    obtain ⟨⟨s₀, hash⟩, hrecord, hfinish⟩ := bind_eq_ok.mp h₁
    obtain ⟨height, hrec, rfl⟩ :=
      recordDecided_eq_ok (Inv.initial ServiceParams.sample _ false) (fun i => sampleDigest_ne_zero _) hrecord
    obtain ⟨validators, rfl⟩ := finishDecided_eq_ok hfinish
    exact hrec.points.trans (by unfold goodProposal; rfl)
  exact .decide hs₁ (fun i heq => placeholder_ne_goodProposal i (heq.trans htip)) h₂

/-- With the certificate of the first decision in the second block, both heights are served with a
certificate. -/
theorem historical_certificates_sampleDecision :
    ∃ s, sampleTwoDecided (sampleDecision goodProposal 0) = .ok s ∧
      ∃ block pointer, getHistoricalBftBlockAtHeight s 1 = .ok (some (block, pointer)) ∧
        validateSignatures ServiceParams.sample.batch pointer = true := by
  obtain ⟨s, hs, hcheck⟩ := exists_ok_of_any (x := sampleTwoDecided (sampleDecision goodProposal 0))
    (p := fun s => 1 ≤ s.bftBlocks.length ∧ ∀ block ∈ s.bftBlocks.tail,
      validateSignatures ServiceParams.sample.batch block.previousBlockFatPtr = true) (by decide +kernel)
  obtain ⟨hlen, hsigned⟩ := of_decide_eq_true hcheck
  obtain ⟨block, pointer, -, hget, -, hsigned⟩ :=
    (historical_certificates_iff (reaches_sampleTwoDecided hs)).mpr hsigned 1 le_rfl hlen
  exact ⟨s, hs, block, pointer, hget, hsigned⟩

/-- The second block names the first one under a signature over another message. Validation and the
handler accept it, and the first block is then served with that pointer. -/
theorem forged_pointer_served :
    ∃ s, Reaches ServiceParams.sample [⟨keyNo 2, 10⟩] s ∧ s.bftBlocks.length = 2 ∧
      ∃ block pointer, getHistoricalBftBlockAtHeight s 1 = .ok (some (block, pointer)) ∧
        validateSignatures ServiceParams.sample.batch pointer = false := by
  let pointer := sampleSigned goodProposal 0 []
  obtain ⟨s, hs, hcheck⟩ := exists_ok_of_any (x := sampleTwoDecided pointer)
    (p := fun s => s.bftBlocks.length = 2 ∧ getHistoricalBftBlockAtHeight s 1 =
      .ok (some (sampleBlock 1 [sampleHeader 0 (Bytes.zero 32)], pointer))) (by decide +kernel)
  obtain ⟨hlen, hget⟩ := of_decide_eq_true hcheck
  exact ⟨s, reaches_sampleTwoDecided hs, hlen, _, pointer, hget, by decide +kernel⟩

end Crosslink.Bft

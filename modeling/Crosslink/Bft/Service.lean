import Crosslink.Bft.Block

/-!
# The crosslink service

The part of the service that the finality gadget drives: validating a proposed BFT block, handling a
decided one, building the next roster, and reloading the stored decisions at start. The answers of the
PoW state service are parameters here, one for each request the code awaits, since the state may change
between two of them.
-/

namespace Crosslink.Bft

open Codec Fallible Tenderlink

/-- What the service takes from other crates. -/
structure ServiceParams extends Params where
  /-- The hash of PoW headers. -/
  sha256d : List UInt8 → BlockHash
  /-- The batch verifier of the signature crate. -/
  batch : List (PubKeyID × TMSig × List UInt8) → Bool

variable {P : ServiceParams}

/-! ### Rosters -/

structure RosterMember where
  pubKey : PubKeyID
  votingPower : ℕ
  deriving DecidableEq

def sortKey (m : SortedRosterMember) : ℕ ×ₗ List ℕ := toLex (m.stake, m.pubKey.bytes.toList.map UInt8.toNat)

/-- Fills in the running sums, starting from `sum`. -/
def fillCumulative (checks : Bool) (sum : ℕ) : List SortedRosterMember → Except Panic (List SortedRosterMember)
  | [] => return []
  | m :: ms => do
    let sum ← addU checks 64 sum m.stake
    let ms ← fillCumulative checks sum ms
    return { m with cumulativeStake := sum } :: ms

def sortedMembers (vals : List RosterMember) : List SortedRosterMember :=
  (vals.map fun v => ⟨v.pubKey, v.votingPower, 0⟩).insertionSort fun a b => sortKey b ≤ sortKey a

def tenderlinkRosterFromInternal (P : ServiceParams) (vals : List RosterMember) :
    Except Panic (List SortedRosterMember) := do
  let ret := sortedMembers vals
  ensure (P.overflowChecks = true → ret.IsChain fun a b => b.stake ≤ a.stake)
  fillCumulative P.overflowChecks 0 ret

/-- Amounts of coins, so their sum is far below `2 ^ 64`. -/
def StakesFit (vals : List RosterMember) : Prop := (vals.map RosterMember.votingPower).sum < 2 ^ 64

/-- What `fillCumulative` computes when nothing overflows. -/
def cumulate (sum : ℕ) : List SortedRosterMember → List SortedRosterMember
  | [] => []
  | m :: ms => { m with cumulativeStake := sum + m.stake } :: cumulate (sum + m.stake) ms

theorem fillCumulative_ok (h : sum + (ms.map SortedRosterMember.stake).sum < 2 ^ 64) :
    fillCumulative checks sum ms = .ok (cumulate sum ms) := by
  induction ms generalizing sum with
  | nil => rfl
  | cons m ms ih =>
    simp only [List.map_cons, List.sum_cons] at h
    rw [fillCumulative, addU_ok (by omega), ok_bind, ih (by omega)]
    rfl

theorem map_stake_cumulate (sum : ℕ) (ms : List SortedRosterMember) :
    (cumulate sum ms).map SortedRosterMember.stake = ms.map SortedRosterMember.stake := by
  induction ms generalizing sum with
  | nil => rfl
  | cons m ms ih => simp [cumulate, ih]

theorem cumulate_getElem? (h : (cumulate sum ms)[i]? = some m) :
    m.cumulativeStake = sum + stakeBefore (cumulate sum ms) (i + 1) := by
  induction ms generalizing sum i with
  | nil => simp [cumulate] at h
  | cons a ms ih =>
    cases i with
    | zero =>
      obtain rfl : { a with cumulativeStake := sum + a.stake } = m := by simpa [cumulate] using h
      simp [cumulate, stakeBefore]
    | succ i =>
      rw [ih (by simpa [cumulate] using h)]
      simp only [cumulate, stakeBefore, List.take_succ_cons, List.map_cons, List.sum_cons]
      omega

theorem sum_sortedMembers (vals : List RosterMember) :
    ((sortedMembers vals).map SortedRosterMember.stake).sum = (vals.map RosterMember.votingPower).sum := by
  have hperm := (List.perm_insertionSort (fun a b => sortKey b ≤ sortKey a)
    (vals.map fun v => (⟨v.pubKey, v.votingPower, 0⟩ : SortedRosterMember))).map SortedRosterMember.stake
  rw [sortedMembers, hperm.sum_eq, List.map_map]
  rfl

theorem sortedMembers_pairwise (vals : List RosterMember) :
    (sortedMembers vals).Pairwise fun a b => sortKey b ≤ sortKey a := by
  have : Std.Total fun a b : SortedRosterMember => sortKey b ≤ sortKey a := ⟨fun a b => le_total (sortKey b) (sortKey a)⟩
  have : IsTrans SortedRosterMember fun a b => sortKey b ≤ sortKey a := ⟨fun _ _ _ hab hbc => hbc.trans hab⟩
  exact List.pairwise_insertionSort _ _

theorem stake_le_of_sortKey_le (h : sortKey b ≤ sortKey a) : b.stake ≤ a.stake := by
  rcases Prod.Lex.le_iff.mp h with h | h
  · exact h.le
  · exact h.1.le

theorem tenderlinkRosterFromInternal_ok (h : StakesFit vals) :
    ∃ R : SortedRoster, R.members = cumulate 0 (sortedMembers vals) ∧
      tenderlinkRosterFromInternal P vals = .ok R.members := by
  have hsum : ((sortedMembers vals).map SortedRosterMember.stake).sum < 2 ^ 64 := by
    rw [sum_sortedMembers]
    exact h
  have hchain : (sortedMembers vals).IsChain fun a b => b.stake ≤ a.stake :=
    ((sortedMembers_pairwise vals).imp stake_le_of_sortKey_le).isChain
  refine ⟨⟨cumulate 0 (sortedMembers vals), ?_, ?_⟩, rfl, ?_⟩
  · intro i m hm
    rw [cumulate_getElem? hm, Nat.zero_add]
  · rw [stakeBefore, List.take_length, map_stake_cumulate]
    exact hsum
  · simp only [tenderlinkRosterFromInternal]
    rw [ensure_ok (c := P.overflowChecks = true → _) fun _ => hchain, ok_bind, fillCumulative_ok (by omega)]

/-! ### State -/

/-- One record of the file that keeps the decisions. -/
structure StoreRecord where
  block : BftBlock
  fatPointer : FatPointerToBftBlock
  roster : List RosterMember
  deriving DecidableEq

structure TFLServiceInternal where
  bftBlocks : List BftBlock
  fatPointerToTip : FatPointerToBftBlock
  latestFinalBlock : Option (ℕ × BlockHash)
  validatorsAtCurrentHeight : List RosterMember
  /-- The records in the store file; `none` when the service runs without one. -/
  posStore : Option (List StoreRecord)
  deriving DecidableEq

def fromHeaderData (P : ServiceParams) (h : BlockHeaderData) : BlockHash := P.sha256d h.writeData

/-- The hash of the block that `b` makes final. -/
def BftBlock.finalHash? (P : ServiceParams) (b : BftBlock) : Option BlockHash := b.headers.head?.map (fromHeaderData P)

/-! ### Validation -/

/-- `known` is `block_height_from_hash`. -/
def validateBftBlock (P : ServiceParams) (known : BlockHash → Option ℕ) (newBlock : BftBlock)
    (s : TFLServiceInternal) : Except Panic (TMStatus × TMStatusReason) :=
  if newBlock.previousBlockFatPtr.pointsAtBlockHash ≠ s.fatPointerToTip.pointsAtBlockHash then .ok (.fail, .none)
  else do
    let newFinalHash ← unwrap (newBlock.finalHash? P)
    match known newFinalHash with
    | some _ => .ok (.pass, .none)
    | none => .ok (.indeterminate, .needsBlock newFinalHash)

/-- The closure that validates a proposal; bytes after the block are ignored. -/
def validateProposedBlock (P : ServiceParams) (known : BlockHash → Option ℕ) (bytes : List UInt8)
    (s : TFLServiceInternal) : Except Panic (TMStatus × TMStatusReason) :=
  match BftBlock.zcashDeserialize bytes with
  | some (block, _) => validateBftBlock P known block s
  | none => .ok (.fail, .none)

/-! ### Decisions -/

/-- A vector never holds more than `isize::MAX` elements. -/
def isizeMax : ℕ := 2 ^ 63 - 1

def ensureSlot (blocks : List BftBlock) (insertI : ℕ) : Except Panic (List BftBlock) :=
  if insertI < isizeMax then
    .ok (blocks ++ (List.range' blocks.length (insertI + 1 - blocks.length)).map BftBlock.placeholder)
  else .error .capacity

def checkParent (P : ServiceParams) (blocks : List BftBlock) (insertI : ℕ) (newBlock : BftBlock) :
    Except Panic Unit :=
  if 0 < insertI then do
    let parent ← getIdx blocks (insertI - 1)
    ensure (parent.blake3Hash P.toParams = newBlock.previousBlockFatPtr.pointsAtBlockHash)
  else .ok ()

/-- The handler up to the point where it gives up the lock: the checks and the new record. `validating`
and `recording` answer the two height requests it makes. -/
def recordDecided (P : ServiceParams) (validating recording : BlockHash → Option ℕ) (newBlock : BftBlock)
    (fatPointer : FatPointerToBftBlock) (s : TFLServiceInternal) : Except Panic (TFLServiceInternal × BlockHash) := do
  ensure (fatPointer.pointsAtBlockHash = newBlock.blake3Hash P.toParams)
  ensure (validateSignatures P.batch fatPointer = true)
  let status ← validateBftBlock P validating newBlock s
  ensure (status = (.pass, .none))
  let newFinalHash ← unwrap (newBlock.finalHash? P)
  let newFinalHeight ← unwrap (recording newFinalHash)
  let insertI ← subU P.overflowChecks 64 newBlock.height 1
  let blocks ← ensureSlot s.bftBlocks insertI
  checkParent P blocks insertI newBlock
  ensure (insertI = 0 ∨ newBlock.previousBlockFatPtr.pointsAtBlockHash ≠ Bytes.zero 32)
  let slot ← getIdx blocks insertI
  ensure (slot.headers = [])
  ensure (newBlock.headers ≠ [])
  return ({ s with
    bftBlocks := blocks.set insertI newBlock
    fatPointerToTip := fatPointer
    latestFinalBlock := some (newFinalHeight, newFinalHash) }, newFinalHash)

/-- What the finalize request returned: the hash and the stakes by finalizer, or an error. -/
abbrev Finalized := Option (BlockHash × List (PubKeyID × ℕ))

def checkResponse (newFinalHash : BlockHash) : Finalized → Except Panic Unit
  | some (hash, _) => ensure (hash = newFinalHash)
  | none => .ok ()

/-- The handler from the answer to its finalize request on. An error is only logged; an empty list of
stakes leaves the validators as they are. -/
def finishDecided (P : ServiceParams) (newBlock : BftBlock) (fatPointer : FatPointerToBftBlock)
    (newFinalHash : BlockHash) (response : Finalized) (s : TFLServiceInternal) :
    Except Panic (TFLServiceInternal × List SortedRosterMember) := do
  checkResponse newFinalHash response
  let gotStakes := (response.map Prod.snd).getD []
  let validators := if 0 < gotStakes.length then gotStakes.map fun x => ⟨x.1, x.2⟩ else s.validatorsAtCurrentHeight
  let roster ← tenderlinkRosterFromInternal P validators
  return ({ s with
    validatorsAtCurrentHeight := validators
    posStore := s.posStore.map fun records => records ++ [⟨newBlock, fatPointer, validators⟩] }, roster)

/-- The answers of the state service to the requests made around one decision, in order: while the proposal
is validated, and then by the handler. -/
structure PowAnswers where
  proposed : BlockHash → Option ℕ
  validating : BlockHash → Option ℕ
  recording : BlockHash → Option ℕ
  finalize : BlockHash → Finalized

def handleNewDecidedBftBlock (P : ServiceParams) (answers : PowAnswers) (newBlock : BftBlock)
    (fatPointer : FatPointerToBftBlock) (s : TFLServiceInternal) :
    Except Panic (TFLServiceInternal × List SortedRosterMember) := do
  let (s, newFinalHash) ← recordDecided P answers.validating answers.recording newBlock fatPointer s
  finishDecided P newBlock fatPointer newFinalHash (answers.finalize newFinalHash) s

def pushDecidedBlock (P : ServiceParams) (answers : PowAnswers) (bytes : List UInt8)
    (fatPointer : FatPointerToBftBlock) (s : TFLServiceInternal) :
    Except Panic (TFLServiceInternal × List SortedRosterMember) := do
  let (block, _) ← unwrap (BftBlock.zcashDeserialize bytes)
  handleNewDecidedBftBlock P answers block fatPointer s

/-! ### Start -/

def TFLServiceInternal.initial (genesis : List RosterMember) (persistent : Bool) : TFLServiceInternal where
  bftBlocks := []
  fatPointerToTip := FatPointerToBftBlock.null
  latestFinalBlock := none
  validatorsAtCurrentHeight := genesis
  posStore := if persistent then some [] else none

/-- Takes the records in order for as long as each points at the one before it. -/
def loadRecords (s : TFLServiceInternal) : List StoreRecord → TFLServiceInternal
  | [] => s
  | r :: rs =>
    if r.block.previousBlockFatPtr.pointsAtBlockHash ≠ s.fatPointerToTip.pointsAtBlockHash then s
    else loadRecords { s with
      bftBlocks := s.bftBlocks ++ [r.block]
      fatPointerToTip := r.fatPointer
      validatorsAtCurrentHeight := r.roster
      posStore := s.posStore.map (· ++ [r]) } rs

def startFrom (P : ServiceParams) (known : BlockHash → Option ℕ) (genesis : List RosterMember)
    (records : List StoreRecord) : Except Panic TFLServiceInternal :=
  let s := loadRecords (TFLServiceInternal.initial genesis true) records
  match s.bftBlocks.getLast? with
  | none => return s
  | some block => do
    let newFinalHash ← unwrap (block.finalHash? P)
    let newFinalHeight ← unwrap (known newFinalHash)
    return if newFinalHash ≠ Bytes.zero 32 then { s with latestFinalBlock := some (newFinalHeight, newFinalHash) } else s

def Clear (P : ServiceParams) (s : TFLServiceInternal) : Prop :=
  ∀ i, (BftBlock.placeholder i).blake3Hash P.toParams ≠ s.fatPointerToTip.pointsAtBlockHash

/-- The states of the service: decisions whose handler returns, and restarts that find some of the
records that were written. -/
inductive Reaches (P : ServiceParams) (genesis : List RosterMember) : TFLServiceInternal → Prop
  | start (persistent : Bool) : Reaches P genesis (TFLServiceInternal.initial genesis persistent)
  | decide {s s' : TFLServiceInternal} {answers : PowAnswers} {block : BftBlock} {fatPointer : FatPointerToBftBlock}
      {roster : List SortedRosterMember} (h : Reaches P genesis s) (hclear : Clear P s)
      (hstep : handleNewDecidedBftBlock P answers block fatPointer s = .ok (s', roster)) : Reaches P genesis s'
  | restart {s s' : TFLServiceInternal} {known : BlockHash → Option ℕ} {records : List StoreRecord} {n : ℕ}
      (h : Reaches P genesis s) (hstore : s.posStore = some records)
      (hstep : startFrom P known genesis (records.take n) = .ok s') : Reaches P genesis s'

end Crosslink.Bft

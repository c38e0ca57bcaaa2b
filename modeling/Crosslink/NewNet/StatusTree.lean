import Crosslink.NewNet.Offers

/-!
# The tree of hashes in a status

A status carries the chains near the tip as a tree. The hashes of all chains stand in one list, each chain from the
first block that is not in the list yet, and for each chain there is a record with the index of its parent in the list
and the index where it ends. A chain whose parent is not in the list starts a new tree: its parent comes first, and its
record has the height too. What does not fit into the buffer is cut off at the end.
-/

namespace Crosslink.NewNet

open Codec Fallible Bft

structure PacketHashTreeHdr where
  tipHeight : ℕ
  finalizedHeight : ℕ
  hashesStartOffset : ℕ
  deriving DecidableEq

structure PacketHashBranch where
  parentHashIdx : ℕ
  branchEndIdx : ℕ
  deriving DecidableEq

def PacketHashTreeHdr.write (h : PacketHashTreeHdr) : List UInt8 :=
  leBytes 4 h.tipHeight ++ (leBytes 4 h.finalizedHeight ++ leBytes 2 h.hashesStartOffset)

def PacketHashTreeHdr.read : Reader PacketHashTreeHdr := do
  let tipHeight ← readLE 4
  let finalizedHeight ← readLE 4
  let hashesStartOffset ← readLE 2
  return ⟨tipHeight, finalizedHeight, hashesStartOffset⟩

def PacketHashBranch.write (b : PacketHashBranch) : List UInt8 := leBytes 2 b.parentHashIdx ++ leBytes 2 b.branchEndIdx

def PacketHashBranch.read : Reader PacketHashBranch := do
  let parentHashIdx ← readLE 2
  let branchEndIdx ← readLE 2
  return ⟨parentHashIdx, branchEndIdx⟩

/-! ### Writing -/

/-- `try_into().unwrap()` to a `u16`. -/
def toU16 (n : ℕ) : Except Panic ℕ := if n < 2 ^ 16 then .ok n else .error .unwrap

def rposition (hashes : List BlockHash) (hash : BlockHash) : Option ℕ :=
  (hashes.reverse.idxOf? hash).map (hashes.length - 1 - ·)

/-- The newest block with a parent in the list, as the place of the parent in the list and of the block in the chain. -/
def findParentIdx (hashes : List BlockHash) (blocks : List ShadowBlock) : Option (ℕ × ℕ) :=
  (List.range blocks.length).reverse.findSome? fun chainIdx =>
    blocks[chainIdx]?.bind fun b => (rposition hashes b.parentHash).map (·, chainIdx)

/-- A record with the height of its first block. -/
structure StatusRun where
  branch : PacketHashBranch
  height : ℕ
  deriving DecidableEq

def addRun (collected : List BlockHash × List StatusRun) (chain : NearTipChain) :
    Except Panic (List BlockHash × List StatusRun) := do
  let (hashes, runs) := collected
  ensure (0 < chain.blocks.length)
  let first ← getIdx chain.blocks 0
  let (hashes, parentIdx, baseIdx) := match findParentIdx hashes chain.blocks with
    | some (parentIdx, baseIdx) => (hashes, parentIdx, baseIdx)
    | none => (hashes ++ [first.parentHash], hashes.length, 0)
  let base ← getIdx chain.blocks baseIdx
  let hashes := hashes ++ (chain.blocks.drop baseIdx).map ShadowBlock.thisHash
  let parentHashIdx ← toU16 parentIdx
  let branchEndIdx ← toU16 hashes.length
  return (hashes, runs ++ [⟨⟨parentHashIdx, branchEndIdx⟩, base.thisHeight⟩])

/-- The sizes that `size_of_val` gives for a record and for a height, which is behind a reference. -/
def sizeOfBranch : ℕ := 4

def sizeOfHeightRef : ℕ := 8

def hdrLen : ℕ := 10

def minPacketSize : ℕ := hdrLen + (4 + 4) + (nearTipChainLen + 1) * 32

/-- `write_to` at an offset into a buffer. -/
def writeAt (bufLen o : ℕ) (bytes : List UInt8) : Except Panic (List UInt8) :=
  if o + bytes.length ≤ bufLen then .ok bytes else .error .index

/-- The loop that writes the records from offset `o` on, for as many hashes as there is room. It returns the bytes and
the number of hashes that go with them. -/
def writeRuns (bufLen hashCount : ℕ) : ℕ → ℕ → List StatusRun → Except Panic (List UInt8 × ℕ)
  | _, hashC, [] => .ok ([], hashC)
  | o, hashC, run :: runs => do
    let disconnected := run.branch.parentHashIdx = hashC
    let hashesStartIfLast := o + sizeOfBranch + if disconnected then sizeOfHeightRef else 0
    let runBgnIfLast := hashesStartIfLast + hashC * 32
    let runEndIfLast := hashesStartIfLast + run.branch.branchEndIdx * 32
    if bufLen < runBgnIfLast + ((if disconnected then 1 else 0) + 1) * 32 then return ([], hashC)
    let branchEndIdx ← (if bufLen < runEndIfLast then do
        let branchEndIdx ← toU16 (hashC + (bufLen - runBgnIfLast) / 32)
        ensure (branchEndIdx ≤ hashCount)
        return branchEndIdx
      else return run.branch.branchEndIdx)
    let bytes := PacketHashBranch.write ⟨run.branch.parentHashIdx, branchEndIdx⟩ ++
      if disconnected then leBytes 4 run.height else []
    let bytes ← writeAt bufLen o bytes
    let (rest, hashC) ← writeRuns bufLen hashCount (o + bytes.length) branchEndIdx runs
    return (bytes ++ rest, hashC)

def NearTipChains.write (s : NearTipChains) (bufLen : ℕ) : Except Panic (List UInt8) := do
  ensure (minPacketSize ≤ bufLen)
  let tipHeight ← unwrap s.tipHeight
  ensure (s.finalizedHeight ≤ tipHeight)
  let (hashes, runs) ← s.chains.foldlM addRun ([], [])
  let (bytes, hashC) ← writeRuns bufLen hashes.length hdrLen 0 runs
  let hashesStartOffset ← toU16 (hdrLen + bytes.length)
  let written ← slice hashes 0 hashC
  let hashBytes ← writeAt bufLen (hdrLen + bytes.length) (written.flatMap List.Vector.toList)
  return PacketHashTreeHdr.write ⟨tipHeight, s.finalizedHeight, hashesStartOffset⟩ ++ (bytes ++ hashBytes)

/-! ### Reading -/

namespace NearTipBranches

/-- Returns `None`, in a debug build after a breakpoint. -/
def malformed {α : Type} (debug : Bool) : Except (Stop Unit) α := .error (if debug then .panic .assert else .error ())

def readOr {α : Type} (debug : Bool) (r : Reader α) (buf : List UInt8) : Except (Stop Unit) (α × List UInt8) :=
  match r buf with
  | some p => .ok p
  | none => malformed debug

/-- The height above a block, from the branches so far; `none` inside if it would not fit. -/
def heightAbove (branches : List (List ShadowBlock)) (parentHash : BlockHash) : Option (Option ℕ) :=
  branches.flatten.findSome? fun b =>
    if b.parentHash = parentHash then some (some b.thisHeight)
    else if b.thisHash = parentHash then some (if b.thisHeight + 1 < 2 ^ 32 then some (b.thisHeight + 1) else none)
    else none

def stack (parentHash : BlockHash) (height : ℕ) : List BlockHash → List ShadowBlock
  | [] => []
  | hash :: hashes => ⟨hash, parentHash, height⟩ :: stack hash (height + 1) hashes

/-- Where the hashes of a branch start, the height of its first block, and the bytes after it: a new parent is followed
by the height, one that was there before has the height from the branches so far. -/
def branchStart (debug : Bool) (hashC parentIdx : ℕ) (parentHash : BlockHash) (branches : List (List ShadowBlock))
    (buf : List UInt8) : Except (Stop Unit) (ℕ × ℕ × List UInt8) :=
  if hashC < parentIdx then malformed debug
  else if parentIdx = hashC then do
    let (height, buf) ← readOr debug (readLE 4) buf
    return (hashC + 1, height, buf)
  else match heightAbove branches parentHash with
    | some (some height) => return (hashC, height, buf)
    | _ => malformed debug

def readBranch (debug : Bool) (tipHeight : ℕ) (bufHashes : List UInt8) (hashC : ℕ) (branches : List (List ShadowBlock))
    (buf : List UInt8) : Except (Stop Unit) (ℕ × List (List ShadowBlock) × List UInt8) := do
  let hashes := chunksExact 32 bufHashes
  let (branch, buf) ← readOr debug PacketHashBranch.read buf
  if bufHashes.length < branch.branchEndIdx * 32 then malformed debug
  else if bufHashes.length < (branch.parentHashIdx + 1) * 32 then malformed debug
  else do
    let parentHash ← (getIdx hashes branch.parentHashIdx).mapError .panic
    let (hashC, bgnHeight, buf) ← branchStart debug hashC branch.parentHashIdx parentHash branches buf
    let count := branch.branchEndIdx - hashC
    if branch.branchEndIdx ≤ hashC then malformed debug
    else if 2 ^ 32 ≤ bgnHeight + count then malformed debug
    else if branches = [] ∧ bgnHeight + count - 1 ≠ tipHeight then malformed debug
    else do
      let branchHashes ← ((List.range' hashC count).mapM (getIdx hashes)).mapError .panic
      return (branch.branchEndIdx, branches ++ [stack parentHash bgnHeight branchHashes], buf)

def readBranches (debug : Bool) (tipHeight : ℕ) (bufHashes : List UInt8) :
    ℕ → ℕ → List (List ShadowBlock) → List UInt8 → Except (Stop Unit) (List (List ShadowBlock))
  | _, _, branches, [] => .ok branches
  | 0, _, branches, _ :: _ => .ok branches
  | fuel + 1, hashC, branches, b :: buf => do
    let (hashC, branches, buf) ← readBranch debug tipHeight bufHashes hashC branches (b :: buf)
    readBranches debug tipHeight bufHashes fuel hashC branches buf

def read (debug : Bool) (fullBuf : List UInt8) : Except (Stop Unit) NearTipBranches := do
  let (hdr, buf) ← readOr debug PacketHashTreeHdr.read fullBuf
  let buf ← (slice buf 0 (hdr.hashesStartOffset - hdrLen)).mapError .panic
  let bufHashes ← (slice fullBuf hdr.hashesStartOffset fullBuf.length).mapError .panic
  let branches ← readBranches debug hdr.tipHeight bufHashes buf.length 0 [] buf
  return ⟨hdr.tipHeight, hdr.finalizedHeight, branches⟩

end NearTipBranches

end Crosslink.NewNet

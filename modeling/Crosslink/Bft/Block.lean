import Crosslink.Bft.Votes

/-!
# BFT blocks on the wire

The encodings of certificates, PoW headers and BFT blocks, each with the fact that its reader accepts
exactly the writings of the values that fit the fields, followed by anything. So decoding a byte string
and encoding the result gives back the string up to trailing bytes (`BftBlock.reads_zcashDeserialize`),
and the hash of a decoded block is the hash of the bytes precisely because there are none.
Certificates have a second decoder, which is kept as the source has it (`FatPointerToBftBlock.tryFromBytes`).
-/

/-! ### Certificates -/

namespace Crosslink.Tenderlink

open Codec Fallible

namespace FatPointerSignature

def toBytes (sig : FatPointerSignature) : List UInt8 := sig.pubKey.bytes.toList ++ sig.voteSignature.toList

def fromBytes : Reader FatPointerSignature := do
  let pubKey ← readBytes 32
  let voteSignature ← readBytes 64
  return ⟨⟨pubKey⟩, voteSignature⟩

theorem reads_fromBytes : Reads fromBytes toBytes fun _ => True := by
  intro sig buf rest
  simp only [fromBytes, bind_eq_some, readBytes_eq_some, pure_eq_some, true_and, toBytes]
  constructor
  · rintro ⟨key, -, rfl, vote, -, rfl, rfl, rfl⟩
    simp
  · rintro rfl
    exact ⟨sig.pubKey.bytes, _, List.append_assoc _ _ _, sig.voteSignature, _, rfl, rfl, rfl⟩

end FatPointerSignature

namespace FatPointerToBftBlock

def null : FatPointerToBftBlock := ⟨Bytes.zero 44, []⟩

def pointsAtBlockHash (p : FatPointerToBftBlock) : Bytes 32 :=
  ⟨p.voteForBlockWithoutFinalizerPublicKey.toList.take 32, by simp⟩

/-- The number of signatures is cut to 16 bits, the signatures are not. -/
def zcashSerialize (p : FatPointerToBftBlock) : List UInt8 :=
  p.voteForBlockWithoutFinalizerPublicKey.toList ++ leBytes 2 p.signatures.length ++
    p.signatures.flatMap FatPointerSignature.toBytes

def zcashDeserialize : Reader FatPointerToBftBlock := do
  let vote ← readBytes 44
  let len ← readLE 2
  let signatures ← readMany FatPointerSignature.fromBytes len
  return ⟨vote, signatures⟩

theorem reads_zcashDeserialize :
    Reads zcashDeserialize zcashSerialize fun p => p.signatures.length < 2 ^ 16 := by
  intro p buf rest
  simp only [zcashDeserialize, bind_eq_some, readBytes_eq_some, readLE_eq_some, pure_eq_some,
    FatPointerSignature.reads_fromBytes.readMany _ _ _ _, zcashSerialize]
  constructor
  · rintro ⟨vote, -, rfl, len, -, ⟨hlen, rfl⟩, sigs, -, ⟨⟨rfl, -⟩, rfl⟩, rfl, rfl⟩
    exact ⟨hlen, by simp⟩
  · rintro ⟨hlen, rfl⟩
    exact ⟨p.voteForBlockWithoutFinalizerPublicKey, _, by simp only [List.append_assoc], _, _, ⟨hlen, rfl⟩,
      p.signatures, _, ⟨⟨rfl, fun _ _ => trivial⟩, rfl⟩, rfl, rfl⟩

def toBytes (p : FatPointerToBftBlock) : List UInt8 :=
  p.voteForBlockWithoutFinalizerPublicKey.toList ++ leBytes 2 p.signatures.length ++
    p.signatures.flatMap FatPointerSignature.toBytes

def announced (bytes : List UInt8) : ℕ := leNat ((bytes.drop 44).take 2)

/-- A second decoder of the layout. The range `44..2` of the count is the source's own. -/
def tryFromBytes (bytes : List UInt8) : Except Panic (Option FatPointerToBftBlock) :=
  if h : bytes.length < 46 then return none
  else do
    let vote : Bytes 44 := ⟨bytes.take 44, by rw [List.length_take]; omega⟩
    let count ← slice bytes 44 2
    ensure (count.length = 2)
    if bytes.length < 46 + leNat count * 96 then return none
    else do
      let signatures ← (chunksExact 96 (bytes.drop 46)).mapM fun chunk =>
        unwrap ((FatPointerSignature.fromBytes chunk.toList).map Prod.fst)
      return some ⟨vote, signatures⟩

theorem length_toBytes (p : FatPointerToBftBlock) : 46 ≤ p.toBytes.length := by
  simp only [toBytes, List.length_append, List.Vector.toList_length, leBytes_length]
  omega

theorem tryFromBytes_eq (bytes : List UInt8) :
    tryFromBytes bytes = if bytes.length < 46 then .ok none else .error .index := by
  unfold tryFromBytes
  split_ifs with h
  · rfl
  · rfl

end FatPointerToBftBlock

end Crosslink.Tenderlink

namespace Crosslink.Bft

open Codec Tenderlink

/-! ### PoW headers -/

abbrev BlockHash := Bytes 32

structure BlockHeaderData where
  /-- An `i32`. -/
  version : ℤ
  prevBlock : BlockHash
  merkleRoot : Bytes 32
  finalSaplingRoot : Bytes 32
  time : ℕ
  bits : ℕ
  nonce : Bytes 32
  solution : List UInt8
  fatPointerToBftBlock : FatPointerToBftBlock
  deriving DecidableEq

namespace BlockHeaderData

/-- The fields are in the range of their types. -/
structure Fits (h : BlockHeaderData) : Prop where
  version : -2 ^ 31 ≤ h.version ∧ h.version < 2 ^ 31
  time : h.time < 2 ^ 32
  bits : h.bits < 2 ^ 32
  solution : h.solution.length ≤ CompactSize.maxCompactSize
  signatures : h.fatPointerToBftBlock.signatures.length < 2 ^ 16

def writeData (h : BlockHeaderData) : List UInt8 :=
  leBytes 4 (BitVec.ofInt 32 h.version).toNat ++ h.prevBlock.toList ++ h.merkleRoot.toList ++
    h.finalSaplingRoot.toList ++ leBytes 4 h.time ++ leBytes 4 h.bits ++ h.nonce.toList ++
    (CompactSize.write h.solution.length ++ h.solution.flatMap fun b => [b]) ++
    h.fatPointerToBftBlock.zcashSerialize

def readData : Reader BlockHeaderData := do
  let version ← readLE 4
  let prevBlock ← readBytes 32
  let merkleRoot ← readBytes 32
  let finalSaplingRoot ← readBytes 32
  let time ← readLE 4
  let bits ← readLE 4
  let nonce ← readBytes 32
  let count ← CompactSize.read
  let solution ← readMany readByte count
  let fatPointerToBftBlock ← FatPointerToBftBlock.zcashDeserialize
  return ⟨(BitVec.ofNat 32 version).toInt, prevBlock, merkleRoot, finalSaplingRoot, time, bits, nonce, solution,
    fatPointerToBftBlock⟩

theorem reads_readData : Reads readData writeData Fits := by
  intro h buf rest
  simp only [readData, bind_eq_some, readBytes_eq_some, readLE_eq_some, pure_eq_some, CompactSize.reads_read _ _ _,
    reads_readByte.readMany _ _ _ _, FatPointerToBftBlock.reads_zcashDeserialize _ _ _, writeData]
  constructor
  · rintro ⟨version, -, ⟨hversion, rfl⟩, prev, -, rfl, merkle, -, rfl, root, -, rfl, time, -, ⟨htime, rfl⟩, bits, -,
      ⟨hbits, rfl⟩, nonce, -, rfl, count, -, ⟨hcount, rfl⟩, solution, -, ⟨⟨rfl, -⟩, rfl⟩, p, -, ⟨hp, rfl⟩, rfl, rfl⟩
    refine ⟨⟨⟨BitVec.le_toInt _, BitVec.toInt_lt⟩, htime, hbits, hcount, hp⟩, ?_⟩
    have hword : (BitVec.ofInt 32 (BitVec.ofNat 32 version).toInt).toNat = version := by
      rw [BitVec.ofInt_toInt, BitVec.toNat_ofNat]
      exact Nat.mod_eq_of_lt hversion
    simp only [hword, List.append_assoc]
  · rintro ⟨hfits, rfl⟩
    refine ⟨_, _, ⟨(BitVec.ofInt 32 h.version).isLt, by simp only [List.append_assoc]⟩, h.prevBlock, _, rfl,
      h.merkleRoot, _, rfl, h.finalSaplingRoot, _, rfl, h.time, _, ⟨hfits.time, rfl⟩, h.bits, _, ⟨hfits.bits, rfl⟩,
      h.nonce, _, rfl, _, _, ⟨hfits.solution, rfl⟩, h.solution, _, ⟨⟨rfl, fun _ _ => trivial⟩, rfl⟩,
      h.fatPointerToBftBlock, _, ⟨hfits.signatures, rfl⟩, ?_, rfl⟩
    have hversion : (BitVec.ofNat 32 (BitVec.ofInt 32 h.version).toNat).toInt = h.version := by
      rw [BitVec.ofNat_toNat, BitVec.setWidth_eq, BitVec.toInt_ofInt]
      exact Int.bmod_eq_of_le (by simpa using hfits.version.1) (by simpa using hfits.version.2)
    rw [hversion]

/-- `Fits` without the limit that the reader puts on the solution. -/
structure Bounded (h : BlockHeaderData) : Prop where
  version : -2 ^ 31 ≤ h.version ∧ h.version < 2 ^ 31
  time : h.time < 2 ^ 32
  bits : h.bits < 2 ^ 32
  solution : h.solution.length < 2 ^ 64
  signatures : h.fatPointerToBftBlock.signatures.length ≤ 65535

theorem Fits.bounded {h : BlockHeaderData} (hfits : h.Fits) : h.Bounded := by
  have hsolution := hfits.solution
  have hsignatures := hfits.signatures
  unfold CompactSize.maxCompactSize at hsolution
  exact ⟨hfits.version, hfits.time, hfits.bits, by omega, by omega⟩

theorem Bounded.fits {h : BlockHeaderData} (hbounded : h.Bounded)
    (hsolution : h.solution.length ≤ CompactSize.maxCompactSize) : h.Fits := by
  have hsignatures := hbounded.signatures
  exact ⟨hbounded.version, hbounded.time, hbounded.bits, hsolution, by omega⟩

theorem ofInt_inj (hx : -2 ^ 31 ≤ x ∧ x < 2 ^ 31) (hy : -2 ^ 31 ≤ y ∧ y < 2 ^ 31)
    (h : (BitVec.ofInt 32 x).toNat = (BitVec.ofInt 32 y).toNat) : x = y := by
  have hint := congrArg BitVec.toInt (BitVec.eq_of_toNat_eq h)
  rw [BitVec.toInt_ofInt, BitVec.toInt_ofInt] at hint
  rwa [Int.bmod_eq_of_le (by simpa using hx.1) (by simpa using hx.2),
    Int.bmod_eq_of_le (by simpa using hy.1) (by simpa using hy.2)] at hint

theorem unambiguous_writeData : Unambiguous writeData Bounded := by
  intro a b rest rest' ha hb heq
  have hpointer := ha.signatures
  have hpointer' := hb.signatures
  simp only [writeData, List.append_assoc] at heq
  obtain ⟨hversion, e₁⟩ := (reads_readLE 4).unambiguous (BitVec.isLt _) (BitVec.isLt _) heq
  obtain ⟨hprev, e₂⟩ := (reads_readBytes 32).unambiguous trivial trivial e₁
  obtain ⟨hmerkle, e₃⟩ := (reads_readBytes 32).unambiguous trivial trivial e₂
  obtain ⟨hroot, e₄⟩ := (reads_readBytes 32).unambiguous trivial trivial e₃
  obtain ⟨htime, e₅⟩ := (reads_readLE 4).unambiguous ha.time hb.time e₄
  obtain ⟨hbits, e₆⟩ := (reads_readLE 4).unambiguous ha.bits hb.bits e₅
  obtain ⟨hnonce, e₇⟩ := (reads_readBytes 32).unambiguous trivial trivial e₆
  obtain ⟨hlength, e₈⟩ := CompactSize.reads_readAny.unambiguous ha.solution hb.solution e₇
  obtain ⟨hsolution, e₉⟩ := (reads_readByte.unambiguous.flatMap a.solution.length) ⟨rfl, fun _ _ => trivial⟩
    ⟨hlength.symm, fun _ _ => trivial⟩ e₈
  obtain ⟨hp, hrest⟩ := FatPointerToBftBlock.reads_zcashDeserialize.unambiguous (by omega) (by omega) e₉
  refine ⟨?_, hrest⟩
  have hv := ofInt_inj ha.version hb.version hversion
  obtain ⟨version, prev, merkle, root, time, bits, nonce, solution, pointer⟩ := a
  simp only at hv hprev hmerkle hroot htime hbits hnonce hsolution hp
  subst hv hprev hmerkle hroot htime hbits hnonce hsolution hp
  rfl

end BlockHeaderData

/-! ### BFT blocks -/

structure BftBlock where
  version : ℕ
  height : ℕ
  previousBlockFatPtr : FatPointerToBftBlock
  finalizationCandidateHeight : ℕ
  headers : List BlockHeaderData
  deriving DecidableEq

namespace BftBlock

def maxHeaderCount : ℕ := 2048

structure Fits (b : BftBlock) : Prop where
  version : b.version < 2 ^ 32
  height : b.height < 2 ^ 32
  signatures : b.previousBlockFatPtr.signatures.length < 2 ^ 16
  candidate : b.finalizationCandidateHeight < 2 ^ 32
  count : b.headers.length ≤ maxHeaderCount
  headers : ∀ h ∈ b.headers, h.Fits

def zcashSerialize (b : BftBlock) : List UInt8 :=
  leBytes 4 b.version ++ leBytes 4 b.height ++ b.previousBlockFatPtr.zcashSerialize ++
    leBytes 4 b.finalizationCandidateHeight ++ leBytes 4 b.headers.length ++
    b.headers.flatMap BlockHeaderData.writeData

def zcashDeserialize : Reader BftBlock := do
  let version ← readLE 4
  let height ← readLE 4
  let previousBlockFatPtr ← FatPointerToBftBlock.zcashDeserialize
  let finalizationCandidateHeight ← readLE 4
  let headerCount ← readLE 4
  if maxHeaderCount < headerCount then reject
  else do
    let headers ← readMany BlockHeaderData.readData headerCount
    return ⟨version, height, previousBlockFatPtr, finalizationCandidateHeight, headers⟩

theorem reads_zcashDeserialize : Reads zcashDeserialize zcashSerialize Fits := by
  intro b buf rest
  simp only [zcashDeserialize, bind_eq_some, readLE_eq_some, FatPointerToBftBlock.reads_zcashDeserialize _ _ _,
    zcashSerialize]
  constructor
  · rintro ⟨version, -, ⟨hversion, rfl⟩, height, -, ⟨hheight, rfl⟩, p, -, ⟨hp, rfl⟩, candidate, -, ⟨hcandidate, rfl⟩,
      count, mid, ⟨-, rfl⟩, h⟩
    split_ifs at h with hcount
    · exact absurd h (by simp)
    simp only [bind_eq_some, BlockHeaderData.reads_readData.readMany _ _ _ _, pure_eq_some] at h
    obtain ⟨headers, -, ⟨⟨rfl, hheaders⟩, rfl⟩, rfl, rfl⟩ := h
    exact ⟨⟨hversion, hheight, hp, hcandidate, Nat.not_lt.mp hcount, hheaders⟩, by simp only [List.append_assoc]⟩
  · rintro ⟨hfits, rfl⟩
    have hcount := hfits.count
    refine ⟨b.version, _, ⟨hfits.version, by simp only [List.append_assoc]⟩, b.height, _, ⟨hfits.height, rfl⟩,
      b.previousBlockFatPtr, _, ⟨hfits.signatures, rfl⟩, b.finalizationCandidateHeight, _, ⟨hfits.candidate, rfl⟩,
      b.headers.length, b.headers.flatMap BlockHeaderData.writeData ++ rest,
      ⟨by unfold maxHeaderCount at hcount; omega, rfl⟩, ?_⟩
    rw [if_neg (Nat.not_lt.mpr hcount)]
    simp only [bind_eq_some, BlockHeaderData.reads_readData.readMany _ _ _ _, pure_eq_some]
    exact ⟨b.headers, rest, ⟨⟨rfl, hfits.headers⟩, rfl⟩, rfl, rfl⟩

/-- Every field is in the range of its type, with at most `maxHeaderCount` headers and at most 65535 signatures in each
fat pointer. Nothing but the machine bounds the length of a solution. -/
structure Bounded (b : BftBlock) : Prop where
  version : b.version < 2 ^ 32
  height : b.height < 2 ^ 32
  signatures : b.previousBlockFatPtr.signatures.length ≤ 65535
  candidate : b.finalizationCandidateHeight < 2 ^ 32
  count : b.headers.length ≤ maxHeaderCount
  headers : ∀ h ∈ b.headers, h.Bounded

theorem fits_iff {b : BftBlock} :
    b.Fits ↔ b.Bounded ∧ ∀ h ∈ b.headers, h.solution.length ≤ CompactSize.maxCompactSize := by
  constructor
  · intro h
    have hsignatures := h.signatures
    exact ⟨⟨h.version, h.height, by omega, h.candidate, h.count, fun x hx => (h.headers x hx).bounded⟩,
      fun x hx => (h.headers x hx).solution⟩
  · rintro ⟨h, hsolution⟩
    have hsignatures := h.signatures
    exact ⟨h.version, h.height, by omega, h.candidate, h.count, fun x hx => (h.headers x hx).fits (hsolution x hx)⟩

theorem unambiguous_zcashSerialize : Unambiguous zcashSerialize Bounded := by
  intro b b' rest rest' h h' heq
  have hcount := h.count
  have hcount' := h'.count
  unfold maxHeaderCount at hcount hcount'
  have hpointer := h.signatures
  have hpointer' := h'.signatures
  simp only [zcashSerialize, List.append_assoc] at heq
  obtain ⟨hversion, e₁⟩ := (reads_readLE 4).unambiguous h.version h'.version heq
  obtain ⟨hheight, e₂⟩ := (reads_readLE 4).unambiguous h.height h'.height e₁
  obtain ⟨hprevious, e₃⟩ :=
    FatPointerToBftBlock.reads_zcashDeserialize.unambiguous (by omega) (by omega) e₂
  obtain ⟨hcandidate, e₄⟩ := (reads_readLE 4).unambiguous h.candidate h'.candidate e₃
  obtain ⟨hlength, e₅⟩ := (reads_readLE 4).unambiguous (by omega) (by omega) e₄
  obtain ⟨hheaders, hrest⟩ :=
    (BlockHeaderData.unambiguous_writeData.flatMap b.headers.length) ⟨rfl, h.headers⟩ ⟨hlength.symm, h'.headers⟩ e₅
  refine ⟨?_, hrest⟩
  obtain ⟨version, height, previous, candidate, headers⟩ := b
  simp only at hversion hheight hprevious hcandidate hheaders
  subst hversion hheight hprevious hcandidate hheaders
  rfl

def blake3Hash (P : Params) (b : BftBlock) : Bytes 32 := (P.valueHash b.zcashSerialize).bytes

/-- The slot filler of the decision handler: no headers, all zero but for the height. -/
def placeholder (i : ℕ) : BftBlock := ⟨0, i % 2 ^ 32, FatPointerToBftBlock.null, 0, []⟩

theorem Bounded.placeholder (i : ℕ) : (BftBlock.placeholder i).Bounded :=
  ⟨Nat.two_pow_pos 32, Nat.mod_lt _ (Nat.two_pow_pos 32), Nat.zero_le _, Nat.two_pow_pos 32, Nat.zero_le _, nofun⟩

end BftBlock

/-! ### Round trips -/

end Crosslink.Bft

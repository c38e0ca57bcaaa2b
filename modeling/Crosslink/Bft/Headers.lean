import Crosslink.Bft.Validation

/-!
# PoW headers in the node's own format

The node reads and writes PoW headers with another codec than the one of BFT blocks, and it puts the fat pointer into
a header only from logical version 5 on. `bcHdrToLrz` goes from one to the other through the bytes. It gives a header
with the same encoding and hash exactly when the pointer is among them (`bcHdrToLrz_faithful_iff`).
-/

namespace Crosslink.Bft

open Codec Fallible Tenderlink

/-! ### Equihash solutions -/

def maxProtocolMessageLen : ℕ := 2 * 1024 * 1024

def maxU8Allocation : ℕ := maxProtocolMessageLen - 5

def readByteVec : Reader (List UInt8) := do
  let len ← CompactSize.readAny
  if maxProtocolMessageLen < len then reject
  else if maxU8Allocation < len then reject
  else do
    let bytes ← readBytes len
    return bytes.toList

theorem reads_readByteVec :
    Reads readByteVec (fun l => CompactSize.write l.length ++ l) fun l => l.length ≤ maxU8Allocation := by
  intro l buf rest
  simp only [readByteVec, bind_eq_some, CompactSize.reads_readAny _ _ _]
  constructor
  · rintro ⟨len, mid, ⟨-, rfl⟩, h⟩
    split_ifs at h with h₁ h₂
    · exact absurd h (by simp)
    · exact absurd h (by simp)
    simp only [bind_eq_some, readBytes_eq_some, pure_eq_some] at h
    obtain ⟨bytes, -, rfl, rfl, rfl⟩ := h
    rw [bytes.toList_length]
    exact ⟨Nat.not_lt.mp h₂, (List.append_assoc _ _ _).symm⟩
  · rintro ⟨hlen, rfl⟩
    have hmax : maxU8Allocation < maxProtocolMessageLen := by decide
    have hprotocol : maxProtocolMessageLen < 2 ^ 64 := by decide
    refine ⟨l.length, l ++ rest, ⟨by omega, List.append_assoc _ _ _⟩, ?_⟩
    rw [if_neg (by omega), if_neg (by omega)]
    simp only [bind_eq_some, readBytes_eq_some, pure_eq_some]
    exact ⟨⟨l, rfl⟩, rest, rfl, rfl, rfl⟩

/-- `equihash::Solution`, in compressed format. -/
inductive Solution where
  | common (bytes : Bytes 1344)
  | regtest (bytes : Bytes 36)
  deriving DecidableEq

namespace Solution

def value : Solution → List UInt8
  | .common bytes => bytes.toList
  | .regtest bytes => bytes.toList

def fromBytes (solution : List UInt8) : Option Solution :=
  if h : solution.length = 1344 then some (.common ⟨solution, h⟩)
  else if h : solution.length = 36 then some (.regtest ⟨solution, h⟩)
  else none

def zcashSerialize (s : Solution) : List UInt8 := CompactSize.write s.value.length ++ s.value

def zcashDeserialize : Reader Solution := do
  let solution ← readByteVec
  match fromBytes solution with
  | some s => return s
  | none => reject

theorem fromBytes_eq_some : fromBytes l = some s ↔ l = s.value := by
  unfold fromBytes
  constructor
  · intro h
    split_ifs at h with h₁ h₂
    · cases h
      rfl
    · cases h
      rfl
  · rintro rfl
    cases s with
    | common bytes =>
      rw [dif_pos (by exact bytes.toList_length)]
      rfl
    | regtest bytes =>
      rw [dif_neg (by rw [value, bytes.toList_length]; decide), dif_pos (by exact bytes.toList_length)]
      rfl

theorem length_value_le (s : Solution) : s.value.length ≤ 1344 := by
  cases s <;> rw [value, List.Vector.toList_length]
  decide

theorem reads_zcashDeserialize : Reads zcashDeserialize zcashSerialize fun _ => True := by
  intro s buf rest
  simp only [zcashDeserialize, bind_eq_some, reads_readByteVec _ _ _, true_and]
  constructor
  · rintro ⟨l, mid, ⟨-, rfl⟩, h⟩
    cases hs : fromBytes l with
    | none =>
      rw [hs] at h
      exact absurd h (by simp)
    | some s' =>
      rw [hs] at h
      obtain ⟨rfl, rfl⟩ := pure_eq_some.mp h
      rw [fromBytes_eq_some.mp hs, zcashSerialize]
  · rintro rfl
    have hmax : 1344 ≤ maxU8Allocation := by decide
    refine ⟨s.value, rest, ⟨s.length_value_le.trans hmax, rfl⟩, ?_⟩
    rw [fromBytes_eq_some.mpr rfl]
    exact pure_eq_some.mpr ⟨rfl, rfl⟩

end Solution

/-! ### Versions -/

def zcashBlockVersion : ℕ := 4

/-- The high bit of the version, which other nodes take for a sign, marks the field as meaningless. -/
def checkVersion (version : ℕ) : Except String Unit :=
  if version >>> 31 ≠ 0 then .error "high bit was set in version field"
  else if version < zcashBlockVersion then .error "version must be at least 4"
  else .ok ()

/-- Some mining pools wrote the bits of the version in reverse order. -/
def logicalVersion (version : ℕ) : ℕ :=
  if version &&& 0xffff0000 ≠ 0 then (BitVec.ofNat 32 version).reverse.toNat else version

theorem checkVersion_eq_ok :
    checkVersion version = .ok () ↔ zcashBlockVersion ≤ version ∧ version < 2 ^ 31 := by
  have hshift : version >>> 31 = 0 ↔ version < 2 ^ 31 := by
    rw [Nat.shiftRight_eq_div_pow]
    exact Nat.div_eq_zero_iff.trans (by simp)
  unfold checkVersion
  split_ifs with h₁ h₂
  · simp only [reduceCtorEq, false_iff]
    exact fun h => h₁ (hshift.mpr h.2)
  · simp only [reduceCtorEq, false_iff]
    exact fun h => absurd h.1 (Nat.not_le.mpr h₂)
  · simp only [true_iff]
    exact ⟨Nat.not_lt.mp h₂, hshift.mp (not_not.mp h₁)⟩

/-! ### Headers -/

structure ZebBlockHeader where
  version : ℕ
  previousBlockHash : BlockHash
  merkleRoot : Bytes 32
  commitmentBytes : Bytes 32
  /-- Seconds, a `u32` in every deserialized or generated header. -/
  time : ℕ
  difficultyThreshold : ℕ
  nonce : Bytes 32
  solution : Solution
  fatPointerToBftBlock : FatPointerToBftBlock

namespace ZebBlockHeader

variable {P : ServiceParams} {h : ZebBlockHeader}

/-- The fields up to the solution, which are the same in both formats. -/
def front (h : ZebBlockHeader) : List UInt8 :=
  leBytes 4 h.version ++ h.previousBlockHash.toList ++ h.merkleRoot.toList ++ h.commitmentBytes.toList ++
    leBytes 4 h.time ++ leBytes 4 h.difficultyThreshold ++ h.nonce.toList

def encode (h : ZebBlockHeader) : List UInt8 :=
  h.front ++ h.solution.zcashSerialize ++
    if 5 ≤ logicalVersion h.version then h.fatPointerToBftBlock.zcashSerialize else []

def zcashSerialize (h : ZebBlockHeader) : Except String (List UInt8) := do
  checkVersion h.version
  return h.encode

def zcashDeserialize : Reader ZebBlockHeader := do
  let version ← readLE 4
  match checkVersion version with
  | .error _ => reject
  | .ok _ => do
    let previousBlockHash ← readBytes 32
    let merkleRoot ← readBytes 32
    let commitmentBytes ← readBytes 32
    let time ← readLE 4
    let difficultyThreshold ← readLE 4
    let nonce ← readBytes 32
    let solution ← Solution.zcashDeserialize
    let fatPointerToBftBlock ← (if 5 ≤ logicalVersion version then FatPointerToBftBlock.zcashDeserialize
      else return FatPointerToBftBlock.null)
    return ⟨version, previousBlockHash, merkleRoot, commitmentBytes, time, difficultyThreshold, nonce, solution,
      fatPointerToBftBlock⟩

/-- The headers that the reader returns. -/
structure Accepted (h : ZebBlockHeader) : Prop where
  version : checkVersion h.version = .ok ()
  time : h.time < 2 ^ 32
  difficulty : h.difficultyThreshold < 2 ^ 32
  signatures : h.fatPointerToBftBlock.signatures.length < 2 ^ 16
  pointer : ¬ 5 ≤ logicalVersion h.version → h.fatPointerToBftBlock = .null

theorem reads_pointer (version : ℕ) :
    Reads (if 5 ≤ logicalVersion version then FatPointerToBftBlock.zcashDeserialize
        else return FatPointerToBftBlock.null)
      (fun p => if 5 ≤ logicalVersion version then p.zcashSerialize else [])
      fun p => p.signatures.length < 2 ^ 16 ∧ (¬ 5 ≤ logicalVersion version → p = .null) :=
  FatPointerToBftBlock.reads_zcashDeserialize.optional _ (by decide)

theorem accepted_of_zcashDeserialize (hread : zcashDeserialize buf = some (h, rest)) :
    h.Accepted ∧ buf = h.encode ++ rest := by
  simp only [zcashDeserialize, bind_eq_some, readLE_eq_some] at hread
  obtain ⟨version, mid, ⟨-, rfl⟩, hread⟩ := hread
  cases hcheck : checkVersion version with
  | error e =>
    rw [hcheck] at hread
    exact absurd hread (by simp)
  | ok u =>
    rw [hcheck] at hread
    simp only [bind_eq_some, readBytes_eq_some, readLE_eq_some, Solution.reads_zcashDeserialize _ _ _,
      reads_pointer _ _ _ _, pure_eq_some] at hread
    obtain ⟨prev, -, rfl, merkle, -, rfl, commitment, -, rfl, time, -, ⟨htime, rfl⟩, bits, -, ⟨hbits, rfl⟩, nonce, -,
      rfl, solution, -, ⟨-, rfl⟩, p, -, ⟨⟨hsignatures, hnull⟩, rfl⟩, rfl, rfl⟩ := hread
    exact ⟨⟨hcheck, htime, hbits, hsignatures, hnull⟩, by simp only [encode, front, List.append_assoc]⟩

theorem zcashDeserialize_encode (ha : h.Accepted) (rest : List UInt8) :
    zcashDeserialize (h.encode ++ rest) = some (h, rest) := by
  have hversion := (checkVersion_eq_ok.mp ha.version).2
  simp only [zcashDeserialize, bind_eq_some, readLE_eq_some]
  refine ⟨h.version, h.previousBlockHash.toList ++ (h.merkleRoot.toList ++ (h.commitmentBytes.toList ++
    (leBytes 4 h.time ++ (leBytes 4 h.difficultyThreshold ++ (h.nonce.toList ++ (h.solution.zcashSerialize ++
      ((if 5 ≤ logicalVersion h.version then h.fatPointerToBftBlock.zcashSerialize else []) ++ rest))))))),
    ⟨by omega, by simp only [encode, front, List.append_assoc]⟩, ?_⟩
  rw [ha.version]
  simp only [bind_eq_some, readBytes_eq_some, readLE_eq_some, Solution.reads_zcashDeserialize _ _ _,
    reads_pointer _ _ _ _, pure_eq_some]
  exact ⟨h.previousBlockHash, _, rfl, h.merkleRoot, _, rfl, h.commitmentBytes, _, rfl, h.time, _, ⟨ha.time, rfl⟩,
    h.difficultyThreshold, _, ⟨ha.difficulty, rfl⟩, h.nonce, _, rfl, h.solution, _, ⟨trivial, rfl⟩,
    h.fatPointerToBftBlock, _, ⟨⟨ha.signatures, ha.pointer⟩, rfl⟩, rfl, rfl⟩

theorem zcashSerialize_eq_ok (ha : h.Accepted) : h.zcashSerialize = .ok h.encode := by
  rw [zcashSerialize, ha.version]
  rfl

/-- `Hash::from`. -/
def hash (P : ServiceParams) (h : ZebBlockHeader) : Except Panic BlockHash :=
  match h.zcashSerialize with
  | .ok bytes => .ok (P.sha256d bytes)
  | .error _ => .error .unwrap

end ZebBlockHeader

/-! ### The conversion -/

/-- The error of the writer is dropped, and it comes before anything is written. -/
def bcHdrToLrz (header : ZebBlockHeader) : Except Panic BlockHeaderData :=
  unwrap ((BlockHeaderData.readData (header.zcashSerialize.toOption.getD [])).map Prod.fst)

namespace ZebBlockHeader

variable {P : ServiceParams} {h : ZebBlockHeader}

def toLrz (h : ZebBlockHeader) : BlockHeaderData :=
  ⟨(BitVec.ofNat 32 h.version).toInt, h.previousBlockHash, h.merkleRoot, h.commitmentBytes, h.time,
    h.difficultyThreshold, h.nonce, h.solution.value, h.fatPointerToBftBlock⟩

theorem flatMap_singleton (l : List UInt8) : (l.flatMap fun b => [b]) = l := by
  induction l with
  | nil => rfl
  | cons b l ih => rw [List.flatMap_cons, ih, List.singleton_append]

theorem writeData_toLrz (hversion : h.version < 2 ^ 32) :
    h.toLrz.writeData = h.front ++ h.solution.zcashSerialize ++ h.fatPointerToBftBlock.zcashSerialize := by
  have hword : (BitVec.ofInt 32 (BitVec.ofNat 32 h.version).toInt).toNat = h.version := by
    rw [BitVec.ofInt_toInt, BitVec.toNat_ofNat]
    exact Nat.mod_eq_of_lt hversion
  simp only [BlockHeaderData.writeData, toLrz, hword, flatMap_singleton, front, Solution.zcashSerialize]

theorem Accepted.fits (ha : h.Accepted) : h.toLrz.Fits :=
  ⟨⟨BitVec.le_toInt _, BitVec.toInt_lt⟩, ha.time, ha.difficulty, h.solution.length_value_le.trans (by decide),
    ha.signatures⟩

theorem Accepted.rest_of_readData (ha : h.Accepted)
    (hread : BlockHeaderData.readData (h.front ++ h.solution.zcashSerialize ++ tail) = some (data, rest)) :
    tail = data.fatPointerToBftBlock.zcashSerialize ++ rest := by
  obtain ⟨hfits, heq⟩ := (BlockHeaderData.reads_readData data _ rest).mp hread
  have hversion := (checkVersion_eq_ok.mp ha.version).2
  have hsolution := hfits.bounded.solution
  simp only [front, Solution.zcashSerialize, BlockHeaderData.writeData, flatMap_singleton, List.append_assoc] at heq
  obtain ⟨-, e₁⟩ := (reads_readLE 4).unambiguous (by omega) (BitVec.isLt _) heq
  obtain ⟨-, e₂⟩ := (reads_readBytes 32).unambiguous trivial trivial e₁
  obtain ⟨-, e₃⟩ := (reads_readBytes 32).unambiguous trivial trivial e₂
  obtain ⟨-, e₄⟩ := (reads_readBytes 32).unambiguous trivial trivial e₃
  obtain ⟨-, e₅⟩ := (reads_readLE 4).unambiguous ha.time hfits.time e₄
  obtain ⟨-, e₆⟩ := (reads_readLE 4).unambiguous ha.difficulty hfits.bits e₅
  obtain ⟨-, e₇⟩ := (reads_readBytes 32).unambiguous trivial trivial e₆
  obtain ⟨hlength, e₈⟩ := CompactSize.reads_readAny.unambiguous
    (h.solution.length_value_le.trans_lt (by decide)) hsolution e₇
  exact (List.append_inj e₈ hlength).2

theorem Accepted.bcHdrToLrz_ok (ha : h.Accepted) (hversion : 5 ≤ logicalVersion h.version) :
    bcHdrToLrz h = .ok h.toLrz ∧ h.toLrz.writeData = h.encode := by
  have hlt := (checkVersion_eq_ok.mp ha.version).2
  have hencode : h.toLrz.writeData = h.encode := by
    rw [writeData_toLrz (by omega), encode, if_pos hversion]
  have hread := (BlockHeaderData.reads_readData h.toLrz _ []).mpr ⟨ha.fits, rfl⟩
  rw [List.append_nil, hencode] at hread
  refine ⟨?_, hencode⟩
  rw [bcHdrToLrz, zcashSerialize_eq_ok ha]
  exact unwrap_eq_ok.mpr (congrArg (Option.map Prod.fst) hread)

theorem Accepted.bcHdrToLrz_error (ha : h.Accepted) (hversion : ¬ 5 ≤ logicalVersion h.version) :
    bcHdrToLrz h = .error .unwrap := by
  rw [bcHdrToLrz, zcashSerialize_eq_ok ha]
  change unwrap ((BlockHeaderData.readData h.encode).map Prod.fst) = _
  cases hread : BlockHeaderData.readData h.encode with
  | none => rfl
  | some r =>
    obtain ⟨data, rest⟩ := r
    rw [encode, if_neg hversion] at hread
    have htail := congrArg List.length (ha.rest_of_readData hread)
    simp only [FatPointerToBftBlock.zcashSerialize, List.length_append, List.Vector.toList_length, List.length_nil] at htail
    omega

end ZebBlockHeader

theorem bcHdrToLrz_faithful_iff (P : ServiceParams) {h : ZebBlockHeader} {buf rest : List UInt8}
    (hread : ZebBlockHeader.zcashDeserialize buf = some (h, rest)) :
    (∃ data bytes, bcHdrToLrz h = .ok data ∧ h.zcashSerialize = .ok bytes ∧ data.writeData = bytes ∧
      h.hash P = .ok (fromHeaderData P data)) ↔ 5 ≤ logicalVersion h.version := by
  have ha := (ZebBlockHeader.accepted_of_zcashDeserialize hread).1
  constructor
  · rintro ⟨data, bytes, hok, -⟩
    by_contra hversion
    rw [ha.bcHdrToLrz_error hversion] at hok
    exact nomatch hok
  · intro hversion
    obtain ⟨hok, hencode⟩ := ha.bcHdrToLrz_ok hversion
    refine ⟨h.toLrz, h.encode, hok, ZebBlockHeader.zcashSerialize_eq_ok ha, hencode, ?_⟩
    rw [ZebBlockHeader.hash, ZebBlockHeader.zcashSerialize_eq_ok ha, fromHeaderData, hencode]

def bareHeader (version : ℕ) : ZebBlockHeader :=
  ⟨version, Bytes.zero 32, Bytes.zero 32, Bytes.zero 32, 0, 0, Bytes.zero 32, .regtest (Bytes.zero 36), .null⟩

theorem bareHeader_accepted (h : checkVersion version = .ok ()) : (bareHeader version).Accepted :=
  ⟨h, Nat.two_pow_pos 32, Nat.two_pow_pos 32, Nat.two_pow_pos 16, fun _ => rfl⟩

/-- The version of the block templates. -/
theorem bcHdrToLrz_faithful_template :
    ZebBlockHeader.zcashDeserialize ((bareHeader 6).encode ++ []) = some (bareHeader 6, []) ∧
      ((∃ data bytes, bcHdrToLrz (bareHeader 6) = .ok data ∧ (bareHeader 6).zcashSerialize = .ok bytes ∧
        data.writeData = bytes ∧ (bareHeader 6).hash ServiceParams.sample = .ok (fromHeaderData ServiceParams.sample data)) ↔
          5 ≤ logicalVersion (bareHeader 6).version) :=
  have hread := ZebBlockHeader.zcashDeserialize_encode (bareHeader_accepted rfl) []
  ⟨hread, bcHdrToLrz_faithful_iff ServiceParams.sample hread⟩

/-- The reader accepts version 4, and version 4 with its bits reversed; the conversion panics on both. -/
theorem bcHdrToLrz_version_four_panics :
    ZebBlockHeader.zcashDeserialize ((bareHeader 4).encode ++ []) = some (bareHeader 4, []) ∧
      bcHdrToLrz (bareHeader 4) = .error .unwrap ∧
      ZebBlockHeader.zcashDeserialize ((bareHeader 536870912).encode ++ []) = some (bareHeader 536870912, []) ∧
      bcHdrToLrz (bareHeader 536870912) = .error .unwrap := by
  have hfour : (bareHeader 4).Accepted := bareHeader_accepted rfl
  have hreversed : (bareHeader 536870912).Accepted := bareHeader_accepted rfl
  exact ⟨ZebBlockHeader.zcashDeserialize_encode hfour [], hfour.bcHdrToLrz_error (by decide),
    ZebBlockHeader.zcashDeserialize_encode hreversed [], hreversed.bcHdrToLrz_error (by decide +kernel)⟩

end Crosslink.Bft

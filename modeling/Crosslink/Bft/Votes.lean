import Crosslink.Tenderlink.Types

/-!
# Votes and certificates as other crates read them

A certificate keeps one 44-byte template for all its votes. Checking it inflates the template to one vote
for each signature and encodes the votes again, with a codec of its own.
-/

namespace Crosslink.Bft

open Codec Tenderlink List

structure Vote where
  validatorAddress : PubKeyID
  value : Bytes 32
  height : ℕ
  /-- Set for a commit. -/
  typ : Bool
  round : ℕ
  deriving DecidableEq

namespace Vote

/-- The low 31 bits of the last word are the round, the top bit is the type. -/
def toBytes (v : Vote) : List UInt8 :=
  v.validatorAddress.bytes.toList ++ v.value.toList ++ leBytes 8 v.height ++
    leBytes 4 (v.round % 2 ^ 31 + if v.typ then 2 ^ 31 else 0)

def fromBytes (bytes : Bytes 76) : Vote :=
  let mergedRoundVal := leNat (bytes.toList.drop 72)
  { validatorAddress := ⟨⟨bytes.toList.take 32, by simp⟩⟩
    value := ⟨(bytes.toList.drop 32).take 32, by simp⟩
    height := leNat ((bytes.toList.drop 64).take 8)
    typ := mergedRoundVal / 2 ^ 31 % 2 != 0
    round := mergedRoundVal % 2 ^ 31 }

end Vote

def getVoteTemplate (p : FatPointerToBftBlock) : Vote :=
  Vote.fromBytes ⟨List.replicate 32 0 ++ p.voteForBlockWithoutFinalizerPublicKey.toList, by simp⟩

def inflate (p : FatPointerToBftBlock) : List (Vote × TMSig) :=
  p.signatures.map fun s => ({ getVoteTemplate p with validatorAddress := s.pubKey }, ⟨s.voteSignature⟩)

/-- `batch` is the batch verifier of the signature crate. -/
def validateSignatures (batch : List (PubKeyID × TMSig × List UInt8) → Bool) (p : FatPointerToBftBlock) : Bool :=
  batch ((inflate p).map fun (vote, sig) => (vote.validatorAddress, sig, vote.toBytes))

/-! ### The two encoders -/

theorem toBytes_fromBytes (bytes : Bytes 76) : (Vote.fromBytes bytes).toBytes = bytes.toList := by
  obtain ⟨l, hl⟩ := bytes
  have hheight : leBytes 8 (leNat ((l.drop 64).take 8)) = (l.drop 64).take 8 := by
    have := leBytes_leNat ((l.drop 64).take 8)
    rwa [length_take, length_drop, hl] at this
  have hword : leBytes 4 (leNat (l.drop 72)) = l.drop 72 := by
    have := leBytes_leNat (l.drop 72)
    rwa [length_drop, hl] at this
  have hlt : leNat (l.drop 72) < 2 ^ 32 := by
    have := leNat_lt (l.drop 72)
    rwa [length_drop, hl] at this
  have hmerged : leNat (l.drop 72) % 2 ^ 31 % 2 ^ 31 + (if leNat (l.drop 72) / 2 ^ 31 % 2 != 0 then 2 ^ 31 else 0) =
      leNat (l.drop 72) := by
    simp only [bne_iff_ne]
    split <;> omega
  change l.take 32 ++ (l.drop 32).take 32 ++ leBytes 8 (leNat ((l.drop 64).take 8)) ++
    leBytes 4 (leNat (l.drop 72) % 2 ^ 31 % 2 ^ 31 + if leNat (l.drop 72) / 2 ^ 31 % 2 != 0 then 2 ^ 31 else 0) = l
  rw [hmerged, hword, hheight, show l.drop 72 = (l.drop 64).drop 8 by rw [drop_drop], append_assoc,
    take_append_drop, show l.drop 64 = (l.drop 32).drop 32 by rw [drop_drop], append_assoc,
    take_append_drop, take_append_drop]

theorem toBytes_template (p : FatPointerToBftBlock) (key : PubKeyID) :
    ({ getVoteTemplate p with validatorAddress := key } : Vote).toBytes =
      key.bytes.toList ++ p.voteForBlockWithoutFinalizerPublicKey.toList := by
  have hkey : ({ getVoteTemplate p with validatorAddress := key } : Vote).toBytes =
      key.bytes.toList ++ (getVoteTemplate p).toBytes.drop 32 := by
    simp only [Vote.toBytes, append_assoc]
    rw [drop_left' (by simp)]
  have htemplate : (getVoteTemplate p).toBytes =
      List.replicate 32 0 ++ p.voteForBlockWithoutFinalizerPublicKey.toList := toBytes_fromBytes _
  rw [hkey, htemplate, drop_left' (by simp)]

end Crosslink.Bft

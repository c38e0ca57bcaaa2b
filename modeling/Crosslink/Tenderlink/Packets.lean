import Crosslink.Tenderlink.Types

/-!
# Packets

The wire format of consensus packets: a header with an optional status, then one proposal chunk or a
list of votes. The readers return `none` on a short buffer, as `SliceRead` does; only reading votes can
panic, on the `u8` sum of the two counts and on the index into the fixed array of 18 votes.
-/

namespace Crosslink.Tenderlink

open Codec Fallible List

def packetTypeProposalChunk : ℕ := 7

def packetTypePrevoteSignatures : ℕ := 8

def packetTypePrecommitSignatures : ℕ := 9

def packetTypeMask : ℕ := 127

def packetTagStatusFlag : ℕ := 128

/-! ### Header and status -/

structure PacketHeader where
  tag : ℕ
  deriving DecidableEq

def PacketHeader.hasStatus (h : PacketHeader) : Bool := (h.tag % 256) &&& packetTagStatusFlag != 0

def PacketHeader.type_ (h : PacketHeader) : ℕ := (h.tag % 256) &&& packetTypeMask

def PacketHeader.writeTo (h : PacketHeader) : List UInt8 := leBytes 8 h.tag ++ leBytes 8 0

def PacketHeader.readFrom : Reader PacketHeader := do
  let tag ← readLE 8
  let _ ← readLE 8
  return ⟨tag⟩

structure PacketStatus where
  height : ℕ
  round : ℕ
  needProposalChunkRngs : ℕ × ℕ
  needPrevoteRngs : ℕ × ℕ
  needPrecommitRngs : ℕ × ℕ
  deriving DecidableEq

def PacketStatus.readFrom : Reader PacketStatus := do
  let height ← readLE 8
  let round ← readLE 4
  let chunkLo ← readLE 4
  let chunkHi ← readLE 4
  let prevoteLo ← readLE 2
  let prevoteHi ← readLE 2
  let precommitLo ← readLE 2
  let precommitHi ← readLE 2
  return ⟨height, round, (chunkLo, chunkHi), (prevoteLo, prevoteHi), (precommitLo, precommitHi)⟩

/-- The header, the status when the tag announces one, and the number of bytes they take. -/
def readHeaderAndMaybeStatus (msg : List UInt8) : Option (PacketHeader × Option PacketStatus × ℕ) := do
  let (header, buf) ← PacketHeader.readFrom msg
  if header.hasStatus then
    let (status, buf) ← PacketStatus.readFrom buf
    return (header, some status, msg.length - buf.length)
  else
    return (header, none, msg.length - buf.length)

theorem readHeaderAndMaybeStatus_le (h : readHeaderAndMaybeStatus msg = some (header, status, readO)) :
    readO ≤ 16 + 28 ∧ readO ≤ msg.length := by
  unfold readHeaderAndMaybeStatus at h
  obtain ⟨⟨header', buf⟩, hheader, h⟩ := Option.bind_eq_some_iff.mp h
  unfold PacketHeader.readFrom at hheader
  simp only [bind_eq_some, readLE_eq_some, pure_eq_some] at hheader
  obtain ⟨tag, _, ⟨-, rfl⟩, reserved, _, ⟨-, rfl⟩, -, rfl⟩ := hheader
  dsimp only at h
  split at h
  · obtain ⟨⟨status', buf'⟩, hstatus, h⟩ := Option.bind_eq_some_iff.mp h
    unfold PacketStatus.readFrom at hstatus
    simp only [bind_eq_some, readLE_eq_some, pure_eq_some] at hstatus
    obtain ⟨_, _, ⟨-, rfl⟩, _, _, ⟨-, rfl⟩, _, _, ⟨-, rfl⟩, _, _, ⟨-, rfl⟩, _, _, ⟨-, rfl⟩, _, _, ⟨-, rfl⟩, _, _,
      ⟨-, rfl⟩, _, _, ⟨-, rfl⟩, -, rfl⟩ := hstatus
    cases h
    simp only [length_append, leBytes_length]
    omega
  · cases h
    simp only [length_append, leBytes_length]
    omega

/-! ### Proposal chunks -/

structure PacketProposalChunkHeader where
  chunkI : ℕ
  proposalSize : ℕ
  round : ℕ
  validRound : ℤ
  height : ℕ
  proposalId : ValueId
  deriving DecidableEq

namespace PacketProposalChunkHeader

def serializedSize : ℕ := 56

/-- `valid_round` travels as a `u32`, with `u32::MAX` for -1. -/
def writeTo (h : PacketProposalChunkHeader) : List UInt8 :=
  leBytes 4 h.chunkI ++ leBytes 4 h.proposalSize ++ leBytes 4 h.round ++
    leBytes 4 (if 0 ≤ h.validRound then h.validRound.toNat else 2 ^ 32 - 1) ++ leBytes 8 h.height ++
      h.proposalId.bytes.toList

def readFrom : Reader PacketProposalChunkHeader := do
  let chunkI ← readLE 4
  let proposalSize ← readLE 4
  let round ← readLE 4
  let validRound ← readLE 4
  let height ← readLE 8
  let proposalId ← readBytes 32
  return { chunkI, proposalSize, round, height, proposalId := ⟨proposalId⟩
           validRound := if validRound ≠ 2 ^ 32 - 1 then validRound else -1 }

/-- The numbers fit their widths on the wire. -/
structure Fits (h : PacketProposalChunkHeader) : Prop where
  chunkI : h.chunkI < 2 ^ 32
  proposalSize : h.proposalSize < 2 ^ 32
  round : h.round < 2 ^ 32
  validRound : -1 ≤ h.validRound ∧ h.validRound < 2 ^ 32 - 1
  height : h.height < 2 ^ 64

@[simp] theorem writeTo_length (h : PacketProposalChunkHeader) : h.writeTo.length = serializedSize := by
  simp [writeTo, serializedSize]

theorem readFrom_eq_some :
    readFrom buf = some (hdr, rest) ↔ hdr.Fits ∧ buf = hdr.writeTo ++ rest := by
  unfold readFrom
  simp only [bind_eq_some, readLE_eq_some, readBytes_eq_some, pure_eq_some]
  constructor
  · rintro ⟨chunkI, _, ⟨h₁, rfl⟩, size, _, ⟨h₂, rfl⟩, round, _, ⟨h₃, rfl⟩, validRound, _, ⟨h₄, rfl⟩, height, _,
      ⟨h₅, rfl⟩, id, _, rfl, rfl, rfl⟩
    refine ⟨⟨h₁, h₂, h₃, ?_, h₅⟩, ?_⟩
    · dsimp only
      split <;> omega
    · have hword : (if 0 ≤ (if validRound ≠ 2 ^ 32 - 1 then (validRound : ℤ) else -1) then
          (if validRound ≠ 2 ^ 32 - 1 then (validRound : ℤ) else -1).toNat else 2 ^ 32 - 1) = validRound := by
        split_ifs <;> omega
      simp only [writeTo, hword, append_assoc]
  · rintro ⟨hfits, rfl⟩
    have hvalid := hfits.validRound
    refine ⟨hdr.chunkI, _, ⟨hfits.chunkI, by simp only [writeTo, append_assoc]⟩, hdr.proposalSize, _,
      ⟨hfits.proposalSize, rfl⟩, hdr.round, _, ⟨hfits.round, rfl⟩,
      if 0 ≤ hdr.validRound then hdr.validRound.toNat else 2 ^ 32 - 1, _, ⟨?_, rfl⟩, hdr.height, _, ⟨hfits.height, rfl⟩,
      hdr.proposalId.bytes, _, rfl, ?_, rfl⟩
    · split <;> omega
    · obtain ⟨chunkI, size, round, validRound, height, id⟩ := hdr
      simp only [mk.injEq, true_and, and_true] at hvalid ⊢
      split_ifs <;> omega

theorem readFrom_writeTo_size {h hdr : PacketProposalChunkHeader}
    (hread : readFrom (h.writeTo ++ data) = some (hdr, rest)) : hdr.proposalSize = h.proposalSize % 2 ^ 32 := by
  obtain ⟨hfits, heq⟩ := readFrom_eq_some.mp hread
  have hhdr := (append_inj heq (by simp)).1
  simp only [writeTo, append_assoc] at hhdr
  have hrest := (append_inj hhdr (by simp)).2
  have hsize := congrArg leNat (append_inj hrest (by simp)).1
  rw [leNat_leBytes, leNat_leBytes] at hsize
  change h.proposalSize % 2 ^ 32 = hdr.proposalSize % 2 ^ 32 at hsize
  rw [hsize, Nat.mod_eq_of_lt hfits.proposalSize]

end PacketProposalChunkHeader

/-- `PROPOSAL_PACKET_EXTRA`: the header, a status, the chunk header and the signature. -/
def proposalPacketExtra : ℕ := 16 + 28 + 56 + 64

/-! ### Votes -/

structure PubKeySig where
  rosterI : ℕ
  sig : TMSig
  deriving DecidableEq

/-- `PubKeySig::default()`. -/
def PubKeySig.default : PubKeySig := ⟨0, TMSig.nil⟩

structure PacketVotes where
  noVotesN : ℕ
  yesVotesN : ℕ
  round : ℕ
  height : ℕ
  valueId : ValueId
  votes : List PubKeySig
  deriving DecidableEq

namespace PacketVotes

def votesSize : ℕ := 18

def readFields : Reader PacketVotes := do
  let noVotesN ← readLE 1
  let yesVotesN ← readLE 1
  let round ← readLE 4
  let height ← readLE 8
  let valueId ← readBytes 32
  return ⟨noVotesN, yesVotesN, round, height, ⟨valueId⟩, List.replicate votesSize PubKeySig.default⟩

/-- Reads `n` more votes into the slots from `i` on. The roster index is read before the slot is
indexed. -/
def readVotes : (n i : ℕ) → List PubKeySig → List UInt8 → Except Panic (Option (List PubKeySig))
  | 0, _, votes, _ => .ok (some votes)
  | n + 1, i, votes, buf =>
    match readLE 2 buf with
    | none => .ok none
    | some (rosterI, buf) =>
      if i < votes.length then
        match readBytes 64 buf with
        | none => .ok none
        | some (sig, buf) => readVotes n (i + 1) (votes.set i ⟨rosterI, ⟨sig⟩⟩) buf
      else .error .index

def voteSize : ℕ := 2 + 64

theorem readVotes_error {votes : List PubKeySig} (hi : i ≤ votes.length) (hn : votes.length < i + n)
    (hbuf : (votes.length - i) * voteSize + 2 ≤ buf.length) :
    readVotes n i votes buf = .error .index := by
  unfold voteSize at hbuf
  induction n generalizing i votes buf with
  | zero => omega
  | succ n ih =>
    unfold readVotes
    cases hread : readLE 2 buf with
    | none =>
      have := readLE_eq_none.mp hread
      omega
    | some p =>
      obtain ⟨rosterI, buf₁⟩ := p
      obtain ⟨-, rfl⟩ := readLE_eq_some.mp hread
      simp only [length_append, leBytes_length] at hbuf ⊢
      by_cases hlt : i < votes.length
      · rw [if_pos hlt]
        cases hsig : readBytes 64 buf₁ with
        | none =>
          have := readBytes_eq_none.mp hsig
          omega
        | some q =>
          obtain ⟨sig, buf₂⟩ := q
          obtain rfl := readBytes_eq_some.mp hsig
          simp only [length_append, List.Vector.toList_length] at hbuf
          refine ih ?_ ?_ ?_ <;> rw [length_set] <;> omega
      · rw [if_neg hlt]

theorem readVotes_ok {votes : List PubKeySig} (hi : i ≤ votes.length)
    (h : i + n ≤ votes.length ∨ buf.length < (votes.length - i) * voteSize + 2) :
    ∃ r, readVotes n i votes buf = .ok r ∧ ∀ votes', r = some votes' →
      votes'.length = votes.length ∧ i + n ≤ votes.length := by
  unfold voteSize at h
  induction n generalizing i votes buf with
  | zero => exact ⟨some votes, rfl, fun _ hv => by cases hv; exact ⟨rfl, hi⟩⟩
  | succ n ih =>
    unfold readVotes
    cases hread : readLE 2 buf with
    | none => exact ⟨none, rfl, nofun⟩
    | some p =>
      obtain ⟨rosterI, buf₁⟩ := p
      obtain ⟨-, rfl⟩ := readLE_eq_some.mp hread
      simp only [length_append, leBytes_length] at h ⊢
      rw [if_pos (by omega)]
      cases hsig : readBytes 64 buf₁ with
      | none => exact ⟨none, rfl, nofun⟩
      | some q =>
        obtain ⟨sig, buf₂⟩ := q
        obtain rfl := readBytes_eq_some.mp hsig
        simp only [length_append, List.Vector.toList_length] at h
        obtain ⟨r, hr, hlen⟩ : ∃ r, readVotes n (i + 1) (votes.set i ⟨rosterI, ⟨sig⟩⟩) buf₂ = .ok r ∧ _ :=
          ih (by rw [length_set]; omega) (by rw [length_set]; omega)
        refine ⟨r, hr, fun votes' hv => ?_⟩
        obtain ⟨h₁, h₂⟩ := hlen votes' hv
        rw [length_set] at h₁ h₂
        exact ⟨h₁, by omega⟩

def readFrom (P : Params) (buf : List UInt8) : Except Panic (Option PacketVotes) :=
  match readFields buf with
  | none => .ok none
  | some (packet, buf) => do
    let n ← addU P.overflowChecks 8 packet.noVotesN packet.yesVotesN
    return (← readVotes n 0 packet.votes buf).map fun votes => { packet with votes }

def writeTo (p : PacketVotes) : List UInt8 :=
  leBytes 1 p.noVotesN ++ leBytes 1 p.yesVotesN ++ leBytes 4 p.round ++ leBytes 8 p.height ++
    p.valueId.bytes.toList ++
      ((p.votes.take (p.noVotesN + p.yesVotesN)).map fun v => leBytes 2 v.rosterI ++ v.sig.bytes.toList).flatten

end PacketVotes

/-! ### What a vote signs -/

/-- The 76 bytes a vote signs: key, value, height, and the round with the kind in its top bit. -/
def voteBytes (pubKey : PubKeyID) (valueId : ValueId) (height roundWord : ℕ) : List UInt8 :=
  pubKey.bytes.toList ++ valueId.bytes.toList ++ leBytes 8 height ++ leBytes 4 roundWord

/-- The round word of a vote, `round + 0x8000_0000 * (is_precommit as u32)`. -/
def voteRoundWord (P : Params) (isPrecommit : Bool) (round : ℕ) : Except Panic ℕ :=
  addU P.overflowChecks 32 round (if isPrecommit then 2 ^ 31 else 0)

/-- The signed bytes of a nil vote and of a vote for `value_id`. -/
def makeVoteSignDatas (P : Params) (pubKey : PubKeyID) (isPrecommit : Bool) (height round : ℕ)
    (valueId : ValueId) : Except Panic (List UInt8 × List UInt8) := do
  let word ← voteRoundWord P isPrecommit round
  return (voteBytes pubKey ValueId.nil height word, voteBytes pubKey valueId height word)

end Crosslink.Tenderlink

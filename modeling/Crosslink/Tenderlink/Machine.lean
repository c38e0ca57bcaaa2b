import Crosslink.Lib.Search
import Crosslink.Tenderlink.Incorporate

/-!
# The state machine

`TMState` with its methods, as statements of `NodeM`: receiving a packet, starting a round, and the
`bft_update` tick with its conditions named by the lines of the Tendermint paper that the source
quotes. The three closures answer by call number, so one `Closures` value covers every sequence of
answers. `signed` and `pushed` record, newest first, what the node has signed and what it has handed to
the push closure; the code never reads them.
-/

namespace Crosslink.Tenderlink

open Codec Fallible Search

/-- What a signature of this node covers. -/
inductive Signed where
  | chunk (hdr : PacketProposalChunkHeader) (data : List UInt8)
  | vote (isPrecommit : Bool) (height round : ℕ) (valueId : ValueId)
  deriving DecidableEq

/-- A call of the push closure, with the roster and the round record it was made from. -/
structure Decision where
  roster : SortedRoster
  roundData : RoundData
  value : BlockValue
  fatPointer : FatPointerToBftBlock
  proposalSigs : List TMSig

structure TMState where
  mySigningKey : SigningKey
  myPubKey : PubKeyID
  round : ℕ
  step : TMStep
  height : ℕ
  validValueRound : Option BlockValue × ℤ
  lockedValueRound : Option BlockValue × ℤ
  roundsData : List RoundData
  recentCommitRoundCache : List RoundData
  /-- The `roster` variable of `entry_point`. -/
  roster : SortedRoster
  calls : ℕ
  signed : List Signed
  pushed : List Decision

abbrev NodeM := EStateM Panic TMState

/-- The propose, validate and push closures; the first argument numbers the calls. -/
structure Closures where
  propose : ℕ → Except Panic (Option BlockValue)
  validate : ℕ → BlockValue → Except Panic (TMStatus × TMStatusReason)
  push : ℕ → BlockValue → FatPointerToBftBlock → List TMSig → Except Panic SortedRoster

namespace TMState

def active (s : TMState) : List SortedRosterMember := s.roster.members.take (activeRosterLen s.roster.members)

def keyCmp (k : ℕ × ℕ) (d : RoundData) : Ordering := (compare d.height k.1).then (compare d.round k.2)

/-- `rounds_data.binary_search_by_key(&k, |el| (el.height, el.round))`. -/
def searchRound (s : TMState) (k : ℕ × ℕ) : Place := binarySearchBy (keyCmp k) s.roundsData

end TMState

def emptyRound (height round : ℕ) (roster : List SortedRosterMember) : RoundData :=
  { RoundData.empty with
    height
    round
    msgValSigs := List.replicate (activeRosterLen roster) VoteSlots.nil
    roster }

def roundAt (i : ℕ) : NodeM RoundData := do lift (getIdx (← get).roundsData i)

def setRoundAt (i : ℕ) (d : RoundData) : NodeM Unit :=
  modify fun s => { s with roundsData := s.roundsData.set i d }

def setStep (step : TMStep) : NodeM Unit := modify fun s => { s with step }

def recordSigned (e : Signed) : NodeM Unit := modify fun s => { s with signed := e :: s.signed }

def callClosure {α : Type} (f : ℕ → Except Panic α) : NodeM α := do
  let n := (← get).calls
  modify fun s => { s with calls := n + 1 }
  lift (f n)

def insertRound (insertI round : ℕ) : NodeM ℕ := do
  modify fun s => { s with
    roundsData := s.roundsData.insertIdx insertI (emptyRound s.height round s.roster.members) }
  return insertI

/-- The record of a round at the current height, inserted when it is missing. -/
def findOrInsertRound (round : ℕ) : NodeM (Bool × ℕ) := do
  let s ← get
  match s.searchRound (s.height, round) with
  | .found i => return (true, i)
  | .vacant i => return (false, ← insertRound i round)

/-! ### Messages -/

section

variable (P : Params)

def checkAndIncorporateMsg (m : Msg) : NodeM TMStatus := do
  let s ← get
  let roster := s.roster.members
  if m.height ≠ s.height then return .fail
  else if activeRosterLen roster ≤ m.rosterI then return .fail
  else
    let from_ ← lift (getIdx roster m.rosterI)
    if P.verify m.sig from_.pubKey m.signedData = false then return .fail
    else
      let (isPrevSeenRound, roundI) ← findOrInsertRound m.round
      let d ← roundAt roundI
      let (d, status) ← lift (incorporate P roster isPrevSeenRound (from_.pubKey = s.myPubKey) m d)
      setRoundAt roundI d
      return status

def proposerFromHeightRound (roster : List SortedRosterMember) (height round : ℕ) :
    Except Panic (Option ℕ × PubKeyID) :=
  if roster.length = 0 then .ok (none, PubKeyID.nil)
  else do
    let hash := P.proposerHash (leBytes 8 height ++ leBytes 4 round)
    let hashStake := leNat (hash.toList.take 8)
    let lastIncluded ← getIdx roster (activeRosterLen roster - 1)
    let totalIncludedStake := lastIncluded.cumulativeStake
    if totalIncludedStake = 0 then return (none, PubKeyID.nil)
    else
      let proposerStake := hashStake % totalIncludedStake
      let rosterI := partitionPoint (fun m => m.cumulativeStake ≤ proposerStake) roster
      let proposer ← getIdx roster rosterI
      return (some rosterI, proposer.pubKey)

/-! ### Broadcasting -/

inductive TMMsgData where
  | proposal (value : BlockValue) (validRound : ℤ)
  | prevote (valueId : ValueId)
  | precommit (valueId : ValueId)

def chunkHeader (height round : ℕ) (value : BlockValue) (validRound : ℤ) (chunkI : ℕ) :
    PacketProposalChunkHeader :=
  { chunkI, proposalSize := value.length, round, validRound, height, proposalId := idFromValue P value }

/-- One turn of the chunk loop: sign the chunk and send it to ourselves. -/
def broadcastChunk (height round rosterI : ℕ) (value : BlockValue) (validRound : ℤ) (chunkI : ℕ) : NodeM Unit := do
  let hdr := chunkHeader P height round value validRound chunkI
  let (chunkO, chunkSize) ← lift (chunkOSize P value chunkI)
  let data ← lift (slice value chunkO (chunkO + chunkSize))
  let signedData := hdr.writeTo ++ data
  let sig := P.sign (← get).mySigningKey signedData
  recordSigned (.chunk hdr data)
  let _ ← checkAndIncorporateMsg P
    ⟨height, round, chunkI, hdr.proposalId, hdr.validRound, rosterI, packetTypeProposalChunk, signedData, sig⟩

def broadcastVote (height round rosterI : ℕ) (isPrecommit : Bool) (valueId : ValueId) : NodeM Unit := do
  let s ← get
  let me ← lift (getIdx s.roster.members rosterI)
  let (_, signedData) ← lift (makeVoteSignDatas P me.pubKey isPrecommit height round valueId)
  let sig := P.sign s.mySigningKey signedData
  recordSigned (.vote isPrecommit height round valueId)
  let _ ← checkAndIncorporateMsg P
    ⟨height, round, 0, valueId, -2, rosterI,
      if isPrecommit then packetTypePrecommitSignatures else packetTypePrevoteSignatures, signedData, sig⟩

def broadcast (roundI : ℕ) (msg : TMMsgData) : NodeM TMStep := do
  let d ← roundAt roundI
  let s ← get
  match rosterIFromPubKey s.active s.myPubKey with
  | none => return s.step
  | some rosterI =>
    match msg with
    | .proposal value validRound =>
      if 2 ^ 32 ≤ value.length then throw .unwrap
      else
        (List.range (chunksN value)).forM (broadcastChunk P d.height d.round rosterI value validRound)
        return .propose
    | .prevote valueId =>
      broadcastVote P d.height d.round rosterI false valueId
      return .prevote
    | .precommit valueId =>
      broadcastVote P d.height d.round rosterI true valueId
      return .precommit

/-! ### Rounds -/

variable (cl : Closures)

/-- The value to propose: the valid value of an earlier round, or a new one. -/
def chooseProposal : NodeM (Option BlockValue) := do
  match (← get).validValueRound.1 with
  | some value => return some value
  | none => callClosure cl.propose

def proposeOrWait (roundI : ℕ) : NodeM Unit := do
  let s ← get
  let (_, proposer) ← lift (proposerFromHeightRound P s.roster.members s.height s.round)
  if proposer = s.myPubKey then
    match ← chooseProposal cl with
    | some proposal => setStep (← broadcast P roundI (.proposal proposal s.validValueRound.2))
    | none => setStep .propose
  else setStep .propose

def startRound (now : Instant) (round : ℕ) : NodeM Unit := do
  modify fun s => { s with round }
  let (_, roundI) ← findOrInsertRound round
  proposeOrWait P cl roundI
  let d ← roundAt roundI
  let s ← get
  setRoundAt roundI { d with activeTimeout := some (Timeout.new now s.height s.round .propose) }

def cacheValidity (i : ℕ) (d : RoundData) : NodeM Unit :=
  if d.proposalCheckedValidity.1 = .indeterminate then
    if d.proposalIsFaulty then setRoundAt i { d with proposalCheckedValidity := (.fail, .none) }
    else if d.hasFullProposal then do
      let verdict ← callClosure fun n => cl.validate n d.proposal
      setRoundAt i { d with proposalCheckedValidity := verdict }
    else return
  else return

/-- `RoundData::proposal_is_valid`, which caches the verdict. -/
def proposalIsValid (i : ℕ) : NodeM TMStatus := do
  cacheValidity cl i (← roundAt i)
  return (← roundAt i).proposalCheckedValidity.1

def roundDataToFatPointer (d : RoundData) (roster : List SortedRosterMember) : Except Panic FatPointerToBftBlock := do
  let word ← addU P.overflowChecks 32 d.round (2 ^ 31)
  let signatures ← (d.msgValSigs.zipIdx.filter fun (v, _) =>
    v.precommit.1 = d.proposalId ∧ v.precommit.2 ≠ TMSig.nil).mapM fun (v, rosterI) => do
      return ⟨(← getIdx roster rosterI).pubKey, v.precommit.2.bytes⟩
  return ⟨⟨d.proposalId.bytes.toList ++ leBytes 8 d.height ++ leBytes 4 word, by simp⟩, signatures⟩

/-! ### The tick -/

def fFromN (n : ℕ) : Except Panic ℕ := do
  return (← subU P.overflowChecks 64 n 1) / 3

structure Thresholds where
  big : ℕ
  small : ℕ
  deriving DecidableEq

def totalActiveStake (roster : List SortedRosterMember) : Except Panic ℕ :=
  (roster.take (activeRosterLen roster)).foldlM (fun acc m => addU P.overflowChecks 64 acc m.stake) 0

def thresholds (totalActiveStake : ℕ) : Except Panic Thresholds := do
  let f ← fFromN P totalActiveStake
  return if f = 0 then ⟨totalActiveStake, totalActiveStake⟩ else ⟨2 * f + 1, f + 1⟩

def thresholdsOf (roster : List SortedRosterMember) : Except Panic Thresholds := do
  thresholds P (← totalActiveStake P roster)

/-- What one turn of the loop reads at its start and does not read again. -/
structure TickView where
  onRoster : Bool
  counts : ConsensusCounts
  hasEnoughInfo : Bool
  isCurrent : Bool

def tickView (i : ℕ) : NodeM TickView := do
  let d ← roundAt i
  let s ← get
  return {
    onRoster := (rosterIFromPubKey s.active s.myPubKey).isSome
    counts := d.counts
    hasEnoughInfo := d.hasEnoughInfoToDetermineValidity
    isCurrent := (s.height, s.round) = d.key }

section Lines

variable (now : Instant) (th : Thresholds) (view : TickView) (i : ℕ)

def line22 : NodeM Unit := do
  let d ← roundAt i
  let s ← get
  if view.onRoster ∧ view.isCurrent ∧ view.hasEnoughInfo ∧ d.proposalValidRound = -1 ∧ s.step = .propose then
    let status ← proposalIsValid cl i
    if status = .pass ∧ (s.lockedValueRound.2 = -1 ∨ s.lockedValueRound.1 = some d.proposal) then
      setStep (← broadcast P i (.prevote d.proposalId))
    else
      setStep (← broadcast P i (.prevote ValueId.nil))

/-- Prevote on a proposal with a valid round. The prevotes counted are those of the current round. -/
def line28 : NodeM Unit := do
  let d ← roundAt i
  let s ← get
  if view.onRoster ∧ view.isCurrent ∧ view.hasEnoughInfo ∧ th.big ≤ view.counts.yesPrevotes ∧
      s.step = .propose ∧ 0 ≤ d.proposalValidRound ∧ d.proposalValidRound < s.round then
    let status ← proposalIsValid cl i
    if status = .pass ∧
        (s.lockedValueRound.2 ≤ d.proposalValidRound ∨ s.lockedValueRound.1 = some d.proposal) then
      setStep (← broadcast P i (.prevote d.proposalId))
    else
      setStep (← broadcast P i (.prevote ValueId.nil))

def line34 : NodeM Unit := do
  let d ← roundAt i
  let s ← get
  if view.onRoster ∧ view.isCurrent ∧ th.big ≤ view.counts.prevotes ∧ s.step = .prevote ∧
      d.timeoutTriggered.1 = false then
    setRoundAt i { d with
      timeoutTriggered := (true, d.timeoutTriggered.2)
      activeTimeout := some (Timeout.new now s.height s.round .prevote) }

def lockAndPrecommit (d : RoundData) : NodeM Unit := do
  let s ← get
  if s.step = .prevote then
    modify fun s => { s with lockedValueRound := (some d.proposal, s.round) }
    setStep (← broadcast P i (.precommit d.proposalId))

/-- Lock and precommit. Validity is asked before the step is looked at. -/
def line36 : NodeM Unit := do
  if view.onRoster ∧ view.isCurrent ∧ view.hasEnoughInfo ∧ th.big ≤ view.counts.yesPrevotes then
    let status ← proposalIsValid cl i
    let s ← get
    if status = .pass ∧ (s.step = .prevote ∨ s.step = .precommit) then
      lockAndPrecommit P i (← roundAt i)
      let d ← roundAt i
      modify fun s => { s with validValueRound := (some d.proposal, s.round) }

def line44 : NodeM Unit := do
  let s ← get
  if view.onRoster ∧ view.isCurrent ∧ th.big ≤ view.counts.nilPrevotes ∧ s.step = .prevote then
    setStep (← broadcast P i (.precommit ValueId.nil))

def line47 : NodeM Unit := do
  let d ← roundAt i
  let s ← get
  if view.onRoster ∧ view.isCurrent ∧ th.big ≤ view.counts.precommits ∧ d.timeoutTriggered.2 = false then
    setRoundAt i { d with
      timeoutTriggered := (d.timeoutTriggered.1, true)
      activeTimeout := some (Timeout.new now s.height s.round .precommit) }

/-- Hands the decided value and its certificate over; the answer is the roster of the next height. -/
def pushDecided (d : RoundData) : NodeM SortedRoster := do
  let s ← get
  let fatPointer ← lift (roundDataToFatPointer P d s.roster.members)
  modify fun s => { s with pushed := ⟨s.roster, d, d.proposal, fatPointer, d.proposalSigs⟩ :: s.pushed }
  callClosure fun n => cl.push n d.proposal fatPointer d.proposalSigs

/-- Push the decided value and go to the next height. `retain` keeps every record: all of them are below
the new height. -/
def decideValue : NodeM Unit := do
  let d ← roundAt i
  let newRoster ← pushDecided P cl d
  modify fun s => { s with
    roster := newRoster
    height := s.height + 1
    recentCommitRoundCache := s.recentCommitRoundCache ++ [d]
    roundsData := s.roundsData.filter fun r => r.height < s.height + 1
    lockedValueRound := (none, -1)
    validValueRound := (none, -1) }
  startRound P cl now 0

def line49 : NodeM Unit := do
  let d ← roundAt i
  let s ← get
  if s.height = d.height ∧ view.hasEnoughInfo ∧ th.big ≤ view.counts.yesPrecommits then
    let status ← proposalIsValid cl i
    if status = .pass then
      decideValue P cl now i

def line55 : NodeM Unit := do
  let d ← roundAt i
  let s ← get
  if view.onRoster ∧ s.height = d.height ∧ s.round < d.round ∧ th.small ≤ view.counts.anys then
    startRound P cl now d.round

def timeouts : NodeM Unit := do
  let d ← roundAt i
  let s ← get
  match d.activeTimeout with
  | none => return
  | some timeout =>
    if timeout.time ≤ now ∧ s.height = timeout.height ∧ s.round = timeout.round ∧ view.onRoster then
      match timeout.step with
      | .propose => if s.step = .propose then setStep (← broadcast P i (.prevote ValueId.nil))
      | .prevote => if s.step = .prevote then setStep (← broadcast P i (.precommit ValueId.nil))
      | .precommit => startRound P cl now (← lift (addU P.overflowChecks 32 s.round 1))

end Lines

def bftUpdateRound (now : Instant) (th : Thresholds) (i : ℕ) : NodeM Unit := do
  let view ← tickView i
  line22 P cl view i
  line28 P cl th view i
  line34 now th view i
  line36 P cl th view i
  line44 P th view i
  line47 now th view i
  line49 P cl now th view i
  line55 P cl now th view i
  timeouts P cl now view i

def bftUpdate (now : Instant) : NodeM Unit := do
  let s ← get
  let th ← lift (thresholdsOf P s.roster.members)
  let currentHeightStartI := match s.searchRound (s.height, 0) with
    | .found i => i
    | .vacant _ => 0
  (List.range' currentHeightStartI (s.roundsData.length - currentHeightStartI)).forM (bftUpdateRound P cl now th)

end

/-! ### Receiving -/

section

variable (P : Params)

/-- The message a chunk packet carries to `check_and_incorporate_msg`, if any. -/
def chunkMsg (roster : List SortedRosterMember) (packetType : ℕ) (msg : List UInt8) (readO : ℕ) :
    Except Panic (Option Msg) :=
  match PacketProposalChunkHeader.readFrom (msg.drop readO) with
  | none => .ok none
  | some (hdr, _) => do
    let left ← subU P.overflowChecks 64 hdr.proposalSize (hdr.chunkI * proposalChunkDataSize)
    let chunkSize := min proposalChunkDataSize left
    if msg.length = chunkSize + proposalPacketExtra then
      let (rosterI, _) ← proposerFromHeightRound P roster hdr.height hdr.round
      match rosterI with
      | none => return none
      | some rosterI =>
        let sigO := readO + PacketProposalChunkHeader.serializedSize + chunkSize
        let signedData ← slice msg readO sigO
        match readBytes 64 (msg.drop sigO) with
        | none => throw .index
        | some (sig, _) =>
          return some ⟨hdr.height, hdr.round, hdr.chunkI, hdr.proposalId, hdr.validRound, rosterI,
            packetType, signedData, ⟨sig⟩⟩
    else return none

def receiveChunk (packetType : ℕ) (msg : List UInt8) (readO : ℕ) : NodeM Unit := do
  match ← lift (chunkMsg P (← get).roster.members packetType msg readO) with
  | none => return
  | some m => let _ ← checkAndIncorporateMsg P m

/-- The message the vote at index `voteI` of a packet carries, if its member exists. -/
def voteMsg (roster : List SortedRosterMember) (packetType : ℕ) (packet : PacketVotes) (voteI : ℕ) :
    Except Panic (Option Msg) := do
  let vote ← getIdx packet.votes voteI
  match roster[vote.rosterI]? with
  | none => return none
  | some member =>
    let isPrecommit := packetType = packetTypePrecommitSignatures
    let (signNo, signYes) ← makeVoteSignDatas P member.pubKey isPrecommit packet.height packet.round
      packet.valueId
    let isYes := packet.noVotesN ≤ voteI
    return some ⟨packet.height, packet.round, 0, if isYes then packet.valueId else ValueId.nil, -2,
      vote.rosterI, packetType, if isYes then signYes else signNo, vote.sig⟩

def receiveVote (packetType : ℕ) (packet : PacketVotes) (voteI : ℕ) : NodeM Unit := do
  match ← lift (voteMsg P (← get).roster.members packetType packet voteI) with
  | none => return
  | some m => let _ ← checkAndIncorporateMsg P m

def receiveVotes (packetType : ℕ) (msg : List UInt8) (readO : ℕ) : NodeM Unit := do
  match ← lift (PacketVotes.readFrom P (msg.drop readO)) with
  | none => return
  | some packet =>
    let n ← lift (addU P.overflowChecks 8 packet.noVotesN packet.yesVotesN)
    (List.range n).forM (receiveVote P packetType packet)

/-- One packet from a connected peer. The peer's status goes to the peer table, which the state machine
does not read. -/
def receive (msg : List UInt8) : NodeM Unit :=
  if msg.length = 0 then return
  else
    match readHeaderAndMaybeStatus msg with
    | none => return
    | some (header, _, readO) =>
      if header.type_ = packetTypeProposalChunk then receiveChunk P header.type_ msg readO
      else if header.type_ = packetTypePrevoteSignatures ∨ header.type_ = packetTypePrecommitSignatures then
        receiveVotes P header.type_ msg readO
      else return

/-! ### Runs of one node -/

inductive Input where
  | recv (packet : List UInt8)
  | tick (now : Instant)

def handle (cl : Closures) : Input → NodeM Unit
  | .recv packet => receive P packet
  | .tick now => bftUpdate P cl now

/-- The state before the first `start_round`; `startup` holds the rounds decided before. -/
def TMState.init (mySigningKey : SigningKey) (roster : SortedRoster) (startup : List RoundData) : TMState where
  mySigningKey
  myPubKey := P.verificationKey mySigningKey
  round := 0
  step := .propose
  height := startup.length
  validValueRound := (none, -1)
  lockedValueRound := (none, -1)
  roundsData := []
  recentCommitRoundCache := startup
  roster
  calls := 0
  signed := []
  pushed := []

end

end Crosslink.Tenderlink

import Crosslink.Lib.TwoEnded
import Crosslink.Tenderlink.Certificate

/-!
# Gossip of votes

A node sends the votes of a round in packets of eighteen. Nil votes are put in from the front and votes for a value from
the end; a full packet is sent as it is, and in the last one the gap is closed first. All packets of a round name one
value, and votes for another are left out. Unpacked by the receive loop, the packets give back the recorded votes.
-/

namespace Crosslink.Tenderlink

open Codec Fallible

variable {P : Params} {d : RoundData} {isPrecommit : Bool}

/-! ### Packing -/

/-- `PubKeySig::NIL`. -/
def PubKeySig.nil : PubKeySig := ⟨2 ^ 16 - 1, TMSig.nil⟩

namespace PacketVotes

def start (d : RoundData) : PacketVotes :=
  ⟨0, 0, d.round, d.height, d.proposalId, List.replicate votesSize PubKeySig.nil⟩

def add (P : Params) (p : PacketVotes) (valueId : ValueId) (vote : PubKeySig) : Except Panic PacketVotes :=
  if valueId = ValueId.nil then do
    let votes ← setIdx p.votes p.noVotesN vote
    let noVotesN ← addU P.overflowChecks 8 p.noVotesN 1
    return { p with noVotesN, votes }
  else do
    let yesVotesN ← addU P.overflowChecks 8 p.yesVotesN 1
    let i ← subU P.overflowChecks 64 p.votes.length yesVotesN
    let votes ← setIdx p.votes i vote
    return { p with yesVotesN, votes }

/-- A half-filled packet, with items from the end moved to fill the gap. -/
def closeGap (P : Params) (p : PacketVotes) : Except Panic PacketVotes := do
  let n ← addU P.overflowChecks 8 p.noVotesN p.yesVotesN
  let gap ← subU P.overflowChecks 64 p.votes.length n
  let votes ← (List.range gap).foldlM (TwoEnded.moveIn p.noVotesN) p.votes
  return { p with votes }

end PacketVotes

/-- One turn of the loop over the vote slots: the packet in the making and those that were full. -/
def packVote (P : Params) (isPrecommit : Bool) (s : PacketVotes × List PacketVotes) (slot : VoteSlots × ℕ) :
    Except Panic (PacketVotes × List PacketVotes) :=
  let (valueId, sig) := slot.1.get isPrecommit
  if sig = TMSig.nil then .ok s
  else do
    let rosterI ← (if slot.2 < 2 ^ 16 then .ok slot.2 else .error .unwrap)
    -- votes are sent even before the proposal is known, but for one value only
    let packet := if s.1.valueId = ValueId.nil then { s.1 with valueId } else s.1
    if valueId ≠ ValueId.nil ∧ valueId ≠ packet.valueId then return (packet, s.2)
    else do
      let packet ← packet.add P valueId ⟨rosterI, sig⟩
      let n ← addU P.overflowChecks 8 packet.noVotesN packet.yesVotesN
      if n = packet.votes.length then
        return ({ packet with noVotesN := 0, yesVotesN := 0, votes := List.replicate PacketVotes.votesSize PubKeySig.nil },
          s.2 ++ [packet])
      else return (packet, s.2)

/-- The vote packets of `send_round_data_to_peer`, for one kind of vote. The self-check of debug builds, which prints
what it finds, is left out. -/
def votePackets (P : Params) (isPrecommit : Bool) (d : RoundData) : Except Panic (List PacketVotes) :=
  if (if isPrecommit then d.counts.precommits else d.counts.prevotes) = 0 then .ok []
  else do
    let (packet, full) ← d.msgValSigs.zipIdx.foldlM (packVote P isPrecommit) (.start d, [])
    let n ← addU P.overflowChecks 8 packet.noVotesN packet.yesVotesN
    if 0 < n then do
      let packet ← packet.closeGap P
      return full ++ [packet]
    else return full

/-! ### On the wire -/

def PacketStatus.writeTo (s : PacketStatus) : List UInt8 :=
  leBytes 8 s.height ++ leBytes 4 s.round ++ leBytes 4 s.needProposalChunkRngs.1 ++ leBytes 4 s.needProposalChunkRngs.2 ++
    leBytes 2 s.needPrevoteRngs.1 ++ leBytes 2 s.needPrevoteRngs.2 ++ leBytes 2 s.needPrecommitRngs.1 ++
      leBytes 2 s.needPrecommitRngs.2

def voteType (isPrecommit : Bool) : ℕ :=
  packetTypePrevoteSignatures + if isPrecommit then 1 else 0

/-- `write_header_and_maybe_status`, with a status. -/
def writeHeaderAndStatus (packetType : ℕ) (status : PacketStatus) : List UInt8 :=
  PacketHeader.writeTo ⟨packetType ||| packetTagStatusFlag⟩ ++ status.writeTo

/-- A packet of votes as it is sent, with whatever status goes with it. -/
def voteMessage (isPrecommit : Bool) (status : PacketStatus) (p : PacketVotes) : List UInt8 :=
  writeHeaderAndStatus (voteType isPrecommit) status ++ p.writeTo

/-! ### Unpacking -/

/-- The messages with which one packet makes the receive loop call `check_and_incorporate_msg`, in order. -/
def deliveries (P : Params) (roster : List SortedRosterMember) (msg : List UInt8) : Except Panic (List Msg) :=
  if msg.length = 0 then .ok []
  else
    match readHeaderAndMaybeStatus msg with
    | none => .ok []
    | some (header, _, readO) =>
      if header.type_ = packetTypeProposalChunk then do
        return (← chunkMsg P roster header.type_ msg readO).toList
      else if header.type_ = packetTypePrevoteSignatures ∨ header.type_ = packetTypePrecommitSignatures then do
        match ← PacketVotes.readFrom P (msg.drop readO) with
        | none => return []
        | some packet =>
          let n ← addU P.overflowChecks 8 packet.noVotesN packet.yesVotesN
          return ((← (List.range n).mapM (voteMsg P roster header.type_ packet)).filterMap id)
      else .ok []

def incorporateOne (P : Params) (m : Msg) : NodeM Unit := do
  let _ ← checkAndIncorporateMsg P m

theorem checkAndIncorporateMsg_roster (P : Params) (m : Msg) (s : TMState) :
    wp (checkAndIncorporateMsg P m) (fun _ s' => s'.roster = s.roster) (fun _ _ => True) s := by
  refine checkAndIncorporateMsg_rule (fun _ => rfl) fun member seen i s₁ d hacc hround => ⟨fun r hr => ?_, fun _ _ => trivial⟩
  cases hround <;> rfl

theorem incorporateOne_roster (P : Params) (m : Msg) (s : TMState) :
    wp (incorporateOne P m) (fun _ s' => s'.roster = s.roster) (fun _ _ => True) s :=
  wp_seq (checkAndIncorporateMsg_roster P m s) fun _ _ hs => hs

theorem forM_toList (P : Params) (call : Option Msg) :
    call.toList.forM (incorporateOne P) = match call with
      | none => pure ()
      | some m => incorporateOne P m := by
  cases call with
  | none => rfl
  | some m =>
    show (incorporateOne P m >>= fun _ => pure PUnit.unit) = incorporateOne P m
    exact bind_pure_unit

theorem get_run (s : TMState) : (EStateM.get s : EStateM.Result Panic TMState TMState) = .ok s s := rfl

theorem receiveVotes_loop {l : List ℕ} (hroster : s.roster.members = roster)
    (h : l.mapM (voteMsg P roster packetType packet) = .ok calls) :
    l.forM (receiveVote P packetType packet) s = (calls.filterMap id).forM (incorporateOne P) s := by
  induction l generalizing calls s with
  | nil =>
    obtain rfl := Except.ok.inj h
    rfl
  | cons i l ih =>
    rw [List.mapM_cons] at h
    obtain ⟨call, hcall, h⟩ := bind_eq_ok.mp h
    obtain ⟨calls, hcalls, h⟩ := bind_eq_ok.mp h
    obtain rfl := Except.ok.inj h
    rw [← hroster] at hcall
    have hvote : receiveVote P packetType packet i s = call.toList.forM (incorporateOne P) s := by
      rw [forM_toList]
      unfold receiveVote
      simp only [bind, EStateM.bind, get, getThe, MonadStateOf.get, get_run, lift, hcall]
      cases call <;> rfl
    rw [forM_toList] at hvote
    show (receiveVote P packetType packet i >>= fun _ => l.forM (receiveVote P packetType packet)) s = _
    cases call with
    | none =>
      have hskip : receiveVote P packetType packet i s = .ok () s := hvote
      simp only [bind, EStateM.bind, hskip]
      show _ = (calls.filterMap id).forM (incorporateOne P) s
      exact ih hroster hcalls
    | some m =>
      show _ = (incorporateOne P m >>= fun _ => (calls.filterMap id).forM (incorporateOne P)) s
      have hone : receiveVote P packetType packet i s = incorporateOne P m s := hvote
      simp only [bind, EStateM.bind, hone]
      cases hrun : incorporateOne P m s with
      | ok _ s' => exact ih (by rw [(wp_ok hrun).mp (incorporateOne_roster P m s), hroster]) hcalls
      | error e s' => rfl

theorem receive_eq_calls (h : deliveries P s.roster.members msg = .ok calls) :
    receive P msg s = calls.forM (incorporateOne P) s := by
  unfold deliveries at h
  unfold receive
  by_cases hempty : msg.length = 0
  · rw [if_pos hempty] at h ⊢
    obtain rfl := Except.ok.inj h
    rfl
  rw [if_neg hempty] at h ⊢
  cases hread : readHeaderAndMaybeStatus msg with
  | none =>
    rw [hread] at h
    obtain rfl := Except.ok.inj h
    rfl
  | some read =>
    obtain ⟨header, status, readO⟩ := read
    simp only [hread] at h ⊢
    split_ifs at h ⊢ with hchunk hvotes
    · obtain ⟨call, hcall, h⟩ := bind_eq_ok.mp h
      obtain rfl := Except.ok.inj h
      rw [forM_toList]
      unfold receiveChunk
      simp only [bind, EStateM.bind, get, getThe, MonadStateOf.get, get_run, lift, hcall]
      cases call <;> rfl
    · obtain ⟨packet, hpacket, h⟩ := bind_eq_ok.mp h
      unfold receiveVotes
      simp only [bind, EStateM.bind, lift, hpacket]
      cases packet with
      | none =>
        obtain rfl := Except.ok.inj h
        rfl
      | some packet =>
        obtain ⟨n, hn, h⟩ := bind_eq_ok.mp h
        obtain ⟨rs, hrs, h⟩ := bind_eq_ok.mp h
        obtain rfl := Except.ok.inj h
        simp only [hn]
        exact receiveVotes_loop rfl hrs
    · obtain rfl := Except.ok.inj h
      rfl

theorem receiveAll_eq_calls {α : Type} {l : List α} {message : α → List UInt8} (hroster : s.roster.members = roster)
    (h : l.mapM (fun p => deliveries P roster (message p)) = .ok calls) :
    (l.forM fun p => receive P (message p)) s = calls.flatten.forM (incorporateOne P) s := by
  induction l generalizing calls s with
  | nil =>
    obtain rfl := Except.ok.inj h
    rfl
  | cons p l ih =>
    rw [List.mapM_cons] at h
    obtain ⟨first, hfirst, h⟩ := bind_eq_ok.mp h
    obtain ⟨calls, hcalls, h⟩ := bind_eq_ok.mp h
    obtain rfl := Except.ok.inj h
    have hreceive : receive P (message p) s = first.forM (incorporateOne P) s :=
      receive_eq_calls (by rw [hroster, hfirst])
    have hkeep : wp (first.forM (incorporateOne P)) (fun _ s' => s'.roster = s.roster) (fun _ _ => True) s :=
      wp_forM first (fun m _ s₁ hs₁ => wp_mono (incorporateOne_roster P m s₁) (fun _ _ hs => hs.trans hs₁)
        fun _ _ he => he) rfl
    show (receive P (message p) >>= fun _ => l.forM fun p => receive P (message p)) s = _
    have happend : (first :: calls).flatten.forM (incorporateOne P) =
        (first.forM (incorporateOne P) >>= fun _ => calls.flatten.forM (incorporateOne P)) := by
      rw [List.flatten_cons]
      exact List.forM_append
    rw [happend]
    simp only [bind, EStateM.bind, hreceive]
    cases hrun : first.forM (incorporateOne P) s with
    | ok _ s' => exact ih (by rw [(wp_ok hrun).mp hkeep, hroster]) hcalls
    | error e s' => rfl

/-! ### The votes that are sent -/

/-- The votes of one kind in some slots, each with the value it is for. -/
def recordedIn (isPrecommit : Bool) (slots : List (VoteSlots × ℕ)) : List (ValueId × PubKeySig) :=
  slots.filterMap fun slot =>
    if slot.1.hasVote isPrecommit then
      some ((slot.1.get isPrecommit).1, ⟨slot.2, (slot.1.get isPrecommit).2⟩)
    else none

def RoundData.recorded (d : RoundData) (isPrecommit : Bool) : List (ValueId × PubKeySig) :=
  recordedIn isPrecommit d.msgValSigs.zipIdx

/-- The value of the packets: the proposal or, as long as it is not known, the first value voted for. -/
def packetValue (proposalId : ValueId) (votes : List (ValueId × PubKeySig)) : ValueId :=
  if proposalId = ValueId.nil then (votes.find? fun v => v.1 ≠ ValueId.nil).elim ValueId.nil Prod.fst else proposalId

def votesFor (value : ValueId) (votes : List (ValueId × PubKeySig)) : List (ValueId × PubKeySig) :=
  votes.filter fun v => v.1 = ValueId.nil ∨ v.1 = value

/-- The recorded votes that are nil or for the value of the packets. -/
def RoundData.gossiped (d : RoundData) (isPrecommit : Bool) : List (ValueId × PubKeySig) :=
  votesFor (packetValue d.proposalId (d.recorded isPrecommit)) (d.recorded isPrecommit)

/-- The votes of a packet in the order of the receive loop, each with the value of its group. -/
def PacketVotes.entries (p : PacketVotes) : List (ValueId × PubKeySig) :=
  (List.range (p.noVotesN + p.yesVotesN)).filterMap fun i =>
    p.votes[i]?.map fun vote => (if p.noVotesN ≤ i then p.valueId else ValueId.nil, vote)

theorem packetValue_snoc (proposalId : ValueId) (votes : List (ValueId × PubKeySig)) (v : ValueId × PubKeySig) :
    packetValue proposalId (votes ++ [v]) =
      if packetValue proposalId votes = ValueId.nil then v.1 else packetValue proposalId votes := by
  unfold packetValue
  by_cases hid : proposalId = ValueId.nil
  · simp only [if_pos hid, List.find?_append]
    cases hfind : votes.find? fun v => v.1 ≠ ValueId.nil with
    | none =>
      by_cases hv : v.1 = ValueId.nil <;> simp [hv]
    | some u =>
      have hu : u.1 ≠ ValueId.nil := by simpa using List.find?_some hfind
      simp [hu]
  · simp only [if_neg hid]

theorem nil_of_packetValue (h : packetValue proposalId votes = ValueId.nil) : ∀ v ∈ votes, v.1 = ValueId.nil := by
  unfold packetValue at h
  split_ifs at h with hid
  · cases hfind : votes.find? fun v => v.1 ≠ ValueId.nil with
    | none => simpa using List.find?_eq_none.mp hfind
    | some u =>
      rw [hfind] at h
      have hu : u.1 ≠ ValueId.nil := by simpa using List.find?_some hfind
      exact absurd h hu
  · exact absurd h hid

theorem filterMap_range {α β : Type} (f : α → β) (l : List α) :
    ((List.range l.length).filterMap fun i => l[i]?.map f) = l.map f := by
  induction l using List.reverseRecOn with
  | nil => rfl
  | append_singleton l a ih =>
    rw [List.length_append, List.length_singleton, List.range_succ, List.filterMap_append, List.map_append, ← ih]
    congr 1
    · refine List.filterMap_congr fun i hi => ?_
      rw [List.getElem?_append_left (List.mem_range.mp hi)]
    · simp

theorem PacketVotes.entries_eq {p : PacketVotes} (hno : p.noVotesN = nos.length) (hyes : p.yesVotesN = yeses.length)
    (hvotes : p.votes.take (nos.length + yeses.length) = nos ++ yeses) :
    p.entries = nos.map (ValueId.nil, ·) ++ yeses.map (p.valueId, ·) := by
  have hget : ∀ i, i < nos.length + yeses.length → p.votes[i]? = (nos ++ yeses)[i]? := by
    intro i hi
    rw [← hvotes, List.getElem?_take_of_lt hi]
  unfold PacketVotes.entries
  rw [hno, hyes, List.range_add, List.filterMap_append, List.filterMap_map, ← filterMap_range _ nos,
    ← filterMap_range _ yeses]
  congr 1
  · refine List.filterMap_congr fun i hi => ?_
    have hlt := List.mem_range.mp hi
    rw [hget i (by omega), List.getElem?_append_left hlt]
    simp [hlt]
  · refine List.filterMap_congr fun i hi => ?_
    have hlt := List.mem_range.mp hi
    simp only [Function.comp_apply]
    rw [hget _ (by omega), List.getElem?_append_right (by omega), Nat.add_sub_cancel_left]
    simp

/-! ### Packing keeps the votes -/

/-- A packet that can be encoded and read back. -/
structure Sendable (d : RoundData) (p : PacketVotes) : Prop where
  height : p.height = d.height
  round : p.round = d.round
  room : p.noVotesN + p.yesVotesN ≤ PacketVotes.votesSize
  slots : p.votes.length = PacketVotes.votesSize
  indices : ∀ v ∈ p.votes.take (p.noVotesN + p.yesVotesN), v.rosterI < 2 ^ 16

/-- In the middle of packing: the votes so far, apart from those for other values, are in the full packets and in the
packet in the making. -/
structure Packing (d : RoundData) (votes : List (ValueId × PubKeySig)) (nos yeses : List PubKeySig) (p : PacketVotes)
    (full : List PacketVotes) : Prop where
  height : p.height = d.height
  round : p.round = d.round
  no : p.noVotesN = nos.length
  yes : p.yesVotesN = yeses.length
  room : nos.length + yeses.length ≤ PacketVotes.votesSize
  slots : p.votes = TwoEnded.buffer PacketVotes.votesSize PubKeySig.nil nos yeses
  named : p.valueId = ValueId.nil → yeses = []
  indices : ∀ v ∈ nos ++ yeses, v.rosterI < 2 ^ 16
  sendable : ∀ q ∈ full, Sendable d q
  sent : (full.flatMap PacketVotes.entries ++ (nos.map (ValueId.nil, ·) ++ yeses.map (p.valueId, ·))).Perm
    (votesFor p.valueId votes)

variable {votes : List (ValueId × PubKeySig)} {nos yeses : List PubKeySig} {p : PacketVotes} {full : List PacketVotes}
  {v : ValueId × PubKeySig}

theorem Packing.start (d : RoundData) : Packing d [] [] [] (.start d) [] where
  height := rfl
  round := rfl
  no := rfl
  yes := rfl
  room := by decide
  slots := rfl
  named _ := rfl
  indices := by simp
  sendable := by simp
  sent := List.Perm.nil

theorem Packing.rename (h : Packing d votes nos yeses p full) (hnil : p.valueId = ValueId.nil)
    (hvotes : ∀ v ∈ votes, v.1 = ValueId.nil) (valueId : ValueId) :
    Packing d votes nos yeses { p with valueId } full := by
  obtain rfl := h.named hnil
  have hall : ∀ value, votesFor value votes = votes := fun value =>
    List.filter_eq_self.mpr fun v hv => by simp [hvotes v hv]
  have hsent := h.sent
  rw [hall, List.map_nil, List.append_nil] at hsent
  refine ⟨h.height, h.round, h.no, h.yes, h.room, h.slots, fun _ => rfl, h.indices, h.sendable, ?_⟩
  rw [hall, List.map_nil, List.append_nil]
  exact hsent

theorem Packing.skip (h : Packing d votes nos yeses p full) (hne : v.1 ≠ ValueId.nil) (hother : v.1 ≠ p.valueId) :
    Packing d (votes ++ [v]) nos yeses p full := by
  refine { h with sent := ?_ }
  have hskip : votesFor p.valueId (votes ++ [v]) = votesFor p.valueId votes := by
    simp [votesFor, List.filter_append, hne, hother]
  rw [hskip]
  exact h.sent

theorem Packing.add (P : Params) (h : Packing d votes nos yeses p full) (hroom : nos.length + yeses.length < PacketVotes.votesSize)
    (hv : v.1 = ValueId.nil ∨ v.1 = p.valueId) (hi : v.2.rosterI < 2 ^ 16) :
    ∃ nos' yeses' p', p.add P v.1 v.2 = .ok p' ∧ Packing d (votes ++ [v]) nos' yeses' p' full ∧
      p'.valueId = p.valueId ∧ nos'.length + yeses'.length = nos.length + yeses.length + 1 := by
  have hsize : p.votes.length = PacketVotes.votesSize := by rw [h.slots, TwoEnded.buffer_length h.room]
  have hkept : votesFor p.valueId (votes ++ [v]) = votesFor p.valueId votes ++ [v] := by
    simp [votesFor, List.filter_append, hv]
  have hindices : ∀ u ∈ nos ++ yeses ++ [v.2], u.rosterI < 2 ^ 16 := by
    intro u hu
    rcases List.mem_append.mp hu with hu | hu
    · exact h.indices u hu
    · rw [List.mem_singleton.mp hu]
      exact hi
  have hlt : PacketVotes.votesSize < 2 ^ 8 := by decide
  unfold PacketVotes.add
  by_cases hnil : v.1 = ValueId.nil
  · refine ⟨nos ++ [v.2], yeses, { p with noVotesN := p.noVotesN + 1, votes := p.votes.set p.noVotesN v.2 }, ?_,
      ⟨h.height, h.round, ?_, h.yes, ?_, ?_, h.named, ?_, h.sendable, ?_⟩, rfl, ?_⟩
    · rw [if_pos hnil, setIdx_ok (by rw [hsize, h.no]; omega), ok_bind, addU_ok (by rw [h.no]; omega), ok_bind]
      rfl
    · simp [h.no]
    · rw [List.length_append, List.length_singleton]
      omega
    · rw [h.no, h.slots]
      exact TwoEnded.set_front hroom v.2
    · intro u hu
      exact hindices u (by simp only [List.mem_append] at hu ⊢; tauto)
    · rw [hkept]
      have hperm := h.sent.append_right [v]
      refine List.Perm.trans ?_ hperm
      simp only [List.map_append, List.map_cons, List.map_nil, List.append_assoc]
      refine List.Perm.append_left _ (List.Perm.append_left _ ?_)
      rw [show (ValueId.nil, v.2) = v by rw [← hnil]]
      exact List.perm_append_comm
    · rw [List.length_append, List.length_singleton]
      omega
  · have hvalue : v.1 = p.valueId := hv.resolve_left hnil
    refine ⟨nos, yeses ++ [v.2], { p with
        yesVotesN := p.yesVotesN + 1, votes := p.votes.set (p.votes.length - (p.yesVotesN + 1)) v.2 }, ?_,
      ⟨h.height, h.round, h.no, ?_, ?_, ?_, ?_, ?_, h.sendable, ?_⟩, rfl, ?_⟩
    · rw [if_neg hnil, addU_ok (by rw [h.yes]; omega), ok_bind, subU_ok (by rw [h.yes, hsize]; omega), ok_bind,
        setIdx_ok (by rw [h.yes, hsize]; omega), ok_bind]
      rfl
    · simp [h.yes]
    · rw [List.length_append, List.length_singleton]
      omega
    · rw [hsize, h.yes, h.slots]
      exact TwoEnded.set_back hroom v.2
    · exact fun hn => absurd (hvalue.trans hn) hnil
    · intro u hu
      exact hindices u (by rwa [List.append_assoc])
    · rw [hkept]
      refine List.Perm.trans (List.Perm.of_eq ?_) (h.sent.append_right [v])
      have hpair : (p.valueId, v.2) = v := by rw [← hvalue]
      simp [hpair]
    · rw [List.length_append, List.length_singleton]
      omega

theorem Packing.flush (h : Packing d votes nos yeses p full) (hfull : nos.length + yeses.length = PacketVotes.votesSize) :
    Packing d votes [] [] { p with
      noVotesN := 0, yesVotesN := 0, votes := List.replicate PacketVotes.votesSize PubKeySig.nil } (full ++ [p]) := by
  have hvotes : p.votes = nos ++ yeses.reverse := by
    rw [h.slots, TwoEnded.buffer, hfull]
    simp
  have hlen : p.votes.length = nos.length + yeses.length := by rw [hvotes]; simp
  have hentries : p.entries = nos.map (ValueId.nil, ·) ++ yeses.reverse.map (p.valueId, ·) := by
    refine PacketVotes.entries_eq h.no (h.yes.trans (by simp)) ?_
    rw [List.length_reverse, ← hlen, List.take_length, hvotes]
  refine ⟨h.height, h.round, rfl, rfl, by simp, rfl, fun _ => rfl, by simp, ?_, ?_⟩
  · intro q hq
    rcases List.mem_append.mp hq with hq | hq
    · exact h.sendable q hq
    · rw [List.mem_singleton.mp hq]
      refine ⟨h.height, h.round, by rw [h.no, h.yes, hfull], by rw [hlen, hfull], ?_⟩
      intro v hv
      refine h.indices v ?_
      have hmem := List.mem_of_mem_take hv
      rw [hvotes] at hmem
      simpa using hmem
  · refine List.Perm.trans ?_ h.sent
    simp only [List.map_nil, List.append_nil, List.flatMap_append, List.flatMap_cons, List.flatMap_nil, hentries]
    refine List.Perm.append_left _ (List.Perm.append_left _ ?_)
    exact (List.reverse_perm yeses).map _

theorem Packing.turn (P : Params) (h : Packing d votes nos yeses p full)
    (hroom : nos.length + yeses.length < PacketVotes.votesSize) (hvalue : p.valueId = packetValue d.proposalId votes)
    (hslot : slot.2 < 2 ^ 16) :
    ∃ nos' yeses' p' full', packVote P isPrecommit (p, full) slot = .ok (p', full') ∧
      Packing d (votes ++ recordedIn isPrecommit [slot]) nos' yeses' p' full' ∧
      nos'.length + yeses'.length < PacketVotes.votesSize ∧
      p'.valueId = packetValue d.proposalId (votes ++ recordedIn isPrecommit [slot]) := by
  rcases hget : slot.1.get isPrecommit with ⟨valueId, sig⟩
  unfold packVote
  by_cases hsig : sig = TMSig.nil
  · have hnone : recordedIn isPrecommit [slot] = [] := by simp [recordedIn, VoteSlots.hasVote, hget, hsig]
    rw [hnone, List.append_nil]
    exact ⟨nos, yeses, p, full, by simp only [hget, if_pos hsig], h, hroom, hvalue⟩
  · have hsome : recordedIn isPrecommit [slot] = [(valueId, ⟨slot.2, sig⟩)] := by
      simp [recordedIn, VoteSlots.hasVote, hget, hsig]
    rw [hsome]
    -- the packet with its value, which is that of the first vote for one
    obtain ⟨p₁, hp₁, h₁, hvalue₁⟩ : ∃ p₁, p₁ = (if p.valueId = ValueId.nil then { p with valueId } else p) ∧
        Packing d votes nos yeses p₁ full ∧
          p₁.valueId = packetValue d.proposalId (votes ++ [(valueId, ⟨slot.2, sig⟩)]) := by
      refine ⟨_, rfl, ?_⟩
      rw [packetValue_snoc, ← hvalue]
      split_ifs with hnil
      · exact ⟨h.rename hnil (nil_of_packetValue (hvalue ▸ hnil)) valueId, rfl⟩
      · exact ⟨h, rfl⟩
    simp only [hget, if_neg hsig, if_pos hslot, ok_bind, ← hp₁]
    by_cases hother : valueId ≠ ValueId.nil ∧ valueId ≠ p₁.valueId
    · rw [if_pos hother]
      exact ⟨nos, yeses, p₁, full, rfl, h₁.skip hother.1 hother.2, hroom, hvalue₁⟩
    · have hv : valueId = ValueId.nil ∨ valueId = p₁.valueId := by tauto
      obtain ⟨nos', yeses', p', hadd, h', hsame, hlen⟩ := h₁.add (v := (valueId, ⟨slot.2, sig⟩)) P hroom hv hslot
      have hlt : PacketVotes.votesSize < 2 ^ 8 := by decide
      have hroom' := h'.room
      rw [if_neg hother, hadd, ok_bind, addU_ok (by rw [h'.no, h'.yes]; omega), ok_bind, h'.no, h'.yes, h'.slots,
        TwoEnded.buffer_length hroom']
      by_cases hfull : nos'.length + yeses'.length = PacketVotes.votesSize
      · rw [if_pos hfull]
        exact ⟨[], [], _, _, rfl, h'.flush hfull, by decide, hsame.trans hvalue₁⟩
      · rw [if_neg hfull]
        exact ⟨nos', yeses', p', full, rfl, h', by omega, hsame.trans hvalue₁⟩

theorem packVotes (P : Params) (isPrecommit : Bool) (d : RoundData) (hslots : ∀ slot ∈ slots, slot.2 < 2 ^ 16) :
    ∃ nos yeses p full, slots.foldlM (packVote P isPrecommit) (.start d, []) = .ok (p, full) ∧
      Packing d (recordedIn isPrecommit slots) nos yeses p full ∧
      nos.length + yeses.length < PacketVotes.votesSize ∧
      p.valueId = packetValue d.proposalId (recordedIn isPrecommit slots) := by
  induction slots using List.reverseRecOn with
  | nil =>
    refine ⟨[], [], .start d, [], rfl, Packing.start d, by decide, ?_⟩
    show d.proposalId = packetValue d.proposalId []
    unfold packetValue
    split_ifs with hid
    · exact hid
    · rfl
  | append_singleton slots slot ih =>
    obtain ⟨nos, yeses, p, full, hfold, h, hroom, hvalue⟩ := ih fun x hx => hslots x (List.mem_append_left _ hx)
    have happend : recordedIn isPrecommit (slots ++ [slot]) = recordedIn isPrecommit slots ++ recordedIn isPrecommit [slot] :=
      List.filterMap_append
    rw [happend]
    obtain ⟨nos', yeses', p', full', hturn, h', hroom', hvalue'⟩ := h.turn P hroom hvalue (hslots slot (by simp))
    exact ⟨nos', yeses', p', full', foldlM_append_eq_ok.mpr ⟨_, hfold, foldlM_cons_eq_ok.mpr ⟨_, hturn, rfl⟩⟩, h', hroom',
      hvalue'⟩

theorem Packing.close (P : Params) (h : Packing d votes nos yeses p full) : ∃ p', p.closeGap P = .ok p' ∧ Sendable d p' ∧
    p'.entries.Perm (nos.map (ValueId.nil, ·) ++ yeses.map (p.valueId, ·)) := by
  have hlt : PacketVotes.votesSize < 2 ^ 8 := by decide
  have hroom := h.room
  have hsize : p.votes.length = PacketVotes.votesSize := by rw [h.slots, TwoEnded.buffer_length hroom]
  obtain ⟨buf, yeses', hclose, hlen, htake, hperm⟩ := TwoEnded.closeGap PubKeySig.nil hroom
  refine ⟨{ p with votes := buf }, ?_, ⟨h.height, h.round, ?_, hlen, ?_⟩, ?_⟩
  · unfold PacketVotes.closeGap
    rw [addU_ok (by rw [h.no, h.yes]; omega), ok_bind, subU_ok (by rw [h.no, h.yes, hsize]; omega), ok_bind, hsize, h.no,
      h.yes, h.slots, hclose, ok_bind]
    rfl
  · show p.noVotesN + p.yesVotesN ≤ _
    rw [h.no, h.yes]
    exact hroom
  · intro v hv
    rw [show p.noVotesN + p.yesVotesN = nos.length + yeses.length by rw [h.no, h.yes], htake] at hv
    refine h.indices v ?_
    rcases List.mem_append.mp hv with hv | hv
    · exact List.mem_append_left _ hv
    · exact List.mem_append_right _ (hperm.mem_iff.mp hv)
  · have hentries : PacketVotes.entries { p with votes := buf } = nos.map (ValueId.nil, ·) ++ yeses'.map (p.valueId, ·) :=
      PacketVotes.entries_eq h.no (h.yes.trans hperm.length_eq.symm) (by rw [hperm.length_eq]; exact htake)
    rw [hentries]
    exact List.Perm.append_left _ (hperm.map _)

theorem votePackets_eq_ok (P : Params) (hslots : d.msgValSigs.length ≤ 2 ^ 16)
    (hcount : (if isPrecommit then d.counts.precommits else d.counts.prevotes) = 0 → d.recorded isPrecommit = []) :
    ∃ packets, votePackets P isPrecommit d = .ok packets ∧ (∀ p ∈ packets, Sendable d p) ∧
      (packets.flatMap PacketVotes.entries).Perm (d.gossiped isPrecommit) := by
  unfold votePackets
  by_cases hzero : (if isPrecommit then d.counts.precommits else d.counts.prevotes) = 0
  · refine ⟨[], by rw [if_pos hzero], by simp, ?_⟩
    rw [RoundData.gossiped, hcount hzero]
    exact List.Perm.nil
  · have hlt : PacketVotes.votesSize < 2 ^ 8 := by decide
    have hindices : ∀ slot ∈ d.msgValSigs.zipIdx, slot.2 < 2 ^ 16 := by
      intro slot hslot
      have := List.snd_lt_of_mem_zipIdx hslot
      omega
    obtain ⟨nos, yeses, p, full, hfold, h, hroom, hvalue⟩ := packVotes P isPrecommit d hindices
    have hsent := h.sent
    rw [hvalue] at hsent
    rw [if_neg hzero, hfold]
    simp only [ok_bind]
    rw [addU_ok (by rw [h.no, h.yes]; omega), ok_bind, h.no, h.yes]
    by_cases hn : 0 < nos.length + yeses.length
    · obtain ⟨p', hclose, hsendable, hperm⟩ := h.close P
      refine ⟨full ++ [p'], by rw [if_pos hn, hclose]; rfl, ?_, ?_⟩
      · intro q hq
        rcases List.mem_append.mp hq with hq | hq
        · exact h.sendable q hq
        · rw [List.mem_singleton.mp hq]
          exact hsendable
      · rw [List.flatMap_append, List.flatMap_singleton]
        rw [hvalue] at hperm
        exact (List.Perm.append_left _ hperm).trans hsent
    · have hno : nos = [] := List.eq_nil_of_length_eq_zero (by omega)
      have hyes : yeses = [] := List.eq_nil_of_length_eq_zero (by omega)
      refine ⟨full, by rw [if_neg hn]; rfl, h.sendable, ?_⟩
      rw [hno, hyes, List.map_nil, List.map_nil, List.append_nil, List.append_nil] at hsent
      exact hsent

/-! ### Reading the packets back -/

theorem readHeaderAndMaybeStatus_written (htype : packetType < 128) (status : PacketStatus) (rest : List UInt8) :
    ∃ status', readHeaderAndMaybeStatus (writeHeaderAndStatus packetType status ++ rest) =
      some (⟨packetType ||| packetTagStatusFlag⟩, some status', 44) := by
  have htag : packetType ||| packetTagStatusFlag < 256 := Nat.or_lt_two_pow (n := 8) (by omega) (by decide)
  have hflag : PacketHeader.hasStatus ⟨packetType ||| packetTagStatusFlag⟩ = true := by
    unfold PacketHeader.hasStatus
    rw [Nat.mod_eq_of_lt htag, Nat.and_or_distrib_right, Nat.and_self]
    simp [packetTagStatusFlag]
  have hheader : ∀ buf, PacketHeader.readFrom (PacketHeader.writeTo ⟨packetType ||| packetTagStatusFlag⟩ ++ buf) =
      some (⟨packetType ||| packetTagStatusFlag⟩, buf) := by
    intro buf
    unfold PacketHeader.readFrom PacketHeader.writeTo
    simp only [bind_eq_some, readLE_eq_some, pure_eq_some]
    exact ⟨_, _, ⟨by omega, by rw [List.append_assoc]⟩, 0, _, ⟨by decide, rfl⟩, rfl, rfl⟩
  obtain ⟨status', hstatus⟩ : ∃ status', PacketStatus.readFrom (status.writeTo ++ rest) = some (status', rest) := by
    unfold PacketStatus.readFrom PacketStatus.writeTo
    simp only [bind_eq_some, List.append_assoc, pure_eq_some]
    have hword := readLE_leBytes
    exact ⟨_, _, _, hword _ _ _, _, _, hword _ _ _, _, _, hword _ _ _, _, _, hword _ _ _, _, _, hword _ _ _, _, _,
      hword _ _ _, _, _, hword _ _ _, _, _, hword _ _ _, rfl, rfl⟩
  refine ⟨status', ?_⟩
  unfold readHeaderAndMaybeStatus writeHeaderAndStatus
  rw [List.append_assoc, hheader]
  have hread : (List.length (PacketHeader.writeTo ⟨packetType ||| packetTagStatusFlag⟩ ++ (status.writeTo ++ rest))) -
      rest.length = 44 := by
    simp only [PacketHeader.writeTo, PacketStatus.writeTo, List.length_append, leBytes_length]
    omega
  simp only [Option.bind_eq_bind, Option.bind_some, hflag, if_true, hstatus, hread]
  rfl

namespace PacketVotes

theorem readVotes_written {vs votes : List PubKeySig} (hroom : i + vs.length ≤ votes.length)
    (hindices : ∀ v ∈ vs, v.rosterI < 2 ^ 16) :
    readVotes vs.length i votes (vs.map fun v => leBytes 2 v.rosterI ++ v.sig.bytes.toList).flatten =
      .ok (some (votes.take i ++ (vs ++ votes.drop (i + vs.length)))) := by
  induction vs generalizing i votes with
  | nil => simp [readVotes]
  | cons v vs ih =>
    rw [List.length_cons] at hroom
    have hlt : i < votes.length := by omega
    have hindex : readLE 2 ((leBytes 2 v.rosterI ++ v.sig.bytes.toList) ++
        (vs.map fun v => leBytes 2 v.rosterI ++ v.sig.bytes.toList).flatten) = some (v.rosterI, v.sig.bytes.toList ++
          (vs.map fun v => leBytes 2 v.rosterI ++ v.sig.bytes.toList).flatten) :=
      readLE_eq_some.mpr ⟨hindices v List.mem_cons_self, List.append_assoc _ _ _⟩
    have hsig : readBytes 64 (v.sig.bytes.toList ++
        (vs.map fun v => leBytes 2 v.rosterI ++ v.sig.bytes.toList).flatten) = some (v.sig.bytes,
          (vs.map fun v => leBytes 2 v.rosterI ++ v.sig.bytes.toList).flatten) := readBytes_eq_some.mpr rfl
    have hrest : readVotes vs.length (i + 1) (votes.set i v) _ = _ := ih (by rw [List.length_set]; omega)
      fun u hu => hindices u (List.mem_cons_of_mem v hu)
    rw [List.map_cons, List.flatten_cons, List.length_cons, readVotes]
    simp only [hindex, if_pos hlt, hsig]
    rw [hrest, List.set_eq_take_append_cons_drop, if_pos hlt]
    have hlen : (votes.take i).length = i := by
      rw [List.length_take]
      omega
    have htake : (votes.take i).take (i + 1) = votes.take i := List.take_of_length_le (by omega)
    have hdrop : (votes.take i).drop (i + 1 + vs.length) = [] := List.drop_eq_nil_of_le (by omega)
    have hone : i + 1 - i = 1 := by omega
    have hmore : i + 1 + vs.length - i = vs.length + 1 := by omega
    rw [List.take_append, List.drop_append, hlen, hone, hmore, htake, hdrop, List.drop_succ_cons, List.drop_drop]
    simp [Nat.add_assoc, Nat.add_comm 1]

theorem readFrom_written (P : Params) (h : Sendable d p) (hheight : d.height < 2 ^ 64) (hround : d.round < 2 ^ 32) :
    ∃ q, readFrom P p.writeTo = .ok (some q) ∧ q.noVotesN = p.noVotesN ∧ q.yesVotesN = p.yesVotesN ∧
      q.round = d.round ∧ q.height = d.height ∧ q.valueId = p.valueId ∧
      q.votes.take (p.noVotesN + p.yesVotesN) = p.votes.take (p.noVotesN + p.yesVotesN) := by
  have hroom := h.room
  have hlt : votesSize < 2 ^ 8 := by decide
  have hlen : (p.votes.take (p.noVotesN + p.yesVotesN)).length = p.noVotesN + p.yesVotesN := by
    rw [List.length_take, h.slots]
    omega
  have hfields : readFields p.writeTo = some (⟨p.noVotesN, p.yesVotesN, p.round, p.height, p.valueId,
      List.replicate votesSize PubKeySig.default⟩,
      ((p.votes.take (p.noVotesN + p.yesVotesN)).map fun v => leBytes 2 v.rosterI ++ v.sig.bytes.toList).flatten) := by
    unfold readFields writeTo
    simp only [bind_eq_some, readLE_eq_some, readBytes_eq_some, pure_eq_some, List.append_assoc]
    exact ⟨_, _, ⟨by omega, rfl⟩, _, _, ⟨by omega, rfl⟩, _, _, ⟨by rw [h.round]; omega, rfl⟩, _, _,
      ⟨by rw [h.height]; omega, rfl⟩, _, _, rfl, rfl, rfl⟩
  have hvotes : readVotes _ 0 (List.replicate votesSize PubKeySig.default) _ = _ :=
    readVotes_written (by rw [hlen, List.length_replicate]; omega) h.indices
  rw [hlen, List.take_zero, List.nil_append, Nat.zero_add] at hvotes
  refine ⟨{ p with
      votes := p.votes.take (p.noVotesN + p.yesVotesN) ++
        (List.replicate votesSize PubKeySig.default).drop (p.noVotesN + p.yesVotesN) },
    ?_, rfl, rfl, h.round, h.height, rfl, List.take_left' hlen⟩
  unfold readFrom
  simp only [hfields]
  rw [addU_ok (by omega), ok_bind, hvotes, ok_bind]
  rfl

end PacketVotes

/-- The call of `check_and_incorporate_msg` that a vote of the round is to make at a node with this roster. -/
def RoundData.voteCall (d : RoundData) (isPrecommit : Bool) (roster : List SortedRosterMember)
    (v : ValueId × PubKeySig) : Option Msg :=
  roster[v.2.rosterI]?.map fun member =>
    ⟨d.height, d.round, 0, v.1, -2, v.2.rosterI, voteType isPrecommit,
      voteBytes member.pubKey v.1 d.height ((d.round + if isPrecommit then 2 ^ 31 else 0) % 2 ^ 32), v.2.sig⟩

theorem voteMsg_eq (roster : List SortedRosterMember) (hheight : q.height = d.height) (hround : q.round = d.round)
    (hvote : q.votes[i]? = some vote) (hword : voteRoundWord P isPrecommit d.round = .ok word) :
    voteMsg P roster (voteType isPrecommit) q i =
      .ok (d.voteCall isPrecommit roster (if q.noVotesN ≤ i then q.valueId else ValueId.nil, vote)) := by
  have hkind : decide (voteType isPrecommit = packetTypePrecommitSignatures) = isPrecommit := by
    cases isPrecommit <;> rfl
  have hmod := addU_mod hword
  unfold voteMsg RoundData.voteCall
  rw [getIdx_ok hvote, ok_bind]
  cases roster[vote.rosterI]? with
  | none => rfl
  | some member =>
    simp only [makeVoteSignDatas, hkind, hround, hword, ok_bind, hheight, ← hmod, Option.map_some]
    by_cases hyes : q.noVotesN ≤ i <;> simp [hyes, pure, Except.pure]

theorem deliveries_voteMessage (h : Sendable d p) (hheight : d.height < 2 ^ 64) (hround : d.round < 2 ^ 32)
    (hword : p.entries ≠ [] → ∃ word, voteRoundWord P isPrecommit d.round = .ok word) (status : PacketStatus)
    (roster : List SortedRosterMember) :
    deliveries P roster (voteMessage isPrecommit status p) = .ok (p.entries.filterMap (d.voteCall isPrecommit roster)) := by
  have hlt : PacketVotes.votesSize < 2 ^ 8 := by decide
  have hroom := h.room
  have hsmall : voteType isPrecommit < 128 := by cases isPrecommit <;> decide
  have htype : PacketHeader.type_ ⟨voteType isPrecommit ||| packetTagStatusFlag⟩ = voteType isPrecommit := by
    cases isPrecommit <;> decide
  have hchunk : voteType isPrecommit ≠ packetTypeProposalChunk := by cases isPrecommit <;> decide
  have hvotes : voteType isPrecommit = packetTypePrevoteSignatures ∨
      voteType isPrecommit = packetTypePrecommitSignatures := by cases isPrecommit <;> decide
  obtain ⟨status', hread⟩ := readHeaderAndMaybeStatus_written hsmall status p.writeTo
  obtain ⟨q, hq, hno, hyes, hqround, hqheight, hvalue, htake⟩ := PacketVotes.readFrom_written P h hheight hround
  have hlen : (writeHeaderAndStatus (voteType isPrecommit) status).length = 44 := by
    simp [writeHeaderAndStatus, PacketHeader.writeTo, PacketStatus.writeTo]
  have hne : (voteMessage isPrecommit status p).length ≠ 0 := by
    rw [voteMessage, List.length_append]
    omega
  have hdrop : (writeHeaderAndStatus (voteType isPrecommit) status ++ p.writeTo).drop 44 = p.writeTo := List.drop_left' hlen
  have hget : ∀ i < p.noVotesN + p.yesVotesN, ∃ vote, p.votes[i]? = some vote ∧ q.votes[i]? = some vote := by
    intro i hi
    obtain ⟨vote, hvote⟩ : ∃ vote, p.votes[i]? = some vote := ⟨_, List.getElem?_eq_getElem (by rw [h.slots]; omega)⟩
    refine ⟨vote, hvote, ?_⟩
    rw [← hvote, ← List.getElem?_take_of_lt hi, htake, List.getElem?_take_of_lt hi]
  have hwalk : (List.range (p.noVotesN + p.yesVotesN)).mapM (voteMsg P roster (voteType isPrecommit) q) =
      .ok ((List.range (p.noVotesN + p.yesVotesN)).map fun i => p.votes[i]?.bind fun vote =>
        d.voteCall isPrecommit roster (if p.noVotesN ≤ i then p.valueId else ValueId.nil, vote)) := by
    refine mapM_ok fun i hi => ?_
    obtain ⟨vote, hp, hqvote⟩ := hget i (List.mem_range.mp hi)
    have hentries : p.entries ≠ [] := List.ne_nil_of_mem (List.mem_filterMap.mpr ⟨i, hi, by rw [hp]; rfl⟩)
    obtain ⟨word, hword⟩ := hword hentries
    rw [voteMsg_eq roster hqheight hqround hqvote hword, hp, hno, hvalue]
    rfl
  unfold deliveries
  rw [if_neg hne, voteMessage, hread]
  simp only [htype, if_neg hchunk, if_pos hvotes, hdrop, hq, ok_bind]
  rw [hno, hyes, addU_ok (by omega), ok_bind, hwalk, ok_bind]
  show Except.ok (List.filterMap id (List.map _ _)) = _
  rw [List.filterMap_map, PacketVotes.entries, List.filterMap_filterMap]
  congr 1
  refine List.filterMap_congr fun i _ => ?_
  rw [Option.bind_map]
  rfl

/-! ### Recorded votes -/

theorem recorded_eq_nil (hd : Shape R d) (hstakes : ∀ member ∈ R.members, 0 < member.stake)
    (hzero : (if isPrecommit then d.counts.precommits else d.counts.prevotes) = 0) : d.recorded isPrecommit = [] := by
  have hcount : stakeWhere R.members (VoteSlots.hasVote isPrecommit) d.msgValSigs = 0 := by
    rw [hd.counts] at hzero
    cases isPrecommit <;> exact hzero
  refine List.filterMap_eq_nil_iff.mpr fun slot hslot => ?_
  obtain ⟨hlt, hget⟩ := List.mem_zipIdx' hslot
  have hterm := Finset.sum_eq_zero_iff.mp hcount slot.2 (Finset.mem_range.mpr hlt)
  have hslotAt : slotAt d.msgValSigs slot.2 = slot.1 := slotAt_of_getElem? (by rw [List.getElem?_eq_getElem hlt, hget])
  have hmember : slot.2 < R.members.length := by
    have := activeRosterLen_le R.members
    have := hd.slots
    omega
  rw [hslotAt, stakeAt_of_getElem? (List.getElem?_eq_getElem hmember)] at hterm
  have hpos := hstakes _ (List.getElem_mem hmember)
  split_ifs at hterm with hvote
  · omega
  · rw [if_neg hvote]

theorem voted_of_mem_recorded (h : v ∈ d.recorded isPrecommit) :
    v.2.rosterI < d.msgValSigs.length ∧ d.Voted v.2.rosterI isPrecommit v.1 v.2.sig := by
  obtain ⟨slot, hslot, hv⟩ := List.mem_filterMap.mp h
  obtain ⟨hlt, hget⟩ := List.mem_zipIdx' hslot
  have hslotAt : slotAt d.msgValSigs slot.2 = slot.1 := slotAt_of_getElem? (by rw [List.getElem?_eq_getElem hlt, hget])
  split_ifs at hv with hvote
  obtain rfl := Option.some.inj hv
  exact ⟨hlt, by rw [hslotAt], hvote⟩

/-! ### The way of a round's votes -/

/-- What the packets of a round deliver at a node with any roster are the recorded votes of the kind that are nil or for
the value of the packets, each once, for the members that the roster has; and receiving the packets does nothing else. -/
theorem voteGossip_faithful {R : SortedRoster} (hd : Shape R d) (hvotes : VotesVerified P R d)
    (hstakes : ∀ member ∈ R.members, 0 < member.stake) (hheight : d.height < 2 ^ 64) (hround : d.round < 2 ^ 32)
    (isPrecommit : Bool) (statuses : ℕ → PacketStatus) (roster : List SortedRosterMember) :
    ∃ packets calls, votePackets P isPrecommit d = .ok packets ∧
      packets.zipIdx.mapM (fun p => deliveries P roster (voteMessage isPrecommit (statuses p.2) p.1)) = .ok calls ∧
      calls.flatten.Perm ((d.gossiped isPrecommit).filterMap (d.voteCall isPrecommit roster)) ∧
      ∀ s : TMState, s.roster.members = roster →
        (packets.zipIdx.forM fun p => receive P (voteMessage isPrecommit (statuses p.2) p.1)) s =
          calls.flatten.forM (incorporateOne P) s := by
  have hslots : d.msgValSigs.length ≤ R.members.length := hd.slots ▸ activeRosterLen_le R.members
  have hactive : d.msgValSigs.length ≤ 2 ^ 16 := by
    rw [hd.slots, activeRosterLen]
    exact (min_le_left _ _).trans (by decide)
  have hcount : _ → d.recorded isPrecommit = [] := recorded_eq_nil hd hstakes
  obtain ⟨packets, hpackets, hsendable, hperm⟩ := votePackets_eq_ok P hactive hcount
  have hcalls : ∀ p ∈ packets.zipIdx, deliveries P roster (voteMessage isPrecommit (statuses p.2) p.1) =
      .ok (p.1.entries.filterMap (d.voteCall isPrecommit roster)) := by
    intro p hp
    have hmem : p.1 ∈ packets := List.fst_mem_of_mem_zipIdx hp
    refine deliveries_voteMessage (hsendable p.1 hmem) hheight hround (fun hne => ?_) (statuses p.2) roster
    obtain ⟨v, hv⟩ := List.exists_mem_of_ne_nil _ hne
    have hgossiped := hperm.mem_iff.mp (List.mem_flatMap.mpr ⟨p.1, hmem, hv⟩)
    obtain ⟨hlt, hvoted⟩ := voted_of_mem_recorded (List.mem_of_mem_filter hgossiped)
    obtain ⟨word, hword, -⟩ := hvotes _ _ _ _ _ (List.getElem?_eq_getElem (hlt.trans_le hslots)) hvoted
    exact ⟨word, hword⟩
  refine ⟨packets, _, hpackets, mapM_ok hcalls, ?_, fun s hs => receiveAll_eq_calls hs (mapM_ok hcalls)⟩
  have hflat : (packets.zipIdx.map fun p => p.1.entries.filterMap (d.voteCall isPrecommit roster)).flatten =
      (packets.flatMap PacketVotes.entries).filterMap (d.voteCall isPrecommit roster) := by
    rw [List.filterMap_flatMap, ← List.flatMap_def]
    conv_rhs => rw [← List.zipIdx_map_fst 0 packets, List.flatMap_map]
  rw [hflat]
  exact hperm.filterMap _

/-- A round with a prevote for a value, a nil prevote and a missing one. -/
def mixedRound (P : Params) : RoundData :=
  let vote (key : ℕ) (valueId : ValueId) : ValSig :=
    (valueId, P.sign (keyNo key).bytes (voteBytes (keyNo key) valueId 0 0))
  let slots : List VoteSlots :=
    [⟨vote 2 (idFromValue P [7]), ValSig.nil⟩, ⟨vote 3 ValueId.nil, ValSig.nil⟩, VoteSlots.nil]
  { emptyRound 0 0 (threeMembers 3 2 1 (by decide)).members with
    msgValSigs := slots
    counts := tally (threeMembers 3 2 1 (by decide)).members slots }

theorem voteGossip_faithful_mixedRound :
    ((mixedRound (Params.sample true)).gossiped false).length = 2 ∧
    ∃ packets calls, votePackets (Params.sample true) false (mixedRound (Params.sample true)) = .ok packets ∧
      packets.zipIdx.mapM (fun p => deliveries (Params.sample true) (threeMembers 3 2 1 (by decide)).members
        (voteMessage false ⟨0, 0, (0, 0), (0, 3), (0, 3)⟩ p.1)) = .ok calls ∧
      calls.flatten.Perm (((mixedRound (Params.sample true)).gossiped false).filterMap
        ((mixedRound (Params.sample true)).voteCall false (threeMembers 3 2 1 (by decide)).members)) ∧
      ∀ s : TMState, s.roster.members = (threeMembers 3 2 1 (by decide)).members →
        (packets.zipIdx.forM fun p => receive (Params.sample true) (voteMessage false ⟨0, 0, (0, 0), (0, 3), (0, 3)⟩ p.1)) s =
          calls.flatten.forM (incorporateOne (Params.sample true)) s := by
  refine ⟨by decide +kernel, voteGossip_faithful (R := threeMembers 3 2 1 (by decide)) ⟨rfl, rfl, rfl⟩ ?_ (by decide)
    (by decide) (by decide) false (fun _ => ⟨0, 0, (0, 0), (0, 3), (0, 3)⟩) _⟩
  have hverify : ∀ i < 3, ∀ k : Bool, ∀ member ∈ (threeMembers 3 2 1 (by decide)).members[i]?,
      let vote := (slotAt (mixedRound (Params.sample true)).msgValSigs i).get k
      vote.2 ≠ TMSig.nil → (Params.sample true).verify vote.2 member.pubKey
        (voteBytes member.pubKey vote.1 0 (0 + if k then 2 ^ 31 else 0)) = true := by
    decide +kernel
  have hword : ∀ k : Bool, 0 + (if k then 2 ^ 31 else 0) < 2 ^ 32 := by decide
  intro i k valueId sig member hmember hvoted
  have hi : i < 3 := (List.getElem?_eq_some_iff.mp hmember).1
  have hslot := hverify i hi k member hmember
  rw [hvoted.1] at hslot
  exact ⟨_, addU_ok (hword k), hslot hvoted.2⟩

end Crosslink.Tenderlink

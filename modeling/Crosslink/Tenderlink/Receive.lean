import Crosslink.Tenderlink.RefineTick

/-!
# The receive path and the runs of one node

A packet carries messages, and handling it makes only moves that hear one of them. With the tick this
covers every input, so each state of a run is reached by moves.
-/

namespace Crosslink.Tenderlink

open Codec Fallible Search List Refines

variable {P : Params} {wraps : Prop} {Heard : Msg → PubKeyID → Prop} {s s' : TMState} {cl : Closures} {now : Instant}

/-! ### What a packet carries -/

/-- Unpacked against a roster, the packet yields the message. -/
inductive Carries (P : Params) (roster : List SortedRosterMember) (packet : List UInt8) : Msg → Prop where
  | chunk {header : PacketHeader} {status : Option PacketStatus} {readO : ℕ} {m : Msg}
      (hread : readHeaderAndMaybeStatus packet = some (header, status, readO))
      (htype : header.type_ = packetTypeProposalChunk)
      (hmsg : chunkMsg P roster header.type_ packet readO = .ok (some m)) : Carries P roster packet m
  | vote {header : PacketHeader} {status : Option PacketStatus} {readO : ℕ} {votes : PacketVotes} {voteI : ℕ}
      {m : Msg} (hread : readHeaderAndMaybeStatus packet = some (header, status, readO))
      (htype : header.type_ = packetTypePrevoteSignatures ∨ header.type_ = packetTypePrecommitSignatures)
      (hvotes : PacketVotes.readFrom P (packet.drop readO) = .ok (some votes))
      (hmsg : voteMsg P roster header.type_ votes voteI = .ok (some m)) : Carries P roster packet m

theorem proposerFromHeightRound_some {height round rosterI : ℕ}
    (h : proposerFromHeightRound P roster height round = .ok (some rosterI, pubKey)) :
    ∃ member, roster[rosterI]? = some member ∧ member.pubKey = pubKey := by
  unfold proposerFromHeightRound at h
  split at h
  · cases h
  · obtain ⟨last, -, h⟩ := bind_eq_ok.mp h
    dsimp only at h
    split at h
    · cases h
    · obtain ⟨member, hmember, h⟩ := bind_eq_ok.mp h
      cases h
      exact ⟨member, getIdx_eq_ok.mp hmember, rfl⟩

theorem chunkMsg_eq_some (h : chunkMsg P roster packetTypeProposalChunk msg readO = .ok (some m)) :
    ∃ hdr data rest left pubKey, PacketProposalChunkHeader.readFrom (msg.drop readO) = some (hdr, data ++ rest) ∧
      subU P.overflowChecks 64 hdr.proposalSize (hdr.chunkI * proposalChunkDataSize) = .ok left ∧
      data.length = min proposalChunkDataSize left ∧ msg.length = data.length + proposalPacketExtra ∧
      proposerFromHeightRound P roster hdr.height hdr.round = .ok (some m.rosterI, pubKey) ∧
      (Signed.chunk hdr data).Covers m := by
  unfold chunkMsg at h
  split at h
  · cases h
  · rename_i hdr rest hread
    obtain ⟨left, hleft, h⟩ := bind_eq_ok.mp h
    dsimp only at h
    split at h
    · rename_i hsize
      obtain ⟨⟨rosterI, pubKey⟩, hproposer, h⟩ := bind_eq_ok.mp h
      cases rosterI with
      | none => cases h
      | some rosterI =>
        obtain ⟨signedData, hslice, h⟩ := bind_eq_ok.mp h
        split at h
        · cases h
        · cases h
          unfold slice at hslice
          split at hslice
          · rename_i hle
            cases hslice
            obtain ⟨-, hbytes⟩ := PacketProposalChunkHeader.readFrom_eq_some.mp hread
            have hlen := congrArg length hbytes
            simp only [length_drop, length_append, PacketProposalChunkHeader.writeTo_length] at hlen
            have hrest : (rest.take (min proposalChunkDataSize left)).length = min proposalChunkDataSize left := by
              rw [length_take]
              omega
            refine ⟨hdr, rest.take (min proposalChunkDataSize left), rest.drop (min proposalChunkDataSize left), left,
              pubKey, ?_, hleft, hrest, by rw [hrest, hsize], hproposer, rfl, ?_, rfl, rfl, rfl, rfl, rfl⟩
            · rw [hread, take_append_drop]
            · rw [hbytes, Nat.add_assoc, Nat.add_sub_cancel_left, take_append, take_of_length_le (by simp),
                PacketProposalChunkHeader.writeTo_length, Nat.add_sub_cancel_left]
          · cases hslice
    · cases h

theorem voteMsg_eq_some (h : voteMsg P roster packetType packet voteI = .ok (some m)) :
    ∃ member word, roster[m.rosterI]? = some member ∧
      voteRoundWord P (packetType = packetTypePrecommitSignatures) m.round = .ok word ∧
      m.signedData = voteBytes member.pubKey m.valueId m.height word ∧ m.packetType = packetType := by
  unfold voteMsg at h
  obtain ⟨vote, hvote, h⟩ := bind_eq_ok.mp h
  split at h
  · cases h
  · rename_i member hmember
    obtain ⟨⟨signNo, signYes⟩, hdatas, h⟩ := bind_eq_ok.mp h
    obtain ⟨word, hword, hdatas⟩ := bind_eq_ok.mp hdatas
    cases hdatas
    cases h
    refine ⟨member, word, hmember, hword, ?_, rfl⟩
    by_cases hyes : packet.noVotesN ≤ voteI <;> simp [hyes]

theorem Carries.formed (h : Carries P s.roster.members packet m)
    (hmember : s.roster.members[m.rosterI]? = some member) :
    Formed P s.roster member m := by
  cases h with
  | chunk _ htype hmsg =>
    rw [htype] at hmsg
    obtain ⟨hdr, data, -, -, pubKey, -, -, -, -, hproposer, hkind, -, hheight, hround, -⟩ := chunkMsg_eq_some hmsg
    obtain ⟨member', hmember', rfl⟩ := proposerFromHeightRound_some hproposer
    rw [hmember] at hmember'
    cases hmember'
    refine ⟨fun k hk => ?_, fun _ => ⟨some m.rosterI, by rw [hheight, hround, hproposer]⟩⟩
    rw [hkind] at hk
    cases k <;> cases hk
  | vote _ htype _ hmsg =>
    obtain ⟨member', word, hmember', hword, hdata, hkind⟩ := voteMsg_eq_some hmsg
    rw [hmember] at hmember'
    cases hmember'
    refine ⟨fun k hk => ⟨word, ?_, hdata⟩, fun hk => ?_⟩
    · rw [hkind] at hk
      rw [hk] at hword
      cases k <;> exact hword
    · rw [hkind] at hk
      rcases htype with h | h <;> rw [h] at hk <;> cases hk

def carried (P : Params) (roster : List SortedRosterMember) (packet : List UInt8) : List Msg :=
  match readHeaderAndMaybeStatus packet with
  | none => []
  | some (header, _, readO) =>
    if header.type_ = packetTypeProposalChunk then
      match chunkMsg P roster header.type_ packet readO with
      | .ok (some m) => [m]
      | _ => []
    else
      match PacketVotes.readFrom P (packet.drop readO) with
      | .ok (some votes) => (List.range votes.votes.length).filterMap fun voteI =>
        match voteMsg P roster header.type_ votes voteI with
        | .ok (some m) => some m
        | _ => none
      | _ => []

theorem Carries.mem_carried (h : Carries P roster packet m) : m ∈ carried P roster packet := by
  cases h with
  | chunk hread htype hmsg =>
    rw [carried, hread]
    simp only [if_pos htype, hmsg, mem_singleton]
  | @vote header status readO votes voteI _ hread htype hvotes hmsg =>
    have hother : header.type_ ≠ packetTypeProposalChunk := by rcases htype with h | h <;> rw [h] <;> decide
    have hlt : voteI < votes.votes.length := by
      obtain ⟨vote, hvote, -⟩ := bind_eq_ok.mp hmsg
      exact (List.getElem?_eq_some_iff.mp (getIdx_eq_ok.mp hvote)).1
    rw [carried, hread]
    simp only [if_neg hother, hvotes]
    exact List.mem_filterMap.mpr ⟨voteI, List.mem_range.mpr hlt, by rw [hmsg]⟩

/-! ### Receiving makes only moves -/

/-- The packet carries a message that passes the checks against the member with this key. -/
def Delivers (P : Params) (s : TMState) (packet : List UInt8) (m : Msg) (key : PubKeyID) : Prop :=
  Carries P s.roster.members packet m ∧ ∃ member, Accepted P s m member ∧ member.pubKey = key

/-- Hearing a message leaves all but the records as it was. -/
structure Listened (P : Params) (wraps : Prop) (s s' : TMState) : Prop where
  inv : Inv P wraps s'
  roster : s'.roster = s.roster
  height : s'.height = s.height

theorem carried_refines (h : Inv P wraps s) (hm : Carries P s.roster.members packet m)
    (hheard : ∀ member, Accepted P s m member → Heard m member.pubKey) :
    Refines P wraps Heard (do let _ ← checkAndIncorporateMsg P m) (fun _ s' => Listened P wraps s s') s := by
  refine (checkAndIncorporateMsg_refines m h.wf fun member hacc => ?_).bind fun _ s₁ hmoves hinc => ?_
  · exact ⟨hm.formed hacc.here, .inl (hheard member hacc)⟩
  · exact Refines.pure ⟨hmoves.inv h, hinc.frame.2.2.1, hinc.frame.1⟩

theorem Listened.refl (h : Inv P wraps s) : Listened P wraps s s := ⟨h, rfl, rfl⟩

theorem receiveChunk_refines (h : Inv P wraps s)
    (hread : readHeaderAndMaybeStatus packet = some (header, status, readO))
    (htype : header.type_ = packetTypeProposalChunk) :
    Refines P wraps (Delivers P s packet) (receiveChunk P header.type_ packet readO)
      (fun _ s' => Listened P wraps s s') s := by
  unfold receiveChunk
  refine get_bind (lift_bind fun carried hmsg => ?_)
  cases carried with
  | none => exact pure (.refl h)
  | some m =>
    have hm : Carries P s.roster.members packet m := .chunk hread htype hmsg
    exact carried_refines h hm fun member hacc => ⟨hm, member, hacc, rfl⟩

theorem receiveVotes_refines (h : Inv P wraps s)
    (hread : readHeaderAndMaybeStatus packet = some (header, status, readO))
    (htype : header.type_ = packetTypePrevoteSignatures ∨ header.type_ = packetTypePrecommitSignatures) :
    Refines P wraps (Delivers P s packet) (receiveVotes P header.type_ packet readO)
      (fun _ s' => Listened P wraps s s') s := by
  unfold receiveVotes
  refine lift_bind fun carried hvotes => ?_
  cases carried with
  | none => exact pure (.refl h)
  | some votes =>
    refine lift_bind fun n hn => forM _ (.refl h) fun voteI _ s₁ hs₁ => ?_
    unfold receiveVote
    refine get_bind (lift_bind fun carried hmsg => ?_)
    cases carried with
    | none => exact pure hs₁
    | some m =>
      have hm : Carries P s₁.roster.members packet m := .vote hread htype hvotes hmsg
      have hheard : ∀ member, Accepted P s₁ m member → Delivers P s packet m member.pubKey := fun member hacc =>
        ⟨hs₁.roster ▸ hm, member, ⟨hacc.height.trans hs₁.height, hs₁.roster ▸ hacc.active, hs₁.roster ▸ hacc.here,
          hacc.verify⟩, rfl⟩
      exact (carried_refines hs₁.inv hm hheard).mono fun _ _ _ h' =>
        ⟨h'.inv, h'.roster.trans hs₁.roster, h'.height.trans hs₁.height⟩

theorem receive_refines (packet : List UInt8) (h : Inv P wraps s) :
    Refines P wraps (Delivers P s packet) (receive P packet) (fun _ s' => Listened P wraps s s') s := by
  unfold receive
  refine ite (fun _ => pure (.refl h)) fun _ => ?_
  split
  · exact pure (.refl h)
  · rename_i header status readO hread
    refine ite (fun htype => receiveChunk_refines h hread htype) fun _ => ?_
    exact ite (fun htype => receiveVotes_refines h hread htype) fun _ => pure (.refl h)

/-! ### Runs of one node -/

def chunkPacket (hdr : PacketProposalChunkHeader) (data : List UInt8) (sig : TMSig) : List UInt8 :=
  PacketHeader.writeTo ⟨packetTagStatusFlag + packetTypeProposalChunk⟩ ++ List.replicate 28 0 ++ hdr.writeTo ++ data ++
    sig.bytes.toList

/-- A packet with one vote of the member at `rosterI`, without a status. -/
def votePacket (isPrecommit : Bool) (height round : ℕ) (valueId : ValueId) (rosterI : ℕ) (sig : TMSig) : List UInt8 :=
  PacketHeader.writeTo ⟨if isPrecommit then packetTypePrecommitSignatures else packetTypePrevoteSignatures⟩ ++
    PacketVotes.writeTo ⟨0, 1, round, height, valueId, [⟨rosterI, sig⟩]⟩

def heardIn (P : Params) (s : TMState) : Input → Msg → PubKeyID → Prop
  | .recv packet => Delivers P s packet
  | .tick _ => fun _ _ => False

/-- The round counter does not wrap in this step. -/
def NoWrap (P : Params) (s : TMState) : Input → Prop
  | .recv _ => True
  | .tick _ => P.overflowChecks = true ∨ s.round + 1 < 2 ^ 32

theorem handle_refines (input : Input) (h : Inv P wraps s) (hcalm : ¬ wraps → NoWrap P s input) :
    Refines P wraps (heardIn P s input) (handle P cl input) (fun _ s' => Inv P wraps s') s := by
  cases input with
  | recv packet => exact (receive_refines packet h).mono fun _ _ _ h' => h'.inv
  | tick now => exact bftUpdate_refines h hcalm

/-- How a node that started from `s₀` can stand: after `start_round`, and after each further input that
`Ok` allows. Nothing follows a panic. -/
inductive Reaches (P : Params) (cl : Closures) (Ok : TMState → Input → Prop) (s₀ : TMState) (now₀ : Instant) :
    EStateM.Result Panic TMState Unit → Prop where
  | start : Reaches P cl Ok s₀ now₀ (startRound P cl now₀ 0 s₀)
  | step {s : TMState} (input : Input) (hr : Reaches P cl Ok s₀ now₀ (.ok () s)) (hok : Ok s input) :
      Reaches P cl Ok s₀ now₀ (handle P cl input s)

def endState : EStateM.Result Panic TMState Unit → TMState
  | .ok _ s => s
  | .error _ s => s

/-- The node stands at `s`, or panicked where an outside observer cannot tell it from `s`. -/
inductive StandsAt : EStateM.Result Panic TMState Unit → TMState → Prop where
  | running (s : TMState) : StandsAt (.ok () s) s
  | panicked (e : Panic) {s s' : TMState} (h : SameTrace s s') : StandsAt (.error e s') s

theorem StandsAt.sameTrace (h : StandsAt r s) : SameTrace s (endState r) := by
  cases h with
  | running => exact ⟨rfl, rfl, rfl, rfl⟩
  | panicked e hsame => exact hsame

theorem Refines.standsAt (h : Refines P wraps Heard m Q s) :
    ∃ s', Moves P wraps Heard s s' ∧ StandsAt (m s) s' := by
  have hrun := h.run
  unfold wp at hrun
  cases hm : m s with
  | ok _ s' =>
    rw [hm] at hrun
    exact ⟨s', hrun.1, .running s'⟩
  | error e s' =>
    rw [hm] at hrun
    obtain ⟨s₁, hmoves, hsame⟩ := hrun
    exact ⟨s₁, hmoves, .panicked e hsame⟩

theorem init_inv (mySigningKey : SigningKey) (roster : SortedRoster) (startup : List RoundData) :
    Inv P wraps (TMState.init P mySigningKey roster startup) := by
  have hrecords : ∀ d, d ∉ (TMState.init P mySigningKey roster startup).roundsData := fun _ => not_mem_nil
  have hsigned : ∀ e, e ∉ (TMState.init P mySigningKey roster startup).signed := fun _ => not_mem_nil
  refine ⟨⟨.nil, fun d hd => absurd hd (hrecords d), fun d hd => absurd hd (hrecords d),
    fun d hd => absurd hd (hrecords d)⟩, fun _ => ⟨fun e he => absurd he (hsigned e), .nil, ?_, ?_, ?_⟩⟩
  · exact fun _ e he => absurd he (hsigned e)
  · exact fun _ valueId => hsigned _
  · exact fun _ => ⟨[], 0, fun hdr data he => absurd he (hsigned _)⟩

/-- A run by its inputs; it stops at the first panic. -/
def life (P : Params) (cl : Closures) (now₀ : Instant) (inputs : List Input) : NodeM Unit := do
  startRound P cl now₀ 0
  inputs.forM (handle P cl)

theorem Reaches.bind {m k : NodeM Unit} (h : Reaches P cl Ok s₀ now₀ (m s))
    (hk : ∀ s', m s = .ok () s' → Reaches P cl Ok s₀ now₀ (.ok () s') → Reaches P cl Ok s₀ now₀ (k s')) :
    Reaches P cl Ok s₀ now₀ ((m >>= fun _ => k) s) := by
  simp only [Bind.bind, EStateM.bind]
  cases hrun : m s with
  | ok _ s' => exact hk s' hrun (hrun ▸ h)
  | error e s' => rwa [hrun] at h

/-- The condition `ok` holds at every input of a run, as far as it goes. -/
def lifeOk (P : Params) (cl : Closures) (ok : TMState → Input → Bool) :
    List Input → EStateM.Result Panic TMState Unit → Bool
  | input :: inputs, .ok _ s => ok s input && lifeOk P cl ok inputs (handle P cl input s)
  | _, _ => true

theorem reaches_life_of (hok : ∀ s input, ok s input = true → Ok s input)
    (h : lifeOk P cl ok inputs (startRound P cl now₀ 0 s₀) = true) :
    Reaches P cl Ok s₀ now₀ (life P cl now₀ inputs s₀) := by
  refine Reaches.bind .start fun s hstart => ?_
  rw [hstart] at h
  clear hstart
  induction inputs generalizing s with
  | nil => exact id
  | cons input inputs ih =>
    obtain ⟨hinput, hrest⟩ := Bool.and_eq_true_iff.mp h
    refine fun hs => (hs.step input (hok s input hinput)).bind fun s' hrun => ih s' ?_
    rwa [hrun] at hrest

theorem reaches_life (hok : ∀ s input, Ok s input) (s₀ : TMState) (now₀ : Instant) (inputs : List Input) :
    Reaches P cl Ok s₀ now₀ (life P cl now₀ inputs s₀) := by
  refine Reaches.bind .start fun s hstart => ?_
  clear hstart
  induction inputs generalizing s with
  | nil => exact id
  | cons input inputs ih => exact fun h => (h.step input (hok s input)).bind fun s' _ => ih s'

theorem Reaches.invariant (wraps : Prop) {I : TMState → Prop} (h : Reaches P cl Ok s₀ now₀ r) (hinv : Inv P wraps s₀)
    (hnone : s₀.signed = []) (hcalm : ¬ wraps → ∀ s input, Ok s input → NoWrap P s input)
    (hstart : ∀ s, Moves P wraps (fun _ _ => False) s₀ s → I s)
    (hstep : ∀ s input s', Ok s input → Inv P wraps s → I s → Moves P wraps (heardIn P s input) s s' → I s') :
    ∃ s, StandsAt r s ∧ Inv P wraps s ∧ I s := by
  induction h with
  | start =>
    have hnew : ¬ wraps → ∀ e ∈ s₀.signed, KeyLt e.key (s₀.height, 0) := by
      intro _ e he
      rw [hnone] at he
      cases he
    have hrefines : Refines P wraps (fun _ _ => False) (startRound P cl now₀ 0) _ s₀ := startRound_refines hinv hnew
    obtain ⟨s, hmoves, hs⟩ := hrefines.standsAt
    exact ⟨s, hs, hmoves.inv hinv, hstart s hmoves⟩
  | step input _ hok ih =>
    obtain ⟨s, hs, hinv₁, hI⟩ := ih
    cases hs
    have hrefines : Refines P wraps _ (handle P cl input) _ _ := handle_refines input hinv₁ fun hw => hcalm hw _ _ hok
    obtain ⟨s', hmoves, hs'⟩ := hrefines.standsAt
    exact ⟨s', hs', hmoves.inv hinv₁, hstep _ input s' hok hinv₁ hI hmoves⟩

end Crosslink.Tenderlink

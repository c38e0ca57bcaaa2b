import Mathlib.Logic.Relation
import Crosslink.Tenderlink.Records

/-!
# The moves of a node

`Move` lists every change a node can make to its state, each with the facts that hold when the code
makes it: which votes justify a lock, when a vote may be signed, what a decision rests on. The code is
shown to make only such moves (`Refine`); every invariant is then proved once, move by move.

A move is relative to the messages that may be heard from others (`Heard`) and to whether the round
counter may have wrapped around (`wraps`), after which nothing is known about what was signed before.
-/

namespace Crosslink.Tenderlink

open Codec Fallible Search

/-! ### Order of heights and rounds -/

def KeyLt (a b : ℕ × ℕ) : Prop := a.1 < b.1 ∨ (a.1 = b.1 ∧ a.2 < b.2)

def KeyLe (a b : ℕ × ℕ) : Prop := a.1 < b.1 ∨ (a.1 = b.1 ∧ a.2 ≤ b.2)

theorem KeyLt.le (h : KeyLt a b) : KeyLe a b := by
  unfold KeyLt at h
  unfold KeyLe
  omega

theorem KeyLe.trans_lt (h : KeyLe a b) (h' : KeyLt b c) : KeyLt a c := by
  unfold KeyLt KeyLe at *
  omega

theorem KeyLt.ne (h : KeyLt a b) : a ≠ b := by
  rintro rfl
  unfold KeyLt at h
  omega

instance : IsTrans RoundData (fun a b => KeyLt a.key b.key) where
  trans _ _ _ h h' := h.le.trans_lt h'

theorem keyCmp_eq : TMState.keyCmp k d = .eq ↔ d.key = k := by
  obtain ⟨h, r⟩ := k
  simp [TMState.keyCmp, RoundData.key, Ordering.then_eq_eq]

theorem keyCmp_lt : TMState.keyCmp k d = .lt ↔ KeyLt d.key k := by
  obtain ⟨h, r⟩ := k
  simp [TMState.keyCmp, RoundData.key, KeyLt, Ordering.then_eq_lt, Nat.compare_eq_lt]

theorem keyCmp_gt : TMState.keyCmp k d = .gt ↔ KeyLt k d.key := by
  obtain ⟨h, r⟩ := k
  simp only [TMState.keyCmp, RoundData.key, KeyLt, Ordering.then_eq_gt, Nat.compare_eq_gt, compare_eq_iff_eq]
  omega

/-! ### Signed statements and messages -/

namespace Signed

def key : Signed → ℕ × ℕ
  | .chunk hdr _ => (hdr.height, hdr.round)
  | .vote _ height round _ => (height, round)

def IsVote : Signed → Prop
  | .chunk _ _ => False
  | .vote _ _ _ _ => True

/-- The statement is a chunk of this value, proposed with this valid round. -/
def IsChunkOf (P : Params) (value : BlockValue) (validRound : ℤ) : Signed → Prop
  | .chunk hdr data =>
    hdr = chunkHeader P hdr.height hdr.round value validRound hdr.chunkI ∧
      data = (value.drop (hdr.chunkI * proposalChunkDataSize)).take proposalChunkDataSize
  | .vote _ _ _ _ => False

def Covers : Signed → Msg → Prop
  | .chunk hdr data, m =>
    m.packetType = packetTypeProposalChunk ∧ m.signedData = hdr.writeTo ++ data ∧ m.height = hdr.height ∧
      m.round = hdr.round ∧ m.chunkI = hdr.chunkI ∧ m.valueId = hdr.proposalId ∧ m.validRound = hdr.validRound
  | .vote isPrecommit height round valueId, m =>
    m.packetType = (if isPrecommit then packetTypePrecommitSignatures else packetTypePrevoteSignatures) ∧
      m.height = height ∧ m.round = round ∧ m.valueId = valueId

instance : (e : Signed) → (m : Msg) → Decidable (e.Covers m)
  | .chunk _ _, _ => inferInstanceAs (Decidable (_ ∧ _))
  | .vote _ _ _ _, _ => inferInstanceAs (Decidable (_ ∧ _))

end Signed

/-- How the receive path and `broadcast` build a message from a member: a vote comes with the bytes a
vote of that member signs, a chunk only from the proposer of its round. -/
structure Formed (P : Params) (R : SortedRoster) (member : SortedRosterMember) (m : Msg) : Prop where
  vote : ∀ isPrecommit : Bool,
    m.packetType = (if isPrecommit then packetTypePrecommitSignatures else packetTypePrevoteSignatures) →
      ∃ word, voteRoundWord P isPrecommit m.round = .ok word ∧
        m.signedData = voteBytes member.pubKey m.valueId m.height word
  chunk : m.packetType = packetTypeProposalChunk →
    ∃ i, proposerFromHeightRound P R.members m.height m.round = .ok (i, member.pubKey)

/-! ### Moves -/

def TMState.setRound (s : TMState) (i : ℕ) (d : RoundData) : TMState :=
  { s with roundsData := s.roundsData.set i d }

/-- The record at index `i` has reached the big threshold in the count `k`. -/
def ReachesBig (P : Params) (s : TMState) (d : RoundData) (k : CountKind) : Prop :=
  ∃ th, thresholdsOf P s.roster.members = .ok th ∧ th.big ≤ d.counts.get k

/-- What allows a prevote: nil always, the proposal when it is valid and the lock does not forbid it. -/
def MayPrevote (P : Params) (s : TMState) (d : RoundData) (valueId : ValueId) : Prop :=
  valueId = ValueId.nil ∨
    (valueId = d.proposalId ∧ d.proposalCheckedValidity.1 = .pass ∧
      (s.lockedValueRound.2 = -1 ∨ s.lockedValueRound.1 = some d.proposal ∨ ReachesBig P s d .yesPrevote))

/-- One change of a node's state. -/
inductive Move (P : Params) (wraps : Prop) (Heard : Msg → PubKeyID → Prop) (s : TMState) : TMState → Prop where
  | call : Move P wraps Heard s { s with calls := s.calls + 1 }
  | insert (i round : ℕ) (hi : s.searchRound (s.height, round) = .vacant i) :
      Move P wraps Heard s
        { s with roundsData := s.roundsData.insertIdx i (emptyRound s.height round s.roster.members) }
  | hear (i : ℕ) (d d' : RoundData) (m : Msg) (member : SortedRosterMember) (hd : s.roundsData[i]? = some d)
      (hkey : d.key = (s.height, m.round)) (hheight : m.height = s.height)
      (hactive : m.rosterI < activeRosterLen s.roster.members)
      (hmember : s.roster.members[m.rosterI]? = some member)
      (hverify : P.verify m.sig member.pubKey m.signedData = true) (hformed : Formed P s.roster member m)
      (hsource : Heard m member.pubKey ∨ (member.pubKey = s.myPubKey ∧ m.sig = P.sign s.mySigningKey m.signedData ∧
        ∃ e ∈ s.signed, e.Covers m))
      (hstep : RecordStep P s.roster (member.pubKey = s.myPubKey) m d d') :
      Move P wraps Heard s (s.setRound i d')
  | check (i : ℕ) (d : RoundData) (verdict : TMStatus × TMStatusReason) (hd : s.roundsData[i]? = some d)
      (hopen : d.proposalCheckedValidity.1 = .indeterminate)
      (hverdict : (d.proposalIsFaulty = true ∧ verdict.1 = .fail) ∨
        (d.proposalIsFaulty = false ∧ d.hasFullProposal = true)) :
      Move P wraps Heard s (s.setRound i { d with proposalCheckedValidity := verdict })
  | timeout (i : ℕ) (d : RoundData) (t : Timeout) (triggered : Bool × Bool) (hd : s.roundsData[i]? = some d)
      (ht : (t.height, t.round) = d.key) :
      Move P wraps Heard s
        (s.setRound i { d with activeTimeout := some t, timeoutTriggered := triggered })
  | enter (round : ℕ) (hnew : ¬ wraps → ∀ e ∈ s.signed, KeyLt e.key (s.height, round)) :
      Move P wraps Heard s { s with round }
  | toPropose (hnone : ¬ wraps → ∀ e ∈ s.signed, e.IsVote → e.key ≠ (s.height, s.round)) :
      Move P wraps Heard s { s with step := .propose }
  | signChunk (value : BlockValue) (validRound : ℤ) (hdr : PacketProposalChunkHeader) (data : List UInt8)
      (hkey : (hdr.height, hdr.round) = (s.height, s.round))
      (hchunk : (Signed.chunk hdr data).IsChunkOf P value validRound)
      (hsame : ¬ wraps → ∀ hdr' data', Signed.chunk hdr' data' ∈ s.signed →
        (hdr'.height, hdr'.round) = (s.height, s.round) →
          (Signed.chunk hdr' data').IsChunkOf P value validRound) :
      Move P wraps Heard s { s with signed := .chunk hdr data :: s.signed }
  | prevote (i : ℕ) (d : RoundData) (valueId : ValueId) (hd : s.roundsData[i]? = some d)
      (hkey : d.key = (s.height, s.round)) (hstep : s.step = .propose) (hmay : MayPrevote P s d valueId) :
      Move P wraps Heard s
        { s with signed := .vote false s.height s.round valueId :: s.signed, step := .prevote }
  | precommitNil (hstep : s.step = .prevote) :
      Move P wraps Heard s
        { s with signed := .vote true s.height s.round ValueId.nil :: s.signed, step := .precommit }
  | precommit (i : ℕ) (d : RoundData) (hd : s.roundsData[i]? = some d) (hkey : d.key = (s.height, s.round))
      (hstep : s.step = .prevote) (hvalid : d.proposalCheckedValidity.1 = .pass)
      (hbig : ReachesBig P s d .yesPrevote) :
      Move P wraps Heard s
        { s with
          signed := .vote true s.height s.round d.proposalId :: s.signed
          step := .precommit
          lockedValueRound := (some d.proposal, s.round) }
  | setValid (v : Option BlockValue × ℤ) : Move P wraps Heard s { s with validValueRound := v }
  | push (i : ℕ) (d : RoundData) (fatPointer : FatPointerToBftBlock) (hd : s.roundsData[i]? = some d)
      (hheight : d.height = s.height) (hvalid : d.proposalCheckedValidity.1 = .pass)
      (hbig : ReachesBig P s d .yesPrecommit)
      (hfat : roundDataToFatPointer P d s.roster.members = .ok fatPointer) :
      Move P wraps Heard s
        { s with pushed := ⟨s.roster, d, d.proposal, fatPointer, d.proposalSigs⟩ :: s.pushed }
  | newHeight (roster : SortedRoster) (d : RoundData)
      (hpushed : ∃ dec ∈ s.pushed, dec.roster = s.roster ∧ dec.roundData.height = s.height)
      (hd : d ∈ s.roundsData) (hheight : d.height = s.height) :
      Move P wraps Heard s
        { s with
          roster
          height := s.height + 1
          recentCommitRoundCache := s.recentCommitRoundCache ++ [d]
          roundsData := s.roundsData.filter fun r => r.height < s.height + 1
          lockedValueRound := (none, -1)
          validValueRound := (none, -1) }

abbrev Moves (P : Params) (wraps : Prop) (Heard : Msg → PubKeyID → Prop) : TMState → TMState → Prop :=
  Relation.ReflTransGen (Move P wraps Heard)

end Crosslink.Tenderlink

import Crosslink.Tenderlink.ChunkGossip
import Crosslink.Tenderlink.Turns

/-!
# Catching up with a decided round

A node that is behind hears, in any order, the chunks of a value and precommits for it from members with enough stake,
all of one round of its height. The record of the round takes them in as long as nothing in it contradicts them, and
then the next tick decides the value. A record that has already seen a chunk of another value does not change its
mind.
-/

namespace Crosslink.Tenderlink

open Codec Fallible Search List PacketProposalChunkHeader

variable {P : Params} {R : SortedRoster} {s s' : TMState} {d d' : RoundData} {m : Msg}

/-! ### What is delivered -/

/-- A value with the signatures of its chunks, and precommits for it: all of one round. The proposer and the voters
are indices into the roster. -/
structure Supply where
  height : ℕ
  round : ℕ
  value : BlockValue
  validRound : ℤ
  proposer : ℕ
  chunkSig : ℕ → TMSig
  voters : Finset ℕ
  voteSig : ℕ → TMSig

inductive Part where
  | chunk (i : ℕ)
  | precommit (rosterI : ℕ)
  deriving DecidableEq

namespace Supply

variable (P) (R) (S : Supply)

def valueId : ValueId := idFromValue P S.value

def header (i : ℕ) : PacketProposalChunkHeader := chunkHeader P S.height S.round S.value S.validRound i

def chunkBytes (i : ℕ) : List UInt8 := (S.header P i).writeTo ++ chunkData S.value i

def precommitBytes (rosterI : ℕ) : List UInt8 :=
  voteBytes (keyAt R.members rosterI) (S.valueId P) S.height ((S.round + 2 ^ 31) % 2 ^ 32)

def msg : Part → Msg
  | .chunk i => ⟨S.height, S.round, i, S.valueId P, S.validRound, S.proposer, packetTypeProposalChunk,
      S.chunkBytes P i, S.chunkSig i⟩
  | .precommit rosterI => ⟨S.height, S.round, 0, S.valueId P, -2, rosterI, packetTypePrecommitSignatures,
      S.precommitBytes P R rosterI, S.voteSig rosterI⟩

def Includes : Part → Prop
  | .chunk i => i < chunksN S.value
  | .precommit rosterI => rosterI ∈ S.voters

/-- The signatures verify, and none of them, nor the id of the value, looks like a missing one. -/
structure Valid : Prop where
  value : S.value ≠ []
  valueId : S.valueId P ≠ ValueId.nil
  fits : ∀ i < chunksN S.value, (S.header P i).Fits
  proposer : proposerFromHeightRound P R.members S.height S.round = .ok (some S.proposer, keyAt R.members S.proposer)
  chunk : ∀ i < chunksN S.value, S.chunkSig i ≠ TMSig.nil ∧
    P.verify (S.chunkSig i) (keyAt R.members S.proposer) (S.chunkBytes P i) = true
  precommit : ∀ j ∈ S.voters, j < activeRosterLen R.members ∧ S.voteSig j ≠ TMSig.nil ∧
    P.verify (S.voteSig j) (keyAt R.members j) (S.precommitBytes P R j) = true

def Holds (d : RoundData) : Part → Prop
  | .chunk i => d.proposalSigs[i]? = some (S.chunkSig i)
  | .precommit rosterI => (slotAt d.msgValSigs rosterI).precommit = (S.valueId P, S.voteSig rosterI)

/-- Nothing in the record contradicts the value or the precommits. -/
structure Compatible (d : RoundData) : Prop where
  announced : (d.proposalSigsN = 0 ∧ (d.proposalId = ValueId.nil ∨ d.proposalId = S.valueId P)) ∨
    (0 < d.proposalSigsN ∧ d.proposal.length = S.value.length ∧ d.proposalId = S.valueId P ∧
      d.proposalValidRound = S.validRound)
  chunks : ∀ i sig, d.proposalSigs[i]? = some sig →
    sig = TMSig.nil ∨ sig = S.chunkSig i ∧ chunkData d.proposal i = chunkData S.value i
  count : d.proposalSigsN = d.proposalSigs.countP fun sig => sig ≠ TMSig.nil
  sound : d.proposalIsFaulty = false
  verdict : d.proposalCheckedValidity.1 ≠ .fail
  precommits : ∀ j ∈ S.voters, (slotAt d.msgValSigs j).precommit.2 = TMSig.nil ∨ S.Holds P d (.precommit j)

end Supply

variable {S : Supply}

/-! ### One part -/

theorem chunk_getElem? (value : BlockValue) (x : ℕ) :
    (chunkData value (x / proposalChunkDataSize))[x % proposalChunkDataSize]? = value[x]? := by
  have hlt : x % proposalChunkDataSize < proposalChunkDataSize := Nat.mod_lt x (by decide)
  rw [chunkData, getElem?_take_of_lt hlt, getElem?_drop, Nat.mul_comm, Nat.div_add_mod]

theorem Supply.Compatible.complete (hc : S.Compatible P d) (hd : Shape R d) (hfull : d.hasFullProposal = true) :
    d.proposal = S.value := by
  obtain ⟨hpos, hn⟩ := hasFullProposal_iff.mp hfull
  rcases hc.announced with ⟨hzero, -⟩ | ⟨-, hlen, -, -⟩
  · omega
  apply ext_getElem?
  intro x
  by_cases hx : x < d.proposal.length
  · have hchunk : x / proposalChunkDataSize < d.proposalSigs.length := by
      rw [hd.sigs, lt_chunksN_iff]
      have := Nat.div_mul_le_self x proposalChunkDataSize
      omega
    have hall := hc.count.symm.trans hn
    rw [countP_eq_length] at hall
    have hsig := hall _ (getElem_mem hchunk)
    rcases hc.chunks _ _ (getElem?_eq_getElem hchunk) with hnil | ⟨-, hdata⟩
    · simp [hnil] at hsig
    · rw [← chunk_getElem? d.proposal x, ← chunk_getElem? S.value x, hdata]
  · rw [getElem?_eq_none (by omega), getElem?_eq_none (by omega)]

theorem Supply.Compatible.checkFullProposal (hc : S.Compatible P d) (hd : Shape R d)
    (hpos : 0 < d.proposalSigsN) : checkFullProposal P d = (d, .pass) := by
  rw [Tenderlink.checkFullProposal, if_neg]
  rintro ⟨hn, hid⟩
  rcases hc.announced with ⟨hzero, -⟩ | ⟨-, -, hvalueId, -⟩
  · omega
  · rw [hc.complete hd (hasFullProposal_iff.mpr ⟨hpos, hn⟩)] at hid
    exact hid hvalueId

theorem Supply.read_chunkBytes (hS : S.Valid P R) (hi : i < chunksN S.value) :
    PacketProposalChunkHeader.readFrom (S.chunkBytes P i) = some (S.header P i, chunkData S.value i) :=
  PacketProposalChunkHeader.readFrom_eq_some.mpr ⟨hS.fits i hi, rfl⟩

theorem Supply.Compatible.base (hc : S.Compatible P d) (isMyProposal : Bool) (i : ℕ) :
    ∃ b, chunkBase R isMyProposal (S.msg P R (.chunk i)) (S.header P i) d = some b ∧ S.Compatible P b ∧
      b.proposal.length = S.value.length ∧ ∀ p, S.Includes p → S.Valid P R → S.Holds P d p → S.Holds P b p := by
  rcases hc.announced with ⟨hzero, hid⟩ | ⟨hpos, hlen, hid, hvalid⟩
  · refine ⟨d.resetProposal S.value.length, ?_, ⟨.inl ⟨hzero, hid⟩, ?_, ?_, hc.sound, hc.verdict, hc.precommits⟩,
      length_replicate, ?_⟩
    · rw [chunkBase, if_neg (by omega)]
      rfl
    · intro k sig hk
      exact .inl (getElem?_resetProposal hk)
    · rw [eq_comm, show (d.resetProposal S.value.length).proposalSigsN = 0 from hzero, countP_eq_zero]
      intro sig hsig
      simp [eq_of_mem_replicate hsig]
    · intro p hp hS hholds
      cases p with
      | precommit j => exact hholds
      | chunk k =>
        -- before the first chunk no chunk is stored
        have hnone := hc.count.symm.trans hzero
        rw [countP_eq_zero] at hnone
        exact absurd (hS.chunk k hp).1 (by simpa using hnone _ (mem_of_getElem? hholds))
  · refine ⟨d, ?_, hc, hlen, fun _ _ _ h => h⟩
    rw [chunkBase, if_pos hpos, if_pos ⟨hlen, hid, hvalid⟩]

theorem adopt_precommit (R : SortedRoster) (d : RoundData) (valueId : ValueId) (j : ℕ) :
    (slotAt (adopt R d valueId).msgValSigs j).precommit = (slotAt d.msgValSigs j).precommit ∨
      (slotAt d.msgValSigs j).precommit.isFault valueId = true ∧
        (slotAt (adopt R d valueId).msgValSigs j).precommit = ValSig.nil := by
  unfold adopt
  split
  · change (slotAt (d.msgValSigs.map (VoteSlots.purge valueId)) j).precommit = _ ∨ _ ∧
      (slotAt (d.msgValSigs.map (VoteSlots.purge valueId)) j).precommit = _
    rw [slotAt_purge]
    by_cases hfault : (slotAt d.msgValSigs j).precommit.isFault valueId = true
    · exact .inr ⟨hfault, if_pos hfault⟩
    · exact .inl (if_neg hfault)
  · exact .inl rfl

theorem Supply.Holds.adopt {j : ℕ} (h : S.Holds P d (.precommit j)) :
    S.Holds P (adopt R d (S.valueId P)) (.precommit j) := by
  rcases adopt_precommit R d (S.valueId P) j with hsame | ⟨hfault, -⟩
  · exact hsame.trans h
  · rw [show (slotAt d.msgValSigs j).precommit = _ from h] at hfault
    simp [ValSig.isFault] at hfault

theorem withChunk_data (hS : S.Valid P R) (hi : i < chunksN S.value) (hlen : d.proposal.length = S.value.length)
    (k : ℕ) :
    (withChunk (S.msg P R (.chunk i)) d).proposal.length = S.value.length ∧
      chunkData (withChunk (S.msg P R (.chunk i)) d).proposal k =
        if k = i then chunkData S.value i else chunkData d.proposal k := by
  have hoff := (lt_chunksN_iff _ _).mp hi
  have hsize : chunkSizeAt d i = (chunkData S.value i).length := by
    rw [chunkSizeAt, chunkData_length, hlen]
  have hdata : ((S.chunkBytes P i).drop serializedSize).take (chunkSizeAt d i) =
      chunkData S.value i := by
    rw [Supply.chunkBytes, drop_left' (writeTo_length _), hsize, take_length]
  have hproposal : (withChunk (S.msg P R (.chunk i)) d).proposal = d.proposal.take (i * proposalChunkDataSize) ++
      chunkData S.value i ++ d.proposal.drop (i * proposalChunkDataSize + (chunkData S.value i).length) := by
    rw [← hdata]
    rfl
  have hdlen : (chunkData S.value i).length = min proposalChunkDataSize (d.proposal.length - i * proposalChunkDataSize) := by
    rw [chunkData_length, hlen]
  rw [hproposal]
  refine ⟨?_, chunkData_splice (by omega) hdlen k⟩
  simp only [length_append, length_take, length_drop]
  omega

theorem adopt_announced (R : SortedRoster) (h : d.proposalId = ValueId.nil ∨ d.proposalId = valueId) :
    (adopt R d valueId).proposalId = valueId ∧ (adopt R d valueId).proposalValidRound = d.proposalValidRound ∧
      (adopt R d valueId).proposalIsFaulty = d.proposalIsFaulty := by
  unfold adopt
  split
  · exact ⟨rfl, rfl, rfl⟩
  · rename_i hne
    exact ⟨h.resolve_left hne, rfl, rfl⟩

theorem Supply.Compatible.store (hS : S.Valid P R) (hi : i < chunksN S.value) (hc : S.Compatible P d)
    (hlen : d.proposal.length = S.value.length) (hnew : d.proposalSigs[i]? = some TMSig.nil)
    (hd' : d' = adopt R (withChunk (S.msg P R (.chunk i)) d) (S.valueId P)) :
    S.Compatible P d' ∧ S.Holds P d' (.chunk i) ∧ ∀ p, S.Includes p → S.Holds P d p → S.Holds P d' p := by
  obtain ⟨hp, hs, hn, hv⟩ := adopt_proposal R (withChunk (S.msg P R (.chunk i)) d) (S.valueId P)
  rw [← hd'] at hp hs hn hv
  have hlt := (List.getElem?_eq_some_iff.mp hnew).1
  have hsigs : ∀ k, d'.proposalSigs[k]? = if k = i then some (S.chunkSig i) else d.proposalSigs[k]? := by
    intro k
    rw [hs]
    change (d.proposalSigs.set i (S.chunkSig i))[k]? = _
    rw [List.getElem?_set]
    by_cases hk : k = i
    · rw [if_pos hk.symm, if_pos hk, if_pos hlt]
    · rw [if_neg (Ne.symm hk), if_neg hk]
  have hid : d.proposalId = ValueId.nil ∨ d.proposalId = S.valueId P := by
    rcases hc.announced with ⟨-, hid⟩ | ⟨-, -, hid, -⟩
    · exact hid
    · exact .inr hid
  have hid : (withChunk (S.msg P R (.chunk i)) d).proposalId = ValueId.nil ∨
      (withChunk (S.msg P R (.chunk i)) d).proposalId = S.valueId P := hid
  obtain ⟨hid', hvalid', hsound'⟩ := adopt_announced R hid
  rw [← hd'] at hid' hvalid' hsound'
  have hvotes : ∀ j, S.Holds P d (.precommit j) → S.Holds P d' (.precommit j) := by
    intro j hj
    rw [hd']
    exact Supply.Holds.adopt (d := withChunk (S.msg P R (.chunk i)) d) hj
  refine ⟨⟨.inr ⟨?_, ?_, hid', hvalid'⟩, ?_, ?_, hsound'.trans hc.sound, ?_, ?_⟩, ?_, ?_⟩
  · rw [hn]
    exact Nat.succ_pos _
  · rw [hp]
    exact (withChunk_data hS hi hlen i).1
  · intro k sig hk
    rw [hp, (withChunk_data hS hi hlen k).2]
    rw [hsigs] at hk
    by_cases hki : k = i
    · rw [if_pos hki] at hk
      rw [if_pos hki, hki]
      exact .inr ⟨(Option.some.inj hk).symm, rfl⟩
    · rw [if_neg hki] at hk
      rw [if_neg hki]
      exact hc.chunks k sig hk
  · rw [hn, hs]
    change d.proposalSigsN + 1 = (d.proposalSigs.set i (S.chunkSig i)).countP _
    rw [countP_set_nil hnew (hS.chunk i hi).1, hc.count]
  · rw [hv]
    exact hc.verdict
  · intro j hj
    rcases hc.precommits j hj with hnil | hholds
    · rcases adopt_precommit R (withChunk (S.msg P R (.chunk i)) d) (S.valueId P) j with hsame | ⟨-, hempty⟩
      · exact .inl (by rw [hd', hsame]; exact hnil)
      · exact .inl (by rw [hd', hempty]; rfl)
    · exact .inr (hvotes j hholds)
  · exact (hsigs i).trans (if_pos rfl)
  · intro p hp hholds
    cases p with
    | precommit j => exact hvotes j hholds
    | chunk k =>
      by_cases hki : k = i
      · subst hki
        exact (hsigs k).trans (if_pos rfl)
      · exact (hsigs k).trans ((if_neg hki).trans hholds)

theorem Supply.Compatible.chunk (hS : S.Valid P R) (hi : i < chunksN S.value) (hd : Shape R d) (hc : S.Compatible P d)
    (hseen : seen = true ∨ d.proposalSigsN = 0) (isMyProposal : Bool) :
    ∃ d' status, incorporate P R.members seen isMyProposal (S.msg P R (.chunk i)) d = .ok (d', status) ∧
      S.Compatible P d' ∧ S.Holds P d' (.chunk i) ∧ ∀ p, S.Includes p → S.Holds P d p → S.Holds P d' p := by
  obtain ⟨b, hbase, hcb, hlen, hkeep⟩ := hc.base (R := R) isMyProposal i
  have hb : Shape R b := hd.chunkBase hbase
  have hin : i < b.proposalSigs.length := by
    rw [hb.sigs, chunksN, hlen]
    exact hi
  have hdata : serializedSize + chunkSizeAt b i ≤ (S.chunkBytes P i).length := by
    rw [Supply.chunkBytes, length_append, writeTo_length, chunkData_length, chunkSizeAt, hlen]
  have hstore : incorporate P R.members seen isMyProposal (S.msg P R (.chunk i)) d =
      .ok (storeResult P R isMyProposal (S.msg P R (.chunk i)) (S.header P i) b) := by
    rw [incorporate, if_pos (show (S.msg P R (.chunk i)).packetType = packetTypeProposalChunk from rfl),
      incorporateChunk_eq hseen (S.read_chunkBytes hS hi), hbase]
    exact storeChunk_eq hb hin hdata
  obtain ⟨sig, hsig⟩ : ∃ sig, b.proposalSigs[i]? = some sig := ⟨_, getElem?_eq_getElem hin⟩
  rcases hcb.chunks i sig hsig with rfl | ⟨rfl, -⟩
  · obtain ⟨hc', hholds, hkeep'⟩ := hcb.store hS hi hlen hsig rfl
    have hshape : Shape R (adopt R (withChunk (S.msg P R (.chunk i)) b) (S.valueId P)) :=
      (hb.withChunk (S.msg P R (.chunk i)) hin hdata).adopt _
    refine ⟨_, .pass, ?_, hc', hholds, fun p hp h => hkeep' p hp (hkeep p hp hS h)⟩
    rw [hstore, storeResult, if_pos (show b.proposalSigs[(S.msg P R (.chunk i)).chunkI]? = _ from hsig)]
    refine congrArg Except.ok (hc'.checkFullProposal hshape ?_)
    rw [(adopt_proposal R _ _).2.2.1]
    exact Nat.succ_pos _
  · refine ⟨b, .pass, ?_, hcb, hsig, fun p hp h => hkeep p hp hS h⟩
    rw [hstore, storeResult, if_neg, if_pos]
    · exact hsig
    · intro hnil
      rw [show (S.msg P R (.chunk i)).chunkI = i from rfl, hsig] at hnil
      exact (hS.chunk i hi).1 (Option.some.inj hnil)

theorem Supply.Compatible.precommit (hS : S.Valid P R) (hj : j ∈ S.voters) (hd : Shape R d) (hc : S.Compatible P d)
    (seen isMyProposal : Bool) :
    ∃ d' status, incorporate P R.members seen isMyProposal (S.msg P R (.precommit j)) d = .ok (d', status) ∧
      S.Compatible P d' ∧ S.Holds P d' (.precommit j) ∧ ∀ p, S.Includes p → S.Holds P d p → S.Holds P d' p := by
  obtain ⟨hactive, hsig, -⟩ := hS.precommit j hj
  obtain ⟨status, hstatus⟩ : ∃ status, voteStatus d (S.valueId P) = some status := by
    rw [voteStatus, if_neg hS.valueId]
    rcases hc.announced with ⟨hzero, -⟩ | ⟨hpos, -, hid, -⟩
    · exact ⟨_, if_pos hzero⟩
    · rw [if_neg (by omega), if_neg (by simp [hid])]
      exact ⟨_, rfl⟩
  have hacc : (slotAt d.msgValSigs j).accepts true (S.valueId P, S.voteSig j) :=
    (hc.precommits j hj).imp id Eq.symm
  have hrun : incorporate P R.members seen isMyProposal (S.msg P R (.precommit j)) d =
      .ok (recordVote R true (S.msg P R (.precommit j)) d, status) := by
    have htype : (S.msg P R (.precommit j)).packetType = packetTypePrecommitSignatures := rfl
    rw [incorporate, if_neg (by rw [htype]; decide), if_pos (.inr htype)]
    exact incorporateVote_accept hd hactive hacc hstatus
  have hslot : ∀ k, (slotAt (recordVote R true (S.msg P R (.precommit j)) d).msgValSigs k).precommit =
      if k = j then (S.valueId P, S.voteSig j) else (slotAt d.msgValSigs k).precommit := by
    intro k
    change (slotAt (d.msgValSigs.set j ((slotAt d.msgValSigs j).set true (S.valueId P, S.voteSig j))) k).precommit = _
    rw [slotAt_set]
    by_cases hk : k = j
    · rw [if_pos hk, if_pos ⟨hk.symm, by rw [hd.slots]; exact hactive⟩]
      rfl
    · rw [if_neg hk, if_neg fun h => hk h.1.symm]
  have hkeep : ∀ p, S.Holds P d p → S.Holds P (recordVote R true (S.msg P R (.precommit j)) d) p := by
    intro p hp
    cases p with
    | chunk k => exact hp
    | precommit k =>
      by_cases hk : k = j
      · subst hk
        exact (hslot k).trans (if_pos rfl)
      · exact (hslot k).trans ((if_neg hk).trans hp)
  refine ⟨_, status, hrun, ⟨hc.announced, hc.chunks, hc.count, hc.sound, hc.verdict, ?_⟩, (hslot j).trans (if_pos rfl),
    fun p _ => hkeep p⟩
  intro k hk
  rcases hc.precommits k hk with hnil | hholds
  · by_cases hkj : k = j
    · subst hkj
      exact .inr ((hslot k).trans (if_pos rfl))
    · exact .inl (by rw [hslot, if_neg hkj]; exact hnil)
  · exact .inr (hkeep _ hholds)

theorem Supply.Compatible.part (hS : S.Valid P R) (hp : S.Includes p) (hd : Shape R d) (hc : S.Compatible P d)
    (hseen : seen = true ∨ d.proposalSigsN = 0) (isMyProposal : Bool) :
    ∃ d' status, incorporate P R.members seen isMyProposal (S.msg P R p) d = .ok (d', status) ∧
      S.Compatible P d' ∧ S.Holds P d' p ∧ ∀ q, S.Includes q → S.Holds P d q → S.Holds P d' q := by
  cases p with
  | chunk i => exact hc.chunk hS hp hd hseen isMyProposal
  | precommit j => exact hc.precommit hS hp hd seen isMyProposal

/-! ### All parts -/

theorem Supply.Valid.accepted (hS : S.Valid P s.roster) (hheight : S.height = s.height) {p : Part}
    (hp : S.Includes p) : ∃ member, Accepted P s (S.msg P s.roster p) member := by
  have haccepted : ∀ (m : Msg), m.height = s.height → m.rosterI < activeRosterLen s.roster.members →
      P.verify m.sig (keyAt s.roster.members m.rosterI) m.signedData = true → ∃ member, Accepted P s m member := by
    intro m hm hactive hverify
    have hlt := lt_of_lt_of_le hactive (activeRosterLen_le s.roster.members)
    obtain ⟨member, hmember⟩ : ∃ member, s.roster.members[m.rosterI]? = some member :=
      ⟨_, getElem?_eq_getElem hlt⟩
    rw [keyAt_eq hmember] at hverify
    exact ⟨member, hm, hactive, hmember, hverify⟩
  cases p with
  | chunk i => exact haccepted _ hheight (proposer_active hS.proposer) (hS.chunk i hp).2
  | precommit j => exact haccepted _ hheight (hS.precommit j hp).1 (hS.precommit j hp).2.2

/-- The node on its way: some parts have been taken in, and the records of other rounds are as they were. -/
structure Supply.Awaits (P : Params) (S : Supply) (s₀ : TMState) (got : Part → Prop) (s : TMState) : Prop where
  wf : Wf s
  height : s.height = s₀.height
  round : s.round = s₀.round
  roster : s.roster = s₀.roster
  myPubKey : s.myPubKey = s₀.myPubKey
  others : ∀ e ∈ s.roundsData, e.key ≠ (S.height, S.round) → e ∈ s₀.roundsData
  here : ∀ d ∈ s.roundsData, d.key = (S.height, S.round) → S.Compatible P d ∧ ∀ p, got p → S.Holds P d p
  found : (∃ p, got p) → ∃ d ∈ s.roundsData, d.key = (S.height, S.round)

theorem Supply.Compatible.emptyRound (P : Params) (S : Supply) (height round : ℕ) (roster : List SortedRosterMember) :
    S.Compatible P (emptyRound height round roster) := by
  refine ⟨.inl ⟨rfl, .inl rfl⟩, fun i sig h => ?_, rfl, rfl, (by nofun), fun j _ => .inl ?_⟩
  · cases h
  · change (slotAt (List.replicate _ VoteSlots.nil) j).precommit.2 = _
    rw [slotAt_replicate]
    rfl

theorem Supply.Awaits.foundRound (h : S.Awaits P s₀ got s) (hheight : S.height = s₀.height)
    (hround : FoundRound s S.round seen i s₁ d) :
    S.Compatible P d ∧ (∀ p, got p → S.Holds P d p) ∧
      ∀ e ∈ s₁.roundsData, e.key ≠ (S.height, S.round) → e ∈ s₀.roundsData := by
  have hkey : (s.height, S.round) = (S.height, S.round) := by rw [h.height, hheight]
  cases hround with
  | found i d hd hkey' =>
    obtain ⟨hc, hholds⟩ := h.here d (mem_of_getElem? hd) (hkey'.trans hkey)
    exact ⟨hc, hholds, h.others⟩
  | inserted i hi =>
    refine ⟨.emptyRound P S _ _ _, fun p hp => ?_, fun e he hne => ?_⟩
    · obtain ⟨e, he, hkey'⟩ := h.found ⟨p, hp⟩
      exact absurd (keyCmp_eq.mpr (hkey'.trans hkey.symm)) ((binarySearchBy_vacant hi).2 e he)
    · rcases eq_or_mem_of_mem_insertIdx he with rfl | he
      · exact absurd hkey hne
      · exact h.others e he hne

theorem Supply.Awaits.part (h : S.Awaits P s₀ got s) (hS : S.Valid P s₀.roster) (hheight : S.height = s₀.height)
    (hp : S.Includes p) (hgot : ∀ q, got q → S.Includes q) :
    wp (incorporateOne P (S.msg P s₀.roster p)) (fun _ s' => S.Awaits P s₀ (fun q => got q ∨ q = p) s')
      (fun _ _ => False) s := by
  rw [← h.roster] at hS ⊢
  have hmround : (S.msg P s.roster p).round = S.round := by cases p <;> rfl
  have haccepted := hS.accepted (hheight.trans h.height.symm) hp
  refine wp_seq (checkAndIncorporateMsg_rule
    (Q := fun _ s' => S.Awaits P s₀ (fun q => got q ∨ q = p) s')
    (fun hno => ?_) fun member seen i s₁ d hacc hround => ?_) fun _ _ h => h
  · obtain ⟨member, hacc⟩ := haccepted
    exact absurd hacc (hno member)
  obtain ⟨hshape, hseen⟩ := hround.shape h.wf
  have hround' := hround
  rw [hmround] at hround'
  obtain ⟨hc, hholds, hothers⟩ := h.foundRound hheight hround'
  obtain ⟨d', status, hrun, hc', hnew, hkeep⟩ := hc.part hS hp hshape hseen (member.pubKey = s.myPubKey)
  refine ⟨fun r hr => ?_, fun e he => ?_⟩
  · rw [hrun] at hr
    cases hr
    have hstep := incorporate_cases hshape hseen hacc.active hrun
    have hinc : Incorporated P (S.msg P s.roster p) s (s₁.setRound i d') :=
      .taken member seen i s₁ d d' hacc hround hstep
    obtain ⟨hd₁, hkey₁⟩ := hround.getElem?
    have hkey : d'.key = (S.height, S.round) := by
      rw [hstep.frame.1, hkey₁, h.height, hheight, hmround]
    have hhere : (s₁.setRound i d').roundsData[i]? = some d' := getElem?_setRound hd₁
    have hwf := hinc.wf h.wf
    obtain ⟨hheight₁, hround₁, hroster₁, hmyKey₁, -⟩ := hinc.frame
    refine ⟨hwf, ?_, ?_, ?_, ?_, fun e he hne => ?_, fun e he hkey' => ?_, fun _ => ⟨d', mem_of_getElem? hhere, hkey⟩⟩
    · exact hheight₁.trans h.height
    · exact hround₁.trans h.round
    · exact hroster₁.trans h.roster
    · exact hmyKey₁.trans h.myPubKey
    · rcases mem_setRound he with he | rfl
      · exact hothers e he hne
      · exact absurd hkey hne
    · obtain ⟨j, hj⟩ := getElem?_of_mem he
      obtain ⟨-, rfl⟩ := hwf.index_unique hhere hj (hkey.trans hkey'.symm)
      refine ⟨hc', ?_⟩
      rintro q (hq | rfl)
      · exact hkeep q (hgot q hq) (hholds q hq)
      · exact hnew
  · rw [hrun] at he
    cases he

theorem Supply.Awaits.parts {l : List Part} (h : S.Awaits P s₀ got s) (hS : S.Valid P s₀.roster)
    (hheight : S.height = s₀.height) (hl : ∀ p ∈ l, S.Includes p) (hgot : ∀ q, got q → S.Includes q) :
    wp ((l.map (S.msg P s₀.roster)).forM (incorporateOne P)) (fun _ s' => S.Awaits P s₀ (fun q => got q ∨ q ∈ l) s')
      (fun _ _ => False) s := by
  induction l generalizing s got with
  | nil =>
    have hsame : (fun q => got q ∨ q ∈ ([] : List Part)) = got := by
      funext q
      simp
    rw [hsame]
    exact h
  | cons p l ih =>
    have hp : S.Includes p := hl p mem_cons_self
    refine wp_seq (h.part hS hheight hp hgot) fun _ s₁ h₁ => ?_
    have hsame : (fun q => got q ∨ q ∈ p :: l) = fun q => (got q ∨ q = p) ∨ q ∈ l := by
      funext q
      simp [or_assoc]
    rw [hsame]
    refine ih h₁ (fun q hq => hl q (mem_cons_of_mem p hq)) ?_
    rintro q (hq | rfl)
    · exact hgot q hq
    · exact hp

theorem Supply.Compatible.ready (hS : S.Valid P R) (hc : S.Compatible P d) (hd : Shape R d)
    (hall : ∀ p, S.Includes p → S.Holds P d p) (hpass : ∀ n, ∃ reason, cl.validate n S.value = .ok (.pass, reason)) :
    Ready cl S.value d := by
  have hchunks : 0 < chunksN S.value := by
    rw [lt_chunksN_iff, Nat.zero_mul]
    exact length_pos_of_ne_nil hS.value
  have hall' : ∀ i < chunksN S.value, d.proposalSigs[i]? = some (S.chunkSig i) := fun i hi => hall (.chunk i) hi
  have hpos : 0 < d.proposalSigsN := by
    rw [hc.count, countP_pos_iff]
    exact ⟨_, mem_of_getElem? (hall' 0 hchunks), by simpa using (hS.chunk 0 hchunks).1⟩
  rcases hc.announced with ⟨hzero, -⟩ | ⟨-, hlen, -, -⟩
  · omega
  have hfull : d.hasFullProposal = true := by
    refine hasFullProposal_iff.mpr ⟨hpos, ?_⟩
    rw [hc.count, countP_eq_length]
    intro sig hsig
    obtain ⟨i, hi⟩ := List.getElem?_of_mem hsig
    have hlt : i < chunksN S.value := by
      have := (List.getElem?_eq_some_iff.mp hi).1
      rwa [hd.sigs, chunksN, hlen] at this
    rw [hall' i hlt] at hi
    rw [← Option.some.inj hi]
    simpa using (hS.chunk i hlt).1
  have hvalue := hc.complete hd hfull
  refine ⟨hfull, hvalue, ?_⟩
  cases hverdict : d.proposalCheckedValidity.1 with
  | fail => exact absurd hverdict hc.verdict
  | pass => exact .inl hverdict
  | indeterminate => exact .inr ⟨hverdict, hc.sound, by rw [hvalue]; exact hpass⟩

theorem Supply.quorum (hS : S.Valid P R) (hd : Shape R d) (hall : ∀ p, S.Includes p → S.Holds P d p) :
    stakeOf R.members S.voters ≤ d.counts.yesPrecommits := by
  change _ ≤ d.counts.get .yesPrecommit
  rw [hd.counts, tally, ConsensusCounts.get_ofFn, stakeWhere_eq_stakeOf]
  refine Finset.sum_le_sum_of_subset fun j hj => ?_
  obtain ⟨hactive, hsig, -⟩ := hS.precommit j hj
  have hslot : (slotAt d.msgValSigs j).precommit = _ := hall (.precommit j) hj
  refine Finset.mem_filter.mpr ⟨Finset.mem_range.mpr (by rw [hd.slots]; exact hactive), ?_, ?_⟩
  · change (slotAt d.msgValSigs j).precommit.2 ≠ _
    rw [hslot]
    exact hsig
  · change (slotAt d.msgValSigs j).precommit.1 ≠ _
    rw [hslot]
    exact hS.valueId

/-! ### Deciding -/

/-- The packets bring the parts of the supply and nothing else: every part, in any order, as often as they like. -/
def Supply.Delivered (P : Params) (R : SortedRoster) (S : Supply) (packets : List (List UInt8)) : Prop :=
  ∃ (calls : List (List Msg)) (parts : List Part), packets.mapM (deliveries P R.members) = .ok calls ∧
    calls.flatten = parts.map (S.msg P R) ∧ ∀ p, p ∈ parts ↔ S.Includes p

/-- A round is free to be decided by the supply: nothing recorded for it contradicts the supply, and no lower round
of the height decides, or moves the node, before it. -/
structure Supply.Unopposed (P : Params) (S : Supply) (th : Thresholds) (now : Instant) (s : TMState) : Prop where
  record : ∀ d ∈ s.roundsData, d.key = (S.height, S.round) → S.Compatible P d
  lower : ∀ e ∈ s.roundsData, e.height = s.height → e.round < S.round → Quiet th now s e

theorem Supply.Awaits.start (hs : Wf s)
    (hrecord : ∀ d ∈ s.roundsData, d.key = (S.height, S.round) → S.Compatible P d) :
    S.Awaits P s (fun _ => False) s :=
  ⟨hs, rfl, rfl, rfl, rfl, fun _ he _ => he, fun d hd hkey => ⟨hrecord d hd hkey, fun _ h => h.elim⟩,
    fun ⟨_, h⟩ => h.elim⟩

/-- The value of the faulty member of `minorityRoster`, and its precommit. -/
def sampleSupply (P : Params) (value : BlockValue) : Supply where
  height := 0
  round := 0
  value
  validRound := -1
  proposer := 0
  chunkSig _ := P.sign (keyNo 2).bytes ((chunkHeader P 0 0 value (-1) 0).writeTo ++ value)
  voters := {0}
  voteSig _ := P.sign (keyNo 2).bytes (voteBytes (keyNo 2) (idFromValue P value) 0 (2 ^ 31))

def samplePackets (P : Params) (value : BlockValue) : List (List UInt8) :=
  [votePacket true 0 0 (idFromValue P value) 0 ((sampleSupply P value).voteSig 0),
    chunkPacket (chunkHeader P 0 0 value (-1) 0) value ((sampleSupply P value).chunkSig 0)]

theorem sampleSupply_valid : (sampleSupply (Params.sample true) [7]).Valid (Params.sample true) minorityRoster where
  value := by decide
  valueId := by decide +kernel
  fits := by
    intro i hi
    have hone : chunksN (sampleSupply (Params.sample true) [7]).value = 1 := rfl
    obtain rfl : i = 0 := by omega
    exact ⟨by decide +kernel, by decide +kernel, by decide +kernel, by decide +kernel, by decide +kernel⟩
  proposer := by decide +kernel
  chunk := by decide +kernel
  precommit := by decide +kernel

theorem sampleSupply_delivered : (sampleSupply (Params.sample true) [7]).Delivered (Params.sample true) minorityRoster
    (samplePackets (Params.sample true) [7]) := by
  obtain ⟨calls, hcalls, hflat⟩ := exists_ok_of_any
    (x := (samplePackets (Params.sample true) [7]).mapM (deliveries (Params.sample true) minorityRoster.members))
    (p := fun calls => calls.flatten = [Part.precommit 0, Part.chunk 0].map
      ((sampleSupply (Params.sample true) [7]).msg (Params.sample true) minorityRoster)) (by decide +kernel)
  refine ⟨calls, _, hcalls, of_decide_eq_true hflat, fun p => ?_⟩
  cases p with
  | chunk i =>
    have hone : chunksN (sampleSupply (Params.sample true) [7]).value = 1 := rfl
    change _ ↔ i < _
    rw [hone]
    simp
  | precommit j => simp [Supply.Includes, sampleSupply]

theorem idle_answers (R : SortedRoster) : Answers (.idle R) := fun _ _ => ⟨_, rfl⟩

/-- The node after a chunk of another value from the same proposer. -/
def nineNode : TMState :=
  endState (life (Params.sample true) (.idle minorityRoster) 0
    [.recv (chunkPacket (chunkHeader (Params.sample true) 0 0 [9] (-1) 0) [9]
      ((sampleSupply (Params.sample true) [9]).chunkSig 0))] (minorityNode (Params.sample true)))

end Crosslink.Tenderlink

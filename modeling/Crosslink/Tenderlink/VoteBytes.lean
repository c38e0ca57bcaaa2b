import Crosslink.Tenderlink.NoEquivocation

/-!
# Domain separation of votes

A vote signs its key, value, height and one word for both the round and the kind: a precommit adds
`2^31` to its round. Below `2^31` the word tells the two kinds apart. Above it the addition overflows, and
a precommit has the same bytes as a prevote `2^31` rounds away.
-/

namespace Crosslink.Tenderlink

open Codec Fallible

/-- A vote as it can stand in a packet, its numbers bounded by their widths on the wire. -/
@[ext] structure Vote where
  pubKey : PubKeyID
  isPrecommit : Bool
  height : ℕ
  round : ℕ
  valueId : ValueId
  height_lt : height < 2 ^ 64
  round_lt : round < 2 ^ 32

namespace Vote

def signedBytes (P : Params) (v : Vote) : Except Panic (List UInt8) := do
  let (_, signYes) ← makeVoteSignDatas P v.pubKey v.isPrecommit v.height v.round v.valueId
  return signYes

/-- The round word of the vote, when computing it does not panic. -/
def word (v : Vote) : ℕ := (v.round + if v.isPrecommit then 2 ^ 31 else 0) % 2 ^ 32

/-- The round leaves room for the kind, or the build does not check. -/
def Fits (P : Params) (v : Vote) : Prop := P.overflowChecks = true → v.isPrecommit = true → v.round < 2 ^ 31

/-- The same vote but for the kind, and for the round, which is `2^31` away. -/
def Aliased (v w : Vote) : Prop :=
  v.pubKey = w.pubKey ∧ v.height = w.height ∧ v.valueId = w.valueId ∧ v.isPrecommit ≠ w.isPrecommit ∧
    w.round = (v.round + 2 ^ 31) % 2 ^ 32

/-- The signature that the owner gave for `v`, accepted for nothing else. -/
def SignatureOf (P : Params) (v : Vote) (sig : TMSig) : Prop :=
  ∀ key bytes, P.verify sig key bytes = true → key = v.pubKey ∧ v.signedBytes P = .ok bytes

/-- A received message is a vote `w`. -/
def Labels (w : Vote) (s : TMState) (m : Msg) : Prop :=
  m.height = w.height ∧ m.round = w.round ∧ m.valueId = w.valueId ∧
    m.packetType = (if w.isPrecommit then packetTypePrecommitSignatures else packetTypePrevoteSignatures) ∧
    ∃ member, s.roster.members[m.rosterI]? = some member ∧ member.pubKey = w.pubKey

/-- Both votes have signed bytes, which differ unless the votes are the same, and a signature given for the
first changes no state when it arrives as the second. -/
structure Separated (P : Params) (v w : Vote) : Prop where
  builds : (∃ bytes, v.signedBytes P = .ok bytes) ∧ ∃ bytes, w.signedBytes P = .ok bytes
  distinct : v.signedBytes P = w.signedBytes P → v = w
  unheard : v ≠ w → ∀ sig, v.SignatureOf P sig → ∀ s packetType packet voteI m,
    voteMsg P s.roster.members packetType packet voteI = .ok (some m) → m.sig = sig → w.Labels s m →
      receiveVote P packetType packet voteI s = .ok () s

end Vote

/-! ### The bytes -/

variable {P : Params} {v w : Vote}

theorem voteBytes_inj (hh : h < 2 ^ 64) (hh' : h' < 2 ^ 64) (hr : r < 2 ^ 32) (hr' : r' < 2 ^ 32)
    (heq : voteBytes key x h r = voteBytes key' x' h' r') :
    key = key' ∧ x = x' ∧ h = h' ∧ r = r' := by
  unfold voteBytes at heq
  obtain ⟨heq, hround⟩ := List.append_inj' heq (by simp)
  obtain ⟨heq, hheight⟩ := List.append_inj' heq (by simp)
  obtain ⟨hkey, hvalue⟩ := List.append_inj' heq (by simp)
  refine ⟨?_, ?_, leBytes_inj hh hh' hheight, leBytes_inj hr hr' hround⟩
  · cases key
    cases key'
    exact congrArg PubKeyID.mk (List.Vector.toList_injective hkey)
  · cases x
    cases x'
    exact congrArg ValueId.mk (List.Vector.toList_injective hvalue)

theorem voteRoundWord_ok {round : ℕ} (hround : round < 2 ^ 32)
    (h : P.overflowChecks = true → isPrecommit = true → round < 2 ^ 31) :
    voteRoundWord P isPrecommit round = .ok ((round + if isPrecommit then 2 ^ 31 else 0) % 2 ^ 32) := by
  unfold voteRoundWord addU
  split_ifs with hpre hlt hchecks hlt <;> simp_all [Nat.mod_eq_of_lt]
  omega

theorem voteRoundWord_overflow {round : ℕ} (hchecks : P.overflowChecks = true) (hround : 2 ^ 31 ≤ round) :
    voteRoundWord P true round = .error .overflow := by
  rw [voteRoundWord, hchecks]
  exact addU_overflow (by simp only [if_true]; omega)

namespace Vote

theorem word_lt (v : Vote) : v.word < 2 ^ 32 := Nat.mod_lt _ (by decide)

theorem signedBytes_ok (h : v.Fits P) :
    v.signedBytes P = .ok (voteBytes v.pubKey v.valueId v.height v.word) := by
  have hword : voteRoundWord P v.isPrecommit v.round = .ok v.word := voteRoundWord_ok v.round_lt h
  simp only [signedBytes, makeVoteSignDatas, hword, ok_bind]
  rfl

theorem signedBytes_overflow (h : ¬ v.Fits P) : v.signedBytes P = .error .overflow := by
  unfold Fits at h
  push Not at h
  obtain ⟨hchecks, hpre, hround⟩ := h
  have hword : voteRoundWord P v.isPrecommit v.round = .error .overflow := by
    rw [hpre, voteRoundWord_overflow hchecks hround]
  simp only [signedBytes, makeVoteSignDatas, hword, error_bind]

theorem builds_iff : (∃ bytes, v.signedBytes P = .ok bytes) ↔ v.Fits P := by
  refine ⟨fun ⟨bytes, h⟩ => ?_, fun h => ⟨_, signedBytes_ok h⟩⟩
  by_contra hfits
  rw [signedBytes_overflow hfits] at h
  cases h

theorem word_eq_iff : v.word = w.word ↔ (v.isPrecommit = w.isPrecommit ∧ v.round = w.round) ∨
    (v.isPrecommit ≠ w.isPrecommit ∧ w.round = (v.round + 2 ^ 31) % 2 ^ 32) := by
  have hv := v.round_lt
  have hw := w.round_lt
  unfold word
  cases v.isPrecommit <;> cases w.isPrecommit <;> simp <;> omega

theorem signedBytes_eq_iff (hv : v.Fits P) (hw : w.Fits P) :
    v.signedBytes P = w.signedBytes P ↔ v = w ∨ v.Aliased w := by
  rw [signedBytes_ok hv, signedBytes_ok hw]
  constructor
  · intro h
    obtain ⟨hkey, hvalue, hheight, hword⟩ :=
      voteBytes_inj v.height_lt w.height_lt v.word_lt w.word_lt (Except.ok.inj h)
    rcases word_eq_iff.mp hword with ⟨hkind, hround⟩ | ⟨hkind, hround⟩
    · exact .inl (Vote.ext hkey hkind hheight hround hvalue)
    · exact .inr ⟨hkey, hheight, hvalue, hkind, hround⟩
  · rintro (rfl | ⟨hkey, hheight, hvalue, hkind, hround⟩)
    · rfl
    · rw [hkey, hheight, hvalue, word_eq_iff.mpr (.inr ⟨hkind, hround⟩)]

end Vote

/-! ### Relabelled votes -/

theorem checkAndIncorporateMsg_unverified (hmember : s.roster.members[m.rosterI]? = some member)
    (hverify : P.verify m.sig member.pubKey m.signedData = false) :
    ∃ status, checkAndIncorporateMsg P m s = .ok status s := by
  change ∃ status, (if m.height ≠ s.height then _ else _ : NodeM TMStatus) s = .ok status s
  split
  · exact ⟨.fail, rfl⟩
  · split
    · exact ⟨.fail, rfl⟩
    · rw [getIdx_ok hmember]
      refine ⟨.fail, ?_⟩
      change (if P.verify m.sig member.pubKey m.signedData = false then _ else _ : NodeM TMStatus) s = _
      rw [if_pos hverify]
      rfl

theorem receiveVote_unverified (hmsg : voteMsg P s.roster.members packetType packet voteI = .ok (some m))
    (hmember : s.roster.members[m.rosterI]? = some member)
    (hverify : P.verify m.sig member.pubKey m.signedData = false) :
    receiveVote P packetType packet voteI s = .ok () s := by
  obtain ⟨status, hcheck⟩ := checkAndIncorporateMsg_unverified hmember hverify
  change EStateM.bind (lift (voteMsg P s.roster.members packetType packet voteI)) _ s = _
  rw [hmsg]
  change EStateM.bind (checkAndIncorporateMsg P m) _ s = _
  rw [EStateM.bind, hcheck]
  rfl

theorem Vote.Labels.signedData (h : w.Labels s m)
    (hmsg : voteMsg P s.roster.members packetType packet voteI = .ok (some m)) :
    w.signedBytes P = .ok m.signedData := by
  obtain ⟨hheight, hround, hvalue, hkind, member, hmember, hkey⟩ := h
  obtain ⟨member', word, hmember', hword, hdata, hkind'⟩ := voteMsg_eq_some hmsg
  rw [hmember] at hmember'
  cases hmember'
  have hpre : decide (packetType = packetTypePrecommitSignatures) = w.isPrecommit := by
    rw [← hkind', hkind]
    cases w.isPrecommit <;> decide
  rw [hpre, hround] at hword
  simp only [Vote.signedBytes, makeVoteSignDatas, hword, ok_bind]
  rw [hdata, hkey, hvalue, hheight]
  rfl

/-- Two votes are separated exactly when both rounds leave room for the kind and neither is the other
with its kind changed and its round moved by `2^31`. -/
theorem separated_iff (P : Params) (v w : Vote) :
    v.Separated P w ↔ v.Fits P ∧ w.Fits P ∧ ¬ v.Aliased w := by
  constructor
  · intro h
    have hv := Vote.builds_iff.mp h.builds.1
    have hw := Vote.builds_iff.mp h.builds.2
    refine ⟨hv, hw, fun halias => ?_⟩
    obtain rfl := h.distinct ((Vote.signedBytes_eq_iff hv hw).mpr (.inr halias))
    exact halias.2.2.2.1 rfl
  · rintro ⟨hv, hw, halias⟩
    have hdistinct : v.signedBytes P = w.signedBytes P → v = w :=
      fun heq => ((Vote.signedBytes_eq_iff hv hw).mp heq).resolve_right halias
    refine ⟨⟨Vote.builds_iff.mpr hv, Vote.builds_iff.mpr hw⟩, hdistinct, ?_⟩
    intro hne sig hsig s packetType packet voteI m hmsg hsigned hlabel
    obtain ⟨member, hmember, hkey⟩ := hlabel.2.2.2.2
    refine receiveVote_unverified hmsg hmember (Bool.eq_false_iff.mpr fun hverify => hne ?_)
    obtain ⟨-, hbytes⟩ := hsig _ _ (hsigned ▸ hverify)
    exact hdistinct (by rw [hbytes, hlabel.signedData hmsg])

def firstPrecommit : Vote := ⟨keyNo 2, true, 0, 0, ValueId.nil, by decide, by decide⟩

def relabelledPrevote : Vote := ⟨keyNo 2, false, 0, 2 ^ 31, ValueId.nil, by decide, by decide⟩

/-- The signature of the precommit, sent as a prevote, moves a node from round zero to round `2^31`. -/
theorem precommit_counts_as_prevote :
    let P := Params.sample true
    let sig := P.sign (keyNo 2).bytes (voteBytes (keyNo 2) ValueId.nil 0 firstPrecommit.word)
    firstPrecommit.signedBytes P = relabelledPrevote.signedBytes P ∧
      firstPrecommit ≠ relabelledPrevote ∧
      (endState (life P (.idle minorityRoster) 0
        [.recv (votePacket false 0 relabelledPrevote.round ValueId.nil 0 sig), .tick 1] (minorityNode P))).round =
        2 ^ 31 := by
  refine ⟨by decide +kernel, fun h => ?_, by decide +kernel⟩
  exact absurd (congrArg Vote.isPrecommit h) (by decide)

end Crosslink.Tenderlink

import Crosslink.Tenderlink.Steps

/-!
# Invariants of single moves

`Wf` describes the round records: strictly sorted by height and round, none above the current height,
those at the current height well shaped, timeouts labelled with their own round. `LogInv` describes what
the node has signed, as long as the round counter has not wrapped: in order, at most one vote of each
kind for each round, and chunks of one value only.
-/

namespace Crosslink.Tenderlink

open Fallible Search List

variable {P : Params} {wraps : Prop} {Heard : Msg → PubKeyID → Prop} {s s' : TMState}

/-! ### What a move does to the records -/

/-- How a move can change one record. -/
inductive RecordMove (P : Params) (Heard : Msg → PubKeyID → Prop) (s : TMState) (d : RoundData) : RoundData → Prop where
  | same : RecordMove P Heard s d d
  | heard (d' : RoundData) (m : Msg) (member : SortedRosterMember) (hkey : d.key = (s.height, m.round))
      (hheight : m.height = s.height) (hactive : m.rosterI < activeRosterLen s.roster.members)
      (hmember : s.roster.members[m.rosterI]? = some member)
      (hverify : P.verify m.sig member.pubKey m.signedData = true) (hformed : Formed P s.roster member m)
      (hsource : Heard m member.pubKey ∨ (member.pubKey = s.myPubKey ∧ m.sig = P.sign s.mySigningKey m.signedData ∧
        ∃ e ∈ s.signed, e.Covers m))
      (hstep : RecordStep P s.roster (member.pubKey = s.myPubKey) m d d') : RecordMove P Heard s d d'
  | checked (verdict : TMStatus × TMStatusReason) (hopen : d.proposalCheckedValidity.1 = .indeterminate)
      (hverdict : (d.proposalIsFaulty = true ∧ verdict.1 = .fail) ∨
        (d.proposalIsFaulty = false ∧ d.hasFullProposal = true)) :
      RecordMove P Heard s d { d with proposalCheckedValidity := verdict }
  | timed (t : Timeout) (triggered : Bool × Bool) (ht : (t.height, t.round) = d.key) :
      RecordMove P Heard s d { d with activeTimeout := some t, timeoutTriggered := triggered }

theorem mem_setRound (h : e ∈ (s.setRound i d).roundsData) :
    e ∈ s.roundsData ∨ e = d :=
  mem_or_eq_of_mem_set h

theorem Move.record (h : Move P wraps Heard s s') (hd' : d' ∈ s'.roundsData) :
    (∃ d ∈ s.roundsData, RecordMove P Heard s d d') ∨
      ∃ round, d' = emptyRound s.height round s.roster.members := by
  cases h with
  | insert i round hi =>
    rcases eq_or_mem_of_mem_insertIdx hd' with rfl | hmem
    · exact .inr ⟨round, rfl⟩
    · exact .inl ⟨d', hmem, .same⟩
  | hear i d₀ d₁ m member hd hkey hheight hactive hmember hverify hformed hsource hstep =>
    rcases mem_setRound hd' with hmem | rfl
    · exact .inl ⟨d', hmem, .same⟩
    · exact .inl ⟨d₀, mem_of_getElem? hd,
        .heard _ m member hkey hheight hactive hmember hverify hformed hsource hstep⟩
  | check i d₀ verdict hd hopen hverdict =>
    rcases mem_setRound hd' with hmem | rfl
    · exact .inl ⟨d', hmem, .same⟩
    · exact .inl ⟨d₀, mem_of_getElem? hd, .checked verdict hopen hverdict⟩
  | timeout i d₀ t triggered hd ht =>
    rcases mem_setRound hd' with hmem | rfl
    · exact .inl ⟨d', hmem, .same⟩
    · exact .inl ⟨d₀, mem_of_getElem? hd, .timed t triggered ht⟩
  | newHeight => exact .inl ⟨d', mem_of_mem_filter hd', .same⟩
  | _ => exact .inl ⟨d', hd', .same⟩

theorem Move.height_cases (h : Move P wraps Heard s s') :
    (s'.height = s.height ∧ s'.roster = s.roster) ∨
      (s'.height = s.height + 1 ∧ s'.signed = s.signed ∧ s'.step = s.step ∧ s'.round = s.round ∧
        s'.roundsData = s.roundsData.filter (fun r => r.height < s.height + 1)) := by
  cases h with
  | newHeight => exact .inr ⟨rfl, rfl, rfl, rfl, rfl⟩
  | _ => exact .inl ⟨rfl, rfl⟩

theorem RecordMove.key (h : RecordMove P Heard s d d') : d'.key = d.key := by
  cases h with
  | heard _ _ _ _ _ _ _ _ _ _ hstep => exact hstep.frame.1
  | _ => rfl

theorem RecordMove.height (h : RecordMove P Heard s d d') : d'.height = d.height :=
  congrArg Prod.fst h.key

theorem RecordMove.shape (h : RecordMove P Heard s d d') (hd : Shape s.roster d) :
    Shape s.roster d' := by
  cases h with
  | same => exact hd
  | heard _ _ _ _ _ _ _ _ _ _ hstep => exact hstep.shape hd
  | checked => exact ⟨hd.slots, hd.counts, hd.sigs⟩
  | timed => exact ⟨hd.slots, hd.counts, hd.sigs⟩

/-- The timeout of a record is labelled with the record's own height and round. -/
def TimeoutOk (d : RoundData) : Prop := ∀ t, d.activeTimeout = some t → (t.height, t.round) = d.key

theorem RecordMove.timeoutOk (h : RecordMove P Heard s d d') (hd : TimeoutOk d) :
    TimeoutOk d' := by
  intro t ht
  rw [h.key]
  cases h with
  | same => exact hd t ht
  | heard _ _ _ _ _ _ _ _ _ _ hstep => exact hd t (hstep.frame.2.1 ▸ ht)
  | checked => exact hd t ht
  | timed t' triggered ht' =>
    cases ht
    exact ht'

/-! ### The records -/

structure Wf (s : TMState) : Prop where
  sorted : s.roundsData.Pairwise fun a b => KeyLt a.key b.key
  height_le : ∀ d ∈ s.roundsData, d.height ≤ s.height
  shape : ∀ d ∈ s.roundsData, d.height = s.height → Shape s.roster d
  timeout : ∀ d ∈ s.roundsData, TimeoutOk d

theorem pairwise_set {l : List RoundData} (hl : l.Pairwise fun a b => KeyLt a.key b.key) (hi : l[i]? = some d)
    (hkey : d'.key = d.key) :
    (l.set i d').Pairwise fun a b => KeyLt a.key b.key := by
  have hmap : (l.set i d').map RoundData.key = l.map RoundData.key := by
    rw [List.map_set, hkey]
    obtain ⟨hlt, rfl⟩ := List.getElem?_eq_some_iff.mp hi
    exact List.ext_getElem (by simp) fun j h₁ h₂ => by
      rw [List.getElem_set]
      split
      · simp_all
      · rfl
  have : ((l.set i d').map RoundData.key).Pairwise KeyLt := by
    rw [hmap]
    exact pairwise_map.mpr hl
  exact pairwise_map.mp this

theorem Move.sorted (h : Move P wraps Heard s s')
    (hs : s.roundsData.Pairwise fun a b => KeyLt a.key b.key) :
    s'.roundsData.Pairwise fun a b => KeyLt a.key b.key := by
  cases h with
  | insert i round hi =>
    refine pairwise_insertIdx hs (fun a _ ha => ?_) (fun a _ ha => ?_) hi
    · exact keyCmp_lt.mp ha
    · exact keyCmp_gt.mp ha
  | hear i d d' m member hd _ _ _ _ _ _ _ hstep => exact pairwise_set hs hd hstep.frame.1
  | check i d verdict hd => exact pairwise_set hs hd rfl
  | timeout i d t triggered hd => exact pairwise_set hs hd rfl
  | newHeight => exact hs.filter _
  | _ => exact hs

theorem Move.wf (h : Move P wraps Heard s s') (hs : Wf s) : Wf s' := by
  refine ⟨h.sorted hs.sorted, fun d' hd' => ?_, fun d' hd' heq => ?_, fun d' hd' => ?_⟩
  · have hle : d'.height ≤ s.height := by
      rcases h.record hd' with ⟨d, hd, hmove⟩ | ⟨round, rfl⟩
      · exact hmove.height ▸ hs.height_le d hd
      · exact le_rfl
    rcases h.height_cases with ⟨hh, -⟩ | ⟨hh, -⟩ <;> omega
  · rcases h.height_cases with ⟨hh, hr⟩ | ⟨hh, -, -, -, hrd⟩
    · rw [hr]
      rcases h.record hd' with ⟨d, hd, hmove⟩ | ⟨round, rfl⟩
      · exact hmove.shape (hs.shape d hd (by rw [← hmove.height, heq, hh]))
      · exact Shape.emptyRound s.roster s.height round
    -- a record of the new height would have been above the old one
    · rw [hrd] at hd'
      have := hs.height_le d' (mem_of_mem_filter hd')
      omega
  · rcases h.record hd' with ⟨d, hd, hmove⟩ | ⟨round, rfl⟩
    · exact hmove.timeoutOk (hs.timeout d hd)
    · intro t ht
      cases ht

theorem Wf.index_unique (hs : Wf s) {i j : ℕ} (hi : s.roundsData[i]? = some d) (hj : s.roundsData[j]? = some e)
    (hkey : d.key = e.key) : i = j ∧ d = e := by
  obtain ⟨hilt, rfl⟩ := List.getElem?_eq_some_iff.mp hi
  obtain ⟨hjlt, rfl⟩ := List.getElem?_eq_some_iff.mp hj
  have hpair := List.pairwise_iff_getElem.mp hs.sorted
  rcases Nat.lt_trichotomy i j with hlt | rfl | hlt
  · exact absurd hkey (hpair i j hilt hjlt hlt).ne
  · exact ⟨rfl, rfl⟩
  · exact absurd hkey.symm (hpair j i hjlt hilt hlt).ne

/-! ### What has been signed -/

/-- Two signed statements that one honest node may both make, the newer one first. -/
def Signed.After (new old : Signed) : Prop :=
  KeyLe old.key new.key ∧
    ∀ isPrecommit height round valueId valueId', new = .vote isPrecommit height round valueId →
      old ≠ .vote isPrecommit height round valueId'

structure LogInv (P : Params) (s : TMState) : Prop where
  le : ∀ e ∈ s.signed, KeyLe e.key (s.height, s.round)
  after : s.signed.Pairwise Signed.After
  propose : s.step = .propose → ∀ e ∈ s.signed, e.IsVote → e.key ≠ (s.height, s.round)
  prevote : s.step = .prevote → ∀ valueId, Signed.vote true s.height s.round valueId ∉ s.signed
  chunks : ∀ key, ∃ value validRound, ∀ hdr data, Signed.chunk hdr data ∈ s.signed →
    (hdr.height, hdr.round) = key → (Signed.chunk hdr data).IsChunkOf P value validRound

theorem LogInv.sign_vote (hs : LogInv P s)
    (hfirst : ∀ valueId', Signed.vote isPrecommit s.height s.round valueId' ∉ s.signed) (hpropose : step ≠ .propose)
    (hprevote : step = .prevote → isPrecommit = false ∧ ∀ valueId, Signed.vote true s.height s.round valueId ∉ s.signed) :
    LogInv P { s with
      signed := .vote isPrecommit s.height s.round valueId :: s.signed, step, lockedValueRound := locked } where
  le e he := by
    rcases mem_cons.mp he with rfl | he
    · exact .inr ⟨rfl, le_rfl⟩
    · exact hs.le e he
  after := by
    refine pairwise_cons.mpr ⟨fun e he => ⟨hs.le e he, ?_⟩, hs.after⟩
    rintro k h r x x' heq rfl
    cases heq
    exact hfirst x' he
  propose h := absurd h hpropose
  prevote h x hx := by
    obtain ⟨rfl, hnone⟩ := hprevote h
    rcases mem_cons.mp hx with heq | hx
    · cases heq
    · exact hnone x hx
  chunks key := by
    obtain ⟨v, vr, hv⟩ := hs.chunks key
    refine ⟨v, vr, fun hdr data hmem => hv hdr data ?_⟩
    simpa using hmem

theorem LogInv.none_of_propose (hs : LogInv P s) (h : s.step = .propose) (isPrecommit : Bool)
    (valueId : ValueId) : Signed.vote isPrecommit s.height s.round valueId ∉ s.signed :=
  fun hmem => hs.propose h _ hmem trivial rfl

theorem Move.logInv (h : Move P wraps Heard s s') (hw : ¬ wraps) (hs : LogInv P s) : LogInv P s' := by
  cases h with
  | enter round hnew =>
    have hlt := hnew hw
    exact ⟨fun e he => (hlt e he).le, hs.after, fun _ e he _ => (hlt e he).ne,
      fun _ x hx => (hlt _ hx).ne rfl, hs.chunks⟩
  | toPropose hnone => exact ⟨hs.le, hs.after, fun _ => hnone hw, nofun, hs.chunks⟩
  | signChunk value validRound hdr data hkey hchunk hsame =>
    refine ⟨fun e he => ?_, ?_, fun hp e he hv => ?_, fun hp x hx => ?_, fun key => ?_⟩
    · rcases mem_cons.mp he with rfl | he
      · exact .inr ⟨congrArg Prod.fst hkey, le_of_eq (congrArg Prod.snd hkey)⟩
      · exact hs.le e he
    · refine pairwise_cons.mpr ⟨fun e he => ⟨?_, nofun⟩, hs.after⟩
      change KeyLe e.key (hdr.height, hdr.round)
      rw [hkey]
      exact hs.le e he
    · rcases mem_cons.mp he with rfl | he
      · exact hv.elim
      · exact hs.propose hp e he hv
    · rcases mem_cons.mp hx with heq | hx
      · cases heq
      · exact hs.prevote hp x hx
    · by_cases hk : key = (s.height, s.round)
      · subst hk
        refine ⟨value, validRound, fun hdr' data' hmem hkey' => ?_⟩
        rcases mem_cons.mp hmem with heq | hmem
        · cases heq
          exact hchunk
        · exact hsame hw hdr' data' hmem hkey'
      · obtain ⟨v, vr, hv⟩ := hs.chunks key
        refine ⟨v, vr, fun hdr' data' hmem hkey' => ?_⟩
        rcases mem_cons.mp hmem with heq | hmem
        · cases heq
          exact absurd (hkey'.symm.trans hkey) hk
        · exact hv hdr' data' hmem hkey'
  | prevote i d valueId hd hkey hstep hmay =>
    exact hs.sign_vote (hs.none_of_propose hstep false) nofun
      fun _ => ⟨rfl, hs.none_of_propose hstep true⟩
  | precommitNil hstep => exact hs.sign_vote (hs.prevote hstep) nofun nofun
  | precommit i d hd hkey hstep => exact hs.sign_vote (hs.prevote hstep) nofun nofun
  | newHeight roster d =>
    have hlt : ∀ e ∈ s.signed, KeyLt e.key (s.height + 1, s.round) := fun e he => by
      rcases hs.le e he with h | ⟨h, -⟩
      · exact .inl (Nat.lt_succ_of_lt h)
      · exact .inl (by rw [h]; exact Nat.lt_succ_self _)
    exact ⟨fun e he => (hlt e he).le, hs.after, fun _ e he _ => (hlt e he).ne,
      fun _ x hx => (hlt _ hx).ne rfl, hs.chunks⟩
  | _ => exact ⟨hs.le, hs.after, hs.propose, hs.prevote, hs.chunks⟩

/-- What holds at every moment of a run. -/
structure Inv (P : Params) (wraps : Prop) (s : TMState) : Prop where
  wf : Wf s
  log : ¬ wraps → LogInv P s

theorem Move.inv (h : Move P wraps Heard s s') (hs : Inv P wraps s) : Inv P wraps s' :=
  ⟨h.wf hs.wf, fun hw => h.logInv hw (hs.log hw)⟩

theorem Moves.inv (h : Moves P wraps Heard s s') (hs : Inv P wraps s) : Inv P wraps s' := by
  induction h with
  | refl => exact hs
  | tail _ hmove ih => exact hmove.inv ih

end Crosslink.Tenderlink

import Crosslink.Bft.Service

/-!
# Validated proposals and the decision handler

A proposal that validates and is decided reaches the handler as the same bytes. The handler asserts more
than the validator checks: that the certificate's hash is the hash of the decoded block, and that the
height field names the next free slot. `protected_iff` says for which byte strings the validator protects
it, in every reachable state of the service.
-/

namespace Crosslink.Bft

open Codec Fallible Tenderlink List

variable {P : ServiceParams} {genesis : List RosterMember} {s s' : TFLServiceInternal} {answers : PowAnswers}
  {validating recording known : BlockHash → Option ℕ} {block newBlock : BftBlock} {fatPointer : FatPointerToBftBlock}
  {hash : BlockHash} {roster : List SortedRosterMember} {bytes : List UInt8}

/-! ### What the handler checks -/

/-- Every stored block has a header, and the tip pointer holds the hash of the last one. -/
structure Inv (P : ServiceParams) (s : TFLServiceInternal) : Prop where
  headers : ∀ b ∈ s.bftBlocks, b.headers ≠ []
  tip : ∀ b, s.bftBlocks.getLast? = some b → s.fatPointerToTip.pointsAtBlockHash = b.blake3Hash P.toParams
  store : ∀ records, s.posStore = some records → ∀ r ∈ records,
    r.block.headers ≠ [] ∧ r.fatPointer.pointsAtBlockHash = r.block.blake3Hash P.toParams

theorem finalHash?_eq_none : block.finalHash? P = none ↔ block.headers = [] := by
  simp [BftBlock.finalHash?]

theorem validateBftBlock_pass :
    validateBftBlock P known newBlock s = .ok (.pass, .none) ↔
      newBlock.previousBlockFatPtr.pointsAtBlockHash = s.fatPointerToTip.pointsAtBlockHash ∧
        ∃ hash height, newBlock.finalHash? P = some hash ∧ known hash = some height := by
  unfold validateBftBlock
  split_ifs with hprev
  · simp [hprev]
  · cases hhash : newBlock.finalHash? P with
    | none => simp [unwrap]
    | some hash =>
      cases hknown : known hash <;> simp_all [unwrap]

theorem validateBftBlock_error (hprev : newBlock.previousBlockFatPtr.pointsAtBlockHash = s.fatPointerToTip.pointsAtBlockHash)
    (hheaders : newBlock.headers = []) : validateBftBlock P known newBlock s = .error .unwrap := by
  rw [validateBftBlock, if_neg (not_not.mpr hprev), finalHash?_eq_none.mpr hheaders]
  rfl

theorem validateBftBlock_isOk (h : newBlock.headers ≠ [] ∨
      newBlock.previousBlockFatPtr.pointsAtBlockHash ≠ s.fatPointerToTip.pointsAtBlockHash) :
    ∃ r, validateBftBlock P known newBlock s = .ok r := by
  unfold validateBftBlock
  split_ifs with hprev
  · exact ⟨_, rfl⟩
  · obtain ⟨hash, hhash⟩ := Option.ne_none_iff_exists'.mp fun hnone =>
      h.elim (fun hne => hne (finalHash?_eq_none.mp hnone)) hprev
    rw [hhash]
    simp only [unwrap, ok_bind]
    cases known hash <;> exact ⟨_, rfl⟩

theorem ensureSlot_eq_ok :
    ensureSlot blocks insertI = .ok blocks' ↔ insertI < isizeMax ∧
      blocks' = blocks ++ (List.range' blocks.length (insertI + 1 - blocks.length)).map BftBlock.placeholder := by
  unfold ensureSlot
  split_ifs with h <;> simp [h, eq_comm]

theorem placeholder_of_getElem? (hi : blocks.length ≤ i)
    (h : (blocks ++ (List.range' blocks.length (insertI + 1 - blocks.length)).map BftBlock.placeholder)[i]? = some b) :
    b = BftBlock.placeholder i := by
  rw [List.getElem?_append_right hi, List.getElem?_map, Option.map_eq_some_iff] at h
  obtain ⟨j, hj, rfl⟩ := h
  obtain ⟨hlt, hj⟩ := List.getElem?_eq_some_iff.mp hj
  rw [List.getElem_range'] at hj
  congr 1
  omega

/-- The state after a new record: the block appended, the certificate as the tip pointer. -/
def TFLServiceInternal.recorded (s : TFLServiceInternal) (newBlock : BftBlock) (fatPointer : FatPointerToBftBlock)
    (height : ℕ) (hash : BlockHash) : TFLServiceInternal :=
  { s with
    bftBlocks := s.bftBlocks ++ [newBlock]
    fatPointerToTip := fatPointer
    latestFinalBlock := some (height, hash) }

/-- Everything that the handler has checked when it records a block. -/
structure Recordable (P : ServiceParams) (validating recording : BlockHash → Option ℕ) (newBlock : BftBlock)
    (fatPointer : FatPointerToBftBlock) (s : TFLServiceInternal) (height : ℕ) (hash : BlockHash) : Prop where
  points : fatPointer.pointsAtBlockHash = newBlock.blake3Hash P.toParams
  signed : validateSignatures P.batch fatPointer = true
  valid : validateBftBlock P validating newBlock s = .ok (.pass, .none)
  final : newBlock.finalHash? P = some hash
  known : recording hash = some height
  next : newBlock.height = s.bftBlocks.length + 1

theorem Recordable.headers (h : Recordable P validating recording newBlock fatPointer s height hash) :
    newBlock.headers ≠ [] := by
  intro hnil
  have hfinal := h.final
  rw [finalHash?_eq_none.mpr hnil] at hfinal
  exact absurd hfinal (by simp)

/-- The two checks on the slot leave only the first free one: the slots below are filled, and the parent
of a slot further up is a placeholder. -/
theorem slot_eq (hinv : Inv P s) (hclear : Clear P s)
    (hprev : newBlock.previousBlockFatPtr.pointsAtBlockHash = s.fatPointerToTip.pointsAtBlockHash)
    (hslot : (s.bftBlocks ++ (List.range' s.bftBlocks.length (insertI + 1 - s.bftBlocks.length)).map BftBlock.placeholder)[insertI]? = some slot)
    (hempty : slot.headers = [])
    (hparent : checkParent P (s.bftBlocks ++ (List.range' s.bftBlocks.length (insertI + 1 - s.bftBlocks.length)).map BftBlock.placeholder) insertI newBlock = .ok ()) :
    insertI = s.bftBlocks.length := by
  rcases lt_trichotomy insertI s.bftBlocks.length with hlt | heq | hgt
  · rw [getElem?_append_left hlt] at hslot
    exact absurd hempty (hinv.headers slot (mem_of_getElem? hslot))
  · exact heq
  · rw [checkParent, if_pos (by omega)] at hparent
    obtain ⟨parent, hget, hhash⟩ := bind_eq_ok.mp hparent
    rw [ensure_eq_ok, hprev, placeholder_of_getElem? (by omega) (getIdx_eq_ok.mp hget)] at hhash
    exact absurd hhash (hclear _)

theorem succ_insertI (h : subU checks 64 height 1 = .ok insertI) (hcap : insertI < isizeMax) :
    height = insertI + 1 := by
  unfold subU at h
  unfold isizeMax at hcap
  split_ifs at h with hone hchecks
  · obtain rfl := Except.ok.inj h
    omega
  · obtain rfl := Except.ok.inj h
    omega

theorem recordDecided_eq_ok (hinv : Inv P s) (hclear : Clear P s)
    (h : recordDecided P validating recording newBlock fatPointer s = .ok (s', hash)) :
    ∃ height, Recordable P validating recording newBlock fatPointer s height hash ∧
      s' = s.recorded newBlock fatPointer height hash := by
  unfold recordDecided at h
  obtain ⟨⟨⟩, hpoints, h⟩ := bind_eq_ok.mp h
  obtain ⟨⟨⟩, hsigned, h⟩ := bind_eq_ok.mp h
  obtain ⟨status, hvalid, h⟩ := bind_eq_ok.mp h
  obtain ⟨⟨⟩, hstatus, h⟩ := bind_eq_ok.mp h
  obtain ⟨hash', hhash, h⟩ := bind_eq_ok.mp h
  obtain ⟨height, hheight, h⟩ := bind_eq_ok.mp h
  obtain ⟨insertI, hinsert, h⟩ := bind_eq_ok.mp h
  obtain ⟨blocks, hblocks, h⟩ := bind_eq_ok.mp h
  obtain ⟨⟨⟩, hparent, h⟩ := bind_eq_ok.mp h
  obtain ⟨⟨⟩, -, h⟩ := bind_eq_ok.mp h
  obtain ⟨slot, hslot, h⟩ := bind_eq_ok.mp h
  obtain ⟨⟨⟩, hempty, h⟩ := bind_eq_ok.mp h
  obtain ⟨⟨⟩, -, h⟩ := bind_eq_ok.mp h
  rw [ensure_eq_ok] at hpoints hsigned hstatus hempty
  rw [unwrap_eq_ok] at hhash hheight
  rw [getIdx_eq_ok] at hslot
  subst hstatus
  obtain ⟨hcap, rfl⟩ := ensureSlot_eq_ok.mp hblocks
  obtain ⟨hprev, -⟩ := validateBftBlock_pass.mp hvalid
  obtain rfl := slot_eq hinv hclear hprev hslot hempty hparent
  have hnext := succ_insertI hinsert hcap
  rw [pure_eq_ok, Prod.mk.injEq] at h
  obtain ⟨rfl, rfl⟩ := h
  refine ⟨height, ⟨hpoints, hsigned, hvalid, hhash, hheight, hnext⟩, ?_⟩
  simp [TFLServiceInternal.recorded]

theorem recordDecided_ok (hinv : Inv P s)
    (htip : s.bftBlocks ≠ [] → s.fatPointerToTip.pointsAtBlockHash ≠ Bytes.zero 32)
    (hslots : s.bftBlocks.length < isizeMax) (h : Recordable P validating recording newBlock fatPointer s height hash) :
    recordDecided P validating recording newBlock fatPointer s =
      .ok (s.recorded newBlock fatPointer height hash, hash) := by
  obtain ⟨hprev, -⟩ := validateBftBlock_pass.mp h.valid
  have hslot : ensureSlot s.bftBlocks s.bftBlocks.length =
      .ok (s.bftBlocks ++ [BftBlock.placeholder s.bftBlocks.length]) := by
    rw [ensureSlot, if_pos hslots, Nat.add_sub_cancel_left]
    rfl
  have hparent : checkParent P (s.bftBlocks ++ [BftBlock.placeholder s.bftBlocks.length]) s.bftBlocks.length newBlock =
      .ok () := by
    unfold checkParent
    split_ifs with hpos
    · have hlast : s.bftBlocks[s.bftBlocks.length - 1]? = some (s.bftBlocks.getLast (length_pos_iff.mp hpos)) := by
        rw [← getLast?_eq_getElem?, getLast?_eq_some_getLast]
      rw [getIdx_ok ((getElem?_append_left (by omega)).trans hlast), ok_bind]
      exact ensure_ok (by rw [hprev, hinv.tip _ (getLast?_eq_some_getLast _)])
    · rfl
  have hzero : s.bftBlocks.length = 0 ∨ newBlock.previousBlockFatPtr.pointsAtBlockHash ≠ Bytes.zero 32 := by
    rw [length_eq_zero_iff, hprev]
    exact or_iff_not_imp_left.mpr htip
  have hheaders := h.headers
  have hempty : (BftBlock.placeholder s.bftBlocks.length).headers = [] := rfl
  have hget : getIdx (s.bftBlocks ++ [BftBlock.placeholder s.bftBlocks.length]) s.bftBlocks.length =
      .ok (BftBlock.placeholder s.bftBlocks.length) := getIdx_ok (by simp)
  have hinsert : subU P.overflowChecks 64 newBlock.height 1 = .ok s.bftBlocks.length := by
    rw [h.next, subU_ok (by omega), Nat.add_sub_cancel]
  rw [recordDecided, ensure_ok h.points, ok_bind, ensure_ok h.signed, ok_bind, h.valid, ok_bind, ensure_ok rfl, ok_bind,
    unwrap_eq_ok.mpr h.final, ok_bind, unwrap_eq_ok.mpr h.known, ok_bind, hinsert, ok_bind, hslot, ok_bind, hparent,
    ok_bind, ensure_ok hzero, ok_bind, hget, ok_bind, ensure_ok hempty, ok_bind, ensure_ok hheaders, ok_bind]
  simp [TFLServiceInternal.recorded, pure, Except.pure]

/-! ### Reachable states -/

theorem finishDecided_eq_ok (h : finishDecided P newBlock fatPointer hash response s = .ok (s', roster)) :
    ∃ validators, s' = { s with
      validatorsAtCurrentHeight := validators
      posStore := s.posStore.map fun records => records ++ [⟨newBlock, fatPointer, validators⟩] } := by
  unfold finishDecided at h
  obtain ⟨⟨⟩, -, h⟩ := bind_eq_ok.mp h
  obtain ⟨r, -, h⟩ := bind_eq_ok.mp h
  rw [pure_eq_ok, Prod.mk.injEq] at h
  exact ⟨_, h.1.symm⟩

theorem Inv.recorded (hinv : Inv P s) (h : Recordable P validating recording newBlock fatPointer s height hash) :
    Inv P { s.recorded newBlock fatPointer height hash with
      validatorsAtCurrentHeight := validators
      posStore := s.posStore.map fun records => records ++ [⟨newBlock, fatPointer, validators⟩] } := by
  have hheaders := h.headers
  refine ⟨fun b hb => ?_, fun b hb => ?_, fun records hrecords r hr => ?_⟩
  · rcases mem_append.mp hb with hb | hb
    · exact hinv.headers b hb
    · exact (mem_singleton.mp hb) ▸ hheaders
  · obtain rfl : newBlock = b := by simpa [TFLServiceInternal.recorded] using hb
    exact h.points
  · obtain ⟨old, hold, rfl⟩ := Option.map_eq_some_iff.mp hrecords
    rcases mem_append.mp hr with hr | hr
    · exact hinv.store old hold r hr
    · exact (mem_singleton.mp hr) ▸ ⟨hheaders, h.points⟩

theorem Inv.loadRecords {records : List StoreRecord} (hinv : Inv P s)
    (hrecords : ∀ r ∈ records, r.block.headers ≠ [] ∧ r.fatPointer.pointsAtBlockHash = r.block.blake3Hash P.toParams) :
    Inv P (loadRecords s records) := by
  induction records generalizing s with
  | nil => exact hinv
  | cons r rs ih =>
    obtain ⟨hr, hrs⟩ := forall_mem_cons.mp hrecords
    rw [Bft.loadRecords]
    split_ifs with hprev
    · exact hinv
    · refine ih ⟨fun b hb => ?_, fun b hb => ?_, fun records hstore r' hr' => ?_⟩ hrs
      · rcases mem_append.mp hb with hb | hb
        · exact hinv.headers b hb
        · exact (mem_singleton.mp hb) ▸ hr.1
      · obtain rfl : r.block = b := by simpa using hb
        exact hr.2
      · obtain ⟨old, hold, rfl⟩ := Option.map_eq_some_iff.mp hstore
        rcases mem_append.mp hr' with hr' | hr'
        · exact hinv.store old hold r' hr'
        · exact (mem_singleton.mp hr') ▸ hr

theorem Inv.initial (P : ServiceParams) (genesis : List RosterMember) (persistent : Bool) :
    Inv P (TFLServiceInternal.initial genesis persistent) := by
  refine ⟨nofun, nofun, fun records hrecords r hr => ?_⟩
  cases persistent
  · exact absurd hrecords (by simp [TFLServiceInternal.initial])
  · obtain rfl : [] = records := by simpa [TFLServiceInternal.initial] using hrecords
    exact absurd hr not_mem_nil

theorem Inv.of_final (hinv : Inv P s) (final : Option (ℕ × BlockHash)) : Inv P { s with latestFinalBlock := final } :=
  ⟨hinv.headers, hinv.tip, hinv.store⟩

theorem startFrom_eq_ok (h : startFrom P known genesis records = .ok s') :
    ∃ final, s' = { loadRecords (TFLServiceInternal.initial genesis true) records with latestFinalBlock := final } := by
  unfold Bft.startFrom at h
  dsimp only at h
  split at h
  · obtain rfl := pure_eq_ok.mp h
    exact ⟨_, rfl⟩
  · obtain ⟨hash, -, h⟩ := bind_eq_ok.mp h
    obtain ⟨height, -, h⟩ := bind_eq_ok.mp h
    obtain rfl := pure_eq_ok.mp h
    split_ifs
    · exact ⟨_, rfl⟩
    · exact ⟨_, rfl⟩

theorem Inv.startFrom {records : List StoreRecord}
    (hrecords : ∀ r ∈ records, r.block.headers ≠ [] ∧ r.fatPointer.pointsAtBlockHash = r.block.blake3Hash P.toParams)
    (h : startFrom P known genesis records = .ok s') : Inv P s' := by
  obtain ⟨final, rfl⟩ := startFrom_eq_ok h
  exact ((Inv.initial P genesis true).loadRecords hrecords).of_final final

theorem Reaches.inv (h : Reaches P genesis s) : Inv P s := by
  induction h with
  | start persistent => exact Inv.initial P genesis persistent
  | decide h hclear hstep ih =>
    obtain ⟨⟨s₁, hash⟩, hrecord, hfinish⟩ := bind_eq_ok.mp hstep
    obtain ⟨height, hrec, rfl⟩ := recordDecided_eq_ok ih hclear hrecord
    obtain ⟨validators, rfl⟩ := finishDecided_eq_ok hfinish
    exact ih.recorded hrec
  | restart h hstore hstep ih =>
    exact Inv.startFrom (fun r hr => ih.store _ hstore r (mem_of_mem_take hr)) hstep

/-! ### What validation protects against -/

/-- A certificate for the proposal `bytes`: it names their hash, and its signatures verify. -/
structure CertificateFor (P : ServiceParams) (bytes : List UInt8) (fatPointer : FatPointerToBftBlock) : Prop where
  points : fatPointer.pointsAtBlockHash = (idFromValue P.toParams bytes).bytes
  signed : validateSignatures P.batch fatPointer = true

/-- The state service returns the hash it was asked to finalize, and stakes are amounts of coins. -/
structure PowAnswers.Sound (answers : PowAnswers) (s : TFLServiceInternal) : Prop where
  echoes : ∀ asked hash stakes, answers.finalize asked = some (hash, stakes) → hash = asked
  fit : ∀ asked hash stakes, answers.finalize asked = some (hash, stakes) → (stakes.map Prod.snd).sum < 2 ^ 64
  current : StakesFit s.validatorsAtCurrentHeight

/-- No collision among the hashes that meet in the handler. -/
structure Collisionless (P : ServiceParams) (s : TFLServiceInternal) (bytes : List UInt8) : Prop where
  clear : Clear P s
  tip : s.bftBlocks ≠ [] → s.fatPointerToTip.pointsAtBlockHash ≠ Bytes.zero 32
  raw : ∀ block rest, BftBlock.zcashDeserialize bytes = some (block, rest) →
    block.blake3Hash P.toParams = (idFromValue P.toParams bytes).bytes → block.zcashSerialize = bytes

/-- The closure says `Pass` on the proposal, and would until the block is recorded. -/
def Passes (P : ServiceParams) (answers : PowAnswers) (bytes : List UInt8) (s : TFLServiceInternal) : Prop :=
  ∀ known ∈ [answers.proposed, answers.validating, answers.recording],
    validateProposedBlock P known bytes s = .ok (.pass, .none)

/-- Validation does not panic, and a proposal that passes can be pushed: its block has the hash that was
voted on, is meant for the next height, and has a header. -/
structure Protected (P : ServiceParams) (answers : PowAnswers) (bytes : List UInt8) (fatPointer : FatPointerToBftBlock)
    (s : TFLServiceInternal) : Prop where
  validates : ∃ status, validateProposedBlock P answers.proposed bytes s = .ok status
  pushes : Passes P answers bytes s → ∃ block rest, BftBlock.zcashDeserialize bytes = some (block, rest) ∧
    block.blake3Hash P.toParams = (idFromValue P.toParams bytes).bytes ∧ block.height = s.bftBlocks.length + 1 ∧
    block.headers ≠ [] ∧ ∃ r, pushDecidedBlock P answers bytes fatPointer s = .ok r

/-- What validation lets through: a block on top of the tip that has no header, or whose first header is a
known block while bytes follow the block or its height field is not the next height. -/
def Faulty (P : ServiceParams) (answers : PowAnswers) (bytes : List UInt8) (s : TFLServiceInternal) : Prop :=
  ∃ block rest, BftBlock.zcashDeserialize bytes = some (block, rest) ∧
    block.previousBlockFatPtr.pointsAtBlockHash = s.fatPointerToTip.pointsAtBlockHash ∧
    (block.headers = [] ∨
      (∃ hash, block.finalHash? P = some hash ∧
        ∀ known ∈ [answers.proposed, answers.validating, answers.recording], (known hash).isSome) ∧
      (rest ≠ [] ∨ block.height ≠ s.bftBlocks.length + 1))

theorem validateProposedBlock_eq (h : BftBlock.zcashDeserialize bytes = some (block, rest)) :
    validateProposedBlock P known bytes s = validateBftBlock P known block s := by
  rw [validateProposedBlock, h]

theorem passes_iff (h : BftBlock.zcashDeserialize bytes = some (block, rest)) :
    Passes P answers bytes s ↔ block.previousBlockFatPtr.pointsAtBlockHash = s.fatPointerToTip.pointsAtBlockHash ∧
      ∃ hash, block.finalHash? P = some hash ∧
        ∀ known ∈ [answers.proposed, answers.validating, answers.recording], (known hash).isSome := by
  simp only [Passes, validateProposedBlock_eq h, validateBftBlock_pass, Option.isSome_iff_exists]
  constructor
  · intro hpass
    obtain ⟨hprev, hash, -, hhash, -⟩ := hpass answers.proposed (by simp)
    refine ⟨hprev, hash, hhash, fun known hknown => ?_⟩
    obtain ⟨-, hash', height, hhash', hheight⟩ := hpass known hknown
    rw [hhash, Option.some.injEq] at hhash'
    exact ⟨height, hhash' ▸ hheight⟩
  · rintro ⟨hprev, hash, hhash, hall⟩ known hknown
    obtain ⟨height, hheight⟩ := hall known hknown
    exact ⟨hprev, hash, height, hhash, hheight⟩

theorem not_passes (h : BftBlock.zcashDeserialize bytes = none) : ¬ Passes P answers bytes s := by
  intro hpass
  have := hpass answers.proposed (by simp)
  rw [validateProposedBlock, h] at this
  exact absurd this (by simp)

theorem finishDecided_isOk (hsound : answers.Sound s) :
    ∃ r, finishDecided P newBlock fatPointer hash (answers.finalize hash) s = .ok r := by
  have hcheck : checkResponse hash (answers.finalize hash) = .ok () := by
    cases hresponse : answers.finalize hash with
    | none => rfl
    | some r => exact ensure_ok (hsound.echoes hash r.1 r.2 hresponse)
  have hfit : StakesFit (if 0 < ((answers.finalize hash).map Prod.snd |>.getD []).length then
      ((answers.finalize hash).map Prod.snd |>.getD []).map fun x => ⟨x.1, x.2⟩ else s.validatorsAtCurrentHeight) := by
    split_ifs with hsome
    · cases hresponse : answers.finalize hash with
      | none => simp [hresponse] at hsome
      | some r =>
        rw [StakesFit, map_map]
        exact hsound.fit hash r.1 r.2 hresponse
    · exact hsound.current
  obtain ⟨R, -, hR⟩ := tenderlinkRosterFromInternal_ok (P := P) hfit
  unfold finishDecided
  rw [hcheck, ok_bind]
  simp only [hR, ok_bind]
  exact ⟨_, rfl⟩

theorem pushDecidedBlock_isOk (hinv : Inv P s) (hcoll : Collisionless P s bytes)
    (hcert : CertificateFor P bytes fatPointer) (hsound : answers.Sound s) (hpass : Passes P answers bytes s)
    (hdec : BftBlock.zcashDeserialize bytes = some (block, [])) (hheight : block.height = s.bftBlocks.length + 1) :
    block.blake3Hash P.toParams = (idFromValue P.toParams bytes).bytes ∧ block.headers ≠ [] ∧
      ∃ r, pushDecidedBlock P answers bytes fatPointer s = .ok r := by
  obtain ⟨-, hash, hhash, hknown⟩ := (passes_iff hdec).mp hpass
  obtain ⟨hfits, hbytes⟩ := (BftBlock.reads_zcashDeserialize block bytes []).mp hdec
  rw [append_nil] at hbytes
  have hid : block.blake3Hash P.toParams = (idFromValue P.toParams bytes).bytes := by
    rw [hbytes]
    rfl
  obtain ⟨height, hrecording⟩ := Option.isSome_iff_exists.mp (hknown answers.recording (by simp))
  have hvalid := hpass answers.validating (by simp)
  rw [validateProposedBlock_eq hdec] at hvalid
  have hrec : Recordable P answers.validating answers.recording block fatPointer s height hash :=
    ⟨hcert.points.trans hid.symm, hcert.signed, hvalid, hhash, hrecording, hheight⟩
  have hslots : s.bftBlocks.length < isizeMax := by
    have := hfits.height
    unfold isizeMax
    omega
  refine ⟨hid, hrec.headers, ?_⟩
  rw [pushDecidedBlock, hdec]
  change ∃ r, handleNewDecidedBftBlock P answers block fatPointer s = .ok r
  rw [handleNewDecidedBftBlock, recordDecided_ok hinv hcoll.tip hslots hrec, ok_bind]
  exact finishDecided_isOk ⟨hsound.echoes, hsound.fit, hsound.current⟩

/-- In every reachable state the validator protects the handler from exactly the strings that are not
faulty. -/
theorem protected_iff (hs : Reaches P genesis s) (hcoll : Collisionless P s bytes)
    (hcert : CertificateFor P bytes fatPointer) (hsound : answers.Sound s) :
    Protected P answers bytes fatPointer s ↔ ¬ Faulty P answers bytes s := by
  constructor
  · rintro hprotected ⟨block, rest, hdec, hprev, hheaders | ⟨hknown, hfault⟩⟩
    · obtain ⟨status, hstatus⟩ := hprotected.validates
      rw [validateProposedBlock_eq hdec, validateBftBlock_error hprev hheaders] at hstatus
      exact absurd hstatus (by simp)
    · obtain ⟨block', rest', hdec', hhash, hheight, -⟩ := hprotected.pushes ((passes_iff hdec).mpr ⟨hprev, hknown⟩)
      obtain ⟨rfl, rfl⟩ : block = block' ∧ rest = rest' := by simpa [hdec] using hdec'
      have hraw := hcoll.raw block rest hdec hhash
      have hbytes := ((BftBlock.reads_zcashDeserialize block bytes rest).mp hdec).2
      rw [hraw] at hbytes
      exact hfault.elim (fun hrest => hrest (self_eq_append_right.mp hbytes)) (fun hne => hne hheight)
  · intro hfaulty
    cases hdec : BftBlock.zcashDeserialize bytes with
    | none =>
      exact ⟨⟨_, by rw [validateProposedBlock, hdec]⟩, fun hpass => absurd hpass (not_passes hdec)⟩
    | some decoded =>
      obtain ⟨block, rest⟩ := decoded
      refine ⟨?_, fun hpass => ?_⟩
      · rw [validateProposedBlock_eq hdec]
        refine validateBftBlock_isOk (or_iff_not_imp_left.mpr fun hheaders hprev => hfaulty ?_)
        exact ⟨block, rest, hdec, hprev, .inl (not_not.mp hheaders)⟩
      · obtain ⟨hprev, hknown⟩ := (passes_iff hdec).mp hpass
        obtain ⟨rfl, hheight⟩ : rest = [] ∧ block.height = s.bftBlocks.length + 1 := by
          by_contra hne
          exact hfaulty ⟨block, rest, hdec, hprev, .inr ⟨hknown, not_and_or.mp hne⟩⟩
        obtain ⟨hid, hheaders, hpush⟩ := pushDecidedBlock_isOk hs.inv hcoll hcert hsound hpass hdec hheight
        exact ⟨block, [], hdec, hid, hheight, hheaders, hpush⟩

/-! ### A concrete service -/

def sampleDigest (v : List UInt8) : Bytes 32 := ⟨leBytes 32 (1 + leNat v % (2 ^ 255 - 19)), leBytes_length 32 _⟩

theorem sampleDigest_ne_zero (v : List UInt8) : sampleDigest v ≠ Bytes.zero 32 := by
  intro h
  have hlist : leBytes 32 (1 + leNat v % (2 ^ 255 - 19)) = leBytes 32 0 :=
    (congrArg List.Vector.toList h).trans (by decide)
  have hlt : leNat v % (2 ^ 255 - 19) < 2 ^ 255 - 19 := Nat.mod_lt _ (by norm_num)
  exact absurd (leBytes_inj (by omega) (by omega) hlist) (by omega)

def ServiceParams.sample : ServiceParams where
  toParams := { Params.sample true with valueHash := fun v => ⟨sampleDigest v⟩ }
  sha256d := sampleDigest
  batch items := items.all fun item => (Params.sample true).verify item.2.1 item.1 item.2.2

def sampleHeader (nonce : ℕ) (prevBlock : BlockHash) : BlockHeaderData where
  version := 5
  prevBlock := prevBlock
  merkleRoot := Bytes.zero 32
  finalSaplingRoot := Bytes.zero 32
  time := 0
  bits := 0
  nonce := ⟨leBytes 32 nonce, leBytes_length32 nonce⟩
  solution := []
  fatPointerToBftBlock := FatPointerToBftBlock.null

def sampleBlock (height : ℕ) (headers : List BlockHeaderData) : BftBlock :=
  ⟨1, height, FatPointerToBftBlock.null, 0, headers⟩

/-- A certificate that names `bytes` and carries no signatures: an empty batch verifies. -/
def sampleCertificate (bytes : List UInt8) : FatPointerToBftBlock :=
  ⟨⟨(sampleDigest bytes).toList ++ leBytes 8 0 ++ leBytes 4 (2 ^ 31), by simp⟩, []⟩

def sampleAnswers : PowAnswers := ⟨fun _ => some 7, fun _ => some 7, fun _ => some 7, fun hash => some (hash, [])⟩

def sampleService : TFLServiceInternal := TFLServiceInternal.initial [⟨keyNo 2, 10⟩] false

theorem sampleCertificate_for (bytes : List UInt8) :
    CertificateFor ServiceParams.sample bytes (sampleCertificate bytes) := by
  refine ⟨Subtype.ext ?_, rfl⟩
  change ((sampleDigest bytes).toList ++ leBytes 8 0 ++ leBytes 4 (2 ^ 31)).take 32 = (sampleDigest bytes).toList
  rw [append_assoc, take_left' (by simp)]

def goodProposal : List UInt8 := (sampleBlock 1 [sampleHeader 0 (Bytes.zero 32)]).zcashSerialize

theorem goodProposal_deserialize (rest : List UInt8) :
    BftBlock.zcashDeserialize (goodProposal ++ rest) = some (sampleBlock 1 [sampleHeader 0 (Bytes.zero 32)], rest) := by
  refine (BftBlock.reads_zcashDeserialize _ _ _).mpr ⟨⟨by decide, by decide, by decide, by decide, by decide, ?_⟩, rfl⟩
  exact forall_mem_singleton.mpr ⟨by decide, by decide, by decide, by decide, by decide⟩

theorem protected_iff_goodProposal :
    Protected ServiceParams.sample sampleAnswers goodProposal (sampleCertificate goodProposal) sampleService := by
  have hdec : BftBlock.zcashDeserialize goodProposal = some (sampleBlock 1 [sampleHeader 0 (Bytes.zero 32)], []) := by
    simpa using goodProposal_deserialize []
  have hcoll : Collisionless ServiceParams.sample sampleService goodProposal :=
    ⟨fun i => sampleDigest_ne_zero _, nofun, fun block rest h _ => by
      obtain ⟨rfl, rfl⟩ : sampleBlock 1 [sampleHeader 0 (Bytes.zero 32)] = block ∧ [] = rest := by simpa [hdec] using h
      rfl⟩
  have hsound : sampleAnswers.Sound sampleService :=
    ⟨by simp [sampleAnswers], by simp [sampleAnswers], by simp [StakesFit, sampleService, TFLServiceInternal.initial]⟩
  have hs : Reaches ServiceParams.sample [⟨keyNo 2, 10⟩] sampleService := .start false
  refine (protected_iff hs hcoll (sampleCertificate_for _) hsound).mpr ?_
  rintro ⟨block, rest, h, -, hfault⟩
  obtain ⟨rfl, rfl⟩ : sampleBlock 1 [sampleHeader 0 (Bytes.zero 32)] = block ∧ [] = rest := by simpa [hdec] using h
  rcases hfault with hnil | ⟨-, hrest | hheight⟩
  · exact absurd hnil (by decide)
  · exact hrest rfl
  · exact hheight rfl

/-- In the first state of the service: a block without headers makes the validator panic; a block with a
byte after it, and one for height two, pass validation and make the handler panic. -/
theorem validated_proposals_panic :
    let emptied := (sampleBlock 1 []).zcashSerialize
    let trailing := goodProposal ++ [1]
    let early := (sampleBlock 2 [sampleHeader 0 (Bytes.zero 32)]).zcashSerialize
    Reaches ServiceParams.sample [⟨keyNo 2, 10⟩] sampleService ∧
    validateProposedBlock ServiceParams.sample sampleAnswers.proposed emptied sampleService = .error .unwrap ∧
    ∀ bytes ∈ [trailing, early],
      CertificateFor ServiceParams.sample bytes (sampleCertificate bytes) ∧
      Passes ServiceParams.sample sampleAnswers bytes sampleService ∧
      pushDecidedBlock ServiceParams.sample sampleAnswers bytes (sampleCertificate bytes) sampleService = .error .assert := by
  refine ⟨Reaches.start false, by decide +kernel, ?_⟩
  simp only [forall_mem_cons, Passes]
  refine ⟨⟨sampleCertificate_for _, ⟨?_, ?_, ?_, nofun⟩, ?_⟩, ⟨sampleCertificate_for _, ⟨?_, ?_, ?_, nofun⟩, ?_⟩, nofun⟩
  all_goals decide +kernel

end Crosslink.Bft

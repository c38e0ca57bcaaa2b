import Crosslink.NewNet.StatusRuns

/-!
# Statuses read back

What is written for the chains near the tip is read back as branches: the best chain first and then, as far as there is
room, the parts of the other chains that are not written yet.
-/

namespace Crosslink.NewNet

open Codec Fallible Bft Runs NearTipBranches List Option StatusRun

variable {hashes : List BlockHash} {blocks seg : List ShadowBlock} {run : StatusRun} {runs : List StatusRun}
  {segs branches : List (List ShadowBlock)} {c c' n : ℕ} {parentOf : BlockHash → BlockHash} {childHeight : BlockHash → ℕ}

/-! ### The bytes of the records -/

def StatusRun.write (c : ℕ) (run : StatusRun) : List UInt8 :=
  run.branch.write ++ if run.branch.parentHashIdx = c then leBytes 4 run.height else []

/-- The records in turn, the first one with the hashes before place `c` taken. -/
def writeAll : ℕ → List StatusRun → List UInt8
  | _, [] => []
  | c, run :: runs => run.write c ++ writeAll run.branch.branchEndIdx runs

theorem reads_hdr : Reads PacketHashTreeHdr.read PacketHashTreeHdr.write fun h =>
    h.tipHeight < 256 ^ 4 ∧ h.finalizedHeight < 256 ^ 4 ∧ h.hashesStartOffset < 256 ^ 2 := by
  rintro ⟨tip, finalized, offset⟩ buf rest
  simp only [PacketHashTreeHdr.read, PacketHashTreeHdr.write, bind_eq_some, readLE_eq_some, pure_eq_some,
    PacketHashTreeHdr.mk.injEq]
  constructor
  · rintro ⟨tip', mid, ⟨htip, rfl⟩, finalized', mid', ⟨hfinalized, rfl⟩, offset', mid'', ⟨hoffset, rfl⟩, ⟨rfl, rfl, rfl⟩, rfl⟩
    exact ⟨⟨htip, hfinalized, hoffset⟩, by simp⟩
  · rintro ⟨⟨htip, hfinalized, hoffset⟩, rfl⟩
    exact ⟨tip, _, ⟨htip, append_assoc ..⟩, finalized, _, ⟨hfinalized, append_assoc ..⟩, offset, rest,
      ⟨hoffset, rfl⟩, ⟨rfl, rfl, rfl⟩, rfl⟩

theorem reads_branch : Reads PacketHashBranch.read PacketHashBranch.write fun b =>
    b.parentHashIdx < 256 ^ 2 ∧ b.branchEndIdx < 256 ^ 2 := by
  rintro ⟨parent, endIdx⟩ buf rest
  simp only [PacketHashBranch.read, PacketHashBranch.write, bind_eq_some, readLE_eq_some, pure_eq_some,
    PacketHashBranch.mk.injEq]
  constructor
  · rintro ⟨parent', mid, ⟨hparent, rfl⟩, endIdx', mid', ⟨hend, rfl⟩, ⟨rfl, rfl⟩, rfl⟩
    exact ⟨⟨hparent, hend⟩, by simp⟩
  · rintro ⟨⟨hparent, hend⟩, rfl⟩
    exact ⟨parent, _, ⟨hparent, append_assoc ..⟩, endIdx, rest, ⟨hend, rfl⟩, ⟨rfl, rfl⟩, rfl⟩

theorem Reads.readOr {α : Type} (debug : Bool) {r : Reader α} {w : α → List UInt8} {V : α → Prop} (h : Reads r w V) {a : α}
    (ha : V a) (rest : List UInt8) : readOr debug r (w a ++ rest) = .ok (a, rest) := by
  rw [NearTipBranches.readOr, (h a _ rest).mpr ⟨ha, rfl⟩]

/-! ### Reading a branch -/

theorem stack_thisHash (h : Segment seg) (hfirst : seg.head? = some first) :
    stack first.parentHash first.thisHeight (seg.map ShadowBlock.thisHash) = seg := by
  induction seg generalizing first with
  | nil => rfl
  | cons b seg ih =>
    obtain rfl := some.inj hfirst
    rw [map_cons, stack]
    cases seg with
    | nil => rfl
    | cons d seg =>
      obtain ⟨⟨hparent, hheight⟩, htail⟩ := isChain_cons_cons.mp h
      have hstack := ih htail rfl
      rw [hparent, hheight] at hstack
      rw [hstack]

theorem mapM_getIdx (h : a + m ≤ l.length) :
    (List.range' a m).mapM (getIdx l) = .ok ((l.drop a).take m) := by
  induction m generalizing a with
  | zero => rfl
  | succ m ih =>
    have hlt : a < l.length := by omega
    rw [List.range'_succ, mapM_cons, getIdx_ok (getElem?_eq_getElem hlt), ok_bind, ih (by omega), ok_bind,
      drop_eq_getElem_cons hlt, take_succ_cons]
    rfl

theorem findSome?_eq_of_forall {α β : Type} {f : α → Option β} {l : List α} {v : β}
    (hall : ∀ x ∈ l, f x = none ∨ f x = some v) (hsome : ∃ x ∈ l, f x ≠ none) : l.findSome? f = some v := by
  induction l with
  | nil => exact nomatch hsome
  | cons a l ih =>
    rw [findSome?_cons]
    rcases hall a mem_cons_self with hnone | hv
    · rw [hnone]
      obtain ⟨x, hx, hne⟩ := hsome
      rcases mem_cons.mp hx with rfl | hx
      · exact absurd hnone hne
      · exact ih (fun y hy => hall y (mem_cons_of_mem a hy)) ⟨x, hx, hne⟩
    · rw [hv]

theorem heightAbove_eq (hrooted : ∀ branch ∈ branches, Rooted parentOf childHeight branch)
    (hbounded : ∀ branch ∈ branches, ProperSegment branch)
    (hmentioned : ∃ branch ∈ branches, ∃ b ∈ branch, b.parentHash = parentHash ∨ b.thisHash = parentHash) :
    heightAbove branches parentHash = some (some (childHeight parentHash)) := by
  refine findSome?_eq_of_forall (fun b hb => ?_) ?_
  · obtain ⟨branch, hbranch, hb⟩ := mem_flatten.mp hb
    obtain ⟨-, hheight, habove⟩ := hrooted branch hbranch b hb
    have hlt := (hbounded branch hbranch).bounded b hb
    split_ifs with hparent hthis
    · exact .inr (by rw [hheight, hparent])
    · exact .inr (by rw [← hthis, habove])
    · exact .inl rfl
  · obtain ⟨branch, hbranch, b, hb, hhash⟩ := hmentioned
    refine ⟨b, mem_flatten.mpr ⟨branch, hbranch, hb⟩, ?_⟩
    have hlt := (hbounded branch hbranch).bounded b hb
    split_ifs <;> simp_all

theorem readBranch_eq (debug : Bool) (tipHeight : ℕ) (branches : List (List ShadowBlock))
    (h : Describes hashes c run seg) (hlast : seg.getLast? = some last) (hn : run.branch.branchEndIdx ≤ n)
    (hle : n ≤ hashes.length) (hrooted : Rooted parentOf childHeight seg)
    (hheight : run.branch.parentHashIdx < c → ∀ b ∈ seg.head?, heightAbove branches b.parentHash = some (some (childHeight b.parentHash)))
    (rest : List UInt8) :
    readBranch debug tipHeight ((hashes.take n).flatMap List.Vector.toList) c branches (run.write c ++ rest) =
      if branches = [] ∧ last.thisHeight ≠ tipHeight then malformed debug
      else .ok (run.branch.branchEndIdx, branches ++ [seg], rest) := by
  obtain ⟨first, hfirst⟩ := Option.isSome_iff_exists.mp (isSome_head?.mpr h.proper.ne_nil)
  obtain ⟨hparent, hrunHeight⟩ := h.onParent first hfirst
  have hkey := h.proper.segment.consecutive.key_last hfirst hlast
  have hbound := h.proper.bounded _ (mem_of_getLast? hlast)
  have hlt := h.lt_end
  have hearlier := h.earlier
  have hfits := h.fits
  have hends := h.ends
  have hpos := length_pos_iff.mpr h.proper.ne_nil
  have hlength : ((hashes.take n).flatMap List.Vector.toList).length = n * 32 := by
    rw [length_flatMap_toList, length_take_of_le hle]
  have hparentGet : getIdx (hashes.take n) run.branch.parentHashIdx = .ok first.parentHash := by
    rw [getIdx_ok]
    rw [getElem?_take, if_pos (by omega), hparent]
  have hread := Reads.readOr debug reads_branch (a := run.branch) ⟨by omega, by omega⟩
    ((if run.branch.parentHashIdx = c then leBytes 4 run.height else []) ++ rest)
  -- the height comes with the record or from the branches so far
  have hstart : branchStart debug c run.branch.parentHashIdx first.parentHash branches
      ((if run.branch.parentHashIdx = c then leBytes 4 run.height else []) ++ rest) =
        .ok (c + run.lead c, first.thisHeight, rest) := by
    rw [branchStart, if_neg (by omega), lead]
    split_ifs with hnew
    · rw [Reads.readOr debug (reads_readLE 4) (by omega) rest, hrunHeight]
      rfl
    · rw [hheight (by omega) first hfirst, ← (hrooted first (mem_of_head? hfirst)).2.1]
      rfl
  have htake : ((hashes.take n).drop (c + run.lead c)).take seg.length = seg.map ShadowBlock.thisHash := by
    rw [← h.taken, drop_take, take_take, Nat.min_eq_left (by omega)]
  rw [readBranch, chunksExact_flatMap_toList (by decide), StatusRun.write, append_assoc, hread, ok_bind]
  dsimp only
  rw [hlength, if_neg (by omega), if_neg (by omega), hparentGet, mapError_ok, ok_bind, hstart, ok_bind]
  dsimp only
  have hcount : run.branch.branchEndIdx - (c + run.lead c) = seg.length := by omega
  have hend : first.thisHeight + seg.length - 1 = last.thisHeight := by omega
  rw [hcount, if_neg (by omega), if_neg (by omega), hend, mapM_getIdx (by rw [length_take_of_le hle]; omega),
    mapError_ok, ok_bind, htake, stack_thisHash h.proper.segment hfirst]
  rfl

/-- Every hash before place `c` is that of a block of the branches or of a parent of one. -/
def Mentioned (hashes : List BlockHash) (c : ℕ) (branches : List (List ShadowBlock)) : Prop :=
  ∀ i < c, ∀ hash ∈ hashes[i]?, ∃ branch ∈ branches, ∃ b ∈ branch, b.parentHash = hash ∨ b.thisHash = hash

theorem Mentioned.add (h : Mentioned hashes c branches) (hdescribes : Describes hashes c run seg) :
    Mentioned hashes run.branch.branchEndIdx (branches ++ [seg]) := by
  intro i hi hash hhash
  rcases Nat.lt_or_ge i c with hlt | hge
  · obtain ⟨branch, hbranch, hb⟩ := h i hlt hash hhash
    exact ⟨branch, mem_append_left _ hbranch, hb⟩
  refine ⟨seg, by simp, ?_⟩
  have hends := hdescribes.ends
  rcases Nat.lt_or_ge i (c + run.lead c) with hlead | hplace
  · -- the new parent
    obtain ⟨first, hfirst⟩ := isSome_iff_exists.mp (isSome_head?.mpr hdescribes.proper.ne_nil)
    refine ⟨first, mem_of_head? hfirst, .inl ?_⟩
    obtain ⟨hparent, -⟩ := hdescribes.onParent first hfirst
    have hnew : run.branch.parentHashIdx = i := by
      rw [lead] at hlead
      split_ifs at hlead <;> omega
    exact some.inj ((hnew ▸ hparent).symm.trans hhash)
  · have hget : (seg.map ShadowBlock.thisHash)[i - (c + run.lead c)]? = some hash := by
      rw [← hdescribes.taken, getElem?_take, if_pos (by omega), getElem?_drop, Nat.add_sub_cancel' hplace, hhash]
    obtain ⟨b, hb, heq⟩ := mem_map.mp (mem_of_getElem? hget)
    exact ⟨b, hb, .inr heq⟩

theorem writeAll_ne_nil (c : ℕ) (run : StatusRun) (runs : List StatusRun) : writeAll c (run :: runs) ≠ [] := by
  refine ne_nil_of_length_pos ?_
  simp only [writeAll, StatusRun.write, PacketHashBranch.write, length_append, leBytes_length]
  omega

theorem readBranches_eq {tipHeight fuel : ℕ} (h : Described hashes c runs segs c') (hle : c' ≤ n)
    (hn : n ≤ hashes.length) (hrooted : ∀ seg ∈ branches ++ segs, Rooted parentOf childHeight seg)
    (hproper : ∀ branch ∈ branches, ProperSegment branch) (hmentioned : Mentioned hashes c branches)
    (htip : branches = [] → ∀ seg ∈ segs.head?, ∀ last ∈ seg.getLast?, last.thisHeight = tipHeight)
    (hfuel : (writeAll c runs).length ≤ fuel) :
    readBranches debug tipHeight ((hashes.take n).flatMap List.Vector.toList) fuel c branches (writeAll c runs) =
      .ok (branches ++ segs) := by
  induction h generalizing branches fuel with
  | nil c =>
    rw [append_nil, writeAll]
    cases fuel <;> rfl
  | @cons c c' run seg runs segs head tail ih =>
    have hendLe : run.branch.branchEndIdx ≤ n := tail.le.trans hle
    obtain ⟨first, hfirst⟩ := isSome_iff_exists.mp (isSome_head?.mpr head.proper.ne_nil)
    have hlast := getLast?_eq_some_getLast head.proper.ne_nil
    have hread := readBranch_eq debug tipHeight branches head hlast hendLe hn (hrooted seg (by simp))
      (fun hlt b hb => heightAbove_eq (fun branch hbranch => hrooted branch (mem_append_left _ hbranch)) hproper
        (hmentioned _ hlt _ (head.onParent b hb).1))
      (writeAll run.branch.branchEndIdx runs)
    rw [if_neg fun h => h.2 (htip h.1 seg rfl _ hlast)] at hread
    have hlength : (writeAll c (run :: runs)).length = (run.write c).length + (writeAll run.branch.branchEndIdx runs).length := by
      rw [writeAll, length_append]
    have hpos : 0 < (run.write c).length := by
      simp only [StatusRun.write, PacketHashBranch.write, length_append, leBytes_length]
      omega
    obtain ⟨fuel, rfl⟩ : ∃ k, fuel = k + 1 := Nat.exists_eq_add_one.mpr (by omega)
    obtain ⟨b, buf, hbuf⟩ := exists_cons_of_ne_nil (writeAll_ne_nil c run runs)
    rw [hbuf, readBranches, ← hbuf, writeAll, hread, ok_bind]
    dsimp only
    rw [ih hle, append_assoc]
    · rfl
    · rwa [append_assoc]
    · intro branch hbranch
      rcases mem_append.mp hbranch with hbranch | hbranch
      · exact hproper branch hbranch
      · exact (mem_singleton.mp hbranch) ▸ head.proper
    · exact hmentioned.add head
    · exact fun hempty => absurd hempty (by simp)
    · omega

/-! ### Writing as far as there is room -/

variable {bufLen o : ℕ}

theorem length_write (c : ℕ) (run : StatusRun) : (run.write c).length = 4 + run.lead c * 4 := by
  simp only [StatusRun.write, StatusRun.lead, PacketHashBranch.write, length_append, leBytes_length]
  split_ifs <;> simp

/-- The record of the first `m` blocks of the segment. -/
def StatusRun.cut (run : StatusRun) (endIdx : ℕ) : StatusRun := ⟨⟨run.branch.parentHashIdx, endIdx⟩, run.height⟩

theorem Describes.cut (h : Describes hashes c run seg) (hpos : 0 < m) (hle : m ≤ seg.length) :
    Describes hashes c (run.cut (c + run.lead c + m)) (seg.take m) where
  proper := by
    refine ⟨fun hnil => ?_, List.IsChain.take h.proper.segment m, fun b hb => h.proper.bounded b (mem_of_mem_take hb)⟩
    have := congrArg List.length hnil
    rw [length_take, length_nil] at this
    omega
  onParent b hb := by
    rw [head?_take, if_neg (by omega)] at hb
    exact h.onParent b hb
  earlier := h.earlier
  taken := by
    change (hashes.drop (c + run.lead c)).take (seg.take m).length = _
    rw [map_take, ← h.taken, take_take, length_take]
  ends := by
    change c + run.lead c + m = c + run.lead c + (seg.take m).length
    rw [length_take_of_le hle]
  fits := by
    have := h.ends
    have := h.fits
    change c + run.lead c + m < 2 ^ 16
    omega

theorem writeRuns_cons (hashCount : ℕ) (run : StatusRun) (runs : List StatusRun) :
    writeRuns bufLen hashCount o c (run :: runs) =
      if bufLen < o + 4 + run.lead c * 8 + (c + run.lead c + 1) * 32 then .ok ([], c)
      else do
        let endIdx ← (if bufLen < o + 4 + run.lead c * 8 + run.branch.branchEndIdx * 32 then do
            let endIdx ← toU16 (c + (bufLen - (o + 4 + run.lead c * 8 + c * 32)) / 32)
            ensure (endIdx ≤ hashCount)
            return endIdx
          else return run.branch.branchEndIdx)
        let bytes ← writeAt bufLen o ((run.cut endIdx).write c)
        let (rest, c') ← writeRuns bufLen hashCount (o + bytes.length) endIdx runs
        return (bytes ++ rest, c') := by
  have hsize : (if run.branch.parentHashIdx = c then sizeOfHeightRef else 0) = run.lead c * 8 := by
    rw [StatusRun.lead]
    split_ifs <;> rfl
  rw [writeRuns]
  simp only [hsize, sizeOfBranch]
  refine if_congr (by rw [StatusRun.lead]; split_ifs <;> omega) rfl ?_
  rfl

theorem writeRuns_stop (hashCount : ℕ) (runs : List StatusRun) (h : bufLen < o + 4 + (c + 1) * 32) :
    writeRuns bufLen hashCount o c runs = .ok ([], c) := by
  cases runs with
  | nil => rfl
  | cons run runs => rw [writeRuns_cons, if_pos (by omega)]

theorem writeRuns_whole (hashCount : ℕ) (runs : List StatusRun) (h : Describes hashes c run seg)
    (hroom : o + 4 + run.lead c * 8 + run.branch.branchEndIdx * 32 ≤ bufLen) :
    writeRuns bufLen hashCount o c (run :: runs) = (do
      let (rest, c') ← writeRuns bufLen hashCount (o + (run.write c).length) run.branch.branchEndIdx runs
      return (run.write c ++ rest, c')) := by
  have hends := h.ends
  have hpos := length_pos_iff.mpr h.proper.ne_nil
  have hwrite : writeAt bufLen o (run.write c) = .ok (run.write c) := by
    refine if_pos ?_
    rw [length_write]
    omega
  rw [writeRuns_cons, if_neg (by omega), if_neg (by omega)]
  change (writeAt bufLen o (run.write c) >>= _) = _
  rw [hwrite]
  rfl

theorem writeRuns_cut (runs : List StatusRun) (h : Describes hashes c run seg)
    (hstart : o + 4 + run.lead c * 8 + (c + run.lead c + 1) * 32 ≤ bufLen)
    (hroom : bufLen < o + 4 + run.lead c * 8 + run.branch.branchEndIdx * 32) : ∃ m, 0 < m ∧ m < seg.length ∧
      writeRuns bufLen hashes.length o c (run :: runs) =
        .ok ((run.cut (c + run.lead c + m)).write c, c + run.lead c + m) ∧
      o + 4 + run.lead c * 8 + (c + run.lead c + m) * 32 ≤ bufLen := by
  have hends := h.ends
  have hendLe := h.end_le
  have hfits := h.fits
  have hlead : run.lead c ≤ 1 := by
    rw [lead]
    split_ifs <;> omega
  set rem := (bufLen - (o + 4 + run.lead c * 8 + c * 32)) / 32 with hrem
  obtain ⟨m, hm⟩ : ∃ m, rem = run.lead c + m := ⟨rem - run.lead c, by omega⟩
  have hwrite : writeAt bufLen o ((run.cut (c + rem)).write c) = .ok ((run.cut (c + rem)).write c) := by
    refine if_pos ?_
    rw [length_write]
    change o + (4 + run.lead c * 4) ≤ bufLen
    omega
  refine ⟨m, by omega, by omega, ?_, by omega⟩
  rw [writeRuns_cons, if_neg (by omega), if_pos hroom, ← hrem, toU16_ok (by omega), ok_bind, ensure_ok (by omega), ok_bind,
    pure_bind, hwrite, ok_bind, length_write, writeRuns_stop, Nat.add_assoc c, ← hm]
  · simp
  · change bufLen < o + (4 + run.lead c * 4) + 4 + (c + rem + 1) * 32
    omega

theorem writeRuns_eq (h : Described hashes c runs segs hashes.length) (ho : o + c * 32 ≤ bufLen) : ∃ runs' segs' c',
    writeRuns bufLen hashes.length o c runs = .ok (writeAll c runs', c') ∧ Described hashes c runs' segs' c' ∧
      (∀ seg' ∈ segs', ∃ seg ∈ segs, seg' <+: seg) ∧ runs'.length ≤ runs.length ∧
      o + (writeAll c runs').length + c' * 32 ≤ bufLen ∧
      (o + 12 * runs.length + hashes.length * 32 ≤ bufLen → segs' = segs) := by
  generalize hn : hashes.length = n at h
  induction h generalizing o with
  | nil c => exact ⟨[], [], c, rfl, .nil c, fun _ h => (nomatch h), le_rfl, ho, fun _ => rfl⟩
  | @cons c c' run seg runs segs head tail ih =>
    have hends := head.ends
    have hendLe := head.end_le
    have hpos := length_pos_iff.mpr head.proper.ne_nil
    have hlead : run.lead c ≤ 1 := by
      rw [lead]
      split_ifs <;> omega
    rcases Nat.lt_or_ge bufLen (o + 4 + run.lead c * 8 + (c + run.lead c + 1) * 32) with hstop | hstart
    · refine ⟨[], [], c, ?_, .nil c, fun _ h => (nomatch h), Nat.zero_le _, ho, fun hlarge => ?_⟩
      · rw [writeRuns_cons, if_pos hstop]
        rfl
      · rw [length_cons] at hlarge
        omega
    rcases Nat.lt_or_ge bufLen (o + 4 + run.lead c * 8 + run.branch.branchEndIdx * 32) with hcut | hwhole
    · obtain ⟨m, hm, hlt, hwrite, hfits⟩ := writeRuns_cut runs head hstart hcut
      refine ⟨[run.cut (c + run.lead c + m)], [seg.take m], c + run.lead c + m, ?_, .cons (head.cut hm hlt.le) (.nil _), ?_, ?_, ?_, ?_⟩
      · rw [← hn, hwrite, writeAll, writeAll, append_nil]
      · intro seg' hseg'
        obtain rfl := mem_singleton.mp hseg'
        exact ⟨seg, mem_cons_self, take_prefix m seg⟩
      · simp
      · rw [writeAll, writeAll, append_nil, length_write]
        change o + (4 + run.lead c * 4) + _ ≤ bufLen
        omega
      · intro hlarge
        rw [length_cons] at hlarge
        omega
    · obtain ⟨runs', segs', c'', hwrite, hdescribed, hparts, hcount, hfits, hall⟩ :=
        ih (o := o + (run.write c).length) (by rw [length_write]; omega) hn
      refine ⟨run :: runs', seg :: segs', c'', ?_, .cons head hdescribed, ?_, Nat.succ_le_succ hcount, ?_, fun hlarge => ?_⟩
      · rw [writeRuns_whole _ runs head hwhole, hwrite]
        rfl
      · intro seg' hseg'
        rcases mem_cons.mp hseg' with rfl | hseg'
        · exact ⟨seg', mem_cons_self, prefix_refl _⟩
        · obtain ⟨seg'', hmem, hpart⟩ := hparts seg' hseg'
          exact ⟨seg'', mem_cons_of_mem _ hmem, hpart⟩
      · rw [writeAll, length_append, ← Nat.add_assoc]
        exact hfits
      · rw [length_cons] at hlarge
        rw [hall]
        rw [length_write]
        omega

theorem length_writeAll_le (c : ℕ) (runs : List StatusRun) : (writeAll c runs).length ≤ 8 * runs.length := by
  induction runs generalizing c with
  | nil => exact le_rfl
  | cons run runs ih =>
    have hlead : run.lead c ≤ 1 := by
      rw [lead]
      split_ifs <;> omega
    have := ih run.branch.branchEndIdx
    rw [writeAll, length_append, length_write, length_cons]
    omega

/-! ### Statuses -/

theorem read_eq (debug : Bool) {tipHeight finalizedHeight : ℕ} (htip : tipHeight < 2 ^ 32)
    (hfinalized : finalizedHeight < 2 ^ 32) (hoffset : hdrLen + bytes.length < 2 ^ 16) :
    NearTipBranches.read debug (PacketHashTreeHdr.write ⟨tipHeight, finalizedHeight, hdrLen + bytes.length⟩ ++ (bytes ++ hashBytes)) = (do
      let branches ← readBranches debug tipHeight hashBytes bytes.length 0 [] bytes
      return ⟨tipHeight, finalizedHeight, branches⟩) := by
  have hhdr : (PacketHashTreeHdr.write ⟨tipHeight, finalizedHeight, hdrLen + bytes.length⟩).length = hdrLen := by
    simp [PacketHashTreeHdr.write, hdrLen]
  have hslice : slice (PacketHashTreeHdr.write ⟨tipHeight, finalizedHeight, hdrLen + bytes.length⟩ ++ (bytes ++ hashBytes))
      (hdrLen + bytes.length)
      (PacketHashTreeHdr.write ⟨tipHeight, finalizedHeight, hdrLen + bytes.length⟩ ++ (bytes ++ hashBytes)).length =
        .ok hashBytes := by
    rw [slice_ok (by simp only [length_append]; omega) le_rfl, ← append_assoc,
      drop_left' (by rw [length_append, hhdr])]
    refine congrArg Except.ok (take_of_length_le ?_)
    simp only [length_append]
    omega
  rw [NearTipBranches.read, Reads.readOr debug reads_hdr ⟨htip, hfinalized, hoffset⟩, ok_bind]
  dsimp only
  rw [Nat.add_sub_cancel_left, slice_ok (Nat.zero_le _) (by rw [length_append]; omega), mapError_ok, ok_bind, hslice,
    mapError_ok, ok_bind, drop_zero, Nat.sub_zero, take_left]

/-- Chains as they are kept near the tip: segments of at most a hundred real blocks. -/
structure StatusChains (parentOf : BlockHash → BlockHash) (childHeight : BlockHash → ℕ) (s : NearTipChains) : Prop where
  ne_nil : s.chains ≠ []
  proper : ∀ c ∈ s.chains, ProperSegment c.blocks
  short : ∀ c ∈ s.chains, c.blocks.length ≤ nearTipChainLen
  rooted : ∀ c ∈ s.chains, Rooted parentOf childHeight c.blocks
  finalized : ∀ tip, s.tipHeight = some tip → s.finalizedHeight ≤ tip

def enoughRoom (s : NearTipChains) : ℕ :=
  hdrLen + 12 * s.chains.length + (s.chains.map fun c => c.blocks.length + 1).sum * 32

/-- What is written is read back with the heights, the best chain as the first branch, only blocks of the chains and, if
the buffer is large enough, all of them. -/
def RoundTrips (debug : Bool) (s : NearTipChains) (bufLen : ℕ) : Prop :=
  ∃ bytes tree, s.write bufLen = .ok bytes ∧ NearTipBranches.read debug bytes = .ok tree ∧
    s.tipHeight = some tree.tipHeight ∧ tree.finalizedHeight = s.finalizedHeight ∧
    tree.branches.head? = s.chains.head?.map NearTipChain.blocks ∧
    (∀ branch ∈ tree.branches, ∀ b ∈ branch, ∃ c ∈ s.chains, b ∈ c.blocks) ∧
    (enoughRoom s ≤ bufLen → Covered s.chains tree.branches)

def HasRoom (s : NearTipChains) (bufLen : ℕ) : Prop :=
  ∀ best ∈ s.chains.head?, hdrLen + sizeOfBranch + sizeOfHeightRef + (best.blocks.length + 1) * 32 ≤ bufLen

variable {s : NearTipChains} {debug : Bool}

theorem StatusChains.exists_best (h : StatusChains parentOf childHeight s) : ∃ best rest last, s.chains = best :: rest ∧
    best.blocks.getLast? = some last ∧ s.tipHeight = some last.thisHeight ∧ last.thisHeight + 1 < 2 ^ 32 := by
  obtain ⟨best, rest, hchains⟩ := exists_cons_of_ne_nil h.ne_nil
  have hproper := h.proper best (by rw [hchains]; exact mem_cons_self)
  refine ⟨best, rest, _, hchains, getLast?_eq_some_getLast hproper.ne_nil, ?_, hproper.bounded _ (getLast_mem _)⟩
  simp [NearTipChains.tipHeight, hchains, getLast?_eq_some_getLast hproper.ne_nil]

theorem StatusChains.sum_le (h : StatusChains parentOf childHeight s) :
    (s.chains.map fun c => c.blocks.length + 1).sum ≤ s.chains.length * (nearTipChainLen + 1) := by
  have hle : ∀ n ∈ s.chains.map fun c => c.blocks.length + 1, n ≤ nearTipChainLen + 1 := by
    intro n hn
    obtain ⟨c, hc, rfl⟩ := mem_map.mp hn
    exact Nat.succ_le_succ (h.short c hc)
  have := sum_le_card_nsmul _ _ hle
  rwa [length_map, smul_eq_mul] at this

theorem write_eq (runs' : List StatusRun) {last : ShadowBlock} (hmin : minPacketSize ≤ bufLen)
    (htip : s.tipHeight = some last.thisHeight) (hfinalized : s.finalizedHeight ≤ last.thisHeight)
    (hfold : s.chains.foldlM addRun ([], []) = .ok (hashes, runs))
    (hwrite : writeRuns bufLen hashes.length hdrLen 0 runs = .ok (writeAll 0 runs', c'))
    (hoffset : hdrLen + (writeAll 0 runs').length < 2 ^ 16) (hc : c' ≤ hashes.length)
    (hfits : hdrLen + (writeAll 0 runs').length + c' * 32 ≤ bufLen) :
    s.write bufLen = .ok (PacketHashTreeHdr.write ⟨last.thisHeight, s.finalizedHeight, hdrLen + (writeAll 0 runs').length⟩ ++
      (writeAll 0 runs' ++ (hashes.take c').flatMap List.Vector.toList)) := by
  have hhashes : writeAt bufLen (hdrLen + (writeAll 0 runs').length) ((hashes.take c').flatMap List.Vector.toList) =
      .ok ((hashes.take c').flatMap List.Vector.toList) := by
    refine if_pos ?_
    rw [length_flatMap_toList, length_take_of_le hc]
    exact hfits
  rw [NearTipChains.write, ensure_ok hmin, ok_bind, unwrap_eq_ok.mpr htip, ok_bind, ensure_ok hfinalized, ok_bind, hfold, ok_bind]
  dsimp only
  rw [hwrite, ok_bind]
  dsimp only
  rw [toU16_ok hoffset, ok_bind, slice_ok (Nat.zero_le _) hc, ok_bind, drop_zero, Nat.sub_zero, hhashes]
  rfl

theorem StatusChains.roundTrips (h : StatusChains parentOf childHeight s) (hmin : minPacketSize ≤ bufLen)
    (hcount : s.chains.length ≤ 648) (hgap : NoGap s.chains) (hroom : HasRoom s bufLen) : RoundTrips debug s bufLen := by
  have hsum : (s.chains.map fun c => c.blocks.length + 1).sum < 2 ^ 16 := by
    have hle := h.sum_le
    have hbound := Nat.mul_le_mul_right (nearTipChainLen + 1) hcount
    have hmax : 648 * (nearTipChainLen + 1) < 2 ^ 16 := by decide
    omega
  obtain ⟨best, rest, last, hchains, hlast, htip, htipLt⟩ := h.exists_best
  obtain ⟨hashes, runs, segs, hfold, hcollected, hcovered⟩ := exists_collected parentOf childHeight h.proper hsum
  have hdescribed := hcollected.described
  have hshort := hcollected.short
  have hlengths := hdescribed.length_eq.trans hcollected.parts.length_eq
  have hfirst := hcollected.first
  have hparts {seg : List ShadowBlock} (hseg : seg ∈ segs) : ∃ c ∈ s.chains, seg ⊆ c.blocks := by
    obtain ⟨i, hi, rfl⟩ := mem_iff_getElem.mp hseg
    have hi' : i < s.chains.length := hcollected.parts.length_eq ▸ hi
    exact ⟨_, getElem_mem hi', (hcollected.parts.get hi hi').subset⟩
  -- the first record is that of the best chain, and is written whole
  generalize hn : hashes.length = n at hdescribed
  cases hdescribed with
  | nil =>
    rw [hchains] at hlengths
    exact nomatch hlengths
  | @cons _ _ run seg runs segs head tail =>
    subst hn
    obtain rfl : seg = best.blocks := by
      rw [hchains] at hfirst
      exact some.inj hfirst
    have hlead : run.lead 0 = 1 := if_pos (Nat.le_zero.mp head.earlier)
    have hends := head.ends
    have hroom : hdrLen + 4 + 8 + (best.blocks.length + 1) * 32 ≤ bufLen := hroom best (by rw [hchains]; rfl)
    have hwhole : hdrLen + 4 + run.lead 0 * 8 + run.branch.branchEndIdx * 32 ≤ bufLen := by omega
    obtain ⟨runs', segs', c', hwrite, hdescribed, hcut, hruns, hfits, hall⟩ :=
      writeRuns_eq tail (show hdrLen + (run.write 0).length + run.branch.branchEndIdx * 32 ≤ bufLen by
        rw [length_write]
        omega)
    have hdescribed := Described.cons head hdescribed
    have hlengthAll : (writeAll 0 (run :: runs')).length = (run.write 0).length + (writeAll run.branch.branchEndIdx runs').length := by
      rw [writeAll, length_append]
    have hlength := length_writeAll_le 0 (run :: runs')
    rw [length_cons] at hlength hlengths
    have hoffset : hdrLen + (writeAll 0 (run :: runs')).length < 2 ^ 16 := by
      have : hdrLen = 10 := rfl
      omega
    have hbytes := write_eq (run :: runs') hmin htip (h.finalized _ htip) hfold
      (show writeRuns bufLen hashes.length hdrLen 0 (run :: runs) = .ok (writeAll 0 (run :: runs'), c') by
        rw [writeRuns_whole _ runs head hwhole, hwrite]
        rfl) hoffset (hdescribed.end_le (Nat.zero_le _)) (by omega)
    -- what is written is in the chains
    have hgenuine {seg : List ShadowBlock} (hseg : seg ∈ best.blocks :: segs') : ∃ c ∈ s.chains, seg ⊆ c.blocks := by
      rcases mem_cons.mp hseg with rfl | hseg
      · exact hparts mem_cons_self
      · obtain ⟨whole, hwholeMem, hpart⟩ := hcut seg hseg
        obtain ⟨c, hc, hsub⟩ := hparts (mem_cons_of_mem _ hwholeMem)
        exact ⟨c, hc, fun b hb => hsub (hpart.subset hb)⟩
    have hread : readBranches debug last.thisHeight ((hashes.take c').flatMap List.Vector.toList)
        (writeAll 0 (run :: runs')).length 0 [] (writeAll 0 (run :: runs')) = .ok ([] ++ best.blocks :: segs') :=
      readBranches_eq hdescribed le_rfl (hdescribed.end_le (Nat.zero_le _))
      (fun seg hseg b hb => by
        obtain ⟨c, hc, hsub⟩ := hgenuine hseg
        exact h.rooted c hc b (hsub hb))
      (fun _ hbranch => nomatch hbranch) (fun _ hi => absurd hi (Nat.not_lt_zero _))
      (fun _ seg hseg last' hlast' => by
        obtain rfl := some.inj hseg
        exact congrArg ShadowBlock.thisHeight (some.inj (hlast'.symm.trans hlast))) le_rfl
    refine ⟨_, ⟨last.thisHeight, s.finalizedHeight, best.blocks :: segs'⟩, hbytes, ?_, htip, rfl, ?_, ?_, fun henough => ?_⟩
    · have := h.finalized _ htip
      rw [read_eq debug (by omega) (by omega) hoffset, hread]
      rfl
    · rw [hchains]
      rfl
    · intro branch hbranch b hb
      obtain ⟨c, hc, hsub⟩ := hgenuine hbranch
      exact ⟨c, hc, hsub hb⟩
    · rw [hall]
      · exact hcovered h.rooted hgap
      · rw [length_write]
        rw [enoughRoom] at henough
        omega

theorem RoundTrips.hasRoom (hround : RoundTrips debug s bufLen) (h : StatusChains parentOf childHeight s)
    (hmin : minPacketSize ≤ bufLen) : HasRoom s bufLen := by
  obtain ⟨best, rest, last, hchains, hlast, htip, htipLt⟩ := h.exists_best
  have hbest : best ∈ s.chains := hchains ▸ mem_cons_self
  have hproper := h.proper best hbest
  have hshort := h.short best hbest
  obtain ⟨first, hfirst⟩ := isSome_iff_exists.mp (isSome_head?.mpr hproper.ne_nil)
  intro best' hbest'
  obtain rfl : best = best' := by
    rw [hchains] at hbest'
    exact some.inj hbest'
  refine not_lt.mp fun hlt => ?_
  obtain ⟨bytes, tree, hwrite, hread, -⟩ := hround
  obtain ⟨⟨hashes, runs⟩, hcollect⟩ : ∃ collected, s.chains.foldlM addRun ([], []) = .ok collected := by
    obtain ⟨_, -, hrest⟩ := bind_eq_ok.mp hwrite
    obtain ⟨_, -, hrest⟩ := bind_eq_ok.mp hrest
    obtain ⟨_, -, hrest⟩ := bind_eq_ok.mp hrest
    obtain ⟨collected, hcollect, -⟩ := bind_eq_ok.mp hrest
    exact ⟨collected, hcollect⟩
  have hsizes : hdrLen = 10 ∧ sizeOfBranch = 4 ∧ sizeOfHeightRef = 8 ∧ minPacketSize = 3250 ∧ nearTipChainLen = 100 :=
    ⟨rfl, rfl, rfl, rfl, rfl⟩
  -- the first record is that of the best chain
  obtain ⟨run, runs, rfl, hdescribes⟩ : ∃ run runs', runs = run :: runs' ∧ Describes hashes 0 run best.blocks := by
    have hfold := hcollect
    rw [hchains] at hfold
    obtain ⟨_, hadd, hfold⟩ := foldlM_cons_eq_ok.mp hfold
    obtain ⟨lead, baseIdx, run, heq, hdescribes, -, hcases⟩ := addRun_eq [] [] hproper hfirst (by
      rw [length_nil]
      omega)
    obtain rfl := Except.ok.inj (heq.symm.trans hadd)
    obtain ⟨more, runs', heq⟩ := foldlM_addRun_extends hfold
    obtain ⟨rfl, rfl⟩ := Prod.mk.inj heq
    obtain ⟨-, rfl⟩ := hcases.resolve_right fun h => h.2.1 rfl
    exact ⟨run, runs', rfl, hdescribes.append more⟩
  have hlead : run.lead 0 = 1 := if_pos (Nat.le_zero.mp hdescribes.earlier)
  have hends := hdescribes.ends
  -- it is cut
  obtain ⟨m, hm, hmlt, hcut, hfits⟩ := writeRuns_cut runs hdescribes
    (show hdrLen + 4 + run.lead 0 * 8 + (0 + run.lead 0 + 1) * 32 ≤ bufLen by omega) (by omega)
  have hcutDescribes := hdescribes.cut hm hmlt.le
  have hcutLe := hcutDescribes.end_le
  generalize hcutRun : run.cut (0 + run.lead 0 + m) = cut at hcut hcutDescribes hcutLe
  have hcutLength : (cut.write 0).length = 8 := by
    rw [length_write, ← hcutRun]
    change 4 + run.lead 0 * 4 = 8
    omega
  have hall : writeAll 0 [cut] = cut.write 0 := append_nil _
  have hoffset : hdrLen + (writeAll 0 [cut]).length < 2 ^ 16 := by
    rw [hall]
    omega
  have hbytes := write_eq [cut] hmin htip (h.finalized _ htip) hcollect (by rw [hcut, hall]) hoffset
    (by rw [← hcutRun] at hcutLe; exact hcutLe) (by rw [hall]; omega)
  obtain rfl := Except.ok.inj (hwrite.symm.trans hbytes)
  -- and its last block is not the tip
  have hlastCut := getLast?_eq_some_getLast hcutDescribes.proper.ne_nil
  have hkey := hproper.segment.consecutive.key_last hfirst hlast
  have hkeyCut := hcutDescribes.proper.segment.consecutive.key_last (by rw [head?_take, if_neg (by omega), hfirst]) hlastCut
  rw [length_take_of_le hmlt.le] at hkeyCut
  have hmalformed := readBranch_eq (n := 0 + run.lead 0 + m) debug last.thisHeight [] hcutDescribes hlastCut
    (by rw [← hcutRun]; exact le_rfl) (by rw [← hcutRun] at hcutLe; exact hcutLe)
    (fun b hb => h.rooted best hbest b (mem_of_mem_take hb)) (fun hlt => absurd hlt (Nat.not_lt_zero _)) []
  rw [if_pos ⟨rfl, by omega⟩, append_nil, ← hall] at hmalformed
  have := h.finalized _ htip
  rw [read_eq debug (by omega) (by omega) hoffset] at hread
  obtain ⟨branches, hbranches, -⟩ := bind_eq_ok.mp hread
  obtain ⟨b, buf, hbuf⟩ := exists_cons_of_ne_nil (writeAll_ne_nil 0 cut [])
  rw [hbuf, length_cons, readBranches, ← hbuf, hmalformed] at hbranches
  exact nomatch hbranches

/-- A chain of `k` blocks from the genesis block. -/
def lineOf (k : ℕ) : NearTipChains := ⟨0, [⟨k, (List.range k).map fun n => ⟨hashOf (n + 1), hashOf n, n⟩⟩]⟩

theorem leNat_hashOf (h : n < 256) : leNat (hashOf n).toList = n := by
  have hlt : n < 256 ^ 32 := h.trans_le (Nat.pow_le_pow_right (n := 256) (by decide) (show 1 ≤ 32 by decide))
  change leNat (leBytes 32 n) = n
  rw [leNat_leBytes, Nat.mod_eq_of_lt hlt]

theorem statusChains_lineOf (hpos : 0 < k) (hle : k ≤ 100) :
    StatusChains (fun hash => hashOf (leNat hash.toList - 1)) (fun hash => leNat hash.toList) (lineOf k) where
  ne_nil := cons_ne_nil _ _
  proper c hc := by
    obtain rfl := mem_singleton.mp hc
    refine ⟨?_, ?_, fun b hb => ?_⟩
    · exact ne_nil_of_length_pos (by simpa using hpos)
    · refine isChain_iff_getElem.mpr fun i hi => ?_
      simp
    · obtain ⟨n, hn, rfl⟩ := mem_map.mp hb
      have := mem_range.mp hn
      change n + 1 < 2 ^ 32
      omega
  short c hc := by
    obtain rfl := mem_singleton.mp hc
    simpa [nearTipChainLen] using hle
  rooted c hc b hb := by
    obtain rfl := mem_singleton.mp hc
    obtain ⟨n, hn, rfl⟩ := mem_map.mp hb
    have := mem_range.mp hn
    simp only [leNat_hashOf (show n + 1 < 256 by omega), leNat_hashOf (show n < 256 by omega)]
    exact ⟨rfl, trivial, trivial⟩
  finalized _ _ := Nat.zero_le _

def lowFork : NearTipChains :=
  ⟨0, [⟨2, [⟨hashOf 3, hashOf 2, 2⟩, ⟨hashOf 4, hashOf 3, 3⟩]⟩, ⟨2, [⟨hashOf 2, hashOf 1, 1⟩, ⟨hashOf 5, hashOf 2, 2⟩]⟩]⟩

end Crosslink.NewNet

import Crosslink.Lib.Runs
import Crosslink.NewNet.NearTip

/-!
# Segments of chains

A chain near the tip and a branch of a peer's status are both segments of a block chain: blocks that follow one another,
one at each height. Over the heights they have in common they are compared block by block, from the lowest height up to
the first difference.
-/

namespace Crosslink.NewNet

open Codec Fallible Bft Runs List

def Segment (blocks : List ShadowBlock) : Prop :=
  blocks.IsChain fun p b => b.parentHash = p.thisHash ∧ b.thisHeight = p.thisHeight + 1

instance (blocks : List ShadowBlock) : Decidable (Segment blocks) :=
  inferInstanceAs (Decidable (blocks.IsChain fun p b => b.parentHash = p.thisHash ∧ b.thisHeight = p.thisHeight + 1))

/-- A segment with blocks, whose heights can be added to. -/
structure ProperSegment (blocks : List ShadowBlock) : Prop where
  ne_nil : blocks ≠ []
  segment : Segment blocks
  bounded : ∀ b ∈ blocks, b.thisHeight + 1 < 2 ^ 32

/-- What a peer tells in its status. -/
structure NearTipBranches where
  tipHeight : ℕ
  finalizedHeight : ℕ
  branches : List (List ShadowBlock)
  deriving DecidableEq

/-- The blocks with a height from `heightBgn` up to, not including, `heightEnd`. -/
def heightIntersect (checks debug : Bool) (haystack : List ShadowBlock) (heightBgn heightEnd : ℕ) :
    Except Panic (List ShadowBlock) :=
  match haystack.head?, haystack.getLast? with
  | some first, some last => do
    let haystackHeightBgn := first.thisHeight
    let haystackHeightEnd ← addU checks 32 last.thisHeight 1
    let count ← subU checks 32 haystackHeightEnd haystackHeightBgn
    if count ≠ haystack.length then
      if debug then throw .assert else return []
    else
      let olBgn := max haystackHeightBgn heightBgn
      let olEnd := min haystackHeightEnd heightEnd
      if olBgn < olEnd then slice haystack (olBgn - haystackHeightBgn) (olEnd - haystackHeightBgn) else return []
  | _, _ => return []

/-- The loop that compares the overlaps: the number of equal blocks before the first difference. -/
def equalBlocks : List ShadowBlock → List ShadowBlock → Except Panic ℕ
  | [], _ => .ok 0
  | _ :: _, [] => .error .index
  | a :: as, b :: bs => if a ≠ b then .ok 0 else (· + 1) <$> equalBlocks as bs

/-- The part of `a` over the common heights that agrees with `b`. -/
def chainIntersectPrefix (checks debug : Bool) (a b : List ShadowBlock) : Except Panic (List ShadowBlock) :=
  match a.head?, a.getLast?, b.head?, b.getLast? with
  | some aFirst, some aLast, some bFirst, some bLast => do
    let aHeightEnd ← addU checks 32 aLast.thisHeight 1
    let bHeightEnd ← addU checks 32 bLast.thisHeight 1
    let aOl ← heightIntersect checks debug a bFirst.thisHeight bHeightEnd
    let bOl ← heightIntersect checks debug b aFirst.thisHeight aHeightEnd
    if aOl = [] ∨ bOl = [] then return []
    if debug then ensure (aOl.length = bOl.length)
    let n ← equalBlocks aOl bOl
    return aOl.take n
  | _, _, _, _ => return []

/-! ### Segments -/

variable {checks debug : Bool} {as bs blocks : List ShadowBlock} {a b first last x : ShadowBlock} {lo hi : ℕ}

namespace Segment

theorem consecutive (h : Segment blocks) : Consecutive ShadowBlock.thisHeight blocks := List.IsChain.imp (fun _ _ => And.right) h

theorem stretch (h : Segment blocks) (i n : ℕ) : Segment ((blocks.drop i).take n) := (List.IsChain.drop h i).take n

theorem parentHash_getElem (h : Segment blocks) (hi : i + 1 < blocks.length) :
    blocks[i + 1].parentHash = blocks[i].thisHash := (isChain_iff_getElem.mp h i hi).1

theorem getElem?_eq_of_succ (ha : Segment as) (hb : Segment bs) (hlength : as.length = bs.length)
    (hcoherent : ∀ x ∈ as, ∀ y ∈ bs, x.thisHash = y.thisHash → x = y) (hj : j + 1 < as.length)
    (heq : as[j + 1]? = bs[j + 1]?) : as[j]? = bs[j]? := by
  have hj' : j + 1 < bs.length := hlength ▸ hj
  rw [getElem?_eq_getElem hj, getElem?_eq_getElem hj', Option.some.injEq] at heq
  rw [getElem?_eq_getElem (by omega), getElem?_eq_getElem (by omega), Option.some.injEq]
  refine hcoherent _ (getElem_mem _) _ (getElem_mem _) ?_
  rw [← ha.parentHash_getElem hj, ← hb.parentHash_getElem hj', heq]

end Segment

/-! ### Overlaps -/

theorem heightIntersect_eq (h : Segment blocks) (hfirst : blocks.head? = some first) (hlast : blocks.getLast? = some last)
    (hlt : last.thisHeight + 1 < 2 ^ 32) (lo hi : ℕ) : heightIntersect checks debug blocks lo hi =
      .ok ((blocks.drop (max first.thisHeight lo - first.thisHeight)).take
        (min (last.thisHeight + 1) hi - max first.thisHeight lo)) := by
  have hkey := h.consecutive.key_last hfirst hlast
  simp only [heightIntersect, hfirst, hlast, addU_ok hlt, ok_bind]
  rw [subU_ok (by omega), ok_bind, if_neg (by omega)]
  split_ifs with hol
  · rw [slice_ok (by omega) (by omega)]
    congr 2
    omega
  · rw [Nat.sub_eq_zero_of_le (by omega), take_zero]
    rfl

theorem equalBlocks_eq (h : as.length = bs.length) : equalBlocks as bs = .ok (agreeLen as bs) := by
  induction as generalizing bs with
  | nil => rfl
  | cons a as ih =>
    obtain ⟨b, bs, rfl⟩ := exists_cons_of_length_eq_add_one h.symm
    rw [equalBlocks, agreeLen]
    by_cases heq : a = b
    · rw [if_neg (not_not.mpr heq), if_pos heq, ih (Nat.succ.inj h)]
      rfl
    · rw [if_pos heq, if_neg heq]

theorem exists_overlap (ha : ProperSegment as) (hb : ProperSegment bs) : ∃ aOl bOl,
    chainIntersectPrefix checks debug as bs = .ok (aOl.take (agreeLen aOl bOl)) ∧ aOl.length = bOl.length ∧
      Segment aOl ∧ Segment bOl ∧ aOl ⊆ as ∧ bOl ⊆ bs ∧
      ∀ x, x ∈ as → x ∈ bs → ∃ k : ℕ, aOl[k]? = some x ∧ bOl[k]? = some x := by
  obtain ⟨has, ha, haBound⟩ := ha
  obtain ⟨hbs, hb, hbBound⟩ := hb
  have haFirst := head?_eq_some_head has
  have haLast := getLast?_eq_some_getLast has
  have hbFirst := head?_eq_some_head hbs
  have hbLast := getLast?_eq_some_getLast hbs
  have haEnd := ha.consecutive.key_last haFirst haLast
  have hbEnd := hb.consecutive.key_last hbFirst hbLast
  have haLt := haBound _ (getLast_mem has)
  have hbLt := hbBound _ (getLast_mem hbs)
  generalize as.head has = aFirst at *
  generalize as.getLast has = aLast at *
  generalize bs.head hbs = bFirst at *
  generalize bs.getLast hbs = bLast at *
  set lo := max aFirst.thisHeight bFirst.thisHeight with hlo
  set hi := min (aLast.thisHeight + 1) (bLast.thisHeight + 1) with hhi
  have hlength : ((as.drop (lo - aFirst.thisHeight)).take (hi - lo)).length =
      ((bs.drop (lo - bFirst.thisHeight)).take (hi - lo)).length := by
    simp only [length_take, length_drop]
    omega
  refine ⟨(as.drop (lo - aFirst.thisHeight)).take (hi - lo), (bs.drop (lo - bFirst.thisHeight)).take (hi - lo), ?_, hlength,
    ha.stretch _ _, hb.stretch _ _, fun _ hx => mem_of_mem_drop (mem_of_mem_take hx),
    fun _ hx => mem_of_mem_drop (mem_of_mem_take hx), fun x hxa hxb => ?_⟩
  · simp only [chainIntersectPrefix, haFirst, haLast, hbFirst, hbLast, addU_ok haLt, addU_ok hbLt, ok_bind,
      heightIntersect_eq ha haFirst haLast haLt, heightIntersect_eq hb hbFirst hbLast hbLt, max_comm bFirst.thisHeight,
      min_comm (bLast.thisHeight + 1), ← hlo, ← hhi]
    split_ifs with hnil hdebug
    · have hnil : (as.drop (lo - aFirst.thisHeight)).take (hi - lo) = [] := hnil.elim id fun h =>
        length_eq_zero_iff.mp (hlength.trans (length_eq_zero_iff.mpr h))
      rw [hnil, take_nil]
      rfl
    · rw [ensure_ok hlength, ok_bind, equalBlocks_eq hlength]
      rfl
    · rw [equalBlocks_eq hlength]
      rfl
  · obtain ⟨hgeA, hgetA⟩ := ha.consecutive.getElem? haFirst hxa
    obtain ⟨hgeB, hgetB⟩ := hb.consecutive.getElem? hbFirst hxb
    have hltA := ha.consecutive.key_lt haFirst hxa
    have hltB := hb.consecutive.key_lt hbFirst hxb
    refine ⟨x.thisHeight - lo, ?_, ?_⟩
    · rw [getElem?_take, if_pos (by omega), getElem?_drop, ← hgetA]
      congr 1
      omega
    · rw [getElem?_take, if_pos (by omega), getElem?_drop, ← hgetB]
      congr 1
      omega

theorem chainIntersectPrefix_eq (checks debug : Bool) (ha : ProperSegment as) (hb : ProperSegment bs) : ∃ common,
      chainIntersectPrefix checks debug as bs = .ok common ∧ Segment common ∧ (∀ x ∈ common, x ∈ as ∧ x ∈ bs) ∧
      ((∀ x ∈ as, ∀ y ∈ bs, x.thisHash = y.thisHash → x = y) → ∀ x ∈ as, x ∈ bs → x ∈ common) := by
  obtain ⟨aOl, bOl, hcommon, hlength, hsegA, hsegB, hsubA, hsubB, hboth⟩ := exists_overlap ha hb
  refine ⟨_, hcommon, List.IsChain.take hsegA _, fun x hx => ?_, fun hcoherent x hxa hxb => ?_⟩
  · obtain ⟨k, hk⟩ := mem_iff_getElem?.mp hx
    rw [getElem?_take] at hk
    split_ifs at hk with hlt
    have hagree := (lt_agreeLen_iff.mp hlt).2 k le_rfl
    exact ⟨hsubA (mem_of_getElem? hk), hsubB (mem_of_getElem? (hagree ▸ hk))⟩
  · obtain ⟨k, hkA, hkB⟩ := hboth x hxa hxb
    have hlt : k < agreeLen aOl bOl := by
      refine (lt_agreeLen_of_down fun j hj => ?_).mpr ⟨(List.getElem?_eq_some_iff.mp hkA).1, hkA.trans hkB.symm⟩
      exact hsegA.getElem?_eq_of_succ hsegB hlength (fun x hx y hy => hcoherent x (hsubA hx) y (hsubB hy)) hj
    exact List.mem_of_getElem? (i := k) (by rw [List.getElem?_take, if_pos hlt, hkA])

end Crosslink.NewNet

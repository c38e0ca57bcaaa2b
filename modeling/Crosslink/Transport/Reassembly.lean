import Crosslink.Lib.Codec
import Crosslink.Lib.Fallible
import Crosslink.Lib.Intervals
import Crosslink.Lib.Search
import Crosslink.Lib.Table

/-!
# Packlets and the reassembly of jumbograms

The payload of a transport packet is a sequence of packlets, each with a two-byte header. A message that does not fit
into one packet comes as fragments, which a connection collects in slots, one for each message id. Everything a
fragment says about itself is chosen by the peer: its id, the length of the whole message and its own place in it.
The invariant `ReassemblySlot.Wf` makes every slice of a slot's buffer and every lookup in its ranges safe.
-/

namespace Crosslink.Transport

open Codec Fallible Search Intervals List
open Std (ExtTreeMap)

/-- `ASSUMED_SMALLEST_POSSIBLE_UDP_FRAME_WITH_GUARANTEED_DELIVERY`. -/
def smallestFrame : ℕ := 1400

/-- `ASSUMED_BIGGEST_POSSIBLE_UDP_FRAME_ON_EXISTING_HARDWARE`, the size of a packet memory. -/
def biggestFrame : ℕ := 15972

def maxReassemblySlots : ℕ := 128

def maxJumbogramLen : ℕ := 2 ^ 23

def maxJumbogramIds : ℕ := 2 ^ 18

/-! ### Packlets -/

inductive PackletTag where
  | acknowledgements
  | anEntireDatagram
  | oneJumboFragment
  | reliableStreamed
  deriving DecidableEq, Repr

/-- `PackletHeader`: the tag in the low two bits, the length above them. -/
structure PackletHeader where
  bits : ℕ
  deriving DecidableEq

def PackletHeader.tag (h : PackletHeader) : PackletTag :=
  match h.bits % 4 with
  | 0 => .acknowledgements
  | 1 => .anEntireDatagram
  | 2 => .oneJumboFragment
  | _ => .reliableStreamed

def PackletHeader.len (h : PackletHeader) : ℕ := h.bits / 4

def PackletTag.code : PackletTag → ℕ
  | .acknowledgements => 0
  | .anEntireDatagram => 1
  | .oneJumboFragment => 2
  | .reliableStreamed => 3

/-- `PackletHeader::new`; a length that does not fit is only noticed in a debug build. -/
def PackletHeader.new (debug : Bool) (tag : PackletTag) (len : ℕ) : Except Panic PackletHeader := do
  ensure (debug → len < 2 ^ 14)
  return ⟨tag.code ||| (len <<< 2) % 2 ^ 16⟩

def PackletHeader.writeTo (h : PackletHeader) : List UInt8 := leBytes 2 h.bits

def PackletHeader.readFrom : Reader PackletHeader := do
  let bits ← readLE 2
  return ⟨bits⟩

/-- `PackletOneJumboFragment`: an id of 18 bits, the length of the message and the place in it, of 23 bits each. -/
structure PackletOneJumboFragment where
  bits : ℕ
  deriving DecidableEq

namespace PackletOneJumboFragment

def id (f : PackletOneJumboFragment) : ℕ := f.bits % 2 ^ 18

def totalLen (f : PackletOneJumboFragment) : ℕ := f.bits / 2 ^ 18 % 2 ^ 23

def byteIdx (f : PackletOneJumboFragment) : ℕ := f.bits / 2 ^ 41 % 2 ^ 23

/-- `PackletOneJumboFragment::new`. -/
def new (debug : Bool) (id totalLen byteIdx : ℕ) : Except Panic PackletOneJumboFragment := do
  ensure (debug → id < 2 ^ 18 ∧ totalLen < 2 ^ 23 ∧ byteIdx < 2 ^ 23)
  return ⟨(id ||| totalLen <<< 18 ||| byteIdx <<< 41) % 2 ^ 64⟩

def writeTo (f : PackletOneJumboFragment) : List UInt8 := leBytes 8 f.bits

def readFrom : Reader PackletOneJumboFragment := do
  let bits ← readLE 8
  return ⟨bits⟩

theorem id_lt (f : PackletOneJumboFragment) : f.id < maxJumbogramIds := Nat.mod_lt _ (by decide)

theorem totalLen_lt (f : PackletOneJumboFragment) : f.totalLen < 2 ^ 23 := Nat.mod_lt _ (by decide)

theorem byteIdx_lt (f : PackletOneJumboFragment) : f.byteIdx < 2 ^ 23 := Nat.mod_lt _ (by decide)

end PackletOneJumboFragment

theorem PackletHeader.readFrom_eq_some (hread : PackletHeader.readFrom buf = some (h, rest)) :
    rest.length + 2 = buf.length := by
  obtain ⟨bits, mid, hbits, hpure⟩ := bind_eq_some.mp hread
  obtain ⟨-, rfl⟩ := pure_eq_some.mp hpure
  obtain ⟨-, rfl⟩ := readLE_eq_some.mp hbits
  rw [length_append, leBytes_length]
  omega

/-! ### A slot -/

/-- `ReassemblySlot`: the bytes of a message and the ranges of it that have arrived, `(start, end)` each. -/
structure ReassemblySlot where
  buf : List UInt8
  totalLen : ℕ
  received : List (ℕ × ℕ)
  deriving DecidableEq

namespace ReassemblySlot

def new (totalLen : ℕ) : ReassemblySlot := ⟨List.replicate totalLen 0, totalLen, []⟩

def complete (s : ReassemblySlot) : Bool := s.received = [(0, s.totalLen)]

/-- The range before the place `pos`. -/
def before (received : List (ℕ × ℕ)) (pos : ℕ) : Option (ℕ × ℕ) := if 0 < pos then received[pos - 1]? else none

/-- The ranges with `[first, last)` added at `pos` and merged with its neighbours. -/
def merge (received : List (ℕ × ℕ)) (pos first last : ℕ) : List (ℕ × ℕ) :=
  match (before received pos).filter (fun r => r.2 = first), received[pos]?.filter (fun r => r.1 = last) with
  | some prev, some next => (received.set (pos - 1) (prev.1, next.2)).eraseIdx pos
  | some prev, none => received.set (pos - 1) (prev.1, last)
  | none, some next => received.set pos (first, next.2)
  | none, none => received.insertIdx pos (first, last)

/-- `ReassemblySlot::insert`: nothing when the fragment is refused, otherwise the slot and whether the message is
complete. -/
def insert (s : ReassemblySlot) (offset : ℕ) (data : List UInt8) : Except Panic (Option (ReassemblySlot × Bool)) := do
  let first := offset % 2 ^ 32
  if s.totalLen ≤ first then return none
  let last := (offset + data.length) % 2 ^ 32
  if s.totalLen < last then return none
  let pos := partitionPoint (fun r => r.2 ≤ first) s.received
  let prev := before s.received pos
  let covers := fun r : ℕ × ℕ => decide (r.1 ≤ first ∧ last ≤ r.2)
  if s.received[pos]?.any covers || prev.any covers then
    -- a repeated fragment has to carry the same bytes
    let held ← slice s.buf offset (offset + data.length)
    if held = data then return some (s, s.complete) else return none
  if s.received[pos]?.any fun r => r.1 < last then return none
  if prev.any fun r => first < r.2 then return none
  let _ ← slice s.buf offset (offset + data.length)
  let s' := { s with
    buf := s.buf.take offset ++ data ++ s.buf.drop (offset + data.length)
    received := merge s.received pos first last }
  return some (s', s'.complete)

/-- The buffer is as long as the message, and the ranges are inside it, sorted, disjoint and not adjacent. -/
structure Wf (s : ReassemblySlot) : Prop where
  length : s.buf.length = s.totalLen
  short : s.totalLen < 2 ^ 23
  ranges : ∀ r ∈ s.received, r.1 < r.2 ∧ r.2 ≤ s.totalLen
  apart : s.received.Pairwise fun r r' => r.2 < r'.1

theorem getLast_filter {pre : List (ℕ × ℕ)} (hpre : ∀ r ∈ pre, r.2 ≤ first)
    (hapart : pre.Pairwise fun r r' => r.2 < r'.1) (hranges : ∀ r ∈ pre, r.1 < r.2) :
    (pre.getLast?.filter (fun r => r.2 = first) = none ∧ ∀ r ∈ pre, r.2 < first) ∨
      ∃ pre' before, pre = pre' ++ [before] ∧ before.2 = first ∧ (∀ r ∈ pre', r.2 < before.1) ∧
        pre.getLast?.filter (fun r => r.2 = first) = some before := by
  rcases eq_nil_or_concat pre with rfl | ⟨pre, before, rfl⟩
  · exact .inl ⟨rfl, nofun⟩
  rw [concat_eq_append] at *
  obtain ⟨-, -, hcross⟩ := pairwise_append.mp hapart
  have hbefore : ∀ r ∈ pre, r.2 < before.1 := fun r hr => hcross r hr before (by simp)
  rw [getLast?_concat]
  by_cases heq : before.2 = first
  · exact .inr ⟨pre, before, rfl, heq, hbefore, by simp [heq]⟩
  · refine .inl ⟨by simp [heq], fun r hr => ?_⟩
    have hlast := hpre before (by simp)
    have hsize := hranges before (by simp)
    rcases mem_append.mp hr with hr | hr
    · have := hbefore r hr
      omega
    · obtain rfl := mem_singleton.mp hr
      omega

theorem head_filter {post : List (ℕ × ℕ)} (hpost : ∀ r ∈ post, last ≤ r.1)
    (hapart : post.Pairwise fun r r' => r.2 < r'.1) (hranges : ∀ r ∈ post, r.1 < r.2) :
    (post.head?.filter (fun r => r.1 = last) = none ∧ ∀ r ∈ post, last < r.1) ∨
      ∃ after post', post = after :: post' ∧ after.1 = last ∧ (∀ r ∈ post', after.2 < r.1) ∧
        post.head?.filter (fun r => r.1 = last) = some after := by
  cases post with
  | nil => exact .inl ⟨rfl, nofun⟩
  | cons after post =>
    obtain ⟨hafter, -⟩ := pairwise_cons.mp hapart
    by_cases heq : after.1 = last
    · exact .inr ⟨after, post, rfl, heq, hafter, by simp [heq]⟩
    · refine .inl ⟨by simp [heq], fun r hr => ?_⟩
      have hfirst := hpost after (by simp)
      have hsize := hranges after (by simp)
      rcases mem_cons.mp hr with rfl | hr
      · omega
      · have := hafter r hr
        omega

theorem merge_eq (hlt : first < last) (hranges : ∀ r ∈ pre ++ post, r.1 < r.2)
    (hapart : (pre ++ post).Pairwise fun r r' => r.2 < r'.1) (hpre : ∀ r ∈ pre, r.2 ≤ first)
    (hpost : ∀ r ∈ post, last ≤ r.1) :
    ∃ pre' post' r, merge (pre ++ post) pre.length first last = pre' ++ r :: post' ∧ r.1 ≤ first ∧ last ≤ r.2 ∧
      pre'.Sublist pre ∧ post'.Sublist post ∧ (∀ r' ∈ pre', r'.2 < r.1) ∧ (∀ r' ∈ post', r.2 < r'.1) ∧
      (r.2 = last ∨ ∃ r' ∈ post, r.2 = r'.2) ∧
      ∀ p, Covers (pre' ++ r :: post') p ↔ Covers (pre ++ post) p ∨ (first ≤ p ∧ p < last) := by
  obtain ⟨hapre, hapost, -⟩ := pairwise_append.mp hapart
  have hprev : before (pre ++ post) pre.length = pre.getLast? := by
    unfold before
    by_cases hpos : 0 < pre.length
    · rw [if_pos hpos, getElem?_append_left (by omega), getLast?_eq_getElem?]
    · obtain rfl : pre = [] := length_eq_zero_iff.mp (by omega)
      rfl
  have hnext : (pre ++ post)[pre.length]? = post.head? := by
    rw [getElem?_append_right le_rfl, Nat.sub_self, head?_eq_getElem?]
  unfold merge
  rw [hprev, hnext]
  rcases getLast_filter hpre hapre (fun r hr => hranges r (by simp [hr])) with
    ⟨hnone, hlow⟩ | ⟨pre', before, rfl, hend, hlow, hsome⟩ <;>
  rcases head_filter hpost hapost (fun r hr => hranges r (by simp [hr])) with
    ⟨hnone', hhigh⟩ | ⟨after, post', rfl, hstart, hhigh, hsome'⟩
  · rw [hnone, hnone']
    refine ⟨pre, post, (first, last), ?_, le_rfl, le_rfl, List.Sublist.refl _, List.Sublist.refl _, hlow, hhigh,
      .inl rfl, fun p => ?_⟩
    · exact insertIdx_length_append pre post (first, last)
    · simp only [covers_append, covers_cons]
      exact iff_of_eq (by ac_rfl)
  · rw [hnone, hsome']
    refine ⟨pre, post', (first, after.2), ?_, le_rfl, ?_, List.Sublist.refl _, sublist_cons_self _ _, hlow, hhigh,
      .inr ⟨after, by simp, rfl⟩, fun p => ?_⟩
    · simp
    · have := hranges after (by simp)
      dsimp only
      omega
    · have hmerge : first ≤ p ∧ p < after.2 ↔ (after.1 ≤ p ∧ p < after.2) ∨ (first ≤ p ∧ p < last) := by
        have := hranges after (by simp)
        omega
      simp only [covers_append, covers_cons, hmerge]
      exact iff_of_eq (by ac_rfl)
  · rw [hsome, hnone']
    refine ⟨pre', post, (before.1, last), ?_, ?_, le_rfl, sublist_append_left _ _, List.Sublist.refl _, hlow, hhigh,
      .inl rfl, fun p => ?_⟩
    · simp
    · have := hranges before (by simp)
      dsimp only
      omega
    · have hmerge : before.1 ≤ p ∧ p < last ↔ (before.1 ≤ p ∧ p < before.2) ∨ (first ≤ p ∧ p < last) := by
        have := hranges before (by simp)
        omega
      simp only [covers_append, covers_cons, hmerge, not_covers_nil, or_false]
      exact iff_of_eq (by ac_rfl)
  · rw [hsome, hsome']
    refine ⟨pre', post', (before.1, after.2), ?_, ?_, ?_, sublist_append_left _ _, sublist_cons_self _ _,
      hlow, hhigh, .inr ⟨after, by simp, rfl⟩, fun p => ?_⟩
    · simp [eraseIdx_append]
    · have := hranges before (by simp)
      dsimp only
      omega
    · have := hranges after (by simp)
      dsimp only
      omega
    · have hmerge : before.1 ≤ p ∧ p < after.2 ↔
          (before.1 ≤ p ∧ p < before.2) ∨ (after.1 ≤ p ∧ p < after.2) ∨ (first ≤ p ∧ p < last) := by
        have := hranges before (by simp)
        have := hranges after (by simp)
        omega
      simp only [covers_append, covers_cons, hmerge, not_covers_nil, or_false]
      exact iff_of_eq (by ac_rfl)

theorem wf_new {totalLen : ℕ} (h : totalLen < 2 ^ 23) : (new totalLen).Wf :=
  ⟨length_replicate, h, nofun, List.Pairwise.nil⟩

theorem partition_split {received : List (ℕ × ℕ)} (hapart : received.Pairwise fun r r' => r.2 < r'.1)
    (hranges : ∀ r ∈ received, r.1 < r.2)
    (hafter : ¬ received[partitionPoint (fun r => r.2 ≤ first) received]?.any (fun r => r.1 < last)) :
    ∃ pre post, received = pre ++ post ∧ partitionPoint (fun r => r.2 ≤ first) received = pre.length ∧
      (∀ r ∈ pre, r.2 ≤ first) ∧ ∀ r ∈ post, last ≤ r.1 := by
  set p : ℕ × ℕ → Bool := fun r => r.2 ≤ first
  have hsplit : received = received.takeWhile p ++ received.dropWhile p := takeWhile_append_dropWhile.symm
  refine ⟨received.takeWhile p, received.dropWhile p, hsplit, rfl, fun r hr => ?_, fun r hr => ?_⟩
  · simpa [p] using mem_takeWhile_imp hr
  · have hnext : received[partitionPoint p received]? = (received.dropWhile p).head? := by
      unfold partitionPoint
      nth_rewrite 1 [hsplit]
      rw [getElem?_append_right le_rfl, Nat.sub_self, head?_eq_getElem?]
    rw [hnext] at hafter
    rw [hsplit] at hapart hranges
    obtain ⟨-, hapost, -⟩ := pairwise_append.mp hapart
    cases hpost : received.dropWhile p with
    | nil =>
      rw [hpost] at hr
      cases hr
    | cons after post =>
      rw [hpost] at hr hafter hapost hranges
      have hfirst : last ≤ after.1 := by simpa using hafter
      rcases mem_cons.mp hr with rfl | hr
      · exact hfirst
      · have hsize := hranges after (by simp)
        have := (pairwise_cons.mp hapost).1 r hr
        omega

theorem merge_wf {received : List (ℕ × ℕ)} (hlt : first < last) (hn : last ≤ n)
    (hranges : ∀ r ∈ received, r.1 < r.2 ∧ r.2 ≤ n) (hapart : received.Pairwise fun r r' => r.2 < r'.1)
    (hafter : ¬ received[partitionPoint (fun r => r.2 ≤ first) received]?.any (fun r => r.1 < last)) :
    (∀ r ∈ merge received (partitionPoint (fun r => r.2 ≤ first) received) first last, r.1 < r.2 ∧ r.2 ≤ n) ∧
      (merge received (partitionPoint (fun r => r.2 ≤ first) received) first last).Pairwise fun r r' => r.2 < r'.1 := by
  obtain ⟨pre, post, hsplit, hpos, hpre, hpost⟩ := partition_split hapart (fun r hr => (hranges r hr).1) hafter
  rw [hpos]
  subst hsplit
  obtain ⟨hapre, hapost, -⟩ := pairwise_append.mp hapart
  obtain ⟨pre', post', r, heq, hstart, hend, hsub, hsub', hlow, hhigh, hlast, -⟩ :=
    merge_eq hlt (fun r hr => (hranges r hr).1) hapart hpre hpost
  rw [heq]
  constructor
  · intro r' hr'
    rcases mem_append.mp hr' with hr' | hr'
    · exact hranges r' (mem_append_left _ (hsub.subset hr'))
    · rcases mem_cons.mp hr' with rfl | hr'
      · refine ⟨by omega, ?_⟩
        rcases hlast with hlast | ⟨after, hmem, hlast⟩
        · omega
        · rw [hlast]
          exact (hranges after (mem_append_right _ hmem)).2
      · exact hranges r' (mem_append_right _ (hsub'.subset hr'))
  · refine pairwise_append.mpr ⟨hapre.sublist hsub, pairwise_cons.mpr ⟨hhigh, hapost.sublist hsub'⟩, ?_⟩
    intro r₁ h₁ r₂ h₂
    have hbefore := hlow r₁ h₁
    rcases mem_cons.mp h₂ with rfl | h₂
    · exact hbefore
    · have := hhigh r₂ h₂
      omega

variable {s : ReassemblySlot} {offset : ℕ} {data : List UInt8}

theorem Wf.insert (hs : s.Wf) (hoffset : offset < 2 ^ 23) (hdata : data ≠ []) (hlen : data.length < 2 ^ 23) :
    ∃ r, s.insert offset data = .ok r ∧ ∀ s' done, r = some (s', done) → s'.Wf ∧ s'.totalLen = s.totalLen := by
  have hpos := length_pos_of_ne_nil hdata
  have hlength := hs.length
  have hfirst : offset % 2 ^ 32 = offset := Nat.mod_eq_of_lt (by omega)
  have hlast : (offset + data.length) % 2 ^ 32 = offset + data.length := Nat.mod_eq_of_lt (by omega)
  unfold ReassemblySlot.insert
  rw [hfirst, hlast]
  by_cases hin : s.totalLen ≤ offset
  · rw [if_pos hin]
    exact ⟨none, rfl, nofun⟩
  by_cases hout : s.totalLen < offset + data.length
  · rw [if_neg hin, if_pos hout]
    exact ⟨none, rfl, nofun⟩
  have hslice := slice_ok (l := s.buf) (a := offset) (b := offset + data.length) (by omega) (by omega)
  simp only [if_neg hin, if_neg hout, hslice, ok_bind]
  split_ifs with hcovered hsame hafter hbefore
  · refine ⟨_, rfl, fun s' done h => ?_⟩
    cases h
    exact ⟨hs, rfl⟩
  · exact ⟨none, rfl, nofun⟩
  · exact ⟨none, rfl, nofun⟩
  · exact ⟨none, rfl, nofun⟩
  · refine ⟨_, rfl, fun s' done h => ?_⟩
    cases h
    obtain ⟨hranges, hapart⟩ := merge_wf (by omega) (by omega) hs.ranges hs.apart hafter
    refine ⟨⟨?_, hs.short, hranges, hapart⟩, rfl⟩
    simp only [length_append, length_take, length_drop]
    omega

end ReassemblySlot

/-! ### The slots of a connection -/

/-- `JumboReassembly`. -/
abbrev JumboReassembly := ExtTreeMap ℕ ReassemblySlot

namespace JumboReassembly

/-- How long ago the id `k` was given out, when `fragId` is the newest. -/
def age (fragId k : ℕ) : ℕ := (fragId + 2 ^ 32 - k) % 2 ^ 32 % maxJumbogramIds

/-- Makes a slot for a message of which nothing has arrived, in place of the oldest one when there are too many. -/
def reserve (slots : JumboReassembly) (fragId totalLen : ℕ) : Except Panic JumboReassembly := do
  if fragId ∈ slots then return slots
  if maxReassemblySlots ≤ slots.size then
    let oldest ← unwrap (slots.keys.argmax (age fragId))
    return (slots.erase oldest).insert fragId (.new totalLen)
  return slots.insert fragId (.new totalLen)

/-- What arrives with one fragment: nothing when the connection has to be killed, otherwise the slots and the message
it completes. -/
def fragment (mtuFragmented : ℕ) (slots : JumboReassembly) (body : List UInt8) :
    Except Panic (Option (JumboReassembly × Option (ℕ × List UInt8))) := do
  let some (frag, fragData) := PackletOneJumboFragment.readFrom body | return none
  if frag.totalLen ≤ mtuFragmented then return none
  if maxJumbogramLen < frag.totalLen then return none
  if fragData = [] then return none
  if frag.totalLen ≤ fragData.length then return none
  let slots ← reserve slots frag.id frag.totalLen
  let slot ← unwrap slots[frag.id]?
  if slot.totalLen ≠ frag.totalLen then return none
  match ← slot.insert frag.byteIdx fragData with
  | some (slot, true) => return some (slots.erase frag.id, some (frag.id, slot.buf))
  | some (slot, false) => return some (slots.insert frag.id slot, none)
  | none => return none

def Wf (slots : JumboReassembly) : Prop := ∀ k slot, slots[k]? = some slot → k < maxJumbogramIds ∧ slot.Wf

theorem wf_empty : Wf ∅ := by
  intro k slot h
  simp at h

variable {slots slots' : JumboReassembly} {fragId totalLen : ℕ}

theorem Wf.insert {slot : ReassemblySlot} (h : Wf slots) (hid : fragId < maxJumbogramIds) (hslot : slot.Wf) :
    Wf (slots.insert fragId slot) := by
  intro k slot' hk
  rw [ExtTreeMap.getElem?_insert] at hk
  split_ifs at hk with heq
  · obtain rfl : fragId = k := compare_eq_iff_eq.mp heq
    obtain rfl := Option.some.inj hk
    exact ⟨hid, hslot⟩
  · exact h k slot' hk

theorem Wf.erase (h : Wf slots) (k : ℕ) : Wf (slots.erase k) := by
  intro k' slot hk
  rw [ExtTreeMap.getElem?_erase] at hk
  split_ifs at hk
  exact h k' slot hk

theorem Wf.reserve (h : Wf slots) (hid : fragId < maxJumbogramIds) (hlen : totalLen < 2 ^ 23) :
    ∃ slots' slot, JumboReassembly.reserve slots fragId totalLen = .ok slots' ∧ Wf slots' ∧ slots'[fragId]? = some slot := by
  have hnew := ReassemblySlot.wf_new hlen
  unfold JumboReassembly.reserve
  by_cases hmem : fragId ∈ slots
  · rw [if_pos hmem]
    exact ⟨slots, slots[fragId], rfl, h, ExtTreeMap.getElem?_eq_some_getElem hmem⟩
  rw [if_neg hmem]
  by_cases hfull : maxReassemblySlots ≤ slots.size
  · have hkeys : slots.keys ≠ [] := by
      intro hnil
      have := ExtTreeMap.length_keys (t := slots)
      rw [hnil, length_nil] at this
      unfold maxReassemblySlots at hfull
      omega
    obtain ⟨oldest, holdest⟩ := Option.ne_none_iff_exists'.mp 
      (mt (argmax_eq_none (f := age fragId)).mp hkeys)
    rw [if_pos hfull, unwrap_eq_ok.mpr holdest]
    exact ⟨_, _, rfl, (h.erase oldest).insert hid hnew, ExtTreeMap.getElem?_insert_self⟩
  · rw [if_neg hfull]
    exact ⟨_, _, rfl, h.insert hid hnew, ExtTreeMap.getElem?_insert_self⟩

theorem Wf.fragment (h : Wf slots) (mtuFragmented : ℕ) (body : List UInt8) :
    ∃ r, JumboReassembly.fragment mtuFragmented slots body = .ok r ∧
      ∀ slots' message, r = some (slots', message) → Wf slots' := by
  unfold JumboReassembly.fragment
  cases hread : PackletOneJumboFragment.readFrom body with
  | none => exact ⟨none, rfl, nofun⟩
  | some p =>
    obtain ⟨frag, fragData⟩ := p
    dsimp only
    have hid := frag.id_lt
    have hshort := frag.totalLen_lt
    split_ifs with hsmall hbig hempty htardis
    · exact ⟨none, rfl, nofun⟩
    · exact ⟨none, rfl, nofun⟩
    · exact ⟨none, rfl, nofun⟩
    · exact ⟨none, rfl, nofun⟩
    obtain ⟨slots₁, slot, hreserve, hwf, hslot⟩ := h.reserve hid hshort
    rw [hreserve, ok_bind, unwrap_eq_ok.mpr hslot, ok_bind]
    split_ifs with hlen
    · exact ⟨none, rfl, nofun⟩
    obtain ⟨r, hinsert, hr⟩ := (hwf _ _ hslot).2.insert frag.byteIdx_lt hempty (by omega : fragData.length < 2 ^ 23)
    rw [hinsert, ok_bind]
    match r with
    | none => exact ⟨none, rfl, nofun⟩
    | some (slot', true) =>
      refine ⟨_, rfl, fun slots' message heq => ?_⟩
      cases heq
      exact hwf.erase _
    | some (slot', false) =>
      refine ⟨_, rfl, fun slots' message heq => ?_⟩
      cases heq
      exact hwf.insert hid (hr slot' false rfl).1

end JumboReassembly

/-! ### The packlets of a payload -/

/-- What is handed to the application: the bytes of a message and, of a jumbogram, its id. -/
structure Received (K : Type) where
  key : K
  bytes : List UInt8
  jumboId : Option ℕ
  deriving DecidableEq

variable {K : Type}

/-- The loop over the packlets. It ends with the slots, or with nothing when the connection has to be killed. Every
turn takes at least the two bytes of a header, so that as many turns as there are bytes are enough. -/
def packlets (key : K) (mtuFragmented : ℕ) :
    ℕ → List UInt8 → JumboReassembly → List (Received K) → Except Panic (Option JumboReassembly × List (Received K))
  | _, [], slots, received => return (some slots, received)
  | 0, _ :: _, _, _ => .error .capacity
  | turns + 1, msg@(_ :: _), slots, received =>
    match PackletHeader.readFrom msg with
    | none => return (some slots, received)
    | some (hdr, rest) =>
      if hdr.bits = 0 then packlets key mtuFragmented turns rest slots received
      else if rest.length < hdr.len then return (none, received)
      else
        let body := rest.take hdr.len
        match hdr.tag with
        | .oneJumboFragment => do
          match ← slots.fragment mtuFragmented body with
          | none => return (none, received)
          | some (slots, none) => packlets key mtuFragmented turns (rest.drop hdr.len) slots received
          | some (slots, some (fragId, message)) =>
            packlets key mtuFragmented turns (rest.drop hdr.len) slots (received ++ [⟨key, message, some fragId⟩])
        | .anEntireDatagram =>
          packlets key mtuFragmented turns (rest.drop hdr.len) slots (received ++ [⟨key, body, none⟩])
        | .reliableStreamed | .acknowledgements => return (none, received)

theorem packlets_ok (key : K) (mtuFragmented turns : ℕ) (msg : List UInt8) (slots : JumboReassembly)
    (received : List (Received K)) (hslots : slots.Wf) (hturns : msg.length ≤ turns) :
    ∃ r received', packlets key mtuFragmented turns msg slots received = .ok (r, received') ∧
      ∀ slots', r = some slots' → slots'.Wf := by
  induction turns generalizing msg slots received with
  | zero =>
    obtain rfl : msg = [] := length_eq_zero_iff.mp (by omega)
    exact ⟨_, _, rfl, fun slots' h => Option.some.inj h ▸ hslots⟩
  | succ turns ih =>
    cases msg with
    | nil => exact ⟨_, _, rfl, fun slots' h => Option.some.inj h ▸ hslots⟩
    | cons b msg =>
      rw [packlets]
      cases hread : PackletHeader.readFrom (b :: msg) with
      | none => exact ⟨_, _, rfl, fun slots' h => Option.some.inj h ▸ hslots⟩
      | some p =>
        obtain ⟨hdr, rest⟩ := p
        have hrest := PackletHeader.readFrom_eq_some hread
        have hdrop : (rest.drop hdr.len).length ≤ turns := by
          rw [length_drop]
          omega
        dsimp only
        split_ifs with hzero hshort
        · exact ih rest slots received hslots (by omega)
        · exact ⟨_, _, rfl, nofun⟩
        cases hdr.tag with
        | oneJumboFragment =>
          obtain ⟨r, hr, hwf⟩ := hslots.fragment mtuFragmented (rest.take hdr.len)
          dsimp only
          rw [hr, ok_bind]
          match r with
          | none => exact ⟨_, _, rfl, nofun⟩
          | some (slots', none) => exact ih _ slots' received (hwf slots' none rfl) hdrop
          | some (slots', some (fragId, message)) => exact ih _ slots' _ (hwf slots' _ rfl) hdrop
        | anEntireDatagram => exact ih _ slots _ hslots hdrop
        | reliableStreamed => exact ⟨_, _, rfl, nofun⟩
        | acknowledgements => exact ⟨_, _, rfl, nofun⟩

end Crosslink.Transport

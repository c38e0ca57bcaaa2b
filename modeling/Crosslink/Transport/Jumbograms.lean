import Crosslink.Transport.Connections

/-!
# Reassembling an honest message

A message is cut into chunks of a fixed size, the last one shorter, and each chunk travels in a packet of its own. A
slot `Chunked` by a set of chunk numbers has received exactly those chunks of some message, and `Agrees` with a message
when the bytes it has received are those of the message. A chunk of the message keeps both, in whatever order the chunks
come and however often, and the slot is complete when every chunk is there. Over whole runs this makes the receiver
deliver exactly the message, at exactly the fragments that complete it.
-/

namespace Crosslink.Transport

open Codec Fallible Search Intervals List JumboReassembly PackletOneJumboFragment
open Std (ExtTreeMap)

/-! ### Chunks -/

/-- The `i`-th chunk of a message. -/
def chunk (c : ℕ) (m : List UInt8) (i : ℕ) : List UInt8 := (m.drop (i * c)).take c

/-- Every byte of a message of `len` bytes is in one of the chunks `S`. -/
def Full (c len : ℕ) (S : Finset ℕ) : Prop := ∀ p < len, p / c ∈ S

instance (c len : ℕ) (S : Finset ℕ) : Decidable (Full c len S) := inferInstanceAs (Decidable (∀ p < len, p / c ∈ S))

section Chunks

variable {c i p : ℕ} {m : List UInt8}

theorem chunk_length : (chunk c m i).length = min c (m.length - i * c) := by
  rw [chunk, length_take, length_drop]

theorem mem_chunk_iff (hc : 0 < c) : p / c = i ∧ p < m.length ↔ i * c ≤ p ∧ p < i * c + (chunk c m i).length := by
  have hsucc : (i + 1) * c = i * c + c := Nat.succ_mul i c
  rw [chunk_length, Nat.div_eq_iff hc]
  omega

theorem getElem?_chunk (hp : i * c ≤ p) (hp' : p < i * c + (chunk c m i).length) :
    (chunk c m i)[p - i * c]? = m[p]? := by
  rw [chunk_length] at hp'
  rw [chunk, getElem?_take_of_lt (by omega), getElem?_drop, Nat.add_sub_cancel' hp]

theorem getElem?_splice_inside {l data : List UInt8} (ha : a ≤ l.length) (hp : a ≤ p) (hp' : p < a + data.length) :
    (l.take a ++ data ++ l.drop (a + data.length))[p]? = data[p - a]? := by
  have htake : (l.take a).length = a := by rw [length_take, Nat.min_eq_left ha]
  rw [append_assoc, getElem?_append_right (by omega), htake, getElem?_append_left (by omega)]

theorem getElem?_splice_outside {l data : List UInt8} (ha : a + data.length ≤ l.length)
    (hp : ¬ (a ≤ p ∧ p < a + data.length)) : (l.take a ++ data ++ l.drop (a + data.length))[p]? = l[p]? := by
  have htake : (l.take a).length = a := by rw [length_take, Nat.min_eq_left (by omega)]
  by_cases hlow : p < a
  · rw [append_assoc, getElem?_append_left (by omega), getElem?_take_of_lt hlow]
  · rw [getElem?_append_right (by rw [length_append]; omega), length_append, htake, getElem?_drop,
      Nat.add_sub_cancel' (by omega)]

end Chunks

namespace ReassemblySlot

variable {s : ReassemblySlot} {c i : ℕ} {m : List UInt8} {S : Finset ℕ}

/-- What has been received is the chunks `S`. -/
structure Chunked (c : ℕ) (S : Finset ℕ) (s : ReassemblySlot) : Prop where
  wf : s.Wf
  covers : ∀ p, Covers s.received p ↔ p < s.totalLen ∧ p / c ∈ S

/-- What has been received is part of the message `m`. -/
structure Agrees (m : List UInt8) (s : ReassemblySlot) : Prop where
  totalLen : s.totalLen = m.length
  bytes : ∀ p, Covers s.received p → s.buf[p]? = m[p]?

theorem chunked_new (hn : n < 2 ^ 23) : (new n).Chunked c ∅ where
  wf := wf_new hn
  covers p := by
    refine ⟨fun h => absurd h (not_covers_nil p), fun h => ?_⟩
    exact absurd h.2 (Finset.notMem_empty _)

theorem agrees_new (m : List UInt8) : (new m.length).Agrees m where
  totalLen := rfl
  bytes p h := absurd h (not_covers_nil p)

theorem Wf.separated (h : s.Wf) : Separated s.received := ⟨fun r hr => (h.ranges r hr).1, h.apart⟩

theorem Chunked.complete_iff (h : s.Chunked c S) (hpos : 0 < s.totalLen) :
    s.complete = true ↔ Full c s.totalLen S := by
  unfold complete
  rw [decide_eq_true_iff, h.wf.separated.eq_singleton_iff hpos fun r hr => (h.wf.ranges r hr).2]
  refine forall₂_congr fun p hp => ?_
  rw [h.covers p]
  exact and_iff_right hp

theorem Agrees.buf_eq (h : s.Agrees m) (hs : s.Chunked c S) (hfull : Full c s.totalLen S) : s.buf = m := by
  apply ext_getElem?
  intro p
  by_cases hp : p < s.totalLen
  · exact h.bytes p ((hs.covers p).mpr ⟨hp, hfull p hp⟩)
  · rw [getElem?_eq_none (by rw [hs.wf.length]; omega), getElem?_eq_none (by rw [← h.totalLen]; omega)]

theorem getElem?_partitionPoint {received : List (ℕ × ℕ)} (hsep : Separated received) (hr : r ∈ received)
    (hstart : r.1 ≤ first) (hend : first < r.2) :
    received[partitionPoint (fun r => r.2 ≤ first) received]? = some r := by
  obtain ⟨k, hk⟩ := mem_iff_getElem?.mp hr
  have hplace : partitionPoint (fun r => r.2 ≤ first) received = k := by
    refine (partitionPoint_eq_iff hk).mpr ⟨fun j hj r' hr' => ?_, by simpa using hend⟩
    obtain ⟨hjlen, rfl⟩ := List.getElem?_eq_some_iff.mp hr'
    obtain ⟨hklen, rfl⟩ := List.getElem?_eq_some_iff.mp hk
    have := List.pairwise_iff_getElem.mp hsep.apart j k hjlen hklen hj
    exact decide_eq_true (by omega)
  rw [hplace, hk]

theorem merge_covers {received : List (ℕ × ℕ)} (hlt : first < last) (hsep : Separated received)
    (hafter : ¬ received[partitionPoint (fun r => r.2 ≤ first) received]?.any (fun r => r.1 < last)) (p : ℕ) :
    Covers (merge received (partitionPoint (fun r => r.2 ≤ first) received) first last) p ↔
      Covers received p ∨ (first ≤ p ∧ p < last) := by
  obtain ⟨pre, post, hsplit, hpos, hpre, hpost⟩ := partition_split hsep.apart hsep.nonempty hafter
  rw [hpos]
  subst hsplit
  obtain ⟨pre', post', r, heq, -, -, -, -, -, -, -, hcovers⟩ := merge_eq hlt hsep.nonempty hsep.apart hpre hpost
  rw [heq, hcovers]

/-! ### Two ways into a slot -/

section Insert

variable {offset : ℕ} {data : List UInt8}

theorem Wf.insert_covered (h : s.Wf) (hdata : 0 < data.length) (hin : offset + data.length ≤ s.totalLen)
    (hr : r ∈ s.received) (hstart : r.1 ≤ offset) (hend : offset + data.length ≤ r.2)
    (hsame : (s.buf.drop offset).take data.length = data) :
    s.insert offset data = .ok (some (s, s.complete)) := by
  have hshort := h.short
  have hlength := h.length
  have hfirst : offset % 2 ^ 32 = offset := Nat.mod_eq_of_lt (by omega)
  have hlast : (offset + data.length) % 2 ^ 32 = offset + data.length := Nat.mod_eq_of_lt (by omega)
  have hplace := getElem?_partitionPoint h.separated hr hstart (by omega : offset < r.2)
  have hcovered : (some r).any (fun r => decide (r.1 ≤ offset ∧ offset + data.length ≤ r.2)) = true := by
    simpa using ⟨hstart, hend⟩
  unfold ReassemblySlot.insert
  rw [hfirst, hlast, if_neg (by omega), if_neg (by omega)]
  dsimp only
  rw [hplace, hcovered, Bool.true_or, if_pos rfl, slice_ok (by omega) (by omega), ok_bind, Nat.add_sub_cancel_left,
    if_pos hsame]
  rfl

theorem Wf.insert_free (h : s.Wf) (hdata : 0 < data.length) (hin : offset + data.length ≤ s.totalLen)
    (hfree : ∀ r ∈ s.received, r.2 ≤ offset ∨ offset + data.length ≤ r.1) :
    ∃ s', s.insert offset data = .ok (some (s', s'.complete)) ∧ s'.Wf ∧ s'.totalLen = s.totalLen ∧
      s'.buf = s.buf.take offset ++ data ++ s.buf.drop (offset + data.length) ∧
      ∀ p, Covers s'.received p ↔ Covers s.received p ∨ (offset ≤ p ∧ p < offset + data.length) := by
  have hshort := h.short
  have hlength := h.length
  have hfirst : offset % 2 ^ 32 = offset := Nat.mod_eq_of_lt (by omega)
  have hlast : (offset + data.length) % 2 ^ 32 = offset + data.length := Nat.mod_eq_of_lt (by omega)
  have hat : ∀ r, s.received[partitionPoint (fun r => r.2 ≤ offset) s.received]? = some r →
      offset + data.length ≤ r.1 := by
    intro r hr
    have hnot := ((partitionPoint_eq_iff hr).mp rfl).2
    rcases hfree r (mem_of_getElem? hr) with hle | hle
    · exact absurd (decide_eq_true hle) hnot
    · exact hle
  have hbefore : ∀ r, before s.received (partitionPoint (fun r => r.2 ≤ offset) s.received) = some r →
      r.2 ≤ offset := by
    intro r hr
    unfold before at hr
    split_ifs at hr with hpos
    exact of_decide_eq_true (of_lt_partitionPoint (p := fun r : ℕ × ℕ => decide (r.2 ≤ offset)) hr (by omega))
  have hany : ∀ {o : Option (ℕ × ℕ)} {f : ℕ × ℕ → Bool}, (∀ r, o = some r → f r = false) → o.any f = false := by
    intro o f hf
    cases o with
    | none => rfl
    | some r => exact hf r rfl
  have hafter := hany (f := fun r => r.1 < offset + data.length) fun r hr => decide_eq_false (by have := hat r hr; omega)
  obtain ⟨result, hinsert, hwf⟩ := @Wf.insert s offset data h (by omega)
    (ne_nil_of_length_pos hdata) (by omega)
  unfold ReassemblySlot.insert at hinsert ⊢
  rw [hfirst, hlast, if_neg (by omega), if_neg (by omega)] at hinsert ⊢
  dsimp only at hinsert ⊢
  rw [hany fun r hr => decide_eq_false (by have := hat r hr; omega),
    hany fun r hr => decide_eq_false (by have := hbefore r hr; omega), Bool.false_or, if_neg Bool.false_ne_true, hafter,
    if_neg Bool.false_ne_true, hany fun r hr => decide_eq_false (by have := hbefore r hr; omega),
    if_neg Bool.false_ne_true, slice_ok (by omega) (by omega), ok_bind] at hinsert ⊢
  cases hinsert
  obtain ⟨hwf', hlen'⟩ := hwf _ _ rfl
  exact ⟨_, rfl, hwf', rfl, rfl, merge_covers (by omega) h.separated (by rw [hafter]; exact Bool.false_ne_true)⟩

end Insert

theorem Chunked.insert (h : s.Chunked c S) (hm : s.Agrees m) (hc : 0 < c) (hi : i * c < m.length) :
    ∃ s', s.insert (i * c) (chunk c m i) = .ok (some (s', s'.complete)) ∧ s'.Chunked c (Insert.insert i S) ∧ s'.Agrees m := by
  have hlen := hm.totalLen
  have hlength := h.wf.length
  have hsize := chunk_length (c := c) (m := m) (i := i)
  by_cases hmem : i ∈ S
  · have hcovers : ∀ p, i * c ≤ p → p < i * c + (chunk c m i).length → Covers s.received p := by
      intro p hp hp'
      obtain ⟨hdiv, hplen⟩ := (mem_chunk_iff hc).mpr ⟨hp, hp'⟩
      exact (h.covers p).mpr ⟨by omega, hdiv ▸ hmem⟩
    obtain ⟨r, hr, hstart, hend⟩ := h.wf.separated.block (by omega) hcovers
    refine ⟨s, h.wf.insert_covered (by omega) (by omega) hr hstart hend ?_, ?_, hm⟩
    · apply ext_getElem?
      intro q
      by_cases hq : q < (chunk c m i).length
      · rw [getElem?_take_of_lt hq, getElem?_drop, hm.bytes _ (hcovers _ (by omega) (by omega)),
          ← getElem?_chunk (i := i) (c := c) (by omega) (by omega), Nat.add_sub_cancel_left]
      · rw [getElem?_eq_none (by rw [length_take]; omega), getElem?_eq_none (by omega)]
    · rwa [Finset.insert_eq_of_mem hmem]
  · have hfree : ∀ r ∈ s.received, r.2 ≤ i * c ∨ i * c + (chunk c m i).length ≤ r.1 := by
      intro r hr
      by_contra hover
      have hranges := h.wf.ranges r hr
      obtain ⟨hdiv, -⟩ := (mem_chunk_iff (m := m) (i := i) (p := max r.1 (i * c)) hc).mpr ⟨by omega, by omega⟩
      obtain ⟨-, hin⟩ := (h.covers (max r.1 (i * c))).mp ⟨r, hr, by omega, by omega⟩
      exact hmem (hdiv ▸ hin)
    obtain ⟨s', hinsert, hwf, hlen', hbuf, hcovers⟩ := h.wf.insert_free (by omega) (by omega) hfree
    refine ⟨s', hinsert, ⟨hwf, fun p => ?_⟩, ⟨by omega, fun p hp => ?_⟩⟩
    · rw [hcovers, h.covers, ← mem_chunk_iff hc, Finset.mem_insert, hlen', hlen]
      tauto
    · rw [hbuf]
      rcases (hcovers p).mp hp with hp | ⟨hp, hp'⟩
      · -- a byte that was there before is not in the new range
        have hplen := ((h.covers p).mp hp).1
        have hout : ¬ (i * c ≤ p ∧ p < i * c + (chunk c m i).length) := by
          intro hin
          obtain ⟨hdiv, -⟩ := (mem_chunk_iff hc).mpr hin
          exact hmem (hdiv ▸ ((h.covers p).mp hp).2)
        rw [getElem?_splice_outside (by omega) (by omega), hm.bytes p hp]
      · rw [getElem?_splice_inside (by omega) hp hp', getElem?_chunk hp hp']

end ReassemblySlot

/-! ### Packed words -/

theorem PackletTag.code_lt (tag : PackletTag) : tag.code < 2 ^ 2 := by cases tag <;> decide

namespace PackletHeader

def of (tag : PackletTag) (len : ℕ) : PackletHeader := ⟨len * 2 ^ 2 + tag.code⟩

variable {debug : Bool} {tag : PackletTag} {len : ℕ}

theorem new_ok (h : len < 2 ^ 14) : PackletHeader.new debug tag len = .ok (of tag len) := by
  unfold PackletHeader.new
  rw [ensure_ok (fun _ => h), ok_bind, Nat.mod_eq_of_lt (by rw [Nat.shiftLeft_eq]; omega), Nat.lor_comm,
    ← Nat.shiftLeft_add_eq_or_of_lt tag.code_lt, Nat.shiftLeft_eq]
  rfl

@[simp] theorem tag_of : (of tag len).tag = tag := by
  have hmod : (of tag len).bits % 4 = tag.code := by
    have := tag.code_lt
    simp only [of]
    omega
  unfold PackletHeader.tag
  rw [hmod]
  cases tag <;> rfl

@[simp] theorem len_of : (of tag len).len = len := by
  have := tag.code_lt
  simp only [PackletHeader.len, of]
  omega

theorem readFrom_of (tag : PackletTag) (h : len < 2 ^ 14) (rest : List UInt8) :
    PackletHeader.readFrom ((of tag len).writeTo ++ rest) = some (of tag len, rest) := by
  have := tag.code_lt
  refine bind_eq_some.mpr ⟨(of tag len).bits, rest, ?_, rfl⟩
  unfold writeTo
  rw [readLE_leBytes, Nat.mod_eq_of_lt]
  simp only [of]
  omega

end PackletHeader

namespace PackletOneJumboFragment

def of (id totalLen byteIdx : ℕ) : PackletOneJumboFragment := ⟨byteIdx * 2 ^ 41 + (totalLen * 2 ^ 18 + id)⟩

variable {debug : Bool} {i len idx : ℕ}

theorem word_lt (hlow : low < 2 ^ 41) (hhigh : high < 2 ^ 23) : high * 2 ^ 41 + low < 2 ^ 64 := calc
  high * 2 ^ 41 + low < high * 2 ^ 41 + 2 ^ 41 := Nat.add_lt_add_left hlow _
  _ = (high + 1) * 2 ^ 41 := (Nat.succ_mul high _).symm
  _ ≤ 2 ^ 23 * 2 ^ 41 := Nat.mul_le_mul_right _ hhigh
  _ = 2 ^ 64 := by norm_num

theorem new_ok (hi : i < maxJumbogramIds) (hlen : len < 2 ^ 23) (hidx : idx < 2 ^ 23) :
    PackletOneJumboFragment.new debug i len idx = .ok (of i len idx) := by
  have hi' : i < 2 ^ 18 := hi
  have hlow : len * 2 ^ 18 + i < 2 ^ 41 := by omega
  have hbits := word_lt hlow hidx
  unfold new
  rw [ensure_ok fun _ => ⟨hi', hlen, hidx⟩, ok_bind, Nat.lor_comm i, ← Nat.shiftLeft_add_eq_or_of_lt hi',
    Nat.shiftLeft_eq, Nat.lor_comm, ← Nat.shiftLeft_add_eq_or_of_lt hlow, Nat.shiftLeft_eq, Nat.mod_eq_of_lt hbits]
  rfl

theorem id_of (hi : i < maxJumbogramIds) : (of i len idx).id = i := by
  have hi' : i < 2 ^ 18 := hi
  simp only [id, of]
  omega

theorem totalLen_of (hi : i < maxJumbogramIds) (hlen : len < 2 ^ 23) : (of i len idx).totalLen = len := by
  have hi' : i < 2 ^ 18 := hi
  simp only [totalLen, of]
  omega

theorem byteIdx_of (hi : i < maxJumbogramIds) (hlen : len < 2 ^ 23) (hidx : idx < 2 ^ 23) :
    (of i len idx).byteIdx = idx := by
  have hi' : i < 2 ^ 18 := hi
  simp only [byteIdx, of]
  omega

theorem readFrom_of (hi : i < maxJumbogramIds) (hlen : len < 2 ^ 23) (hidx : idx < 2 ^ 23) (rest : List UInt8) :
    PackletOneJumboFragment.readFrom ((of i len idx).writeTo ++ rest) = some (of i len idx, rest) := by
  have hi' : i < 2 ^ 18 := hi
  refine bind_eq_some.mpr ⟨(of i len idx).bits, rest, ?_, rfl⟩
  unfold writeTo
  rw [readLE_leBytes, Nat.mod_eq_of_lt]
  exact word_lt (by omega) hidx

end PackletOneJumboFragment

/-! ### A fragment in its packet -/

section Packets

variable {K : Type} {key : K} {mtuFragmented : ℕ}

theorem packlets_zeros (slots : JumboReassembly) (received : List (Received K)) (h : n ≤ turns) :
    packlets key mtuFragmented turns (List.replicate n 0) slots received = .ok (some slots, received) := by
  induction turns generalizing n with
  | zero =>
    obtain rfl : n = 0 := by omega
    rfl
  | succ turns ih =>
    match n with
    | 0 => rfl
    | 1 => rfl
    | n + 2 =>
      have hread : PackletHeader.readFrom (0 :: 0 :: List.replicate n 0) = some (⟨0⟩, List.replicate n 0) :=
        bind_eq_some.mpr ⟨0, _, readLE_leBytes 2 0 (List.replicate n 0), rfl⟩
      rw [replicate_succ, replicate_succ, packlets, hread]
      dsimp only
      rw [if_pos rfl]
      exact ih (by omega)

theorem packlets_packlet (key : K) (mtuFragmented : ℕ) (hbody : body.length < 2 ^ 14)
    (hbits : (PackletHeader.of tag body.length).bits ≠ 0) (rest : List UInt8) (slots : JumboReassembly)
    (received : List (Received K)) :
    packlets key mtuFragmented (turns + 1) ((PackletHeader.of tag body.length).writeTo ++ (body ++ rest)) slots received =
      match tag with
      | .oneJumboFragment => do
        match ← slots.fragment mtuFragmented body with
        | none => return (none, received)
        | some (slots, none) => packlets key mtuFragmented turns rest slots received
        | some (slots, some (fragId, message)) =>
          packlets key mtuFragmented turns rest slots (received ++ [⟨key, message, some fragId⟩])
      | .anEntireDatagram => packlets key mtuFragmented turns rest slots (received ++ [⟨key, body, none⟩])
      | .reliableStreamed | .acknowledgements => return (none, received) := by
  have hread := PackletHeader.readFrom_of tag hbody (body ++ rest)
  obtain ⟨b, msg, hmsg⟩ : ∃ b msg, (PackletHeader.of tag body.length).writeTo ++ (body ++ rest) = b :: msg := ⟨_, _, rfl⟩
  rw [hmsg] at hread ⊢
  rw [packlets, hread]
  dsimp only
  rw [if_neg hbits, PackletHeader.len_of, PackletHeader.tag_of, if_neg (by rw [length_append]; omega),
    take_left, drop_left]
  cases tag <;> rfl

def frame (insideStp : ℕ) (tag : PackletTag) (body : List UInt8) : List UInt8 :=
  ((PackletHeader.of tag body.length).writeTo ++ body).rightpad insideStp 0

theorem frame_eq (insideStp : ℕ) (tag : PackletTag) (body : List UInt8) :
    ∃ n, frame insideStp tag body = (PackletHeader.of tag body.length).writeTo ++ (body ++ List.replicate n 0) ∧
      (frame insideStp tag body).length = n + 1 + (body.length + 1) := by
  refine ⟨insideStp - ((PackletHeader.of tag body.length).writeTo ++ body).length, ?_, ?_⟩
  · rw [frame, List.rightpad, append_assoc]
  · have hwrite : (PackletHeader.of tag body.length).writeTo.length = 2 := leBytes_length 2 _
    rw [frame, List.rightpad, length_append, length_append, length_replicate, hwrite]
    omega

theorem packlets_fragment (key : K) (mtuFragmented insideStp : ℕ) (hbody : body.length < 2 ^ 14)
    (slots : JumboReassembly) :
    packlets key mtuFragmented (frame insideStp .oneJumboFragment body).length
        (frame insideStp .oneJumboFragment body) slots [] =
      (slots.fragment mtuFragmented body).map fun
        | none => (none, [])
        | some (slots, message) => (some slots, (message.map fun p => ⟨key, p.2, some p.1⟩).toList) := by
  obtain ⟨n, hframe, hlen⟩ := frame_eq insideStp .oneJumboFragment body
  have hbits : (PackletHeader.of .oneJumboFragment body.length).bits ≠ 0 := by
    simp only [PackletHeader.of, PackletTag.code]
    omega
  rw [hlen, hframe, Nat.add_comm n, Nat.add_assoc 1, Nat.add_comm 1, packlets_packlet key mtuFragmented hbody hbits]
  dsimp only
  cases hfrag : slots.fragment mtuFragmented body with
  | error e => rfl
  | ok result =>
    rw [ok_bind]
    match result with
    | none => rfl
    | some (slots', none) => exact packlets_zeros slots' [] (by omega)
    | some (slots', some (fragId, message)) => exact packlets_zeros slots' [⟨key, message, some fragId⟩] (by omega)

end Packets

namespace JumboReassembly

variable {slots slots₁ : JumboReassembly} {s : ReassemblySlot} {id fragId c i : ℕ} {m : List UInt8} {S : Finset ℕ}

/-- The slot to which a fragment of a message goes: the one of its id, or a new one. -/
def slotFor (slots : JumboReassembly) (fragId totalLen : ℕ) : ReassemblySlot := slots[fragId]?.getD (.new totalLen)

theorem reserve_ok (slots : JumboReassembly) (fragId totalLen : ℕ) :
    ∃ slots₁, reserve slots fragId totalLen = .ok slots₁ ∧ slots₁[fragId]? = some (slots.slotFor fragId totalLen) ∧
      (∀ k ≠ fragId, slots₁[k]? = none ∨ slots₁[k]? = slots[k]?) ∧
      (fragId ∈ slots ∨ slots.size < maxReassemblySlots → ∀ k ≠ fragId, slots₁[k]? = slots[k]?) := by
  have hne : ∀ k, k ≠ fragId → ¬ compare fragId k = .eq := fun k hk heq => hk (compare_eq_iff_eq.mp heq).symm
  unfold reserve slotFor
  by_cases hmem : fragId ∈ slots
  · rw [if_pos hmem, ExtTreeMap.getElem?_eq_some_getElem hmem]
    exact ⟨slots, rfl, ExtTreeMap.getElem?_eq_some_getElem hmem, fun k _ => .inr rfl, fun _ k _ => rfl⟩
  rw [if_neg hmem, ExtTreeMap.getElem?_eq_none hmem]
  by_cases hfull : maxReassemblySlots ≤ slots.size
  · have hkeys : slots.keys ≠ [] := by
      intro hnil
      have := ExtTreeMap.length_keys (t := slots)
      rw [hnil, length_nil] at this
      unfold maxReassemblySlots at hfull
      omega
    obtain ⟨oldest, holdest⟩ := Option.ne_none_iff_exists'.mp (mt (argmax_eq_none (f := age fragId)).mp hkeys)
    rw [if_pos hfull, unwrap_eq_ok.mpr holdest]
    refine ⟨_, rfl, ExtTreeMap.getElem?_insert_self, fun k hk => ?_, fun hroom => ?_⟩
    · rw [ExtTreeMap.getElem?_insert, if_neg (hne k hk), ExtTreeMap.getElem?_erase]
      split_ifs
      · exact .inl rfl
      · exact .inr rfl
    · rcases hroom with hroom | hroom
      · exact absurd hroom hmem
      · omega
  · rw [if_neg hfull]
    have hother : ∀ k ≠ fragId, (slots.insert fragId (.new totalLen))[k]? = slots[k]? := fun k hk => by
      rw [ExtTreeMap.getElem?_insert, if_neg (hne k hk)]
    exact ⟨_, rfl, ExtTreeMap.getElem?_insert_self, fun k hk => .inr (hother k hk), fun _ => hother⟩

theorem fragment_chunk {mtuFragmented : ℕ} (hreserve : reserve slots id m.length = .ok slots₁)
    (hslot : slots₁[id]? = some s) (hs : s.Chunked c S) (hm : s.Agrees m) (hid : id < maxJumbogramIds)
    (hlong : mtuFragmented < m.length) (hshort : m.length < 2 ^ 23) (hc : 0 < c) (hcm : c ≤ mtuFragmented)
    (hi : i * c < m.length) :
    ∃ s', s'.Chunked c (insert i S) ∧ s'.Agrees m ∧
      slots.fragment mtuFragmented ((PackletOneJumboFragment.of id m.length (i * c)).writeTo ++ chunk c m i) =
        .ok (some (if Full c m.length (insert i S) then (slots₁.erase id, some (id, m))
          else (slots₁.insert id s', none))) := by
  obtain ⟨s', hinsert, hs', hm'⟩ := hs.insert hm hc hi
  have hsize := chunk_length (c := c) (m := m) (i := i)
  have hcomplete := hs'.complete_iff (by rw [hm'.totalLen]; omega)
  have hne : chunk c m i ≠ [] := ne_nil_of_length_pos (by omega)
  refine ⟨s', hs', hm', ?_⟩
  unfold fragment
  rw [readFrom_of hid hshort (by omega)]
  dsimp only
  rw [totalLen_of hid hshort, id_of hid,
    byteIdx_of hid hshort (by omega), if_neg (by omega),
    if_neg (by unfold maxJumbogramLen; omega), if_neg hne, if_neg (by omega), hreserve, ok_bind,
    unwrap_eq_ok.mpr hslot, ok_bind, if_neg (by rw [hm.totalLen]; exact fun h => h rfl), hinsert, ok_bind]
  rw [hm'.totalLen] at hcomplete
  by_cases hfull : Full c m.length (insert i S)
  · rw [hcomplete.mpr hfull, if_pos hfull]
    dsimp only
    rw [hm'.buf_eq hs' (by rwa [hm'.totalLen])]
    rfl
  · rw [Bool.eq_false_iff.mpr (mt hcomplete.mp hfull), if_neg hfull]
    rfl

theorem fragment_eq_some {mtuFragmented : ℕ} (h : slots.fragment mtuFragmented body = .ok (some (slots', message)))
    (hread : PackletOneJumboFragment.readFrom body = some (frag, data)) :
    ∃ slots₁, reserve slots frag.id frag.totalLen = .ok slots₁ ∧ ∀ k ≠ frag.id, slots'[k]? = slots₁[k]? := by
  have hne : ∀ k, k ≠ frag.id → ¬ compare frag.id k = .eq := fun k hk heq => hk (compare_eq_iff_eq.mp heq).symm
  unfold fragment at h
  rw [hread] at h
  dsimp only at h
  split_ifs at h with hsmall hbig hempty htardis
  iterate 4 exact nomatch h
  obtain ⟨slots₁, hreserve, h⟩ := bind_eq_ok.mp h
  obtain ⟨slot, -, h⟩ := bind_eq_ok.mp h
  split_ifs at h with hlen
  · exact nomatch h
  obtain ⟨result, -, h⟩ := bind_eq_ok.mp h
  refine ⟨slots₁, hreserve, fun k hk => ?_⟩
  match result, h with
  | some (slot, true), h =>
    cases h
    rw [ExtTreeMap.getElem?_erase, if_neg (hne k hk)]
  | some (slot, false), h =>
    cases h
    rw [ExtTreeMap.getElem?_insert, if_neg (hne k hk)]

end JumboReassembly

/-! ### Whole runs -/

/-- The room inside a packet, what is left of it for a message in one piece, and for a chunk. -/
def mtuInsideStp (overhead : ℕ) : ℕ := smallestFrame - 6 - overhead

def mtuFragmented (overhead : ℕ) : ℕ := mtuInsideStp overhead - 2

def fragMtu (overhead : ℕ) : ℕ := mtuFragmented overhead - 8

theorem overhead_le (h : cryptoOverheadFromConnectMagic1 magic1 = some overhead) :
    overhead ≤ 16 := by
  unfold cryptoOverheadFromConnectMagic1 at h
  split_ifs at h <;> cases h <;> omega

variable {K : Type}

def receivePayload (key : K) (overhead : ℕ) (slots : JumboReassembly) (payload : List UInt8) :
    Except Panic (Option JumboReassembly × List (Received K)) :=
  packlets key (mtuFragmented overhead) payload.length payload slots []

theorem connectedPacket_eq {conn : ConnectionTrackingData N} {cipher cipher' : Option (ConnectionCipherTriplet N)}
    {magic1 overhead sequence jumboIndex keepAlive recvTime : ℕ} (key : ConnectionKey) (timestampNs : ℕ)
    (hopen : (match cipher with | some cipher => (cipher.decrypt (dg.firstSixBytes / 2 ^ 16) (dg.bytes.drop 6)).map fun p => (p.1, some p.2) | none => some (dg.bytes.drop 6, none)) = some (payload, cipher'))
    (hstate : conn.connectionState = .connected cipher magic1 sequence jumboIndex keepAlive recvTime)
    (hmagic : cryptoOverheadFromConnectMagic1 magic1 = some overhead) (hlen : 6 ≤ dg.bytes.length) :
    connectedPacket key conn dg timestampNs =
      (receivePayload key overhead conn.jumboReassembly payload).map fun r => (r.1.map fun slots => { conn with
        connectionState := .connected cipher' magic1 sequence jumboIndex keepAlive timestampNs
        jumboReassembly := slots }, r.2) := by
  have hslice : slice dg.bytes 6 dg.bytes.length = .ok (dg.bytes.drop 6) := by
    rw [slice_ok hlen le_rfl, take_of_length_le (by rw [length_drop])]
  unfold connectedPacket
  rw [hstate]
  dsimp only
  rw [hslice, ok_bind, hmagic]
  cases cipher with
  | none =>
    cases hopen
    change receivePayload key overhead conn.jumboReassembly (dg.bytes.drop 6) >>= _ = _
    cases receivePayload key overhead conn.jumboReassembly (dg.bytes.drop 6) <;> rfl
  | some cipher =>
    dsimp only at hopen ⊢
    rw [hopen]
    change receivePayload key overhead conn.jumboReassembly payload >>= _ = _
    cases receivePayload key overhead conn.jumboReassembly payload <;> rfl

/-- The body of the `i`-th fragment of a message. -/
def fragmentBody (overhead id : ℕ) (m : List UInt8) (i : ℕ) : List UInt8 :=
  (PackletOneJumboFragment.of id m.length (i * fragMtu overhead)).writeTo ++ chunk (fragMtu overhead) m i

theorem fragMtu_bounds (h : overhead ≤ 16) :
    0 < fragMtu overhead ∧ fragMtu overhead ≤ mtuFragmented overhead ∧ mtuFragmented overhead < 2 ^ 14 - 8 := by
  unfold fragMtu mtuFragmented mtuInsideStp smallestFrame
  omega

theorem fragmentBody_length {overhead id i : ℕ} {m : List UInt8} :
    (fragmentBody overhead id m i).length = 8 + (chunk (fragMtu overhead) m i).length := by
  rw [fragmentBody, length_append, PackletOneJumboFragment.writeTo, leBytes_length]

theorem fragmentPayload_ok (debug : Bool) {overhead id i : ℕ} (hover : overhead ≤ 16) (hid : id < maxJumbogramIds)
    (hshort : m.length < 2 ^ 23) (hi : i * fragMtu overhead < m.length) :
    fragmentPayload debug id m (fragMtu overhead) (mtuInsideStp overhead) i =
      .ok (frame (mtuInsideStp overhead) .oneJumboFragment (fragmentBody overhead id m i)) := by
  have hbounds := fragMtu_bounds hover
  have hsize := chunk_length (c := fragMtu overhead) (m := m) (i := i)
  unfold fragmentPayload
  dsimp only
  rw [show (m.drop (i * fragMtu overhead)).take (fragMtu overhead) = chunk (fragMtu overhead) m i from rfl,
    ← @fragmentBody_length overhead id, PackletHeader.new_ok (by rw [fragmentBody_length]; omega), ok_bind,
    PackletOneJumboFragment.new_ok hid hshort (by omega), ok_bind, append_assoc]
  rfl

/-- A chunk of the message that the slot of its id agrees with is accepted, and delivers the message when it completes
it. Other slots stay as they are, but for the oldest when there is no room. -/
theorem receivePayload_chunk (key : K) {overhead id i : ℕ} (hwf : slots.Wf)
    (hs : (slots.slotFor id m.length).Chunked (fragMtu overhead) S) (hm : (slots.slotFor id m.length).Agrees m)
    (hover : overhead ≤ 16) (hid : id < maxJumbogramIds) (hlong : mtuFragmented overhead < m.length)
    (hshort : m.length < 2 ^ 23) (hi : i * fragMtu overhead < m.length) :
    ∃ slots', receivePayload key overhead slots
          (frame (mtuInsideStp overhead) .oneJumboFragment (fragmentBody overhead id m i)) =
        .ok (some slots', if Full (fragMtu overhead) m.length (insert i S) then [⟨key, m, some id⟩] else []) ∧
      slots'.Wf ∧
      (slots'.slotFor id m.length).Chunked (fragMtu overhead)
        (if Full (fragMtu overhead) m.length (insert i S) then ∅ else insert i S) ∧
      (slots'.slotFor id m.length).Agrees m ∧
      (∀ k ≠ id, slots'[k]? = none ∨ slots'[k]? = slots[k]?) ∧
      (id ∈ slots ∨ slots.size < maxReassemblySlots → ∀ k ≠ id, slots'[k]? = slots[k]?) := by
  have hbounds := fragMtu_bounds hover
  have hsize := chunk_length (c := fragMtu overhead) (m := m) (i := i)
  have hne : ∀ k, k ≠ id → ¬ compare id k = .eq := fun k hk heq => hk (compare_eq_iff_eq.mp heq).symm
  obtain ⟨slots₁, hreserve, hslot, hframe, hroom⟩ := reserve_ok slots id m.length
  obtain ⟨s', hs', hm', hfragment⟩ :=
    fragment_chunk hreserve hslot hs hm hid hlong hshort hbounds.1 hbounds.2.1 hi
  obtain ⟨r, hr, hrwf⟩ := hwf.fragment (mtuFragmented overhead) (fragmentBody overhead id m i)
  obtain rfl : _ = r := Except.ok.inj (hfragment.symm.trans hr)
  have hpacklets := packlets_fragment key (mtuFragmented overhead) (mtuInsideStp overhead)
    (show (fragmentBody overhead id m i).length < 2 ^ 14 by rw [fragmentBody_length]; omega) slots
  rw [show slots.fragment _ (fragmentBody overhead id m i) = _ from hfragment] at hpacklets
  by_cases hfull : Full (fragMtu overhead) m.length (insert i S)
  · rw [if_pos hfull] at hpacklets hrwf ⊢
    have hgone : (slots₁.erase id)[id]? = none := ExtTreeMap.getElem?_erase_self
    have hrest : ∀ k ≠ id, (slots₁.erase id)[k]? = slots₁[k]? := fun k hk => by
      rw [ExtTreeMap.getElem?_erase, if_neg (hne k hk)]
    have hnew : slotFor (slots₁.erase id) id m.length = .new m.length := by
      rw [slotFor, hgone, Option.getD_none]
    refine ⟨slots₁.erase id, hpacklets, hrwf _ _ rfl, ?_, ?_, fun k hk => ?_, fun h k hk => ?_⟩
    · rw [hnew, if_pos hfull]
      exact ReassemblySlot.chunked_new hshort
    · rw [hnew]
      exact ReassemblySlot.agrees_new m
    · rw [hrest k hk]
      exact hframe k hk
    · rw [hrest k hk, hroom h k hk]
  · rw [if_neg hfull] at hpacklets hrwf ⊢
    have hrest : ∀ k ≠ id, (slots₁.insert id s')[k]? = slots₁[k]? := fun k hk => by
      rw [ExtTreeMap.getElem?_insert, if_neg (hne k hk)]
    have hnew : slotFor (slots₁.insert id s') id m.length = s' := by
      rw [slotFor, ExtTreeMap.getElem?_insert_self, Option.getD_some]
    refine ⟨slots₁.insert id s', hpacklets, hrwf _ _ rfl, ?_, ?_, fun k hk => ?_, fun h k hk => ?_⟩
    · rwa [hnew, if_neg hfull]
    · rwa [hnew]
    · rw [hrest k hk]
      exact hframe k hk
    · rw [hrest k hk, hroom h k hk]

/-- A packet of the peer: a fragment of the message, or any fragment of another. -/
inductive Arrival where
  | own (i : ℕ)
  | other (body : List UInt8)
  deriving DecidableEq

namespace Arrival

def payload (debug : Bool) (overhead id : ℕ) (m : List UInt8) : Arrival → Except Panic (List UInt8)
  | .own i => fragmentPayload debug id m (fragMtu overhead) (mtuInsideStp overhead) i
  | .other body => do
    let hdr ← PackletHeader.new debug .oneJumboFragment body.length
    return (hdr.writeTo ++ body).rightpad (mtuInsideStp overhead) 0

/-- The packet carries a chunk of the message, or a fragment with one of the other ids. -/
def Fits (overhead len : ℕ) (others : Finset ℕ) : Arrival → Prop
  | .own i => i * fragMtu overhead < len
  | .other body => body.length < 2 ^ 14 ∧
    ∃ frag data, PackletOneJumboFragment.readFrom body = some (frag, data) ∧ frag.id ∈ others

/-- The chunks of the message that have come since it was last complete. -/
def since (overhead len : ℕ) (S : Finset ℕ) : Arrival → Finset ℕ
  | .own i => if Full (fragMtu overhead) len (insert i S) then ∅ else insert i S
  | .other _ => S

def arrive (debug : Bool) (key : K) (overhead id : ℕ) (m : List UInt8) (slots : JumboReassembly) (a : Arrival) :
    Except Panic (Option JumboReassembly × List (Received K)) := do
  let payload ← a.payload debug overhead id m
  receivePayload key overhead slots payload

def arriveAll (debug : Bool) (key : K) (overhead id : ℕ) (m : List UInt8) :
    JumboReassembly → List Arrival → Except Panic (Option JumboReassembly × List (Received K))
  | slots, [] => return (some slots, [])
  | slots, a :: rest => do
    match ← arrive debug key overhead id m slots a with
    | (none, received) => return (none, received)
    | (some slots, received) =>
      let (slots, later) ← arriveAll debug key overhead id m slots rest
      return (slots, received ++ later)

section Runs

variable {debug : Bool} {key : K} {overhead id i : ℕ} {m : List UInt8} {others S : Finset ℕ}
  {slots slots' : JumboReassembly}

/-- What holds at the receiver between two packets: the slot of the message has the chunks `S`, and no other slot is
held but those of the other ids. -/
structure Tracks (overhead id : ℕ) (m : List UInt8) (others S : Finset ℕ) (slots : JumboReassembly) : Prop where
  wf : slots.Wf
  keys : ∀ k ∈ slots, k = id ∨ k ∈ others
  chunked : (slots.slotFor id m.length).Chunked (fragMtu overhead) S
  agrees : (slots.slotFor id m.length).Agrees m

theorem Tracks.room (h : Tracks overhead id m others S slots) (hcard : others.card < maxReassemblySlots)
    (hk : k = id ∨ k ∈ others) : k ∈ slots ∨ slots.size < maxReassemblySlots := by
  by_cases hmem : k ∈ slots
  · exact .inl hmem
  right
  have hsub : insert k slots.keys.toFinset ⊆ insert id others := by
    intro j hj
    rcases Finset.mem_insert.mp hj with rfl | hj
    · exact Finset.mem_insert.mpr hk
    · exact Finset.mem_insert.mpr (h.keys j (ExtTreeMap.mem_keys.mp (mem_toFinset.mp hj)))
  have hle := Finset.card_le_card hsub
  have hnot : k ∉ slots.keys.toFinset := fun hk => hmem (ExtTreeMap.mem_keys.mp (mem_toFinset.mp hk))
  rw [Finset.card_insert_of_notMem hnot, toFinset_card_of_nodup ExtTreeMap.nodup_keys, ExtTreeMap.length_keys] at hle
  have := Finset.card_insert_le id others
  omega

theorem Tracks.keys_of_frame (h : Tracks overhead id m others S slots) (hk : k = id ∨ k ∈ others)
    (hframe : ∀ j ≠ k, slots'[j]? = slots[j]?) : ∀ j ∈ slots', j = id ∨ j ∈ others := by
  intro j hj
  by_cases hjk : j = k
  · rwa [hjk]
  · rw [ExtTreeMap.mem_iff_isSome_getElem?, hframe j hjk, ← ExtTreeMap.mem_iff_isSome_getElem?] at hj
    exact h.keys j hj

theorem Tracks.own (debug : Bool) (key : K) (h : Tracks overhead id m others S slots) (hover : overhead ≤ 16)
    (hcard : others.card < maxReassemblySlots) (hid : id < maxJumbogramIds) (hlong : mtuFragmented overhead < m.length)
    (hshort : m.length < 2 ^ 23) (hi : i * fragMtu overhead < m.length) :
    ∃ slots', arrive debug key overhead id m slots (.own i) =
        .ok (some slots', if Full (fragMtu overhead) m.length (insert i S) then [⟨key, m, some id⟩] else []) ∧
      Tracks overhead id m others (since overhead m.length S (.own i)) slots' := by
  obtain ⟨slots', hreceive, hwf, hs, hm, -, hframe⟩ :=
    receivePayload_chunk key h.wf h.chunked h.agrees hover hid hlong hshort hi
  refine ⟨slots', ?_, hwf, h.keys_of_frame (.inl rfl) (hframe (h.room hcard (.inl rfl))), hs, hm⟩
  unfold arrive
  rw [show (Arrival.own i).payload debug overhead id m = _ from fragmentPayload_ok debug hover hid hshort hi, ok_bind,
    hreceive]

theorem Tracks.other (h : Tracks overhead id m others S slots) (hcard : others.card < maxReassemblySlots)
    (hid : id ∉ others) (hfits : (Arrival.other body).Fits overhead m.length others)
    (hrun : arrive debug key overhead id m slots (.other body) = .ok (some slots', received)) :
    Tracks overhead id m others S slots' := by
  obtain ⟨hbody, frag, data, hread, hmem⟩ := hfits
  have hne : id ≠ frag.id := fun heq => hid (heq ▸ hmem)
  obtain ⟨r, hr, hrwf⟩ := h.wf.fragment (mtuFragmented overhead) body
  have hpayload : (Arrival.other body).payload debug overhead id m =
      .ok (frame (mtuInsideStp overhead) .oneJumboFragment body) := by
    unfold payload
    dsimp only
    rw [PackletHeader.new_ok hbody]
    rfl
  unfold arrive receivePayload at hrun
  rw [hpayload, ok_bind, packlets_fragment key (mtuFragmented overhead) (mtuInsideStp overhead) hbody slots, hr] at hrun
  match r, hrun with
  | some (slots'', message), hrun =>
    cases hrun
    obtain ⟨slots₁, hreserve, hrest⟩ := JumboReassembly.fragment_eq_some hr hread
    obtain ⟨slots₁', hreserve', -, -, hroom⟩ := JumboReassembly.reserve_ok slots frag.id frag.totalLen
    obtain rfl : slots₁ = slots₁' := Except.ok.inj (hreserve.symm.trans hreserve')
    have hframe : ∀ k ≠ frag.id, slots'[k]? = slots[k]? := fun k hk => by
      rw [hrest k hk, hroom (h.room hcard (.inr hmem)) k hk]
    have hsame : slots'.slotFor id m.length = slots.slotFor id m.length := by
      rw [JumboReassembly.slotFor, hframe id hne, JumboReassembly.slotFor]
    exact ⟨hrwf _ _ rfl, h.keys_of_frame (.inr hmem) hframe, by rw [hsame]; exact h.chunked, by rw [hsame]; exact h.agrees⟩

theorem Tracks.arriveAll {arrivals : List Arrival} {received : List (Received K)}
    (h : Tracks overhead id m others S slots) (hover : overhead ≤ 16) (hcard : others.card < maxReassemblySlots)
    (hid : id < maxJumbogramIds) (hothers : id ∉ others) (hlong : mtuFragmented overhead < m.length)
    (hshort : m.length < 2 ^ 23) (hfits : ∀ a ∈ arrivals, a.Fits overhead m.length others)
    (hrun : arriveAll debug key overhead id m slots arrivals = .ok (some slots', received)) :
    Tracks overhead id m others (arrivals.foldl (since overhead m.length) S) slots' := by
  induction arrivals generalizing slots S received with
  | nil =>
    cases hrun
    exact h
  | cons a arrivals ih =>
    rw [Arrival.arriveAll] at hrun
    obtain ⟨⟨mid, first⟩, hstep, hrun⟩ := bind_eq_ok.mp hrun
    match mid, hrun with
    | some mid, hrun =>
      obtain ⟨⟨last, later⟩, hrest, hrun⟩ := bind_eq_ok.mp hrun
      cases hrun
      have hmid : Tracks overhead id m others (since overhead m.length S a) mid := by
        cases a with
        | own i =>
          obtain ⟨slots₁, hown, htracks⟩ :=
            h.own debug key hover hcard hid hlong hshort (hfits (.own i) (by simp))
          obtain ⟨rfl, -⟩ : mid = slots₁ ∧ _ := by simpa using hstep.symm.trans hown
          exact htracks
        | other body => exact h.other hcard hothers (hfits (.other body) (by simp)) hstep
      exact ih hmid (fun a ha => hfits a (by simp [ha])) hrest

end Runs

end Arrival

end Crosslink.Transport

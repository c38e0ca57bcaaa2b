import Mathlib.Data.Vector.Basic
import Mathlib.Tactic

/-!
# Words and byte readers

`leBytes n x` is the `n`-byte little-endian encoding of `x` and `leNat` reads one back; `beBytes` and `beNat` are their
big-endian mirrors.
A `Reader` consumes a prefix of a byte string and fails when it is too short; `readBytes` is the
only primitive, so every reader built from it inherits the prefix facts `readBytes_eq_some`.
`Reads r w V` pairs a reader with a writer: `r` accepts the writings of the values in `V`, whatever
follows them, and nothing else. `readMany` repeats a reader and `CompactSize` is the variable-length
integer of the Bitcoin family.
-/

namespace Codec

open List

abbrev Bytes (n : ℕ) := List.Vector UInt8 n

def Bytes.zero (n : ℕ) : Bytes n := List.Vector.replicate n 0

/-- The `n` little-endian bytes of `x`. -/
def leBytes : ℕ → ℕ → List UInt8
  | 0, _ => []
  | n + 1, x => UInt8.ofNat x :: leBytes n (x / 256)

def leNat : List UInt8 → ℕ
  | [] => 0
  | b :: bs => b.toNat + 256 * leNat bs

@[simp] theorem leBytes_length (n x : ℕ) : (leBytes n x).length = n := by
  induction n generalizing x with
  | zero => rfl
  | succ n ih => simp [leBytes, ih]

theorem leBytes_length32 (x : ℕ) : (leBytes 32 x).length = 32 := leBytes_length 32 x

theorem leBytes_take (h : k ≤ n) (x : ℕ) : (leBytes n x).take k = leBytes k x := by
  induction n generalizing k x with
  | zero =>
    obtain rfl : k = 0 := by omega
    rfl
  | succ n ih =>
    cases k with
    | zero => rfl
    | succ k => rw [leBytes, leBytes, take_succ_cons, ih (by omega)]

theorem leNat_leBytes (n x : ℕ) : leNat (leBytes n x) = x % 256 ^ n := by
  induction n generalizing x with
  | zero => simp [leBytes, leNat, Nat.mod_one]
  | succ n ih =>
    simp only [leBytes, leNat, ih, UInt8.toNat_ofNat']
    rw [pow_succ 256, Nat.mul_comm (256 ^ n) 256, Nat.mod_mul]

theorem leNat_lt (l : List UInt8) : leNat l < 256 ^ l.length := by
  induction l with
  | nil => simp [leNat]
  | cons b bs ih =>
    have hb := b.toNat_lt
    simp only [leNat, length_cons, pow_succ]
    omega

theorem leBytes_leNat (l : List UInt8) : leBytes l.length (leNat l) = l := by
  induction l with
  | nil => rfl
  | cons b bs ih =>
    have hb : b.toNat < 256 := b.toNat_lt
    have hdiv : (b.toNat + 256 * leNat bs) / 256 = leNat bs := by omega
    simp only [length_cons, leBytes, leNat, hdiv, ih, cons.injEq, and_true]
    apply UInt8.toNat_inj.mp
    rw [UInt8.toNat_ofNat']
    omega

theorem leBytes_mod (n x : ℕ) : leBytes n (x % 256 ^ n) = leBytes n x := by
  have h := leBytes_leNat (leBytes n x)
  rwa [leBytes_length, leNat_leBytes] at h

theorem leBytes_inj (hx : x < 256 ^ n) (hy : y < 256 ^ n) (h : leBytes n x = leBytes n y) : x = y := by
  have := congrArg leNat h
  rwa [leNat_leBytes, leNat_leBytes, Nat.mod_eq_of_lt hx, Nat.mod_eq_of_lt hy] at this

theorem leBytes_succ (n x : ℕ) : leBytes (n + 1) x = leBytes n x ++ [UInt8.ofNat (x / 256 ^ n)] := by
  induction n generalizing x with
  | zero => simp [leBytes]
  | succ n ih => rw [leBytes, ih, leBytes, Nat.div_div_eq_div_mul, ← pow_succ', cons_append]

theorem leNat_append (l m : List UInt8) : leNat (l ++ m) = leNat l + 256 ^ l.length * leNat m := by
  induction l with
  | nil => simp [leNat]
  | cons b l ih =>
    rw [cons_append, leNat, ih, leNat, length_cons, pow_succ']
    ring

/-- The `n` big-endian bytes of `x`. -/
def beBytes (n x : ℕ) : List UInt8 := (leBytes n x).reverse

def beNat (l : List UInt8) : ℕ := leNat l.reverse

@[simp] theorem beBytes_length (n x : ℕ) : (beBytes n x).length = n := by simp [beBytes]

theorem beNat_beBytes (n x : ℕ) : beNat (beBytes n x) = x % 256 ^ n := by
  rw [beNat, beBytes, reverse_reverse, leNat_leBytes]

theorem beBytes_succ (n x : ℕ) : beBytes (n + 1) x = UInt8.ofNat (x / 256 ^ n) :: beBytes n x := by
  rw [beBytes, leBytes_succ, reverse_append, beBytes]
  rfl

theorem beNat_zero_cons (l : List UInt8) : beNat (0 :: l) = beNat l := by
  rw [beNat, reverse_cons, leNat_append]
  simp [leNat, beNat]

/-- Byte strings in lexicographic order, which is the order of the big-endian numbers they spell. -/
instance {n : ℕ} : LinearOrder (Bytes n) :=
  LinearOrder.lift' (fun b => leNat b.toList.reverse) fun a b h => by
    have hlen : a.toList.reverse.length = b.toList.reverse.length := by simp
    have hrev := congrArg (leBytes b.toList.reverse.length) h
    rw [← hlen, leBytes_leNat, hlen, leBytes_leNat] at hrev
    exact List.Vector.toList_injective (List.reverse_injective hrev)

-- keys and hashes have this size
instance lawfulBEq32 : LawfulBEq (Bytes 32) := inferInstance

instance transCmp32 : Std.TransCmp (compare : Bytes 32 → Bytes 32 → Ordering) := inferInstance

/-- Reads a value off the front of a byte string, leaving the rest. -/
abbrev Reader := StateT (List UInt8) Option

/-- The next `n` bytes. -/
def readBytes (n : ℕ) : Reader (Bytes n) := fun buf =>
  if h : n ≤ buf.length then some (⟨buf.take n, by simp [h]⟩, buf.drop n) else none

/-- The next `n` bytes as a little-endian word. -/
def readLE (n : ℕ) : Reader ℕ := do
  let b ← readBytes n
  return leNat b.toList

theorem bind_eq_some {x : Reader α} {f : α → Reader β} {b : β} :
    (x >>= f) buf = some (b, rest) ↔ ∃ a mid, x buf = some (a, mid) ∧ f a mid = some (b, rest) := by
  change ((x buf).bind fun p => f p.1 p.2) = some (b, rest) ↔ _
  simp [Option.bind_eq_some_iff]

theorem bind_eq_none {x : Reader α} {f : α → Reader β} :
    (x >>= f) buf = none ↔ ∀ a mid, x buf = some (a, mid) → f a mid = none := by
  change ((x buf).bind fun p => f p.1 p.2) = none ↔ _
  simp [Option.bind_eq_none_iff]

@[simp] theorem pure_eq_some :
    (pure a : Reader α) buf = some (b, rest) ↔ a = b ∧ buf = rest := by
  change some (a, buf) = some (b, rest) ↔ _
  simp

theorem readBytes_eq_some :
    readBytes n buf = some (b, rest) ↔ buf = b.toList ++ rest := by
  unfold readBytes
  constructor
  · intro h
    split_ifs at h with hn
    cases h
    exact (take_append_drop n buf).symm
  · rintro rfl
    have hlen : b.toList.length = n := b.toList_length
    rw [dif_pos (by simp)]
    refine congrArg some (Prod.ext ?_ ?_)
    · apply List.Vector.toList_injective
      change (b.toList ++ rest).take n = b.toList
      exact take_left' hlen
    · change (b.toList ++ rest).drop n = rest
      exact drop_left' hlen

theorem readBytes_eq_none :
    readBytes n buf = none ↔ buf.length < n := by
  unfold readBytes
  split_ifs with h <;> simp <;> omega

theorem readLE_eq_some :
    readLE n buf = some (x, rest) ↔ x < 256 ^ n ∧ buf = leBytes n x ++ rest := by
  unfold readLE
  simp only [bind_eq_some, readBytes_eq_some, pure_eq_some]
  constructor
  · rintro ⟨b, mid, rfl, rfl, rfl⟩
    have hlen : b.toList.length = n := b.toList_length
    have hlt := leNat_lt b.toList
    have hback := leBytes_leNat b.toList
    rw [hlen] at hlt hback
    exact ⟨hlt, by rw [hback]⟩
  · rintro ⟨hx, rfl⟩
    refine ⟨⟨leBytes n x, by simp⟩, rest, rfl, ?_, rfl⟩
    change leNat (leBytes n x) = x
    rw [leNat_leBytes, Nat.mod_eq_of_lt hx]

theorem readLE_leBytes (n x : ℕ) (rest : List UInt8) : readLE n (leBytes n x ++ rest) = some (x % 256 ^ n, rest) :=
  readLE_eq_some.mpr ⟨Nat.mod_lt x (Nat.pow_pos (by decide)), by rw [leBytes_mod]⟩

theorem readLE_eq_none :
    readLE n buf = none ↔ buf.length < n := by
  unfold readLE
  rw [bind_eq_none, ← readBytes_eq_none, Option.eq_none_iff_forall_not_mem]
  constructor
  · rintro h ⟨b, mid⟩ hb
    exact absurd (h b mid hb) (Option.some_ne_none _)
  · intro h b mid hb
    exact absurd hb (h (b, mid))

/-! ### Readers paired with writers -/

section Reads

variable {α : Type} {r : Reader α} {w : α → List UInt8} {V : α → Prop}

/-- `r` reads back what `w` writes for a value in `V`, and accepts nothing else. -/
def Reads (r : Reader α) (w : α → List UInt8) (V : α → Prop) : Prop :=
  ∀ a buf rest, r buf = some (a, rest) ↔ V a ∧ buf = w a ++ rest

def reject : Reader α := fun _ => none

@[simp] theorem reject_eq_some : reject buf = some (a, rest) ↔ False := by
  simp [reject]

theorem reads_readBytes (n : ℕ) : Reads (readBytes n) List.Vector.toList fun _ => True :=
  fun _ _ _ => by simp [readBytes_eq_some]

theorem reads_readLE (n : ℕ) : Reads (readLE n) (leBytes n) fun x => x < 256 ^ n :=
  fun _ _ _ => readLE_eq_some

def readByte : Reader UInt8
  | [] => none
  | b :: buf => some (b, buf)

theorem reads_readByte : Reads readByte (fun b => [b]) fun _ => True := by
  rintro b (_ | ⟨c, buf⟩) rest <;> simp [readByte]

/-- `n` values, one after the other. -/
def readMany (r : Reader α) : ℕ → Reader (List α)
  | 0 => return []
  | n + 1 => do
    let a ← r
    let l ← readMany r n
    return a :: l

theorem Reads.readMany (h : Reads r w V) (n : ℕ) :
    Reads (readMany r n) (fun l => l.flatMap w) fun l => l.length = n ∧ ∀ a ∈ l, V a := by
  induction n with
  | zero =>
    intro l buf rest
    simp only [Codec.readMany, pure_eq_some, length_eq_zero_iff]
    constructor
    · rintro ⟨rfl, rfl⟩
      exact ⟨⟨rfl, nofun⟩, rfl⟩
    · rintro ⟨⟨rfl, -⟩, rfl⟩
      exact ⟨rfl, rfl⟩
  | succ n ih =>
    intro l buf rest
    simp only [Codec.readMany, bind_eq_some, pure_eq_some, h _ _ _, ih _ _ _]
    constructor
    · rintro ⟨a, -, ⟨ha, rfl⟩, l, -, ⟨⟨hlen, hl⟩, rfl⟩, rfl, rfl⟩
      exact ⟨⟨by simp [hlen], forall_mem_cons.mpr ⟨ha, hl⟩⟩, by simp⟩
    · rintro ⟨⟨hlen, hl⟩, rfl⟩
      obtain ⟨a, l, rfl⟩ := exists_cons_of_length_eq_add_one hlen
      obtain ⟨ha, hl⟩ := forall_mem_cons.mp hl
      exact ⟨a, _, ⟨ha, by simp⟩, l, _, ⟨⟨by simpa using hlen, hl⟩, rfl⟩, rfl, rfl⟩

theorem Reads.guard (h : Reads r w V) (p : α → Prop) [DecidablePred p] :
    Reads (do let a ← r; if p a then reject else return a) w fun a => V a ∧ ¬ p a := by
  intro a buf rest
  simp only [bind_eq_some, h _ _ _]
  constructor
  · rintro ⟨b, mid, ⟨hb, rfl⟩, hcheck⟩
    split_ifs at hcheck with hp
    · exact absurd hcheck (by simp)
    · obtain ⟨rfl, rfl⟩ := pure_eq_some.mp hcheck
      exact ⟨⟨hb, hp⟩, rfl⟩
  · rintro ⟨⟨ha, hp⟩, rfl⟩
    exact ⟨a, rest, ⟨ha, rfl⟩, by simp [hp]⟩

theorem Reads.optional (h : Reads r w V) (c : Prop) [Decidable c] (hz : V z) :
    Reads (if c then r else return z) (fun a => if c then w a else []) fun a => V a ∧ (¬ c → a = z) := by
  intro a buf rest
  split_ifs with hc
  · simp [h _ _ _, hc]
  · simp only [pure_eq_some, nil_append, hc, not_false_eq_true, forall_const]
    constructor
    · rintro ⟨rfl, rfl⟩
      exact ⟨⟨hz, rfl⟩, rfl⟩
    · rintro ⟨⟨-, rfl⟩, rfl⟩
      exact ⟨rfl, rfl⟩

/-- No writing of a value in `V` begins with the writing of another one. -/
def Unambiguous (w : α → List UInt8) (V : α → Prop) : Prop :=
  ∀ ⦃a b rest rest'⦄, V a → V b → w a ++ rest = w b ++ rest' → a = b ∧ rest = rest'

theorem Reads.unambiguous (h : Reads r w V) : Unambiguous w V := by
  intro a b rest rest' ha hb heq
  have hread := (h a _ rest).mpr ⟨ha, rfl⟩
  rw [heq, (h b _ rest').mpr ⟨hb, rfl⟩] at hread
  cases hread
  exact ⟨rfl, rfl⟩

theorem Unambiguous.injective (h : Unambiguous w V) (ha : V a) (hb : V b) (heq : w a = w b) : a = b :=
  (h ha hb (congrArg (· ++ []) heq)).1

theorem Unambiguous.flatMap (h : Unambiguous w V) (n : ℕ) :
    Unambiguous (fun l : List α => l.flatMap w) fun l => l.length = n ∧ ∀ a ∈ l, V a := by
  induction n with
  | zero =>
    rintro l l' rest rest' ⟨hlen, -⟩ ⟨hlen', -⟩ heq
    obtain rfl := length_eq_zero_iff.mp hlen
    obtain rfl := length_eq_zero_iff.mp hlen'
    exact ⟨rfl, heq⟩
  | succ n ih =>
    rintro l l' rest rest' ⟨hlen, hl⟩ ⟨hlen', hl'⟩ heq
    obtain ⟨a, l, rfl⟩ := exists_cons_of_length_eq_add_one hlen
    obtain ⟨b, l', rfl⟩ := exists_cons_of_length_eq_add_one hlen'
    obtain ⟨ha, htail⟩ := forall_mem_cons.mp hl
    obtain ⟨hb, htail'⟩ := forall_mem_cons.mp hl'
    simp only [flatMap_cons, append_assoc] at heq
    obtain ⟨rfl, hrest⟩ := h ha hb heq
    obtain ⟨rfl, rfl⟩ := ih ⟨by simpa using hlen, htail⟩ ⟨by simpa using hlen', htail'⟩ hrest
    exact ⟨rfl, rfl⟩

end Reads

/-- The consecutive pieces of `n` bytes; a shorter rest is left out. -/
def chunksExact (n : ℕ) (l : List UInt8) : List (Bytes n) :=
  List.ofFn fun i : Fin (l.length / n) => ⟨(l.drop (i * n)).take n, by
    have := Nat.mul_le_of_le_div n _ _ i.isLt
    rw [List.length_take, List.length_drop, Nat.min_eq_left]
    rw [Nat.succ_mul] at this
    omega⟩

theorem length_chunksExact (n : ℕ) (l : List UInt8) : (chunksExact n l).length = l.length / n := length_ofFn

theorem toList_getElem_chunksExact (hi : i < (chunksExact n l).length) :
    (chunksExact n l)[i].toList = (l.drop (i * n)).take n :=
  congrArg List.Vector.toList (List.getElem_ofFn hi)

theorem length_flatMap_toList (l : List (Bytes n)) : (l.flatMap List.Vector.toList).length = l.length * n := by
  simp [List.length_flatMap]

theorem stretch_flatMap_toList {l : List (Bytes n)} {b : Bytes n} (h : l[i]? = some b) :
    ((l.flatMap List.Vector.toList).drop (i * n)).take n = b.toList := by
  induction l generalizing i with
  | nil => simp at h
  | cons a l ih =>
    rw [flatMap_cons]
    cases i with
    | zero =>
      obtain rfl := Option.some.inj h
      rw [Nat.zero_mul, drop_zero, take_left' a.toList_length]
    | succ i =>
      rw [Nat.succ_mul, Nat.add_comm, ← drop_drop, drop_left' a.toList_length]
      exact ih h

theorem chunksExact_flatMap_toList (hn : 0 < n) (l : List (Bytes n)) :
    chunksExact n (l.flatMap List.Vector.toList) = l := by
  have hlength : (chunksExact n (l.flatMap List.Vector.toList)).length = l.length := by
    rw [length_chunksExact, length_flatMap_toList, Nat.mul_div_cancel _ hn]
  refine ext_getElem hlength fun i hi hi' => List.Vector.toList_injective ?_
  rw [toList_getElem_chunksExact hi, stretch_flatMap_toList (getElem?_eq_getElem hi')]

/-! ### Variable-length integers -/

namespace CompactSize

def maxCompactSize : ℕ := 0x02000000

def readWide (k least : ℕ) : Reader ℕ := do
  let n ← readLE k
  if n < least then reject else return n

def readFlagged (flag : ℕ) : Reader ℕ :=
  if flag < 253 then return flag
  else if flag = 253 then readWide 2 253
  else if flag = 254 then readWide 4 0x10000
  else readWide 8 0x100000000

def readAny : Reader ℕ := do
  let flag ← readLE 1
  readFlagged flag

def read : Reader ℕ := do
  let flag ← readLE 1
  let result ← readFlagged flag
  if maxCompactSize < result then reject else return result

def write (size : ℕ) : List UInt8 :=
  if size < 253 then [UInt8.ofNat size]
  else if size ≤ 0xFFFF then 253 :: leBytes 2 size
  else if size ≤ 0xFFFFFFFF then 254 :: leBytes 4 size
  else 255 :: leBytes 8 size

theorem reads_readWide (k least : ℕ) :
    Reads (readWide k least) (leBytes k) fun n => n < 256 ^ k ∧ ¬ n < least := (reads_readLE k).guard _

theorem reads_readAny : Reads readAny write fun n => n < 2 ^ 64 := by
  intro n buf rest
  simp only [readAny, bind_eq_some, readLE_eq_some]
  constructor
  · rintro ⟨flag, mid, ⟨hflag, rfl⟩, hresult⟩
    unfold write
    unfold readFlagged at hresult
    split_ifs at hresult with h1 h2 h3
    · obtain ⟨rfl, rfl⟩ := pure_eq_some.mp hresult
      rw [if_pos h1]
      exact ⟨by omega, rfl⟩
    · obtain ⟨⟨hlt, hleast⟩, rfl⟩ := (reads_readWide _ _ _ _ _).mp hresult
      rw [if_neg (by omega), if_pos (by omega), h2]
      exact ⟨by omega, rfl⟩
    · obtain ⟨⟨hlt, hleast⟩, rfl⟩ := (reads_readWide _ _ _ _ _).mp hresult
      rw [if_neg (by omega), if_neg (by omega), if_pos (by omega), h3]
      exact ⟨by omega, rfl⟩
    · obtain ⟨⟨hlt, hleast⟩, rfl⟩ := (reads_readWide _ _ _ _ _).mp hresult
      obtain rfl : flag = 255 := by omega
      rw [if_neg (by omega), if_neg (by omega), if_neg (by omega)]
      exact ⟨by omega, rfl⟩
  · rintro ⟨hn, rfl⟩
    unfold write
    split_ifs with h1 h2 h3
    · refine ⟨n, rest, ⟨by omega, rfl⟩, ?_⟩
      rw [readFlagged, if_pos h1, pure_eq_some]
      exact ⟨rfl, rfl⟩
    · exact ⟨253, leBytes 2 n ++ rest, ⟨by decide, rfl⟩, (reads_readWide _ _ _ _ _).mpr ⟨⟨by omega, by omega⟩, rfl⟩⟩
    · exact ⟨254, leBytes 4 n ++ rest, ⟨by decide, rfl⟩, (reads_readWide _ _ _ _ _).mpr ⟨⟨by omega, by omega⟩, rfl⟩⟩
    · exact ⟨255, leBytes 8 n ++ rest, ⟨by decide, rfl⟩, (reads_readWide _ _ _ _ _).mpr ⟨⟨by omega, by omega⟩, rfl⟩⟩

theorem reads_read : Reads read write fun n => n ≤ maxCompactSize := by
  intro n buf rest
  have h := reads_readAny.guard (maxCompactSize < ·) n buf rest
  simp only [readAny, bind_assoc] at h
  refine h.trans ?_
  simp only [Nat.not_lt]
  refine and_congr_left' ⟨And.right, fun hn => ⟨?_, hn⟩⟩
  unfold maxCompactSize at hn
  omega

end CompactSize

end Codec

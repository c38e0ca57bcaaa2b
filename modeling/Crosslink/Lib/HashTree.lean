import Mathlib.Tactic

/-!
# Trees of hash-linked blocks

Blocks name their parent by its hash. A `Tree` is a set of blocks in which a hash determines the block; a
`Path` is a list of blocks of the tree from the genesis block on, each the parent of the next. Two paths
through one block agree up to it (`Path.agree`), so a block has at most one path (`Path.eq_pathTo`).
-/

namespace HashTree

/-- Blocks with a hash, the hash of a parent, and a height. -/
class HashLinked (B : Type) (H : outParam Type) where
  hash : B → H
  parent : B → H
  height : B → ℕ

open HashLinked List

/-- The blocks that exist, by their hash. -/
structure Tree (B : Type) {H : Type} [HashLinked B H] where
  block? : H → Option B
  hash_block : ∀ {h b}, block? h = some b → hash b = h
  genesis : B
  genesis_block : block? (hash genesis) = some genesis
  genesis_height : height genesis = 0

variable {B H : Type} [HashLinked B H]

/-- `b` is a child of `p`. -/
def Follows (p b : B) : Prop := parent b = hash p ∧ height b = height p + 1

namespace Tree

variable {T : Tree B} {l l' : List B} {b b' : B} {i j : ℕ}

def Mem (T : Tree B) (b : B) : Prop := T.block? (hash b) = some b

theorem Mem.eq (hb : T.Mem b) (hb' : T.Mem b') (h : hash b = hash b') : b = b' := by
  rw [Mem, h, hb'] at hb
  exact (Option.some.inj hb).symm

/-- The blocks from the genesis block to some block. -/
structure Path (T : Tree B) (l : List B) : Prop where
  head : l.head? = some T.genesis
  linked : l.IsChain Follows
  mem : ∀ b ∈ l, T.Mem b

theorem Path.ne_nil (h : T.Path l) : l ≠ [] := by
  rintro rfl
  exact absurd h.head (by simp)

theorem Path.follows (h : T.Path l) (hb : l[i]? = some b) (hb' : l[i + 1]? = some b') : Follows b b' := by
  obtain ⟨hi, rfl⟩ := List.getElem?_eq_some_iff.mp hb
  obtain ⟨hi', rfl⟩ := List.getElem?_eq_some_iff.mp hb'
  exact List.isChain_iff_getElem.mp h.linked i hi'

theorem Path.height_eq (h : T.Path l) (hb : l[i]? = some b) : height b = i := by
  induction i generalizing b with
  | zero =>
    rw [← head?_eq_getElem?, h.head] at hb
    rw [← Option.some.inj hb, T.genesis_height]
  | succ i ih =>
    obtain ⟨hi, -⟩ := List.getElem?_eq_some_iff.mp hb
    obtain ⟨p, hp⟩ : ∃ p, l[i]? = some p := ⟨_, List.getElem?_eq_getElem (by omega)⟩
    rw [(h.follows hp hb).2, ih hp]

theorem Path.of_mem (h : T.Path l) (hb : b ∈ l) : l[height b]? = some b := by
  obtain ⟨i, hi⟩ := mem_iff_getElem?.mp hb
  rwa [h.height_eq hi]

theorem Path.agree (h : T.Path l) (h' : T.Path l') (hb : b ∈ l) (hb' : b ∈ l') (hi : i ≤ height b) :
    l[i]? = l'[i]? := by
  have key : ∀ n ≤ height b, l[height b - n]? = l'[height b - n]? := by
    intro n
    induction n with
    | zero => exact fun _ => (h.of_mem hb).trans (h'.of_mem hb').symm
    | succ n ih =>
      intro hn
      have hsucc : height b - n = height b - (n + 1) + 1 := by omega
      have hsame := ih (by omega)
      have hlt := (List.getElem?_eq_some_iff.mp (h.of_mem hb)).1
      have hlt' := (List.getElem?_eq_some_iff.mp (h'.of_mem hb')).1
      obtain ⟨c, hc⟩ : ∃ c, l[height b - n]? = some c := ⟨_, List.getElem?_eq_getElem (by omega)⟩
      obtain ⟨p, hp⟩ : ∃ p, l[height b - (n + 1)]? = some p := ⟨_, List.getElem?_eq_getElem (by omega)⟩
      obtain ⟨p', hp'⟩ : ∃ p', l'[height b - (n + 1)]? = some p' := ⟨_, getElem?_eq_getElem (by omega)⟩
      rw [hsucc] at hsame hc
      have hparent := (h.follows hp hc).1
      have hparent' := (h'.follows hp' (hsame ▸ hc)).1
      have heq : p = p' := (h.mem p (mem_of_getElem? hp)).eq (h'.mem p' (mem_of_getElem? hp'))
        (hparent.symm.trans hparent')
      rw [hp, hp', heq]
  have := key (height b - i) (by omega)
  rwa [show height b - (height b - i) = i by omega] at this

theorem Path.genesis (T : Tree B) : T.Path [T.genesis] :=
  ⟨rfl, isChain_singleton _, fun _ hb => (mem_singleton.mp hb) ▸ T.genesis_block⟩

theorem Path.initial (h : T.Path l) (hl : l' <+: l) (hne : l' ≠ []) : T.Path l' := by
  obtain ⟨r, rfl⟩ := hl
  refine ⟨?_, (isChain_append.mp h.linked).1, fun b hb => h.mem b (mem_append_left r hb)⟩
  rw [← h.head, head?_append_of_ne_nil _ hne]

theorem Path.snoc (h : T.Path l) (hp : l.getLast? = some p) (hfollows : Follows p b) (hb : T.Mem b) :
    T.Path (l ++ [b]) := by
  refine ⟨?_, isChain_append.mpr ⟨h.linked, isChain_singleton _, ?_⟩, ?_⟩
  · rw [head?_append_of_ne_nil _ h.ne_nil, h.head]
  · intro x hx y hy
    obtain rfl : p = x := Option.some.inj (hp.symm.trans hx)
    obtain rfl : b = y := by simpa using hy
    exact hfollows
  · intro x hx
    rcases mem_append.mp hx with hx | hx
    · exact h.mem x hx
    · exact (mem_singleton.mp hx) ▸ hb

/-! ### Descent -/

/-! ### The path of a block -/

/-- The last `n + 1` blocks up to the block with hash `h`. -/
def walk (T : Tree B) : ℕ → H → List B
  | 0, h => (T.block? h).toList
  | n + 1, h => match T.block? h with
    | some b => T.walk n (parent b) ++ [b]
    | none => []

/-- The blocks from the genesis block to the block with hash `h`. -/
def pathTo (T : Tree B) (h : H) : List B :=
  match T.block? h with
  | some b => T.walk (height b) h
  | none => []

theorem Path.eq_walk (h : T.Path l) (hlen : l.length = n + 1) (hb : l.getLast? = some b) :
    T.walk n (hash b) = l := by
  induction n generalizing l b with
  | zero =>
    obtain ⟨c, rfl⟩ := length_eq_one_iff.mp hlen
    obtain rfl : c = b := by simpa using hb
    rw [walk, h.mem c (by simp)]
    rfl
  | succ n ih =>
    obtain ⟨l, c, rfl⟩ : ∃ l' c, l = l' ++ [c] := by
      have hne : l ≠ [] := h.ne_nil
      exact ⟨l.dropLast, l.getLast hne, (dropLast_append_getLast hne).symm⟩
    obtain rfl : c = b := by simpa using hb
    have hlen' : l.length = n + 1 := by simpa using hlen
    have hne : l ≠ [] := length_pos_iff.mp (by omega)
    obtain ⟨p, hp⟩ : ∃ p, l.getLast? = some p := ⟨_, getLast?_eq_some_getLast hne⟩
    have hlink := (isChain_append.mp h.linked).2.2 p hp c rfl
    rw [walk, h.mem c (by simp)]
    simp only
    rw [hlink.1, ih (h.initial (prefix_append _ _) hne) hlen' hp]

theorem Path.eq_pathTo (h : T.Path l) (hb : l.getLast? = some b) : T.pathTo (hash b) = l := by
  have hmem : b ∈ l := mem_of_getLast? hb
  have hlen : l.length = height b + 1 := by
    rw [getLast?_eq_getElem?] at hb
    have := h.height_eq hb
    have := length_pos_iff.mpr h.ne_nil
    omega
  rw [pathTo, h.mem b hmem]
  exact h.eq_walk hlen hb

/-! ### Finite trees -/

section OfList

variable [DecidableEq H] {genesis : B}

theorem find?_hash_eq_some (hnodup : (l.map HashLinked.hash).Nodup) (hb : b ∈ l) : l.find? (fun c => HashLinked.hash c == HashLinked.hash b) = some b := by
  obtain ⟨c, hc⟩ : ∃ c, l.find? (fun c => HashLinked.hash c == HashLinked.hash b) = some c :=
    Option.isSome_iff_exists.mp (find?_isSome.mpr ⟨b, hb, beq_self_eq_true _⟩)
  have hhash := find?_some hc
  rw [hc, inj_on_of_nodup_map hnodup (mem_of_find?_eq_some hc) hb (beq_iff_eq.mp hhash)]

def ofList (genesis : B) (l : List B) (hnodup : ((genesis :: l).map HashLinked.hash).Nodup) (hheight : height genesis = 0) :
    Tree B where
  block? h := (genesis :: l).find? fun b => HashLinked.hash b == h
  hash_block {h b} hb := by simpa using List.find?_some hb
  genesis := genesis
  genesis_block := find?_hash_eq_some hnodup List.mem_cons_self
  genesis_height := hheight

theorem mem_ofList (hb : b ∈ genesis :: l) :
    (ofList genesis l hnodup hheight).Mem b := find?_hash_eq_some hnodup hb

end OfList

end Tree

end HashTree

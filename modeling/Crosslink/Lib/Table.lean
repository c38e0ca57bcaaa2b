import Mathlib
import Crosslink.Lib.Fallible

/-!
# Finite maps

Two kinds of map. A `Table` is only looked up, filled and emptied, so it is a partial function. `insertNew` and
`removeOld` are the insertion and the removal that a program guards with a check, `insertAll` and `removeAll` their
loops, and `Extends t ks t'` says that `t'` is `t` with entries for the new keys `ks`: such entries may be removed
again in any order, the oldest first included. A map that is iterated too is the ordered map of the standard library,
where `total f m` sums a value over the entries and `takeAll` removes a list of entries, but stops when one is missing.
`Buckets K H` keeps a set of names for each key, the way an index over a map does: `b.Files k h` says that the name `h`
is filed under the key `k`, and each operation is described by what is filed afterwards.
-/

abbrev Table (K V : Type) := K → Option V

namespace Table

open List

section Tables

variable {K V ε : Type}

def empty : Table K V := fun _ => none

/-- `t'` has the entries of `t` and one for each of the new keys `ks`. -/
structure Extends (t : Table K V) (ks : List K) (t' : Table K V) : Prop where
  nodup : ks.Nodup
  fresh : ∀ k ∈ ks, t k = none
  present : ∀ k ∈ ks, t' k ≠ none
  frame : ∀ k, k ∉ ks → t' k = t k

variable {t t' t'' : Table K V} {ks ks' : List K}

theorem Extends.refl (t : Table K V) : Extends t [] t := ⟨nodup_nil, by simp, by simp, fun _ _ => rfl⟩

theorem Extends.eq (h : Extends t [] t') : t' = t := funext fun k => h.frame k not_mem_nil

theorem Extends.trans (h : Extends t ks t') (h' : Extends t' ks' t'') : Extends t (ks ++ ks') t'' where
  nodup := by
    refine nodup_append'.mpr ⟨h.nodup, h'.nodup, ?_⟩
    intro k hk hk'
    exact h.present k hk (h'.fresh k hk')
  fresh k hk := by
    rcases mem_append.mp hk with hk | hk
    · exact h.fresh k hk
    · by_cases hks : k ∈ ks
      · exact h.fresh k hks
      · rw [← h.frame k hks]
        exact h'.fresh k hk
  present k hk := by
    by_cases hks' : k ∈ ks'
    · exact h'.present k hks'
    · rw [h'.frame k hks']
      exact h.present k ((mem_append.mp hk).resolve_right hks')
  frame k hk := by
    rw [mem_append, not_or] at hk
    rw [h'.frame k hk.2, h.frame k hk.1]

theorem Extends.split (h : Extends t (ks ++ ks') t') : ∃ t₁, Extends t₁ ks t' ∧ Extends t ks' t₁ := by
  classical
  obtain ⟨hks, hks', hdisjoint⟩ := nodup_append'.mp h.nodup
  refine ⟨fun k => if k ∈ ks then none else t' k, ⟨hks, fun k hk => if_pos hk, ?_, fun k hk => (if_neg hk).symm⟩,
    hks', fun k hk => h.fresh k (mem_append_right ks hk), ?_, ?_⟩
  · exact fun k hk => h.present k (mem_append_left ks' hk)
  · intro k hk
    rw [if_neg fun hk' => hdisjoint hk' hk]
    exact h.present k (mem_append_right ks hk)
  · intro k hk
    by_cases hmem : k ∈ ks
    · rw [if_pos hmem, h.fresh k (mem_append_left ks' hmem)]
    · rw [if_neg hmem, h.frame k (by simp [hmem, hk])]

variable [DecidableEq K]

def insertNew (e : ε) (t : Table K V) (k : K) (v : V) : Except ε (Table K V) :=
  if t k = none then .ok (Function.update t k (some v)) else .error e

def removeOld (e : ε) (t : Table K V) (k : K) : Except ε (Table K V) :=
  if t k = none then .error e else .ok (Function.update t k none)

def insertAll (e : ε) (t : Table K V) (kvs : List (K × V)) : Except ε (Table K V) :=
  kvs.foldlM (fun t kv => insertNew e t kv.1 kv.2) t

def removeAll (e : ε) (t : Table K V) (ks : List K) : Except ε (Table K V) := ks.foldlM (removeOld e) t

variable {e : ε} {k : K} {v : V} {kvs : List (K × V)}

theorem insertNew_extends (h : insertNew e t k v = .ok t') : Extends t [k] t' := by
  unfold insertNew at h
  split_ifs at h with hk
  obtain rfl := Except.ok.inj h
  refine ⟨nodup_singleton k, by simpa using hk, by simp, ?_⟩
  intro k' hk'
  exact Function.update_of_ne (by simpa using hk') _ _

theorem insertAll_extends (h : insertAll e t kvs = .ok t') : Extends t (kvs.map Prod.fst) t' := by
  induction kvs generalizing t with
  | nil =>
    obtain rfl := Except.ok.inj h
    exact Extends.refl t
  | cons kv kvs ih =>
    rw [insertAll, foldlM_cons] at h
    cases h₁ : insertNew e t kv.1 kv.2 with
    | error e' => simp [h₁, bind, Except.bind] at h
    | ok t₁ =>
      rw [h₁] at h
      exact (insertNew_extends h₁).trans (ih h)

theorem Extends.removeOld (h : Extends t (k :: ks) t') (e : ε) :
    ∃ t₁, removeOld e t' k = .ok t₁ ∧ Extends t ks t₁ := by
  have hk : k ∉ ks := (nodup_cons.mp h.nodup).1
  refine ⟨Function.update t' k none, if_neg (h.present k mem_cons_self), (nodup_cons.mp h.nodup).2,
    fun k' hk' => h.fresh k' (mem_cons_of_mem k hk'), ?_, ?_⟩
  · intro k' hk'
    rw [Function.update_of_ne (ne_of_mem_of_not_mem hk' hk)]
    exact h.present k' (mem_cons_of_mem k hk')
  · intro k' hk'
    by_cases heq : k' = k
    · rw [heq, Function.update_self, h.fresh k mem_cons_self]
    · rw [Function.update_of_ne heq, h.frame k' (by simp [heq, hk'])]

theorem Extends.removeAll (h : Extends t (ks ++ ks') t') (e : ε) :
    ∃ t₁, removeAll e t' ks = .ok t₁ ∧ Extends t ks' t₁ := by
  induction ks generalizing t' with
  | nil => exact ⟨t', rfl, h⟩
  | cons k ks ih =>
    obtain ⟨t₁, h₁, hext⟩ := h.removeOld e
    obtain ⟨t₂, h₂, hext'⟩ := ih hext
    refine ⟨t₂, ?_, hext'⟩
    rw [Table.removeAll, foldlM_cons, h₁]
    exact h₂

end Tables

/-! ### Sums over an ordered map -/

section Totals

open Std (ExtTreeMap)

instance {K : Type} [LinearOrder K] : Std.LawfulEqOrd K := ⟨compare_eq_iff_eq.mp⟩

variable {K V M : Type} [LinearOrder K] [AddCommMonoid M] {f g : K → V → M} {m m' : ExtTreeMap K V} {k : K} {v w : V}

/-- The sum of `f` over the entries. -/
def total (f : K → V → M) (m : ExtTreeMap K V) : M := (m.toList.map fun kv => f kv.1 kv.2).sum

theorem nodup_toList (m : ExtTreeMap K V) : m.toList.Nodup := by
  refine m.distinct_keys_toList.imp ?_
  rintro a b hab rfl
  exact hab (compare_eq_iff_eq.mpr rfl)

theorem total_eq_of_mem {l : List (K × V)} (hl : l.Nodup) (h : ∀ k v, (k, v) ∈ l ↔ m[k]? = some v) :
    total f m = (l.map fun kv => f kv.1 kv.2).sum := by
  have hperm : m.toList.Perm l := by
    rw [perm_ext_iff_of_nodup (nodup_toList m) hl]
    rintro ⟨k, v⟩
    rw [h, ExtTreeMap.mem_toList_iff_getElem?_eq_some]
  exact (hperm.map _).sum_eq

theorem total_erase (h : m[k]? = some v) : total f m = f k v + total f (m.erase k) := by
  have hk : ∀ w, (k, w) ∉ (m.erase k).toList := by
    intro w hw
    rw [ExtTreeMap.mem_toList_iff_getElem?_eq_some, ExtTreeMap.getElem?_erase_self] at hw
    cases hw
  refine total_eq_of_mem (l := (k, v) :: (m.erase k).toList) (nodup_cons.mpr ⟨hk v, nodup_toList _⟩) ?_
  intro k' v'
  by_cases hkk : k' = k
  · subst hkk
    simp only [mem_cons, hk, or_false, Prod.mk.injEq, true_and, h, Option.some.injEq]
    exact eq_comm
  · rw [mem_cons, ExtTreeMap.mem_toList_iff_getElem?_eq_some, ExtTreeMap.getElem?_erase]
    simp [hkk, Ne.symm hkk]

theorem erase_insert_eq : (m.insert k v).erase k = m.erase k := by
  apply ExtTreeMap.ext_getElem?
  intro k'
  rw [ExtTreeMap.getElem?_erase, ExtTreeMap.getElem?_erase, ExtTreeMap.getElem?_insert]
  split_ifs <;> rfl

theorem erase_eq_self (h : m[k]? = none) : m.erase k = m := by
  apply ExtTreeMap.ext_getElem?
  intro k'
  rw [ExtTreeMap.getElem?_erase]
  split_ifs with hk
  · rw [← compare_eq_iff_eq.mp hk, h]
  · rfl

theorem total_insert : total f (m.insert k v) = f k v + total f (m.erase k) := by
  rw [total_erase (ExtTreeMap.getElem?_insert_self), erase_insert_eq]

theorem total_insert_new (h : m[k]? = none) : total f (m.insert k v) = f k v + total f m := by
  rw [total_insert, erase_eq_self h]

theorem total_insert_old (h : m[k]? = some w) : total f (m.insert k v) + f k w = total f m + f k v := by
  rw [total_insert, total_erase h]
  abel

end Totals

end Table

/-! ### Names filed under keys -/

section Filing

open Fallible List
open Std (ExtTreeMap ExtTreeSet)

section Taking

variable {K V : Type} [LinearOrder K]

/-- The values at the keys `ks`, all of which must be there, and the map without them. -/
def takeAll (m : ExtTreeMap K V) : List K → Except Panic (List V × ExtTreeMap K V)
  | [] => .ok ([], m)
  | k :: ks => do
    let v ← unwrap m[k]?
    let (vs, m') ← takeAll (m.erase k) ks
    return (v :: vs, m')

theorem takeAll_ok {m : ExtTreeMap K V} {ks : List K} (hks : ks.Nodup) (h : ∀ k ∈ ks, ∃ v, m[k]? = some v) :
    ∃ vs m', takeAll m ks = .ok (vs, m') ∧ (∀ v, v ∈ vs ↔ ∃ k ∈ ks, m[k]? = some v) ∧
      ∀ k, m'[k]? = if k ∈ ks then none else m[k]? := by
  induction ks generalizing m with
  | nil => exact ⟨[], m, rfl, by simp, by simp⟩
  | cons k ks ih =>
    obtain ⟨hk, hks⟩ := nodup_cons.mp hks
    have herase {k' : K} (hmem : k' ∈ ks) : (m.erase k)[k']? = m[k']? := by
      rw [ExtTreeMap.getElem?_erase, if_neg]
      rw [compare_eq_iff_eq]
      rintro rfl
      exact hk hmem
    obtain ⟨v, hv⟩ := h k mem_cons_self
    obtain ⟨vs, m', htake, hvs, hm'⟩ := ih hks fun k' hmem => by
      rw [herase hmem]
      exact h k' (mem_cons_of_mem _ hmem)
    refine ⟨v :: vs, m', ?_, fun w => ?_, fun k' => ?_⟩
    · rw [takeAll, unwrap_eq_ok.mpr hv, ok_bind, htake]
      rfl
    · rw [mem_cons, hvs]
      constructor
      · rintro (rfl | ⟨k', hmem, hget⟩)
        · exact ⟨k, mem_cons_self, hv⟩
        · exact ⟨k', mem_cons_of_mem _ hmem, herase hmem ▸ hget⟩
      · rintro ⟨k', hmem, hget⟩
        rcases mem_cons.mp hmem with rfl | hmem
        · exact .inl (Option.some.inj (hget.symm.trans hv))
        · exact .inr ⟨k', hmem, (herase hmem).trans hget⟩
    · simp only [hm', ExtTreeMap.getElem?_erase, compare_eq_iff_eq]
      by_cases hmem : k' ∈ ks
      · simp [hmem]
      · by_cases heq : k = k'
        · simp [heq]
        · simp [hmem, heq, Ne.symm heq]

end Taking

abbrev Buckets (K H : Type) [LinearOrder K] [LinearOrder H] := ExtTreeMap K (ExtTreeSet H)

namespace Buckets

variable {K H : Type} [LinearOrder K] [LinearOrder H] {b : Buckets K H} {k k' : K} {h h' : H}

/-- The name `h` is filed under `k`. -/
def Files (b : Buckets K H) (k : K) (h : H) : Prop := ∃ s, b[k]? = some s ∧ h ∈ s

def file (b : Buckets K H) (k : K) (h : H) : Buckets K H := b.insert k ((b[k]?.getD ∅).insert h)

/-- Takes a name out of its bucket, and the bucket away with the last name. -/
def unfile (b : Buckets K H) (k : K) (h : H) : Except Panic (Buckets K H) := do
  let s ← unwrap b[k]?
  ensure (h ∈ s)
  return if s.size = 1 then b.erase k else b.insert k (s.erase h)

def bucket (b : Buckets K H) (k : K) : List H := (b[k]?.getD ∅).toList

def names (b : Buckets K H) : List H := b.toList.flatMap fun kv => kv.2.toList

theorem mem_bucket : h ∈ b.bucket k ↔ b.Files k h := by
  rw [bucket, ExtTreeSet.mem_toList, Files]
  cases b[k]? <;> simp

theorem nodup_set (s : ExtTreeSet H) : s.toList.Nodup :=
  s.distinct_toList.imp fun hne heq => hne (compare_eq_iff_eq.mpr heq)

theorem nodup_bucket (b : Buckets K H) (k : K) : (b.bucket k).Nodup := nodup_set _

theorem mem_names : h ∈ b.names ↔ ∃ k, b.Files k h := by
  simp only [names, mem_flatMap, ExtTreeSet.mem_toList, Prod.exists, ExtTreeMap.mem_toList_iff_getElem?_eq_some, Files]

theorem nodup_names (huniq : ∀ k k' h, b.Files k h → b.Files k' h → k = k') : b.names.Nodup := by
  rw [names, nodup_flatMap]
  refine ⟨fun kv _ => nodup_set kv.2, ?_⟩
  have hpairs : b.toList.Pairwise fun kv kv' => kv.1 ≠ kv'.1 :=
    b.distinct_keys_toList.imp fun hne heq => hne (compare_eq_iff_eq.mpr heq)
  refine hpairs.imp_of_mem fun {kv kv'} hkv hkv' hne h hmem hmem' => hne ?_
  rw [ExtTreeSet.mem_toList] at hmem hmem'
  exact huniq _ _ h ⟨kv.2, ExtTreeMap.mem_toList_iff_getElem?_eq_some.mp hkv, hmem⟩
    ⟨kv'.2, ExtTreeMap.mem_toList_iff_getElem?_eq_some.mp hkv', hmem'⟩

@[simp] theorem not_files_empty : ¬ (∅ : Buckets K H).Files k h := by simp [Files]

theorem files_file : (b.file k h).Files k' h' ↔ (k' = k ∧ h' = h) ∨ b.Files k' h' := by
  simp only [Files, file, ExtTreeMap.getElem?_insert, compare_eq_iff_eq]
  by_cases hk : k = k'
  · subst hk
    cases b[k]? <;> simp [ExtTreeSet.mem_insert, @eq_comm _ h h']
  · simp [hk, Ne.symm hk]

theorem files_erase : Files (b.erase k) k' h ↔ k' ≠ k ∧ b.Files k' h := by
  simp only [Files, ExtTreeMap.getElem?_erase, compare_eq_iff_eq]
  by_cases hk : k = k'
  · simp [hk]
  · simp [hk, Ne.symm hk]

theorem files_eraseAll {ks : List K} : Files (ks.foldl ExtTreeMap.erase b) k h ↔ k ∉ ks ∧ b.Files k h := by
  induction ks generalizing b with
  | nil => simp
  | cons k' ks ih =>
    rw [foldl_cons, ih, files_erase, mem_cons, not_or]
    tauto

theorem files_filter {p : K → Bool} : Files (b.filter fun k _ => p k) k h ↔ p k = true ∧ b.Files k h := by
  simp only [Files, ExtTreeMap.getElem?_filter, Option.pfilter_eq_some_iff, ExtTreeMap.getKey_eq]
  constructor
  · rintro ⟨s, ⟨hs, hp⟩, hmem⟩
    exact ⟨hp, s, hs, hmem⟩
  · rintro ⟨hp, s, hs, hmem⟩
    exact ⟨s, ⟨hs, hp⟩, hmem⟩

theorem eq_of_size_one {s : ExtTreeSet H} (hsize : s.size = 1) (hh : h ∈ s) (hh' : h' ∈ s) : h = h' := by
  rw [← ExtTreeSet.length_toList, length_eq_one_iff] at hsize
  obtain ⟨x, hx⟩ := hsize
  rw [← ExtTreeSet.mem_toList, hx, mem_singleton] at hh hh'
  rw [hh, hh']

theorem unfile_ok (hf : b.Files k h) :
    ∃ b', b.unfile k h = .ok b' ∧ ∀ k' h', b'.Files k' h' ↔ b.Files k' h' ∧ ¬ (k' = k ∧ h' = h) := by
  obtain ⟨s, hs, hmem⟩ := hf
  refine ⟨_, by rw [unfile, unwrap_eq_ok.mpr hs, ok_bind, ensure_ok hmem, ok_bind]; rfl, fun k' h' => ?_⟩
  split_ifs with hsize
  · rw [files_erase, and_comm]
    refine and_congr_right fun hfiles => not_congr ⟨fun hk => ⟨hk, ?_⟩, And.left⟩
    subst hk
    obtain ⟨s', hs', hmem'⟩ := hfiles
    obtain rfl : s = s' := Option.some.inj (hs.symm.trans hs')
    exact eq_of_size_one hsize hmem' hmem
  · simp only [Files, ExtTreeMap.getElem?_insert, compare_eq_iff_eq]
    by_cases hk : k = k'
    · subst hk
      simp [hs, ExtTreeSet.mem_erase, and_comm, @eq_comm _ h h']
    · simp [hk, Ne.symm hk]

end Buckets

end Filing

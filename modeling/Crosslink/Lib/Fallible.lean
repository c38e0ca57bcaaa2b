import Mathlib.Tactic

/-!
# Programs that can panic

Two small pieces shared by every model of panicking code. `Panic` is what stops a program, and the
word operations `addU`, `subU`, list indexing and slicing return it. `wp m Q E s` says how a run of
the stateful program `m` from `s` can end: with a result and a state in `Q`, or with a panic and a
state in `E`. Its rules take a program apart statement by statement.
-/

namespace Fallible

open List

/-- Why a program stopped. -/
inductive Panic where
  | overflow
  | index
  | unwrap
  | assert
  | capacity
  | closure
  | divide
  deriving DecidableEq, Repr

/-- Why a function did not return a value: a panic, which stops the program, or an error it returns. -/
inductive Stop (ε : Type) where
  | panic (p : Panic)
  | error (e : ε)
  deriving DecidableEq, Repr

def Stop.mapErr {ε δ : Type} (f : ε → δ) : Stop ε → Stop δ
  | .panic p => .panic p
  | .error e => .error (f e)

/-! ### Word arithmetic, indexing and slicing -/

section Words

/-- Addition of `w`-bit words: a panic on overflow when `checks`, wrapping otherwise. -/
def addU (checks : Bool) (w x y : ℕ) : Except Panic ℕ :=
  if x + y < 2 ^ w then .ok (x + y) else if checks then .error .overflow else .ok ((x + y) % 2 ^ w)

/-- Subtraction of `w`-bit words: a panic on underflow when `checks`, wrapping otherwise. -/
def subU (checks : Bool) (w x y : ℕ) : Except Panic ℕ :=
  if y ≤ x then .ok (x - y) else if checks then .error .overflow else .ok ((2 ^ w + x - y) % 2 ^ w)

variable {checks : Bool} {w x y : ℕ}

theorem addU_ok (h : x + y < 2 ^ w) : addU checks w x y = .ok (x + y) := if_pos h

theorem addU_overflow (h : 2 ^ w ≤ x + y) : addU true w x y = .error .overflow := by
  rw [addU, if_neg (by omega), if_pos rfl]

theorem addU_mod (h : addU checks w x y = .ok z) : z = (x + y) % 2 ^ w := by
  unfold addU at h
  split_ifs at h with hlt hchecks
  · rw [Nat.mod_eq_of_lt hlt]
    exact (Except.ok.inj h).symm
  · exact (Except.ok.inj h).symm

theorem subU_ok (h : y ≤ x) : subU checks w x y = .ok (x - y) := if_pos h

theorem subU_underflow (h : x < y) : subU true w x y = .error .overflow := by
  rw [subU, if_neg (by omega), if_pos rfl]

end Words

section Lists

variable {α : Type}

/-- `l[i]`, a panic when `i` is out of range. -/
def getIdx (l : List α) (i : ℕ) : Except Panic α :=
  match l[i]? with
  | some a => .ok a
  | none => .error .index

/-- `l[a..b]`, a panic when the range is not inside the list. -/
def slice (l : List α) (a b : ℕ) : Except Panic (List α) :=
  if a ≤ b ∧ b ≤ l.length then .ok ((l.drop a).take (b - a)) else .error .index

/-- `l[i] = a`, a panic when `i` is out of range. -/
def setIdx (l : List α) (i : ℕ) (a : α) : Except Panic (List α) :=
  if i < l.length then .ok (l.set i a) else .error .index

/-- `opt.unwrap()`. -/
def unwrap (o : Option α) : Except Panic α :=
  match o with
  | some a => .ok a
  | none => .error .unwrap

/-- `assert!(c)`. -/
def ensure (c : Prop) [Decidable c] : Except Panic Unit := if c then .ok () else .error .assert

theorem unwrap_eq_ok : unwrap o = .ok a ↔ o = some a := by
  unfold unwrap
  cases o <;> simp

theorem ensure_ok [Decidable c] (h : c) : ensure c = .ok () := if_pos h

theorem ensure_eq_ok [Decidable c] : ensure c = .ok u ↔ c := by
  unfold ensure
  split_ifs <;> simp_all

theorem getIdx_ok (h : l[i]? = some a) : getIdx l i = .ok a := by
  rw [getIdx, h]

theorem getIdx_error (h : l.length ≤ i) : getIdx l i = .error .index := by
  rw [getIdx, getElem?_eq_none h]

theorem getIdx_eq_ok : getIdx l i = .ok a ↔ l[i]? = some a := by
  unfold getIdx
  cases l[i]? <;> simp

theorem setIdx_ok (h : i < l.length) (a : α) : setIdx l i a = .ok (l.set i a) := if_pos h

theorem slice_ok (h : a ≤ b) (hb : b ≤ l.length) :
    slice l a b = .ok ((l.drop a).take (b - a)) := if_pos ⟨h, hb⟩

theorem slice_middle (ha : l.length = a) (hb : a + m.length = b) :
    slice (l ++ (m ++ r)) a b = .ok m := by
  subst ha hb
  rw [slice_ok (by omega) (by simp), drop_left, Nat.add_sub_cancel_left, take_left]

end Lists

/-! ### Outcomes of `Except` computations -/

section Except

variable {ε α β : Type}

theorem bind_eq_ok {x : Except ε α} {f : α → Except ε β} {b : β} :
    (x >>= f) = .ok b ↔ ∃ a, x = .ok a ∧ f a = .ok b := by
  cases x with
  | error e => simp [bind, Except.bind]
  | ok a => simp [bind, Except.bind]

@[simp] theorem pure_eq_ok : (pure a : Except ε α) = .ok b ↔ a = b := by
  simp [pure, Except.pure]

@[simp] theorem ok_bind {f : α → Except ε β} : (Except.ok a >>= f) = f a := rfl

@[simp] theorem error_bind :
    ((Except.error e : Except ε α) >>= f) = .error e := rfl

@[simp] theorem mapError_eq_ok {δ : Type} {x : Except ε α} {f : ε → δ} :
    x.mapError f = .ok a ↔ x = .ok a := by
  cases x <;> simp [Except.mapError]

@[simp] theorem mapError_ok {δ : Type} {f : ε → δ} : (Except.ok a : Except ε α).mapError f = .ok a := rfl

theorem exists_ok_of_isSome {x : Except ε α} (h : x.toOption.isSome = true) : ∃ a, x = .ok a := by
  cases x with
  | ok a => exact ⟨a, rfl⟩
  | error e => simp [Except.toOption] at h

theorem exists_ok_of_any {x : Except ε α} (h : x.toOption.any p = true) : ∃ a, x = .ok a ∧ p a = true := by
  cases x with
  | ok a => exact ⟨a, rfl, h⟩
  | error e => cases h

def errorOf : Except ε α → Option ε
  | .error e => some e
  | .ok _ => none

theorem errorOf_eq_some : errorOf x = some e ↔ x = .error e := by
  cases x <;> simp [errorOf]

theorem foldlM_cons_eq_ok {f : β → α → Except ε β} :
    (a :: l).foldlM f b = .ok b' ↔ ∃ b₁, f b a = .ok b₁ ∧ l.foldlM f b₁ = .ok b' := by
  rw [foldlM_cons, bind_eq_ok]

theorem foldlM_append_eq_ok {f : β → α → Except ε β} {l l' : List α} :
    (l ++ l').foldlM f b = .ok b' ↔ ∃ b₁, l.foldlM f b = .ok b₁ ∧ l'.foldlM f b₁ = .ok b' := by
  rw [foldlM_append, bind_eq_ok]

@[simp] theorem foldlM_nil_eq_ok {f : β → α → Except ε β} :
    ([] : List α).foldlM f b = .ok b' ↔ b = b' := by
  rw [foldlM_nil, pure_eq_ok]

theorem foldlM_induction {f : β → α → Except ε β} {R : List α → β → Prop} (h : l.foldlM f b = .ok b') (h0 : R [] b)
    (hstep : ∀ pre a b₁ b₂, R pre b₁ → f b₁ a = .ok b₂ → R (pre ++ [a]) b₂) : R l b' := by
  induction l using reverseRecOn generalizing b' with
  | nil =>
    obtain rfl := foldlM_nil_eq_ok.mp h
    exact h0
  | append_singleton l a ih =>
    obtain ⟨b₁, h₁, h₂⟩ := foldlM_append_eq_ok.mp h
    obtain ⟨b₂, hlast, h₃⟩ := foldlM_cons_eq_ok.mp h₂
    obtain rfl := foldlM_nil_eq_ok.mp h₃
    exact hstep l a b₁ b₂ (ih h₁) hlast

theorem foldlM_ok {f : β → α → Except ε β} {I : β → Prop} {l : List α}
    (hstep : ∀ a ∈ l, ∀ b, I b → ∃ b', f b a = .ok b' ∧ I b') (h : I b) : ∃ b', l.foldlM f b = .ok b' ∧ I b' := by
  induction l generalizing b with
  | nil => exact ⟨b, rfl, h⟩
  | cons a l ih =>
    obtain ⟨b₁, h₁, hb₁⟩ := hstep a mem_cons_self b h
    obtain ⟨b', h', hb'⟩ := ih (fun c hc => hstep c (mem_cons_of_mem a hc)) hb₁
    exact ⟨b', foldlM_cons_eq_ok.mpr ⟨b₁, h₁, h'⟩, hb'⟩

theorem foldlM_turn {f : β → α → Except ε β} {l : List α} (h : l.foldlM f b = .ok b') (ha : a ∈ l) :
    ∃ b₁ b₂, f b₁ a = .ok b₂ := by
  induction l generalizing b with
  | nil => cases ha
  | cons c l ih =>
    obtain ⟨b₁, h₁, h₂⟩ := foldlM_cons_eq_ok.mp h
    rcases mem_cons.mp ha with rfl | ha
    · exact ⟨b, b₁, h₁⟩
    · exact ih h₂ ha

theorem foldlM_project {γ : Type} {f : β → α → Except ε β} {g : γ → α → Except ε γ} {π : β → γ} {l : List α}
    (hstep : ∀ b a b', f b a = .ok b' → g (π b) a = .ok (π b')) (h : l.foldlM f b = .ok b') :
    l.foldlM g (π b) = .ok (π b') := by
  induction l generalizing b with
  | nil =>
    obtain rfl := foldlM_nil_eq_ok.mp h
    rfl
  | cons a l ih =>
    obtain ⟨b₁, h₁, h₂⟩ := foldlM_cons_eq_ok.mp h
    exact foldlM_cons_eq_ok.mpr ⟨π b₁, hstep b a b₁ h₁, ih h₂⟩

theorem bind_commute {x' : Except ε α'} {f' : α' → Except ε β'} {g : α → α'} {h : β → β'} (hx : x' = g <$> x)
    (hf : ∀ a, f' (g a) = h <$> f a) : (x' >>= f') = h <$> (x >>= f) := by
  subst hx
  cases x with
  | error e => rfl
  | ok a => exact hf a

theorem foldlM_commute {α' β' : Type} {f' : β' → α' → Except ε β'} {g : β → β'} {h : α → α'}
    (hstep : ∀ b a, f' (g b) (h a) = g <$> f b a) (l : List α) (b : β) :
    (l.map h).foldlM f' (g b) = g <$> l.foldlM f b := by
  induction l generalizing b with
  | nil => rfl
  | cons a l ih =>
    rw [map_cons, foldlM_cons, foldlM_cons]
    exact bind_commute (hstep b a) ih

theorem mapM_ok {f : α → Except ε β} {l : List α} (h : ∀ a ∈ l, f a = .ok (g a)) : l.mapM f = .ok (l.map g) := by
  induction l with
  | nil => rfl
  | cons a l ih =>
    rw [mapM_cons, h a mem_cons_self, ih fun b hb => h b (mem_cons_of_mem a hb)]
    rfl

theorem mapM_error_iff {f : α → Except ε β} {l : List α} :
    (∃ e, l.mapM f = .error e) ↔ ∃ a ∈ l, ∃ e, f a = .error e := by
  induction l with
  | nil => simp [pure, Except.pure]
  | cons a l ih =>
    rw [List.mapM_cons, List.exists_mem_cons_iff, ← ih]
    cases f a with
    | error e => simp
    | ok b => cases l.mapM f <;> simp [pure, Except.pure]

theorem mapM_eq_ok {f : α → Except ε β} {l : List α} (h : l.mapM f = .ok r) (hg : ∀ a ∈ l, ∀ b, f a = .ok b → b = g a) :
    r = l.map g ∧ ∀ a ∈ l, f a = .ok (g a) := by
  induction l generalizing r with
  | nil =>
    rw [mapM_nil, pure_eq_ok] at h
    exact ⟨h.symm, nofun⟩
  | cons a l ih =>
    rw [mapM_cons] at h
    obtain ⟨b, hb, h⟩ := bind_eq_ok.mp h
    obtain ⟨r', hr', h⟩ := bind_eq_ok.mp h
    rw [pure_eq_ok] at h
    obtain ⟨hmap, hall⟩ := ih hr' fun c hc => hg c (mem_cons_of_mem a hc)
    have hb' := hg a mem_cons_self b hb
    subst h hmap hb'
    exact ⟨rfl, forall_mem_cons.mpr ⟨hb, hall⟩⟩

theorem findM?_eq_some {p : α → Except ε Bool} {l : List α} (h : l.findM? p = .ok (some a)) :
    a ∈ l ∧ p a = .ok true := by
  induction l with
  | nil => cases h
  | cons b l ih =>
    unfold findM? at h
    obtain ⟨found, hb, h⟩ := bind_eq_ok.mp h
    cases found with
    | true =>
      obtain rfl := Option.some.inj (pure_eq_ok.mp h)
      exact ⟨mem_cons_self, hb⟩
    | false => exact (ih h).imp_left (mem_cons_of_mem b)

theorem findM?_eq_none {p : α → Except ε Bool} {l : List α} (h : l.findM? p = .ok none) : ∀ a ∈ l, p a = .ok false := by
  induction l with
  | nil => exact nofun
  | cons b l ih =>
    unfold findM? at h
    obtain ⟨found, hb, h⟩ := bind_eq_ok.mp h
    cases found with
    | true => cases h
    | false => exact forall_mem_cons.mpr ⟨hb, ih h⟩

theorem findSomeM?_eq_some {f : α → Except ε (Option β)} {l : List α} (h : l.findSomeM? f = .ok (some b)) :
    ∃ a ∈ l, f a = .ok (some b) := by
  induction l with
  | nil => cases h
  | cons a l ih =>
    rw [findSomeM?_cons] at h
    obtain ⟨found, ha, h⟩ := bind_eq_ok.mp h
    cases found with
    | some b' =>
      obtain rfl := Option.some.inj (pure_eq_ok.mp h)
      exact ⟨a, mem_cons_self, ha⟩
    | none =>
      obtain ⟨a', ha', hf⟩ := ih h
      exact ⟨a', mem_cons_of_mem a ha', hf⟩

end Except

/-! ### Panics -/

section Panics

variable {ε α β : Type}

def Panics (x : Except (Stop ε) α) : Prop := ∃ p, x = .error (.panic p)

@[simp] theorem panics_ok (a : α) : ¬ Panics (.ok a : Except (Stop ε) α) := by
  rintro ⟨p, h⟩
  cases h

@[simp] theorem panics_pure (a : α) : ¬ Panics (pure a : Except (Stop ε) α) := panics_ok a

@[simp] theorem panics_error (e : ε) : ¬ Panics (.error (.error e) : Except (Stop ε) α) := by
  rintro ⟨p, h⟩
  cases h

@[simp] theorem panics_bind :
    Panics (x >>= f) ↔ Panics x ∨ ∃ a, x = .ok a ∧ Panics (f a) := by
  cases x with
  | ok a => simp
  | error e => simp [Panics]

@[simp] theorem panics_map : Panics (f <$> x) ↔ Panics x := by
  cases x with
  | ok a => simp [Functor.map, Except.map]
  | error e => simp [Panics, Functor.map, Except.map]

@[simp] theorem panics_mapError_panic {x : Except Panic α} :
    Panics (x.mapError .panic : Except (Stop ε) α) ↔ ∃ p, x = .error p := by
  cases x with
  | ok a => simp
  | error p => simp [Panics, Except.mapError]

@[simp] theorem panics_mapError_error {δ : Type} {x : Except δ α} {f : δ → ε} :
    ¬ Panics (x.mapError fun e => Stop.error (f e)) := by
  cases x with
  | ok a => simp
  | error e => simp [Panics, Except.mapError]

@[simp] theorem panics_mapError_stop {x : Except ε α} : ¬ Panics (x.mapError Stop.error) :=
  panics_mapError_error (f := id)

end Panics

/-! ### Stateful programs -/

section Programs

variable {ε σ α β : Type}

/-- A pure fallible computation as a statement of a stateful program. -/
def lift (x : Except ε α) : EStateM ε σ α := fun s =>
  match x with
  | .ok a => .ok a s
  | .error e => .error e s

/-- How a run of `m` from `s` can end: a result in `Q` or a panic in `E`. -/
def wp (m : EStateM ε σ α) (Q : α → σ → Prop) (E : ε → σ → Prop) (s : σ) : Prop :=
  match m s with
  | .ok a s' => Q a s'
  | .error e s' => E e s'

variable {m : EStateM ε σ α} {Q Q' : α → σ → Prop} {E E' : ε → σ → Prop} {s : σ}

theorem wp_ok (h : m s = .ok a s') : wp m Q E s ↔ Q a s' := by
  rw [wp, h]

theorem wp_mono (h : wp m Q E s) (hQ : ∀ a s', Q a s' → Q' a s') (hE : ∀ e s', E e s' → E' e s') :
    wp m Q' E' s := by
  unfold wp at h ⊢
  split at h
  · exact hQ _ _ h
  · exact hE _ _ h

theorem exists_of_wp (h : wp m Q (fun _ _ => False) s) : ∃ a s', m s = .ok a s' ∧ Q a s' := by
  unfold wp at h
  cases hm : m s with
  | ok a s' =>
    rw [hm] at h
    exact ⟨a, s', rfl, h⟩
  | error e s' =>
    rw [hm] at h
    exact h.elim

theorem wp_and (h : wp m Q E s) (h' : wp m Q' E' s) :
    wp m (fun a s' => Q a s' ∧ Q' a s') (fun e s' => E e s' ∧ E' e s') s := by
  unfold wp at h h' ⊢
  cases hm : m s <;> rw [hm] at h h' <;> exact ⟨h, h'⟩

@[simp] theorem wp_pure : wp (pure a) Q E s ↔ Q a s := Iff.rfl

theorem wp_bind {Q : β → σ → Prop} :
    wp (m >>= f) Q E s ↔ wp m (fun a s' => wp (f a) Q E s') E s := by
  simp only [wp, bind, EStateM.bind]
  cases m s <;> rfl

theorem wp_seq {Q : β → σ → Prop} (h : wp m R E s) (hf : ∀ a s', R a s' → wp (f a) Q E s') : wp (m >>= f) Q E s :=
  wp_bind.mpr (wp_mono h hf fun _ _ he => he)

@[simp] theorem wp_get {Q : σ → σ → Prop} : wp get Q E s ↔ Q s s := Iff.rfl

@[simp] theorem wp_modify {Q : PUnit → σ → Prop} : wp (modify f) Q E s ↔ Q ⟨⟩ (f s) := Iff.rfl

@[simp] theorem wp_lift_ok : wp (lift (.ok a)) Q E s ↔ Q a s := Iff.rfl

@[simp] theorem wp_lift_error : wp (lift (.error e) : EStateM ε σ α) Q E s ↔ E e s := Iff.rfl

theorem wp_lift (hok : ∀ a, x = .ok a → Q a s) (herr : ∀ e, x = .error e → E e s) :
    wp (lift x) Q E s := by
  cases x with
  | ok a => exact hok a rfl
  | error e => exact herr e rfl

theorem wp_ite [Decidable c] (ht : c → wp m Q E s) (hf : ¬ c → wp m' Q E s) : wp (if c then m else m') Q E s := by
  split <;> simp_all

theorem wp_forM (l : List α) (hbody : ∀ a ∈ l, ∀ s, I s → wp (body a) (fun _ => I) E s) (hs : I s) :
    wp (l.forM body) (fun _ => I) E s := by
  induction l generalizing s with
  | nil => exact hs
  | cons a l ih =>
    change wp (body a >>= fun _ => l.forM body) _ E s
    exact wp_seq (hbody a (by simp) s hs)
      fun _ s' hs' => ih (fun b hb => hbody b (by simp [hb])) hs'

theorem wp_forM_stops {l : List α} (hb : b ∈ l)
    (hbody : ∀ a ∈ l, ∀ s, I s → wp (body a) (fun _ => I) (fun _ _ => True) s)
    (hstops : ∀ s, I s → wp (body b) (fun _ _ => False) (fun _ _ => True) s) (hs : I s) :
    wp (l.forM body) (fun _ _ => False) (fun _ _ => True) s := by
  induction l generalizing s with
  | nil => cases hb
  | cons a l ih =>
    change wp (body a >>= fun _ => l.forM body) _ _ s
    rcases mem_cons.mp hb with rfl | hb
    · exact wp_seq (hstops s hs) fun _ _ h => h.elim
    · exact wp_seq (hbody a (by simp) s hs)
        fun _ s' hs' => ih hb (fun c hc => hbody c (by simp [hc])) hs'

theorem wp_forM_range' {I : ℕ → σ → Prop} (a n : ℕ)
    (hbody : ∀ k, a ≤ k → k < a + n → ∀ s, I k s → wp (body k) (fun _ => I (k + 1)) E s) (hs : I a s) :
    wp ((List.range' a n).forM body) (fun _ => I (a + n)) E s := by
  induction n generalizing a s with
  | zero => exact hs
  | succ n ih =>
    change wp (body a >>= fun _ => (range' (a + 1) n).forM body) _ E s
    refine wp_seq (hbody a le_rfl (by omega) s hs) fun _ s' hs' => ?_
    have hrest := ih (a + 1) (fun k hk hlt => hbody k (by omega) (by omega)) hs'
    rwa [show a + (n + 1) = a + 1 + n by omega]

end Programs

end Fallible

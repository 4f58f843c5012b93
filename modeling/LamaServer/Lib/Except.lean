import Mathlib.Data.List.Forall2

/-!
# Computations that may throw

What a computation in `Except` returned, taken apart at its binds.
-/

namespace Except

universe u v

variable {ε : Type u} {α β : Type v}

/-- The value of an option, or an exception. -/
def ofOption (e : ε) : Option α → Except ε α
  | some a => .ok a
  | none => .error e

@[simp] theorem ofOption_eq_ok {e : ε} {o : Option α} {a : α} :
    ofOption e o = .ok a ↔ o = some a := by
  cases o <;> simp [ofOption]

theorem ok_bind_eq {a : α} {f : α → Except ε β} : ((.ok a : Except ε α) >>= f) = f a := rfl

theorem bind_eq_ok {x : Except ε α} {f : α → Except ε β} {b : β} :
    (x >>= f) = .ok b ↔ ∃ a, x = .ok a ∧ f a = .ok b := by
  cases x <;> simp [bind, Except.bind]

theorem pure_eq_ok {a b : α} : (pure a : Except ε α) = .ok b ↔ a = b := by
  simp [pure, Except.pure]

theorem map_eq_ok {x : Except ε α} {f : α → β} {b : β} :
    x.map f = .ok b ↔ ∃ a, x = .ok a ∧ f a = b := by
  cases x <;> simp [Except.map]

/-- What is thrown satisfies `E`, and what is returned `Q`. -/
def Ends (E : ε → Prop) (Q : α → Prop) : Except ε α → Prop
  | .ok a => Q a
  | .error e => E e

section Ends

variable {E : ε → Prop} {Q : α → Prop} {R : β → Prop} {x : Except ε α} {a : α}

@[simp] theorem ends_ok : Ends E Q (.ok a) ↔ Q a := Iff.rfl

@[simp] theorem ends_pure : Ends E Q (pure a) ↔ Q a := Iff.rfl

@[simp] theorem ends_error {e : ε} : Ends E Q (.error e : Except ε α) ↔ E e := Iff.rfl

theorem Ends.bind {f : α → Except ε β} (hx : Ends E Q x) (hf : ∀ a, Q a → Ends E R (f a)) :
    Ends E R (x >>= f) := by
  cases x with
  | ok a => exact hf a hx
  | error e => exact hx

theorem Ends.mono {Q' : α → Prop} (hx : Ends E Q x) (h : ∀ a, Q a → Q' a) : Ends E Q' x := by
  cases x with
  | ok a => exact h a hx
  | error e => exact hx

theorem Ends.imp {E' : ε → Prop} (hx : Ends E Q x) (h : ∀ e, E e → E' e) : Ends E' Q x := by
  cases x with
  | ok a => exact hx
  | error e => exact h e hx

theorem Ends.ite {c : Prop} [Decidable c] {y : Except ε α} (hx : c → Ends E Q x)
    (hy : ¬ c → Ends E Q y) : Ends E Q (if c then x else y) := by
  by_cases h : c
  · rw [if_pos h]
    exact hx h
  · rw [if_neg h]
    exact hy h

/-- Each call of a loop over a list returns. -/
theorem Ends.forM {γ : Type*} {f : γ → Except ε PUnit} {P : γ → Prop}
    (h : ∀ a, Ends E (fun _ => P a) (f a)) :
    ∀ as : List γ, Ends E (fun _ => ∀ a ∈ as, P a) (as.forM f)
  | [] => fun _ h => by cases h
  | a :: as => by
    change Ends E _ (f a >>= fun _ => as.forM f)
    refine (h a).bind fun _ ha => (Ends.forM h as).mono fun _ has b hb => ?_
    obtain rfl | hb := List.mem_cons.1 hb
    · exact ha
    · exact has b hb

/-- What each call of a fold preserves, of the elements that it has been called with. -/
theorem Ends.foldlM_induction {γ : Type*} {f : α → γ → Except ε α} {P : List γ → α → Prop}
    {as : List γ} {a : α} (hnil : P [] a)
    (hstep : ∀ done, ∀ c ∈ as, ∀ a, P done a → Ends E (P (done ++ [c])) (f a c)) :
    Ends E (P as) (as.foldlM f a) := by
  suffices ∀ (todo done : List γ) (a : α), (∀ c ∈ todo, c ∈ as) → P done a →
      Ends E (P (done ++ todo)) (todo.foldlM f a) from
    this as [] a (fun _ hc => hc) hnil
  intro todo
  induction todo with
  | nil =>
    intro done a _ hdone
    rw [List.append_nil]
    exact hdone
  | cons c todo ih =>
    intro done a hsub hdone
    rw [List.foldlM_cons, List.append_cons]
    exact (hstep done c (hsub c (List.mem_cons_self ..)) a hdone).bind fun b hb =>
      ih (done ++ [c]) b (fun c hc => hsub c (List.mem_cons_of_mem _ hc)) hb

theorem Ends.foldlM {γ : Type*} {f : α → γ → Except ε α} {as : List γ} (a : α)
    (h : ∀ c ∈ as, ∀ a, Ends E (fun _ => True) (f a c)) :
    Ends E (fun _ => True) (as.foldlM f a) :=
  Ends.foldlM_induction (P := fun _ _ => True) trivial fun _ c hc a _ => h c hc a

theorem Ends.of_ok (hx : Ends E Q x) (h : x = .ok a) : Q a := by
  subst h
  exact hx

theorem Ends.of_error {e : ε} (hx : Ends E Q x) (h : x = .error e) : E e := by
  subst h
  exact hx

end Ends

/-- What is thrown is of the kind `E`. -/
def Throws (E : ε → Prop) (x : Except ε α) : Prop := ∃ e, E e ∧ x = .error e

section Throws

variable {E : ε → Prop} {x : Except ε α}

@[simp] theorem not_throws_ok {a : α} : ¬ Throws E (.ok a) := by simp [Throws]

@[simp] theorem not_throws_pure {a : α} : ¬ Throws E (pure a) := not_throws_ok

@[simp] theorem throws_error {e : ε} : Throws E (.error e : Except ε α) ↔ E e := by
  simp [Throws]

@[simp] theorem throws_bind {f : α → Except ε β} :
    Throws E (x >>= f) ↔ Throws E x ∨ ∃ a, x = .ok a ∧ Throws E (f a) := by
  rcases x with e | a
  · change Throws E (.error e : Except ε β) ↔ _
    simp
  · change Throws E (f a) ↔ _
    simp

@[simp] theorem throws_map {f : α → β} : Throws E (f <$> x) ↔ Throws E x := by
  rcases x with e | a <;> simp [Functor.map, Except.map]

@[simp] theorem not_throws_ofOption {e : ε} (he : ¬ E e) {o : Option α} :
    ¬ Throws E (ofOption e o) := by
  rcases o with _ | a <;> simp [ofOption, he]

theorem throws_foldlM {γ : Type*} {f : α → γ → Except ε α} : ∀ {cs : List γ} {a : α},
    Throws E (cs.foldlM f a) ↔
      ∃ l c r b, cs = l ++ c :: r ∧ l.foldlM f a = .ok b ∧ Throws E (f b c)
  | [], a => by simp
  | c :: cs, a => by
    rw [List.foldlM_cons, throws_bind]
    constructor
    · rintro (h | ⟨b, hb, h⟩)
      · exact ⟨[], c, cs, a, rfl, rfl, h⟩
      · obtain ⟨l, d, r, b', rfl, hl, h⟩ := throws_foldlM.1 h
        exact ⟨c :: l, d, r, b', rfl, by rw [List.foldlM_cons, hb]; exact hl, h⟩
    · rintro ⟨_ | ⟨d, l⟩, c', r, b, hcs, hl, h⟩
      · obtain ⟨rfl, rfl⟩ := List.cons.inj hcs
        obtain rfl := pure_eq_ok.1 hl
        exact .inl h
      · obtain ⟨rfl, rfl⟩ := List.cons.inj hcs
        rw [List.foldlM_cons, bind_eq_ok] at hl
        obtain ⟨b', hb', hl⟩ := hl
        exact .inr ⟨b', hb', throws_foldlM.2 ⟨l, c', r, b, rfl, hl, h⟩⟩

theorem ends_iff_not_throws {E' : ε → Prop} (hE : ∀ e, E' e ↔ ¬ E e) {Q : α → Prop}
    (hQ : ∀ a, x = .ok a → Q a) : Ends E' Q x ↔ ¬ Throws E x := by
  rcases x with e | a
  · simp [hE]
  · simp [hQ a rfl]

end Throws

/-- The calls of `f` one after another, `n` of them. -/
def iterate (f : α → Except ε α) : Nat → α → Except ε α
  | 0, a => .ok a
  | n + 1, a => f a >>= iterate f n

section Iterate

variable {f : α → Except ε α} {a b : α}

theorem iterate_succ_eq_ok {n : Nat} :
    iterate f (n + 1) a = .ok b ↔ ∃ c, f a = .ok c ∧ iterate f n c = .ok b := bind_eq_ok

/-- A loop throws where one of its calls does, after those that return. -/
theorem throws_iterate {E : ε → Prop} : ∀ {n : Nat} {a : α},
    Throws E (iterate f n a) ↔ ∃ k < n, ∃ b, iterate f k a = .ok b ∧ Throws E (f b)
  | 0, a => by simp [iterate]
  | n + 1, a => by
    rw [iterate, throws_bind]
    constructor
    · rintro (h | ⟨b, hb, h⟩)
      · exact ⟨0, by omega, a, rfl, h⟩
      · obtain ⟨k, hk, c, hc, h⟩ := throws_iterate.1 h
        exact ⟨k + 1, by omega, c, iterate_succ_eq_ok.2 ⟨b, hb, hc⟩, h⟩
    · rintro ⟨_ | k, hk, c, hc, h⟩
      · obtain rfl : a = c := by simpa [iterate] using hc
        exact .inl h
      · obtain ⟨b, hb, hc⟩ := iterate_succ_eq_ok.1 hc
        exact .inr ⟨b, hb, throws_iterate.2 ⟨k, by omega, c, hc, h⟩⟩

end Iterate

/-- A `mapM` returns when each of its calls does, and lists what they return. -/
theorem mapM_eq_ok {f : α → Except ε β} :
    ∀ {as : List α} {bs : List β}, as.mapM f = .ok bs ↔ List.Forall₂ (f · = .ok ·) as bs
  | [], bs => by
    rw [List.mapM_nil, pure_eq_ok, List.forall₂_nil_left_iff]
    exact eq_comm
  | a :: as, bs => by
    rw [List.mapM_cons, bind_eq_ok, List.forall₂_cons_left_iff]
    refine exists_congr fun b => ?_
    rw [bind_eq_ok]
    constructor
    · rintro ⟨hb, bs', hbs, h⟩
      exact ⟨bs', hb, mapM_eq_ok.1 hbs, (pure_eq_ok.1 h).symm⟩
    · rintro ⟨bs', hb, hbs, rfl⟩
      exact ⟨hb, bs', mapM_eq_ok.2 hbs, rfl⟩

theorem exists_mapM_eq_ok {f : α → Except ε β} {as : List α} :
    (∃ bs, as.mapM f = .ok bs) ↔ ∀ a ∈ as, ∃ b, f a = .ok b := by
  induction as with
  | nil => exact ⟨fun _ _ ha => absurd ha List.not_mem_nil, fun _ => ⟨[], rfl⟩⟩
  | cons a as ih =>
    rw [List.forall_mem_cons, ← ih]
    constructor
    · rintro ⟨bs, h⟩
      obtain ⟨b, bs, hb, hbs, rfl⟩ := List.forall₂_cons_left_iff.1 (mapM_eq_ok.1 h)
      exact ⟨⟨b, hb⟩, bs, mapM_eq_ok.2 hbs⟩
    · rintro ⟨⟨b, hb⟩, bs, hbs⟩
      exact ⟨b :: bs, mapM_eq_ok.2 (.cons hb (mapM_eq_ok.1 hbs))⟩

/-- Each of the calls of a `mapM` that returns has returned. -/
theorem ok_of_mapM {f : α → Except ε β} {as : List α} {bs : List β} (h : as.mapM f = .ok bs)
    {a : α} (ha : a ∈ as) : ∃ b ∈ bs, f a = .ok b := by
  induction mapM_eq_ok.1 h with
  | nil => cases ha
  | @cons a' b' as bs hab hrest ih =>
    obtain rfl | ha := List.mem_cons.1 ha
    · exact ⟨b', List.mem_cons_self .., hab⟩
    · obtain ⟨b, hb, hab⟩ := ih (mapM_eq_ok.2 hrest) ha
      exact ⟨b, List.mem_cons_of_mem _ hb, hab⟩

theorem mapM_of_ok {f : α → Except ε β} {g : α → β} :
    ∀ {as : List α}, (∀ a ∈ as, f a = .ok (g a)) → as.mapM f = .ok (as.map g)
  | [], _ => rfl
  | a :: as, h => by
    obtain ⟨ha, has⟩ := List.forall_mem_cons.1 h
    rw [List.mapM_cons, ha, mapM_of_ok has]
    rfl

theorem foldlM_induction {γ : Type*} {f : β → γ → Except ε β} {P : List γ → β → Prop} {b b' : β}
    {as : List γ} (h : as.foldlM f b = .ok b') (hnil : P [] b)
    (hstep : ∀ done a b b', P done b → f b a = .ok b' → P (done ++ [a]) b') : P as b' := by
  refine (Ends.foldlM_induction (E := fun _ => True) hnil fun done a _ b hdone => ?_).of_ok h
  cases hb : f b a with
  | ok b' => exact hstep done a b b' hdone hb
  | error e => trivial

theorem foldlM_mono {γ : Type*} {f g : β → γ → Except ε β}
    (hfg : ∀ b a b', f b a = .ok b' → g b a = .ok b') :
    ∀ {as : List γ} {b b' : β}, as.foldlM f b = .ok b' → as.foldlM g b = .ok b'
  | [], _, _, h => h
  | a :: as, b, b', h => by
    rw [List.foldlM_cons, bind_eq_ok] at h ⊢
    obtain ⟨b₁, hb₁, h⟩ := h
    exact ⟨b₁, hfg b a b₁ hb₁, foldlM_mono hfg h⟩

theorem foldlM_total {γ : Type*} {f : β → γ → Except ε β} :
    ∀ {as : List γ} (b : β), (∀ a ∈ as, ∀ b, ∃ b', f b a = .ok b') → ∃ b', as.foldlM f b = .ok b'
  | [], b, _ => ⟨b, rfl⟩
  | a :: as, b, h => by
    obtain ⟨b₁, hb₁⟩ := h a (List.mem_cons_self ..) b
    obtain ⟨b', hb'⟩ := foldlM_total b₁ fun a ha => h a (List.mem_cons_of_mem _ ha)
    exact ⟨b', by rw [List.foldlM_cons, bind_eq_ok]; exact ⟨b₁, hb₁, hb'⟩⟩

end Except

/-- What holds of each element with enough fuel holds of all with enough. -/
theorem List.exists_fuel {α : Type*} {P : α → Nat → Prop} :
    ∀ {as : List α}, (∀ a ∈ as, ∃ n, ∀ m, n ≤ m → P a m) → ∃ n, ∀ m, n ≤ m → ∀ a ∈ as, P a m
  | [], _ => ⟨0, fun _ _ _ ha => by cases ha⟩
  | a :: as, h => by
    obtain ⟨n, hn⟩ := h a (mem_cons_self ..)
    obtain ⟨n', hn'⟩ := exists_fuel fun a ha => h a (mem_cons_of_mem _ ha)
    refine ⟨max n n', fun m hm b hb => ?_⟩
    obtain rfl | hb := mem_cons.1 hb
    · exact hn m (Nat.le_trans (Nat.le_max_left _ _) hm)
    · exact hn' m (Nat.le_trans (Nat.le_max_right _ _) hm) b hb

import Mathlib.Data.Fintype.EquivFin
import Mathlib.Data.Set.Finite.Basic
import Mathlib.Logic.Relation
import Mathlib.Order.RelClasses

/-!
# Leftmost derivations

A context-free grammar over classes of letters. A form is what is left to derive; a derivation
works on its first symbol, which it expands if it is a nonterminal, and of which it reads a letter
if it is a class. Expansion may go on for ever, and it does if and only if a nonterminal that comes
up is left-recursive.
-/

namespace Cfg

/-- A nonterminal or a class of letters. -/
inductive Sym (ι κ : Type*) where
  | rule (i : ι)
  | char (k : κ)
  deriving DecidableEq, Repr

abbrev Form (ι κ : Type*) := List (Sym ι κ)

/-- The alternatives of each nonterminal, and the letters of each class. -/
structure Grammar (ι κ τ : Type*) where
  alts : ι → List (Form ι κ)
  Accepts : κ → τ → Prop

namespace Grammar

variable {ι κ τ : Type*}

/-- A form derives a word. -/
inductive Derives (G : Grammar ι κ τ) : Form ι κ → List τ → Prop
  | nil : Derives G [] []
  | char {k a p w} : G.Accepts k a → Derives G p w → Derives G (.char k :: p) (a :: w)
  | rule {i q p v w} : q ∈ G.alts i → Derives G q v → Derives G p w →
      Derives G (.rule i :: p) (v ++ w)

/-- The leftmost derivation that reads a word. -/
inductive Reads (G : Grammar ι κ τ) : Form ι κ → List τ → Form ι κ → Prop
  | refl (p) : Reads G p [] p
  | read {k a p w r} : G.Accepts k a → Reads G p w r → Reads G (.char k :: p) (a :: w) r
  | expand {i q p w r} : q ∈ G.alts i → Reads G (q ++ p) w r → Reads G (.rule i :: p) w r

/-- The first nonterminal is expanded. -/
inductive Expand (G : Grammar ι κ τ) : Form ι κ → Form ι κ → Prop
  | mk {i q} (p) : q ∈ G.alts i → Expand G (.rule i :: p) (q ++ p)

variable {G : Grammar ι κ τ} {i j : ι} {k : κ} {a : τ} {p q r s : Form ι κ} {u v w : List τ}

/-! ## Words -/

theorem Derives.append (hp : G.Derives p v) (hq : G.Derives q w) : G.Derives (p ++ q) (v ++ w) := by
  induction hp with
  | nil => exact hq
  | char hk _ ih => exact .char hk ih
  | rule hi hq _ _ ih =>
    rw [List.append_assoc]
    exact .rule hi hq ih

theorem derives_append_iff :
    G.Derives (p ++ q) w ↔ ∃ u v, w = u ++ v ∧ G.Derives p u ∧ G.Derives q v := by
  refine ⟨fun h => ?_, ?_⟩
  · induction p generalizing w with
    | nil => exact ⟨[], w, rfl, .nil, h⟩
    | cons x p ih =>
      cases h with
      | char hk hp =>
        obtain ⟨u, v, rfl, hu, hv⟩ := ih hp
        exact ⟨_ :: u, v, rfl, .char hk hu, hv⟩
      | rule hi hr hp =>
        obtain ⟨u, v, rfl, hu, hv⟩ := ih hp
        exact ⟨_ ++ u, v, (List.append_assoc _ _ _).symm, .rule hi hr hu, hv⟩
  · rintro ⟨u, v, rfl, hu, hv⟩
    exact hu.append hv

theorem Reads.trans (h : G.Reads p u q) (h' : G.Reads q v r) : G.Reads p (u ++ v) r := by
  induction h with
  | refl => exact h'
  | read hk _ ih => exact .read hk (ih h')
  | expand hi _ ih => exact .expand hi (ih h')

theorem Reads.frame (h : G.Reads p w r) (s : Form ι κ) : G.Reads (p ++ s) w (r ++ s) := by
  induction h with
  | refl => exact .refl _
  | read hk _ ih => exact .read hk ih
  | expand hi _ ih => exact .expand hi (by rwa [List.append_assoc] at ih)

theorem Derives.reads (h : G.Derives p w) : G.Reads p w [] := by
  induction h with
  | nil => exact .refl []
  | char hk _ ih => exact .read hk ih
  | rule hi _ _ ihq ihp => exact .expand hi ((ihq.frame _).trans ihp)

/-- What is left derives the rest of the word. -/
theorem Reads.derives (h : G.Reads p u r) (hr : G.Derives r v) : G.Derives p (u ++ v) := by
  induction h with
  | refl => exact hr
  | read hk _ ih => exact .char hk (ih hr)
  | expand hi _ ih =>
    obtain ⟨u, v, heq, hu, hv⟩ := derives_append_iff.1 (ih hr)
    rw [heq]
    exact .rule hi hu hv

/-- What is expanded and read up to a letter, and after it. -/
theorem Reads.cons (h : G.Reads p (a :: v) r) :
    ∃ k q, G.Reads p [] (.char k :: q) ∧ G.Accepts k a ∧ G.Reads q v r := by
  generalize hw : a :: v = w at h
  induction h with
  | refl => cases hw
  | @read k _ q _ _ hk h _ =>
    cases hw
    exact ⟨k, q, .refl _, hk, h⟩
  | expand hi _ ih =>
    obtain ⟨k, q, hp, hk, hq⟩ := ih hw
    exact ⟨k, q, .expand hi hp, hk, hq⟩

theorem Reads.split (h : G.Reads p (u ++ v) r) : ∃ q, G.Reads p u q ∧ G.Reads q v r := by
  induction u generalizing p with
  | nil => exact ⟨p, .refl p, h⟩
  | cons a u ih =>
    obtain ⟨k, q, hp, hk, hq⟩ := h.cons
    obtain ⟨s, hs, hr⟩ := ih hq
    exact ⟨s, hp.trans (.read hk hs), hr⟩

/-! ## Expansion -/

/-- The form cannot be expanded for ever. -/
abbrev Halts (G : Grammar ι κ τ) : Form ι κ → Prop := Acc fun q p => G.Expand p q

theorem halts_nil : G.Halts [] := ⟨_, fun _ h => by cases h⟩

theorem halts_char : G.Halts (.char k :: p) := ⟨_, fun _ h => by cases h⟩

theorem Expand.frame (h : G.Expand p q) (s : Form ι κ) : G.Expand (p ++ s) (q ++ s) := by
  cases h with
  | mk p hi =>
    rw [List.append_assoc]
    exact .mk (p ++ s) hi

theorem Expand.reads (h : G.Expand p q) : G.Reads p [] q := by
  cases h with
  | mk p hi => exact .expand hi (.refl _)

theorem reads_of_expands (h : Relation.ReflTransGen G.Expand p q) : G.Reads p [] q := by
  induction h with
  | refl => exact .refl p
  | tail _ hstep ih => exact ih.trans hstep.reads

theorem Reads.expands (h : G.Reads p [] q) : Relation.ReflTransGen G.Expand p q := by
  generalize hw : ([] : List τ) = w at h
  induction h with
  | refl => exact .refl
  | read => cases hw
  | expand hi _ ih => exact .head (.mk _ hi) (ih hw)

theorem Reads.halts (h : G.Reads p [] q) (hp : G.Halts p) : G.Halts q := by
  have hexpands := h.expands
  clear h
  induction hexpands with
  | refl => exact hp
  | tail _ hstep ih => exact ih.inv hstep

theorem expands_frame (h : Relation.TransGen G.Expand p q) (s : Form ι κ) :
    Relation.TransGen G.Expand (p ++ s) (q ++ s) := by
  induction h with
  | single h => exact .single (h.frame s)
  | tail _ h ih => exact ih.tail (h.frame s)

/-! ## Left recursion -/

/-- The nonterminal can be expanded until it comes up first again. -/
def LeftRecursive (G : Grammar ι κ τ) (i : ι) : Prop :=
  ∃ r, Relation.TransGen G.Expand [.rule i] (.rule i :: r)

/-- The nonterminal comes up first in a derivation from `s`. -/
def ComesUp (G : Grammar ι κ τ) (s : Form ι κ) (i : ι) : Prop := ∃ w r, G.Reads s w (.rule i :: r)

/-- The second nonterminal is in an alternative of the first, behind symbols that may be empty. -/
def LeftCorner (G : Grammar ι κ τ) (i j : ι) : Prop :=
  ∃ p r, p ++ .rule j :: r ∈ G.alts i ∧ G.Derives p []

theorem LeftCorner.expands (h : G.LeftCorner i j) :
    ∃ r, Relation.TransGen G.Expand [.rule i] (.rule j :: r) := by
  obtain ⟨p, r, hi, hp⟩ := h
  have hskip := (hp.reads.frame (.rule j :: r)).expands
  refine ⟨r, .head' (.mk [] hi) ?_⟩
  rw [List.append_nil]
  exact hskip

theorem expands_of_corners (h : Relation.TransGen G.LeftCorner i j) :
    ∃ r, Relation.TransGen G.Expand [.rule i] (.rule j :: r) := by
  induction h with
  | single h => exact h.expands
  | tail _ h ih =>
    obtain ⟨r, hr⟩ := ih
    obtain ⟨r', hr'⟩ := h.expands
    exact ⟨r' ++ r, hr.trans (expands_frame hr' r)⟩

/-- A nonterminal that comes up first without a letter comes from a first symbol of the form. -/
theorem Reads.corner (h : G.Reads p [] (.rule j :: r)) : ∃ u i s, p = u ++ .rule i :: s ∧
    G.Derives u [] ∧ Relation.ReflTransGen G.LeftCorner i j := by
  generalize hw : ([] : List τ) = w at h
  generalize hq : Sym.rule j :: r = q at h
  induction h with
  | refl => exact ⟨[], j, r, hq.symm, .nil, .refl⟩
  | read => cases hw
  | @expand i q p _ _ hi _ ih =>
    subst hw
    obtain ⟨u, k, s, heq, hu, hk⟩ := ih rfl hq
    obtain ⟨u', rfl, hp⟩ | ⟨s', hq', hs⟩ := List.append_eq_append_iff.1 heq
    · -- the alternative is behind the form's first symbols
      obtain ⟨v, v', hv, hvq, hvu⟩ := derives_append_iff.1 hu
      obtain ⟨rfl, rfl⟩ := List.append_eq_nil_iff.1 hv.symm
      exact ⟨.rule i :: u', k, s, by rw [hp]; rfl, .rule (v := []) hi hvq hvu, hk⟩
    · cases s' with
      | nil =>
        rw [List.append_nil] at hq'
        rw [hq'] at hi
        have hp : p = .rule k :: s := hs.symm
        exact ⟨[.rule i], k, s, by rw [hp]; rfl, .rule (v := []) hi hu .nil, hk⟩
      | cons x s' =>
        obtain ⟨rfl, rfl⟩ := List.cons.inj hs
        exact ⟨[], i, p, rfl, .nil, .head ⟨u, s', hq' ▸ hi, hu⟩ hk⟩

theorem leftRecursive_iff : G.LeftRecursive i ↔ Relation.TransGen G.LeftCorner i i := by
  refine ⟨fun ⟨r, hr⟩ => ?_, expands_of_corners⟩
  obtain ⟨q, hstep, hq⟩ := Relation.TransGen.head'_iff.1 hr
  cases hstep with
  | @mk _ q _ hi =>
    rw [List.append_nil] at hq
    obtain ⟨u, k, s, rfl, hu, hk⟩ := (reads_of_expands hq).corner
    exact .head' ⟨u, s, hi, hu⟩ hk

theorem ComesUp.corner (h : G.ComesUp s i) (hij : G.LeftCorner i j) : G.ComesUp s j := by
  obtain ⟨w, r, hr⟩ := h
  obtain ⟨r', hr'⟩ := hij.expands
  exact ⟨w ++ [], r' ++ r, hr.trans (reads_of_expands (expands_frame hr' r).to_reflTransGen)⟩

theorem not_halts_of_leftRecursive (h : G.LeftRecursive i) (s : Form ι κ) :
    ¬ G.Halts (.rule i :: s) := by
  obtain ⟨r, hr⟩ := h
  intro hacc
  have hacc' := hacc.transGen
  generalize hp : Sym.rule i :: s = p at hacc'
  induction hacc' generalizing s with
  | intro p _ ih =>
    subst hp
    exact ih _ (Relation.transGen_swap.2 (expands_frame hr s)) (r ++ s)
      (hacc.inv_of_transGen (Relation.transGen_swap.2 (expands_frame hr s))) rfl

/-- Expanding the nonterminal before a form that halts, or that cannot come up, halts. -/
def HaltsBefore (G : Grammar ι κ τ) (i : ι) : Prop :=
  ∀ s, (G.Derives [.rule i] [] → G.Halts s) → G.Halts (.rule i :: s)

theorem halts_append (hp : ∀ u r j, p = u ++ .rule j :: r → G.Derives u [] → G.HaltsBefore j)
    (hs : G.Derives p [] → G.Halts s) : G.Halts (p ++ s) := by
  induction p with
  | nil => exact hs .nil
  | cons x p ih =>
    cases x with
    | char k => exact halts_char
    | rule i =>
      refine hp [] p i rfl .nil (p ++ s) fun hi => ih (fun u r j hj hu => ?_) fun hp => ?_
      · exact hp (.rule i :: u) r j (by rw [hj]; rfl) (hi.append hu)
      · exact hs (hi.append hp)

theorem haltsBefore_of_corners (h : ∀ j, G.LeftCorner i j → G.HaltsBefore j) :
    G.HaltsBefore i := by
  intro s hs
  refine ⟨_, fun _ hstep => ?_⟩
  cases hstep with
  | @mk _ q _ hq =>
    refine halts_append (fun u r j hj hu => h j ⟨u, r, hj ▸ hq, hu⟩) fun hempty => hs ?_
    exact .rule (v := []) hq hempty .nil

/-- Without left recursion the left corners are well-founded, as there are finitely many rules. -/
theorem haltsBefore_of_comesUp (hfin : {i | G.alts i ≠ []}.Finite)
    (h : ∀ i, G.ComesUp s i → ¬ G.LeftRecursive i) (hi : G.ComesUp s i) : G.HaltsBefore i := by
  have hwf : WellFounded fun j i : {i | G.alts i ≠ [] ∧ G.ComesUp s i} =>
      Relation.TransGen G.LeftCorner i.1 j.1 := by
    have : Finite {i | G.alts i ≠ [] ∧ G.ComesUp s i} := (hfin.subset fun _ hi => hi.1).to_subtype
    have : IsTrans {i | G.alts i ≠ [] ∧ G.ComesUp s i} fun j i =>
      Relation.TransGen G.LeftCorner i.1 j.1 := ⟨fun _ _ _ hab hbc => hbc.trans hab⟩
    have : Std.Irrefl fun j i : {i | G.alts i ≠ [] ∧ G.ComesUp s i} =>
      Relation.TransGen G.LeftCorner i.1 j.1 :=
        ⟨fun i hcycle => h i.1 i.2.2 (expands_of_corners hcycle)⟩
    exact Finite.wellFounded_of_trans_of_irrefl _
  have hstep : ∀ i, G.ComesUp s i → (∀ j, G.LeftCorner i j → G.alts j ≠ [] → G.HaltsBefore j) →
      G.HaltsBefore i := by
    intro i hi hcorners
    refine haltsBefore_of_corners fun j hij => ?_
    by_cases hj : G.alts j = []
    · -- a nonterminal without alternatives cannot be expanded
      refine fun s _ => ⟨_, fun _ hstep => ?_⟩
      cases hstep with
      | mk _ hq => simp [hj] at hq
    · exact hcorners j hij hj
  have hall : ∀ i : {i | G.alts i ≠ [] ∧ G.ComesUp s i}, G.HaltsBefore i.1 := by
    intro i
    induction i using hwf.induction with
    | _ i ih =>
      exact hstep i.1 i.2.2 fun j hij hj => ih ⟨j, hj, i.2.2.corner hij⟩ (.single hij)
  exact hstep i hi fun j hij hj => hall ⟨j, hj, hi.corner hij⟩

/-- Every form that a derivation reaches halts if and only if no nonterminal that comes up is
left-recursive. -/
theorem halts_iff (hfin : {i | G.alts i ≠ []}.Finite) :
    (∀ w p, G.Reads s w p → G.Halts p) ↔ ∀ i, G.ComesUp s i → ¬ G.LeftRecursive i := by
  constructor
  · rintro h i ⟨w, r, hr⟩ hrec
    exact not_halts_of_leftRecursive hrec r (h w _ hr)
  · intro h w p hp
    induction p generalizing w with
    | nil => exact halts_nil
    | cons x p ih =>
      cases x with
      | char k => exact halts_char
      | rule i =>
        refine haltsBefore_of_comesUp hfin h ⟨w, p, hp⟩ p fun hempty => ih (w ++ []) (hp.trans ?_)
        exact hempty.reads.frame p

end Grammar

end Cfg

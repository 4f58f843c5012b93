import Mathlib.Algebra.BigOperators.Group.List.Basic
import Mathlib.Algebra.Order.Group.Defs
import Mathlib.Data.List.Induction
import Mathlib.Logic.Function.Basic
import Mathlib.Order.Basic

/-!
# Best paths, found forward

The nodes are numbers, and every edge leads forward. A table holds for each node the last edge of
the best path that has been found and the score of that path. The edges are looked at in the order
of their sources; an edge replaces an entry of a lower score. Afterwards no path has a higher score
than the entry of its end, and the edges that the entries name are a path of that score, from a node
whose entry was never replaced. Of several paths of that score it is the one whose edges start
earliest, from the last edge on.
-/

namespace Viterbi

variable {L W : Type*}

/-- The last edge of a path, and the score of the path. -/
structure Entry (L W : Type*) where
  label : L
  source : ℕ
  score : W
  deriving DecidableEq, Repr

structure Edge (L W : Type*) where
  source : ℕ
  target : ℕ
  label : L
  weight : W
  deriving DecidableEq, Repr

section Relax

variable [LinearOrder W] [Add W]

def relax (table : ℕ → Entry L W) (e : Edge L W) : ℕ → Entry L W :=
  let challenger := (table e.source).score + e.weight
  if (table e.target).score < challenger then
    Function.update table e.target ⟨e.label, e.source, challenger⟩
  else table

/-- What holds of a table when all edges have been looked at. -/
structure Settled (init : ℕ → Entry L W) (edges : List (Edge L W)) (table : ℕ → Entry L W) :
    Prop where
  edge_le : ∀ e ∈ edges, (table e.source).score + e.weight ≤ (table e.target).score
  entry : ∀ k, table k = init k ∨ (init k).score < (table k).score ∧ ∃ e ∈ edges, e.target = k ∧
    table k = ⟨e.label, e.source, (table e.source).score + e.weight⟩
  first : ∀ e ∈ edges, (table e.source).score + e.weight = (table e.target).score →
    table e.target = init e.target ∨ (table e.target).source ≤ e.source

/-- The edges lead forward, and come in the order of their sources. -/
def Forward (edges : List (Edge L W)) : Prop :=
  edges.Pairwise (fun e e' => e.source ≤ e'.source) ∧ ∀ e ∈ edges, e.source < e.target

variable {init table : ℕ → Entry L W} {edges : List (Edge L W)} {e : Edge L W}

theorem settled_nil (init : ℕ → Entry L W) : Settled init [] init where
  edge_le _ h := by cases h
  entry _ := .inl rfl
  first _ h := by cases h

theorem Settled.init_le (h : Settled init edges table) (k : ℕ) :
    (init k).score ≤ (table k).score := by
  rcases h.entry k with hinit | ⟨hlt, -⟩
  · rw [hinit]
  · exact hlt.le

theorem Settled.relax (h : Settled init edges table) (he : e.source < e.target)
    (hsource : ∀ e' ∈ edges, e'.source ≤ e.source) :
    Settled init (edges ++ [e]) (relax table e) := by
  have hmem {e' : Edge L W} (h' : e' ∈ edges ++ [e]) : e' ∈ edges ∨ e' = e := by simpa using h'
  unfold Viterbi.relax
  dsimp only
  split_ifs with hlt
  · have hkept {k : ℕ} (hk : k ≠ e.target) :
        Function.update table e.target ⟨e.label, e.source, (table e.source).score + e.weight⟩ k =
          table k := Function.update_of_ne hk _ _
    have hnew := Function.update_self e.target
      (⟨e.label, e.source, (table e.source).score + e.weight⟩ : Entry L W) table
    have hbefore {e' : Edge L W} (h' : e' ∈ edges ∨ e' = e) : e'.source ≠ e.target := by
      rcases h' with h' | rfl
      · exact ((hsource e' h').trans_lt he).ne
      · exact he.ne
    -- an edge to the same node has lost
    have hlost {e' : Edge L W} (h' : e' ∈ edges) (hk : e'.target = e.target) :
        (table e'.source).score + e'.weight < (table e.source).score + e.weight :=
      (hk ▸ h.edge_le e' h').trans_lt hlt
    refine ⟨fun e' h' => ?_, fun k => ?_, fun e' h' => ?_⟩
    · rw [hkept (hbefore (hmem h'))]
      by_cases hk : e'.target = e.target
      · rw [hk, hnew]
        rcases hmem h' with h' | rfl
        · exact (hlost h' hk).le
        · exact le_rfl
      · rw [hkept hk]
        rcases hmem h' with h' | rfl
        · exact h.edge_le e' h'
        · exact absurd rfl hk
    · by_cases hk : k = e.target
      · refine .inr ⟨?_, e, by simp, hk.symm, ?_⟩
        · rw [hk, hnew]
          exact (h.init_le _).trans_lt hlt
        · rw [hk, hnew, hkept he.ne]
      · rw [hkept hk]
        refine (h.entry k).imp_right fun ⟨hinit, e', h', hk', hentry⟩ =>
          ⟨hinit, e', by simp [h'], hk', ?_⟩
        rw [hentry, hkept (hbefore (.inl h'))]
    · rw [hkept (hbefore (hmem h'))]
      by_cases hk : e'.target = e.target
      · rw [hk, hnew]
        rcases hmem h' with h' | rfl
        · exact fun heq => absurd heq (hlost h' hk).ne
        · exact fun _ => .inr le_rfl
      · rw [hkept hk]
        rcases hmem h' with h' | rfl
        · exact h.first e' h'
        · exact absurd rfl hk
  · refine ⟨fun e' h' => ?_, fun k => ?_, fun e' h' heq => ?_⟩
    · rcases hmem h' with h' | rfl
      · exact h.edge_le e' h'
      · exact not_lt.1 hlt
    · exact (h.entry k).imp_right fun ⟨hinit, e', h', hk', hentry⟩ =>
        ⟨hinit, e', by simp [h'], hk', hentry⟩
    · rcases hmem h' with h' | rfl
      · exact h.first e' h' heq
      · refine (h.entry _).imp_right fun ⟨_, e'', h'', _, hentry⟩ => ?_
        rw [hentry]
        exact hsource e'' h''

theorem settled_foldl (init : ℕ → Entry L W) (hforward : Forward edges) :
    Settled init edges (edges.foldl relax init) := by
  induction edges using List.reverseRecOn with
  | nil => exact settled_nil init
  | append_singleton edges e ih =>
    obtain ⟨hsorted, hlt⟩ := hforward
    rw [List.pairwise_append] at hsorted
    rw [List.foldl_append, List.foldl_cons, List.foldl_nil]
    exact (ih ⟨hsorted.1, fun e' h' => hlt e' (by simp [h'])⟩).relax (hlt e (by simp))
      fun e' h' => hsorted.2.2 e' h' e (by simp)

end Relax

section Path

variable {init table : ℕ → Entry L W} {edges p : List (Edge L W)} {e : Edge L W} {i k : ℕ}

/-- The edges lead from one node to another. -/
inductive Path (edges : List (Edge L W)) (i : ℕ) : List (Edge L W) → ℕ → Prop
  | nil : Path edges i [] i
  | snoc {p : List (Edge L W)} {e : Edge L W} (hp : Path edges i p e.source) (he : e ∈ edges) :
      Path edges i (p ++ [e]) e.target

theorem Path.cons (he : e ∈ edges) (hp : Path edges e.target p k) :
    Path edges e.source (e :: p) k := by
  induction hp with
  | nil => exact Path.snoc (p := []) .nil he
  | snoc _ he' ih => exact Path.snoc ih he'

/-- The entries name the edges of the path. -/
def Follows (table : ℕ → Entry L W) (p : List (Edge L W)) : Prop :=
  ∀ e ∈ p, (table e.target).label = e.label ∧ (table e.target).source = e.source

/-- Where the edges start, from the last one on. -/
def starts (p : List (Edge L W)) : List ℕ := (p.map (·.source)).reverse

theorem starts_snoc (p : List (Edge L W)) (e : Edge L W) :
    starts (p ++ [e]) = e.source :: starts p := by
  simp [starts]

/-- The first difference is to an earlier start. -/
def Earlier : List ℕ → List ℕ → Prop
  | [], _ => True
  | _ :: _, [] => False
  | a :: as, b :: bs => a < b ∨ a = b ∧ Earlier as bs

theorem Earlier.antisymm : ∀ {as bs : List ℕ}, Earlier as bs → Earlier bs as → as = bs
  | [], [], _, _ => rfl
  | [], _ :: _, _, h => h.elim
  | _ :: _, [], h, _ => h.elim
  | a :: as, b :: bs, h, h' => by
    rcases h with hlt | ⟨rfl, h⟩
    · rcases h' with hlt' | ⟨rfl, -⟩
      · exact absurd hlt (Nat.lt_asymm hlt')
      · exact absurd hlt (Nat.lt_irrefl _)
    · rcases h' with hlt' | ⟨-, h'⟩
      · exact absurd hlt' (Nat.lt_irrefl _)
      · rw [h.antisymm h']

variable [AddCommGroup W]

def total (p : List (Edge L W)) : W := (p.map (·.weight)).sum

theorem total_snoc (p : List (Edge L W)) (e : Edge L W) :
    total (p ++ [e]) = total p + e.weight := by
  simp [total]

variable [LinearOrder W] [IsOrderedAddMonoid W]

/-- No path has a higher score than the entry of its end. -/
theorem Settled.path_le (h : Settled init edges table) (hp : Path edges i p k) :
    (table i).score + total p ≤ (table k).score := by
  induction hp with
  | nil => simp [total]
  | @snoc p e hp he ih =>
    rw [total_snoc, ← add_assoc]
    exact (add_le_add_left ih e.weight).trans (h.edge_le e he)

/-- The path is preferred to another one to the same node. -/
def Preferred (init : ℕ → Entry L W) (i : ℕ) (p : List (Edge L W)) (i' : ℕ)
    (p' : List (Edge L W)) : Prop :=
  (init i').score + total p' < (init i).score + total p ∨
    (init i').score + total p' = (init i).score + total p ∧ Earlier (starts p) (starts p')

/-- The entries name the path that is preferred to all others. -/
theorem Settled.exists_preferred (h : Settled init edges table)
    (hlt : ∀ e ∈ edges, e.source < e.target) (k : ℕ) :
    ∃ i p, Path edges i p k ∧ table i = init i ∧ Follows table p ∧
      (table k).score = (init i).score + total p ∧
      ∀ i' p', Path edges i' p' k → Preferred init i p i' p' := by
  have hbound {i : ℕ} {p : List (Edge L W)} {k : ℕ} (hp : Path edges i p k) :
      (init i).score + total p ≤ (table k).score :=
    (add_le_add_left (h.init_le i) (total p)).trans (h.path_le hp)
  induction k using Nat.strong_induction_on with
  | _ k ih =>
    rcases h.entry k with hinit | ⟨hgt, e, he, rfl, hentry⟩
    · have hscore : (table k).score = (init k).score + total ([] : List (Edge L W)) := by
        simp [total, hinit]
      refine ⟨k, [], .nil, hinit, fun e he => by simp at he, hscore, fun i' p' hp' => ?_⟩
      exact (hscore ▸ hbound hp').lt_or_eq.imp_right fun heq => ⟨heq, trivial⟩
    · obtain ⟨i, p, hp, hinit, hfollows, hscore, hpref⟩ := ih e.source (hlt e he)
      have hnew : (table e.target).score = (init i).score + total (p ++ [e]) := by
        rw [hentry, total_snoc, ← add_assoc, ← hscore]
      have hsource : (table e.target).source = e.source := by rw [hentry]
      refine ⟨i, p ++ [e], .snoc hp he, hinit, fun e' h' => ?_, hnew, fun i' p' hp' => ?_⟩
      · rcases List.mem_append.1 h' with h' | h'
        · exact hfollows e' h'
        · rw [List.mem_singleton.1 h', hentry]
          exact ⟨rfl, rfl⟩
      refine (hnew ▸ hbound hp').lt_or_eq.imp_right fun heq => ⟨heq, ?_⟩
      rw [← hnew] at heq
      generalize hk : e.target = k at hp'
      cases hp' with
      | nil =>
        subst hk
        simp only [total, List.map_nil, List.sum_nil, add_zero] at heq
        exact absurd heq hgt.ne
      | @snoc p' e' hp' he' =>
        -- the edge is as good as the one that was taken, which starts no later
        have hbest : (table e'.source).score + e'.weight = (table e'.target).score := by
          refine le_antisymm (h.edge_le e' he') ?_
          rw [← hk, ← heq, total_snoc, ← add_assoc]
          exact add_le_add_left (hbound hp') e'.weight
        have hfirst := (h.first e' he' hbest).resolve_left (by
          rw [← hk]
          intro hinit'
          rw [hinit'] at hgt
          exact lt_irrefl _ hgt)
        rw [← hk, hsource] at hfirst
        rw [starts_snoc, starts_snoc]
        refine (Nat.lt_or_eq_of_le hfirst).imp_right fun hsame => ⟨hsame, ?_⟩
        rw [total_snoc, ← add_assoc, hk, ← hbest] at heq
        have hbefore := add_right_cancel heq
        rw [← hsame] at hp'
        rcases hpref i' p' hp' with hless | ⟨-, hearlier⟩
        · rw [hbefore, ← hsame, hscore] at hless
          exact absurd hless (lt_irrefl _)
        · exact hearlier

end Path

end Viterbi

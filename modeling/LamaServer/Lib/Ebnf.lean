import LamaServer.Lib.Leftmost
import Mathlib.Computability.Language

/-!
# Extended grammars

Expressions with alternatives and repetitions, and their compilation to a context-free grammar, in
which each group and each optional repetition is a nonterminal of its own. What is compiled derives
the words that the expression matches (`Compiles.derives_iff`).
-/

namespace Ebnf

/-- An expression over the rules `ν` and the classes of letters `κ`. A repetition has a lower bound,
and an upper one unless it is unbounded. -/
inductive Expr (ν κ : Type*) where
  | empty
  | char (k : κ)
  | rule (n : ν)
  | seq (a b : Expr ν κ)
  | alt (a b : Expr ν κ)
  | rep (e : Expr ν κ) (lo : ℕ) (hi : Option ℕ)
  deriving DecidableEq, Repr

/-- The expression that each rule stands for, and the letters of each class. -/
structure Grammar (ν κ τ : Type*) where
  body : ν → Option (Expr ν κ)
  Accepts : κ → τ → Prop

variable {ν κ κ' ι τ : Type*}

/-- An expression matches a word. -/
inductive Grammar.Matches (G : Grammar ν κ τ) : Expr ν κ → List τ → Prop
  | empty : Matches G .empty []
  | char {k a} : G.Accepts k a → Matches G (.char k) [a]
  | rule {n e w} : G.body n = some e → Matches G e w → Matches G (.rule n) w
  | seq {a b v w} : Matches G a v → Matches G b w → Matches G (.seq a b) (v ++ w)
  | altLeft {a b w} : Matches G a w → Matches G (.alt a b) w
  | altRight {a b w} : Matches G b w → Matches G (.alt a b) w
  | rep {e lo hi} (ws : List (List τ)) : lo ≤ ws.length → (∀ n ∈ hi, ws.length ≤ n) →
      (∀ w ∈ ws, Matches G e w) → Matches G (.rep e lo hi) ws.flatten

namespace Expr

/-- The expressions one after the other, from the last one to the first. -/
def seqs : List (Expr ν κ) → Expr ν κ
  | [] => .empty
  | e :: es => .seq (seqs es) e

/-- The expressions as alternatives, behind the first one. -/
def alts (e : Expr ν κ) : List (Expr ν κ) → Expr ν κ
  | [] => e
  | e' :: es => .alt e (alts e' es)

end Expr

/-! ## Languages -/

section Language

variable (G : Grammar ν κ τ)

/-- The words that an expression matches. -/
def Grammar.language (e : Expr ν κ) : Language τ := {w | G.Matches e w}

variable {G} {e : Expr ν κ} {w : List τ}

theorem mem_language : w ∈ G.language e ↔ G.Matches e w := Iff.rfl

variable (G)

@[simp] theorem language_empty : G.language (.empty : Expr ν κ) = 1 := by
  ext w
  rw [mem_language, Language.mem_one]
  constructor
  · intro h
    cases h
    rfl
  · rintro rfl
    exact .empty

theorem language_char (k : κ) : G.language (.char k) = {w | ∃ a, G.Accepts k a ∧ w = [a]} := by
  ext w
  constructor
  · intro h
    cases h with
    | char ha => exact ⟨_, ha, rfl⟩
  · rintro ⟨a, ha, rfl⟩
    exact .char ha

@[simp] theorem language_seq (a b : Expr ν κ) :
    G.language (.seq a b) = G.language a * G.language b := by
  ext w
  rw [mem_language, Language.mem_mul]
  constructor
  · intro h
    cases h with
    | seq ha hb => exact ⟨_, ha, _, hb, rfl⟩
  · rintro ⟨v, hv, w, hw, rfl⟩
    exact .seq hv hw

@[simp] theorem language_alt (a b : Expr ν κ) :
    G.language (.alt a b) = G.language a + G.language b := by
  ext w
  rw [mem_language, Language.mem_add]
  constructor
  · intro h
    cases h with
    | altLeft h => exact .inl h
    | altRight h => exact .inr h
  · rintro (h | h)
    · exact .altLeft h
    · exact .altRight h

theorem mem_language_rep {lo : ℕ} {hi : Option ℕ} :
    w ∈ G.language (.rep e lo hi) ↔
      ∃ n, lo ≤ n ∧ (∀ m ∈ hi, n ≤ m) ∧ w ∈ G.language e ^ n := by
  simp only [Language.mem_pow, mem_language]
  constructor
  · intro h
    cases h with
    | rep ws hlo hhi hws => exact ⟨_, hlo, hhi, ws, rfl, rfl, hws⟩
  · rintro ⟨_, hlo, hhi, ws, rfl, rfl, hws⟩
    exact .rep ws hlo hhi hws

@[simp] theorem language_seqs : ∀ es : List (Expr ν κ),
    G.language (.seqs es) = (es.reverse.map G.language).prod
  | [] => by simp [Expr.seqs]
  | e :: es => by simp [Expr.seqs, language_seqs es]

@[simp] theorem language_alts : ∀ (e : Expr ν κ) (es : List (Expr ν κ)),
    G.language (.alts e es) = ((e :: es).map G.language).sum
  | e, [] => by simp [Expr.alts]
  | e, e' :: es => by simp [Expr.alts, language_alts e' es]

end Language

/-! ## Derivations by height -/

section Height

open Cfg (Form Sym)

/-- A form derives a word, with no more than so many expansions within each other. -/
inductive DerivesIn (C : Cfg.Grammar ι κ' τ) : ℕ → Form ι κ' → List τ → Prop
  | nil {n} : DerivesIn C n [] []
  | char {n k a p w} : C.Accepts k a → DerivesIn C n p w → DerivesIn C n (.char k :: p) (a :: w)
  | rule {n i q p v w} : q ∈ C.alts i → DerivesIn C n q v → DerivesIn C (n + 1) p w →
      DerivesIn C (n + 1) (.rule i :: p) (v ++ w)

variable {C : Cfg.Grammar ι κ' τ} {p q : Form ι κ'} {v w : List τ} {n m : ℕ}

/-- What an alternative derives, its nonterminal does. -/
theorem derives_single {i : ι} (hq : q ∈ C.alts i) (h : C.Derives q w) :
    ∃ p ∈ [[Sym.rule i]], C.Derives p w :=
  ⟨_, List.mem_singleton_self _, by simpa using Cfg.Grammar.Derives.rule hq h .nil⟩

theorem DerivesIn.mono (h : DerivesIn C n p w) : ∀ {m}, n ≤ m → DerivesIn C m p w := by
  induction h with
  | nil => exact fun _ => .nil
  | char hk _ ih => exact fun hm => .char hk (ih hm)
  | @rule n i q p v w hq _ _ ihq ihp =>
    intro m hm
    obtain ⟨m, rfl⟩ : ∃ m', m = m' + 1 := ⟨m - 1, by omega⟩
    exact .rule hq (ihq (by omega)) (ihp hm)

theorem exists_derivesIn (h : C.Derives p w) : ∃ n, DerivesIn C n p w := by
  induction h with
  | nil => exact ⟨0, .nil⟩
  | char hk _ ih =>
    obtain ⟨n, hn⟩ := ih
    exact ⟨n, .char hk hn⟩
  | rule hq _ _ ihq ihp =>
    obtain ⟨n, hn⟩ := ihq
    obtain ⟨m, hm⟩ := ihp
    exact ⟨max n m + 1, .rule hq (hn.mono (Nat.le_max_left n m))
      (hm.mono (Nat.le_succ_of_le (Nat.le_max_right n m)))⟩

theorem DerivesIn.split (h : DerivesIn C n (p ++ q) w) :
    ∃ u v, w = u ++ v ∧ DerivesIn C n p u ∧ DerivesIn C n q v := by
  induction p generalizing w with
  | nil => exact ⟨[], w, rfl, .nil, h⟩
  | cons x p ih =>
    cases h with
    | char hk hp =>
      obtain ⟨u, v, rfl, hu, hv⟩ := ih hp
      exact ⟨_ :: u, v, rfl, .char hk hu, hv⟩
    | rule hi hr hp =>
      obtain ⟨u, v, rfl, hu, hv⟩ := ih hp
      exact ⟨_ ++ u, v, (List.append_assoc _ _ _).symm, .rule hi hr hu, hv⟩

theorem DerivesIn.of_rule {i : ι} (h : DerivesIn C n [.rule i] w) :
    ∃ m q, n = m + 1 ∧ q ∈ C.alts i ∧ DerivesIn C m q w := by
  cases h with
  | @rule n _ q _ v w hq hv hw =>
    cases hw
    exact ⟨n, q, rfl, hq, by rwa [List.append_nil]⟩

end Height

/-! ## Repetitions -/

section Rep

variable {G : Grammar ν κ τ} {e : Expr ν κ} {v w : List τ} {lo : ℕ} {hi : Option ℕ}

theorem matches_rep_nil (hi : Option ℕ) : G.Matches (.rep e 0 hi) [] :=
  .rep [] (Nat.le_refl 0) (fun _ _ => Nat.zero_le _) fun _ h => by cases h

theorem matches_rep_cons (h : G.Matches e v) (h' : G.Matches (.rep e lo hi) w) :
    G.Matches (.rep e (lo + 1) (hi.map (· + 1))) (v ++ w) := by
  cases h' with
  | @rep _ _ _ ws hlo hhi hws =>
    refine .rep (v :: ws) (Nat.succ_le_succ hlo) (fun n hn => ?_) fun w hw => ?_
    · obtain ⟨m, hm, rfl⟩ := Option.mem_map.1 hn
      exact Nat.succ_le_succ (hhi m hm)
    · rcases List.mem_cons.1 hw with rfl | hw
      · exact h
      · exact hws w hw

theorem matches_rep_weaken (h : G.Matches (.rep e lo hi) w) : G.Matches (.rep e 0 hi) w := by
  cases h with
  | rep ws _ hhi hws => exact .rep ws (Nat.zero_le _) hhi hws

end Rep

/-! ## Compilation -/

section Compile

open Cfg (Form Sym)

variable (Accepts : κ → τ → Prop) (C : Cfg.Grammar ι κ' τ) (Named : ν → ι → Prop)

/-- The forms are the alternatives of an expression. -/
inductive Compiles : List (Form ι κ') → Expr ν κ → Prop
  | empty : Compiles [[]] .empty
  | char {k k'} : (∀ a, C.Accepts k' a ↔ Accepts k a) → Compiles [[.char k']] (.char k)
  | rule {n i} : Named n i → Compiles [[.rule i]] (.rule n)
  | seq {p q a b} : Compiles [p] a → Compiles [q] b → Compiles [p ++ q] (.seq a b)
  | alt {p ps a b} : Compiles [p] a → Compiles ps b → Compiles (p :: ps) (.alt a b)
  | group {i e} : Compiles (C.alts i) e → Compiles [[.rule i]] e
  | star {i p e} : Compiles [p] e → C.alts i = [p ++ [.rule i], []] →
      Compiles [[.rule i]] (.rep e 0 none)
  | noMore {e} : Compiles [[]] (.rep e 0 (some 0))
  | upTo {i p q e n} : Compiles [p] e → Compiles [q] (.rep e 0 (some n)) →
      C.alts i = [p ++ q, []] → Compiles [[.rule i]] (.rep e 0 (some (n + 1)))
  | more {p q e lo hi} : Compiles [p] e → Compiles [q] (.rep e lo hi) →
      Compiles [p ++ q] (.rep e (lo + 1) (hi.map (· + 1)))

variable {G : Grammar ν κ τ} {C Named} {ps : List (Form ι κ')} {p q : Form ι κ'} {e a b : Expr ν κ}
  {w : List τ}

/-- Each rule has the alternatives of its expression; a rule without one has none. -/
def Defines (G : Grammar ν κ τ) (C : Cfg.Grammar ι κ' τ) (Named : ν → ι → Prop) : Prop :=
  ∀ n i, Named n i → (∃ e, G.body n = some e ∧ Compiles G.Accepts C Named (C.alts i) e) ∨
    G.body n = none ∧ C.alts i = []

theorem Compiles.matches_of_height (hdef : Defines G C Named) : ∀ {n : ℕ}
    {ps : List (Form ι κ')} {e : Expr ν κ} {w : List τ}, Compiles G.Accepts C Named ps e →
    ∀ p ∈ ps, DerivesIn C n p w → G.Matches e w := by
  intro n
  -- an expansion is one level down, whatever the expression says there
  induction n using Nat.strongRecOn with
  | ind n ih =>
    intro ps e w h
    induction h generalizing w with
    | empty =>
      intro p hp hw
      obtain rfl := List.mem_singleton.1 hp
      cases hw
      exact .empty
    | char hk =>
      intro p hp hw
      obtain rfl := List.mem_singleton.1 hp
      cases hw with
      | char hk' hnil =>
        cases hnil
        exact .char ((hk _).1 hk')
    | @rule n' i hn =>
      intro p hp hw
      obtain rfl := List.mem_singleton.1 hp
      obtain ⟨m, q, rfl, hq, hw⟩ := hw.of_rule
      rcases hdef n' i hn with ⟨e, he, hc⟩ | ⟨-, hnone⟩
      · exact .rule he (ih m (Nat.lt_succ_self m) hc q hq hw)
      · rw [hnone] at hq
        cases hq
    | seq _ _ iha ihb =>
      intro p hp hw
      obtain rfl := List.mem_singleton.1 hp
      obtain ⟨u, v, rfl, hu, hv⟩ := hw.split
      exact .seq (iha _ (List.mem_singleton_self _) hu) (ihb _ (List.mem_singleton_self _) hv)
    | alt _ _ iha ihb =>
      intro p hp hw
      rcases List.mem_cons.1 hp with rfl | hp
      · exact .altLeft (iha _ (List.mem_singleton_self _) hw)
      · exact .altRight (ihb p hp hw)
    | group h _ =>
      intro p hp hw
      obtain rfl := List.mem_singleton.1 hp
      obtain ⟨m, q, rfl, hq, hw⟩ := hw.of_rule
      exact ih m (Nat.lt_succ_self m) h q hq hw
    | @star i p e hp halts _ =>
      intro q hq hw
      obtain rfl := List.mem_singleton.1 hq
      obtain ⟨m, q, rfl, hq, hw⟩ := hw.of_rule
      rw [halts] at hq
      rcases List.mem_cons.1 hq with rfl | hq
      · obtain ⟨u, v, rfl, hu, hv⟩ := hw.split
        have hfirst := ih m (Nat.lt_succ_self m) hp p (List.mem_singleton_self p) hu
        have hrest := ih m (Nat.lt_succ_self m) (.star hp halts) _ (List.mem_singleton_self _) hv
        exact matches_rep_weaken (matches_rep_cons hfirst hrest)
      · obtain rfl := List.mem_singleton.1 hq
        cases hw
        exact matches_rep_nil none
    | noMore =>
      intro p hp hw
      obtain rfl := List.mem_singleton.1 hp
      cases hw
      exact matches_rep_nil _
    | @upTo i p q e k hp hq halts _ _ =>
      intro r hr hw
      obtain rfl := List.mem_singleton.1 hr
      obtain ⟨m, r, rfl, hr, hw⟩ := hw.of_rule
      rw [halts] at hr
      rcases List.mem_cons.1 hr with rfl | hr
      · obtain ⟨u, v, rfl, hu, hv⟩ := hw.split
        have hfirst := ih m (Nat.lt_succ_self m) hp p (List.mem_singleton_self p) hu
        have hrest := ih m (Nat.lt_succ_self m) hq q (List.mem_singleton_self q) hv
        exact matches_rep_weaken (matches_rep_cons hfirst hrest)
      · obtain rfl := List.mem_singleton.1 hr
        cases hw
        exact matches_rep_nil _
    | more _ _ ihp ihq =>
      intro r hr hw
      obtain rfl := List.mem_singleton.1 hr
      obtain ⟨u, v, rfl, hu, hv⟩ := hw.split
      exact matches_rep_cons (ihp _ (List.mem_singleton_self _) hu)
        (ihq _ (List.mem_singleton_self _) hv)

/-- The words of a repetition, if those of what is repeated are derived. -/
theorem Compiles.derives_rep {x : Expr ν κ} (h : Compiles G.Accepts C Named ps x) :
    ∀ {e : Expr ν κ} {lo : ℕ} {hi : Option ℕ} {ws : List (List τ)}, x = .rep e lo hi →
      lo ≤ ws.length → (∀ n ∈ hi, ws.length ≤ n) →
      (∀ w ∈ ws, ∀ ps, Compiles G.Accepts C Named ps e → ∃ p ∈ ps, C.Derives p w) →
      ∃ p ∈ ps, C.Derives p ws.flatten := by
  induction h with
  | empty => exact fun heq => by cases heq
  | char => exact fun heq => by cases heq
  | rule => exact fun heq => by cases heq
  | seq => exact fun heq => by cases heq
  | alt => exact fun heq => by cases heq
  | group _ ih =>
    intro e lo hi ws heq hlo hhi hws
    obtain ⟨q, hq, hw⟩ := ih heq hlo hhi hws
    exact derives_single hq hw
  | @star i p e hp halts _ =>
    intro e' lo hi ws heq hlo hhi hws
    cases heq
    refine ⟨_, List.mem_singleton_self _, ?_⟩
    clear hlo hhi
    induction ws with
    | nil => exact .rule (v := []) (by rw [halts]; simp) .nil .nil
    | cons w ws ih =>
      obtain ⟨q, hq, hw⟩ := hws w (List.mem_cons_self ..) _ hp
      obtain rfl := List.mem_singleton.1 hq
      have hrest := ih fun w' hw' => hws w' (List.mem_cons_of_mem w hw')
      have hbody : C.Derives (q ++ [.rule i]) (w ++ ws.flatten) := hw.append hrest
      simpa using Cfg.Grammar.Derives.rule (by rw [halts]; simp) hbody .nil
  | noMore =>
    intro e' lo hi ws heq _ hhi _
    cases heq
    obtain rfl := List.length_eq_zero_iff.1 (Nat.le_zero.1 (hhi 0 rfl))
    exact ⟨_, List.mem_singleton_self _, .nil⟩
  | @upTo i p q e n hp _ halts _ ihq =>
    intro e' lo hi ws heq _ hhi hws
    cases heq
    refine ⟨_, List.mem_singleton_self _, ?_⟩
    cases ws with
    | nil => exact .rule (v := []) (by rw [halts]; simp) .nil .nil
    | cons w ws =>
      obtain ⟨p', hp', hw⟩ := hws w (List.mem_cons_self ..) _ hp
      obtain rfl := List.mem_singleton.1 hp'
      obtain ⟨q', hq', hrest⟩ := ihq rfl (Nat.zero_le ws.length)
        (fun m hm => by cases hm; exact Nat.le_of_succ_le_succ (hhi (n + 1) rfl))
        fun w' hw' => hws w' (List.mem_cons_of_mem w hw')
      obtain rfl := List.mem_singleton.1 hq'
      have hbody : C.Derives (p' ++ q') (w ++ ws.flatten) := hw.append hrest
      simpa using Cfg.Grammar.Derives.rule (by rw [halts]; simp) hbody .nil
  | @more p q e lo hi hp _ _ ihq =>
    intro e' lo' hi' ws heq hlo hhi hws
    cases heq
    cases ws with
    | nil => cases hlo
    | cons w ws =>
      obtain ⟨p', hp', hw⟩ := hws w (List.mem_cons_self ..) _ hp
      obtain rfl := List.mem_singleton.1 hp'
      obtain ⟨q', hq', hrest⟩ := ihq rfl (Nat.le_of_succ_le_succ hlo)
        (fun m hm => Nat.le_of_succ_le_succ (hhi (m + 1) (Option.mem_map.2 ⟨m, hm, rfl⟩)))
        fun w' hw' => hws w' (List.mem_cons_of_mem w hw')
      obtain rfl := List.mem_singleton.1 hq'
      exact ⟨_, List.mem_singleton_self _, hw.append hrest⟩

theorem Compiles.derives_of_matches (hdef : Defines G C Named) (h : G.Matches e w) :
    ∀ ps, Compiles G.Accepts C Named ps e → ∃ p ∈ ps, C.Derives p w := by
  induction h with
  | empty =>
    intro ps hc
    generalize hx : Expr.empty = x at hc
    induction hc with
    | empty => exact ⟨[], List.mem_singleton_self _, .nil⟩
    | group _ ih =>
      obtain ⟨q, hq, hw⟩ := ih hx
      exact derives_single hq hw
    | _ => cases hx
  | @char k a hk =>
    intro ps hc
    generalize hx : Expr.char k = x at hc
    induction hc with
    | char hk' =>
      cases hx
      exact ⟨_, List.mem_singleton_self _, .char ((hk' a).2 hk) .nil⟩
    | group _ ih =>
      obtain ⟨q, hq, hw⟩ := ih hx
      exact derives_single hq hw
    | _ => cases hx
  | @rule n e w he _ ihe =>
    intro ps hc
    generalize hx : Expr.rule n = x at hc
    induction hc with
    | @rule n' i hn =>
      cases hx
      rcases hdef n i hn with ⟨e', he', hc'⟩ | ⟨hnone, -⟩
      · cases he.symm.trans he'
        obtain ⟨q, hq, hw⟩ := ihe _ hc'
        exact derives_single hq hw
      · cases he.symm.trans hnone
    | group _ ih =>
      obtain ⟨q, hq, hw⟩ := ih hx
      exact derives_single hq hw
    | _ => cases hx
  | @seq a b v w _ _ iha ihb =>
    intro ps hc
    generalize hx : Expr.seq a b = x at hc
    induction hc with
    | seq ha hb =>
      cases hx
      obtain ⟨p, hp, hv⟩ := iha _ ha
      obtain ⟨q, hq, hw⟩ := ihb _ hb
      obtain rfl := List.mem_singleton.1 hp
      obtain rfl := List.mem_singleton.1 hq
      exact ⟨_, List.mem_singleton_self _, hv.append hw⟩
    | group _ ih =>
      obtain ⟨q, hq, hw⟩ := ih hx
      exact derives_single hq hw
    | _ => cases hx
  | @altLeft a b w _ iha =>
    intro ps hc
    generalize hx : Expr.alt a b = x at hc
    induction hc with
    | alt ha _ =>
      cases hx
      obtain ⟨p, hp, hw⟩ := iha _ ha
      obtain rfl := List.mem_singleton.1 hp
      exact ⟨p, List.mem_cons_self .., hw⟩
    | group _ ih =>
      obtain ⟨q, hq, hw⟩ := ih hx
      exact derives_single hq hw
    | _ => cases hx
  | @altRight a b w _ ihb =>
    intro ps hc
    generalize hx : Expr.alt a b = x at hc
    induction hc with
    | alt _ hb =>
      cases hx
      obtain ⟨p, hp, hw⟩ := ihb _ hb
      exact ⟨p, List.mem_cons_of_mem _ hp, hw⟩
    | group _ ih =>
      obtain ⟨q, hq, hw⟩ := ih hx
      exact derives_single hq hw
    | _ => cases hx
  | rep ws hlo hhi _ ih => exact fun ps hc => hc.derives_rep rfl hlo hhi ih

/-- The alternatives of an expression derive the words that it matches. -/
theorem Compiles.derives_iff (hdef : Defines G C Named) (h : Compiles G.Accepts C Named ps e) :
    (∃ p ∈ ps, C.Derives p w) ↔ G.Matches e w := by
  refine ⟨?_, fun hw => derives_of_matches hdef hw ps h⟩
  rintro ⟨p, hp, hw⟩
  obtain ⟨n, hn⟩ := exists_derivesIn hw
  exact h.matches_of_height hdef p hp hn

/-- A rule derives the words of its expression. -/
theorem Defines.derives_iff {n : ν} {i : ι} (hdef : Defines G C Named) (h : Named n i) :
    C.Derives [.rule i] w ↔ G.Matches (.rule n) w := by
  simpa using (Compiles.rule h).derives_iff (w := w) hdef

end Compile

end Ebnf

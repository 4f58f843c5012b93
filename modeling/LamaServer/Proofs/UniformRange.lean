import LamaServer.Lib.Numerals
import LamaServer.Proofs.BoundsText

/-!
# Ranges of numerals

The expressions of `uniform_range`, and those for one length after the other, match the numerals
between their bounds.
-/

namespace LamaServer

open scoped Decimal
open Decimal (Digit Canonical)

/-! ## Words of a tree -/

namespace BoundsItem

/-- The words that an item matches. -/
def words (item : BoundsItem) : Language UInt32 := (Gbnf.grammar []).language item.expr

def itemsWords (items : List BoundsItem) : Language UInt32 := (items.map words).prod

def alternativesWords (alternatives : BoundsAlternatives) : Language UInt32 :=
  (alternatives.map itemsWords).sum

theorem itemsExpr_eq : ∀ items : List BoundsItem, itemsExpr items = items.map expr
  | [] => rfl
  | item :: items => by rw [itemsExpr, itemsExpr_eq items, List.map_cons]

theorem language_seqs_items (items : List BoundsItem) :
    (Gbnf.grammar []).language (.seqs (itemsExpr items).reverse) = itemsWords items := by
  rw [Ebnf.language_seqs, List.reverse_reverse, itemsExpr_eq, List.map_map]
  rfl

theorem language_laterExpr : ∀ alternatives : BoundsAlternatives,
    (laterExpr alternatives).map (Gbnf.grammar []).language = alternatives.map itemsWords
  | [] => rfl
  | items :: alternatives => by
    rw [laterExpr, List.map_cons, List.map_cons, language_seqs_items,
      language_laterExpr alternatives]

theorem language_alternativesExpr {alternatives : BoundsAlternatives} (h : alternatives ≠ []) :
    (Gbnf.grammar []).language (alternativesExpr alternatives) =
      alternativesWords alternatives := by
  rcases alternatives with _ | ⟨items, alternatives⟩
  · exact absurd rfl h
  · rw [alternativesExpr, Ebnf.language_alts, List.map_cons, language_seqs_items,
      language_laterExpr]
    rfl

theorem words_group {alternatives : BoundsAlternatives} (h : alternatives ≠ []) :
    (group alternatives).words = alternativesWords alternatives := by
  rw [words, expr, language_alternativesExpr h]

@[simp] theorem itemsWords_nil : itemsWords [] = 1 := rfl

@[simp] theorem itemsWords_cons (item : BoundsItem) (items : List BoundsItem) :
    itemsWords (item :: items) = item.words * itemsWords items := List.prod_cons

@[simp] theorem itemsWords_append (items items' : List BoundsItem) :
    itemsWords (items ++ items') = itemsWords items * itemsWords items' := by
  rw [itemsWords, List.map_append, List.prod_append]
  rfl

@[simp] theorem alternativesWords_nil : alternativesWords [] = 0 := rfl

@[simp] theorem alternativesWords_cons (items : List BoundsItem)
    (alternatives : BoundsAlternatives) : alternativesWords (items :: alternatives) =
      itemsWords items + alternativesWords alternatives := List.sum_cons

@[simp] theorem alternativesWords_append (alternatives alternatives' : BoundsAlternatives) :
    alternativesWords (alternatives ++ alternatives') =
      alternativesWords alternatives + alternativesWords alternatives' := by
  rw [alternativesWords, List.map_append, List.sum_append]
  rfl

end BoundsItem

/-! ## Words of digits -/

theorem toNat_digitVal (d : Digit) : (digitVal d).toNat = 48 + d := by
  fin_cases d <;> rfl

theorem digitVal_injective : Function.Injective digitVal := fun d e h => by
  have hval := congrArg UInt32.toNat h
  rw [toNat_digitVal, toNat_digitVal] at hval
  exact Fin.ext (Nat.add_left_cancel hval)

theorem between_digitVal {d e : Digit} {c : UInt32} :
    digitVal d ≤ c ∧ c ≤ digitVal e ↔ ∃ u, d ≤ u ∧ u ≤ e ∧ digitVal u = c := by
  rw [UInt32.le_iff_toNat_le, UInt32.le_iff_toNat_le, toNat_digitVal, toNat_digitVal]
  constructor
  · rintro ⟨hd, he⟩
    have hlt : c.toNat - 48 < 10 := by omega
    refine ⟨⟨c.toNat - 48, hlt⟩, Fin.le_def.2 ?_, Fin.le_def.2 ?_, ?_⟩
    · change (d : ℕ) ≤ c.toNat - 48
      omega
    · change c.toNat - 48 ≤ (e : ℕ)
      omega
    · rw [← UInt32.toNat_inj, toNat_digitVal]
      change 48 + (c.toNat - 48) = c.toNat
      omega
  · rintro ⟨u, hd, he, rfl⟩
    rw [toNat_digitVal]
    exact ⟨Nat.add_le_add_left hd 48, Nat.add_le_add_left he 48⟩

/-- The words of numerals. -/
abbrev digitWords : Language Digit →+* Language UInt32 := Language.map digitVal

namespace BoundsItem

theorem contains_range {c d e : UInt32} :
    Gbnf.Letter.Contains (.cls ⟨false, [(d, e)]⟩) c ↔ d ≤ c ∧ c ≤ e := by
  simp [Gbnf.Letter.Contains, CharClass.Contains]

theorem language_range (d e : Digit) : (Gbnf.grammar []).language
    (.char (.cls ⟨false, [(digitVal d, digitVal e)]⟩)) = digitWords (Decimal.oneOf d e) := by
  rw [Ebnf.language_char]
  ext w
  constructor
  · rintro ⟨a, ha, rfl⟩
    obtain ⟨u, hd, he, rfl⟩ := between_digitVal.1 (contains_range.1 ha)
    exact ⟨[u], ⟨u, hd, he, rfl⟩, rfl⟩
  · rintro ⟨_, ⟨u, hd, he, rfl⟩, rfl⟩
    exact ⟨digitVal u, contains_range.2 (between_digitVal.2 ⟨u, hd, he, rfl⟩), rfl⟩

theorem words_minus : minus.words = {['-'.val]} := by
  have hchar : minus.words = (Gbnf.grammar []).language (Gbnf.literalChar '-'.val) := by
    simp [words, expr, Gbnf.literal]
  rw [hchar, Gbnf.literalChar, Ebnf.language_char]
  ext w
  constructor
  · rintro ⟨a, ha, rfl⟩
    obtain ⟨hle, hge⟩ := contains_range.1 ha
    rw [UInt32.le_antisymm hge hle]
    rfl
  · rintro rfl
    exact ⟨'-'.val, contains_range.2 ⟨UInt32.le_refl _, UInt32.le_refl _⟩, rfl⟩

theorem prod_oneOf : ∀ ds : List Digit,
    (ds.map fun d => digitWords (Decimal.oneOf d d)).prod = digitWords {ds}
  | [] => (map_one digitWords).symm
  | d :: ds => by
    rw [List.map_cons, List.prod_cons, prod_oneOf ds, Decimal.singleton_cons, map_mul]

theorem words_literal (digits : List Digit) : (literal digits).words = digitWords {digits} := by
  have hchar : (digits.map digitVal).map
      (fun c => (Gbnf.grammar []).language (Gbnf.literalChar c)) =
        digits.map fun d => digitWords (Decimal.oneOf d d) := by
    rw [List.map_map]
    exact List.map_congr_left fun d _ => language_range d d
  rw [words, expr, Gbnf.literal, Ebnf.language_seqs, ← List.map_reverse, List.reverse_reverse,
    List.map_map, ← prod_oneOf, ← hchar]
  rfl

theorem words_digitRange (d e : Digit) :
    (digitRange d e).words = digitWords (Decimal.oneOf d e) := language_range d e

theorem words_moreDigits {lo hi : ℕ} (h : (hi : Int) ≠ intMax) :
    (moreDigits lo hi).words = digitWords (Decimal.lengths lo hi) := by
  have hdigit : (Gbnf.grammar []).language anyDigit = digitWords (Decimal.oneOf 0 9) :=
    language_range 0 9
  rw [words, expr]
  split_ifs with hone hmax
  · obtain ⟨rfl, rfl⟩ := hone
    rw [hdigit, ← Decimal.oneOf_pow, pow_one]
  · exact absurd hmax.2 h
  · ext w
    rw [Ebnf.mem_language_rep, hdigit]
    simp only [← map_pow, Decimal.oneOf_pow, Option.mem_some_iff, forall_eq']
    constructor
    · rintro ⟨n, hlo, hhi, ds, ⟨hle, hge⟩, rfl⟩
      exact ⟨ds, ⟨hlo.trans hle, hge.trans hhi⟩, rfl⟩
    · rintro ⟨ds, ⟨hlo, hhi⟩, rfl⟩
      exact ⟨ds.length, hlo, hhi, ds, ⟨le_rfl, le_rfl⟩, rfl⟩

end BoundsItem

open BoundsItem

/-! ## Ranges between numerals of one length -/

variable {s t : List Digit} {f u : Digit}

theorem commonLength_self : ∀ s : List Digit, commonLength s s = s.length
  | [] => rfl
  | d :: s => by rw [commonLength, if_pos rfl, commonLength_self s, List.length_cons]

theorem commonLength_append (h : f ≠ u) (s t : List Digit) : ∀ p : List Digit,
    commonLength (p ++ f :: s) (p ++ u :: t) = p.length
  | [] => by rw [List.nil_append, List.nil_append, commonLength, if_neg h]; rfl
  | d :: p => by
    rw [List.cons_append, List.cons_append, commonLength, if_pos rfl, commonLength_append h s t p,
      List.length_cons]

/-- Two numerals of one length are the same, or they differ behind what they have in common. -/
theorem eq_or_differ (h : s.length = t.length) : s = t ∨ ∃ p f u s' t', f ≠ u ∧
    s = p ++ f :: s' ∧ t = p ++ u :: t' ∧ s'.length = t'.length := by
  induction s generalizing t with
  | nil => exact .inl (List.length_eq_zero_iff.1 h.symm).symm
  | cons f s ih =>
    rcases t with _ | ⟨u, t⟩
    · cases h
    have hlen : s.length = t.length := by simpa using h
    by_cases hf : f = u
    · subst hf
      rcases ih hlen with rfl | ⟨p, g, v, s', t', hne, rfl, rfl, hlen'⟩
      · exact .inl rfl
      · exact .inr ⟨f :: p, g, v, s', t', hne, rfl, rfl, hlen'⟩
    · exact .inr ⟨[], f, u, s, t, hf, rfl, rfl, hlen⟩

/-- What the range starts with. -/
theorem itemsWords_common (p : List Digit) :
    itemsWords (if p.length > 0 then [literal p] else []) = digitWords {p} := by
  rcases p with _ | ⟨d, p⟩
  · exact (map_one digitWords).symm
  · rw [if_pos (by simp), itemsWords_cons, itemsWords_nil, mul_one, words_literal]

theorem uniformRange_self (n : ℕ) (s : List Digit) :
    uniformRange (n + 1) s s = if s.length > 0 then [literal s] else [] := by
  simp only [uniformRange, commonLength_self, List.drop_length, List.take_length]

theorem words_group_single (items : List BoundsItem) :
    (group [items]).words = itemsWords items := by
  rw [words_group (by simp), alternativesWords_cons, alternativesWords_nil, add_zero]

/-- The alternatives behind what the bounds have in common. -/
theorem alternativesWords_differ (h : s.length = t.length) (hfu : f < u)
    (hmax : (s.length : Int) ≠ intMax) {lower upper : List BoundsItem} {toReached : Bool}
    (hreached : toReached = true ↔
      s ≠ Decimal.zeros s.length ∧ f < u - 1 ∧ t = Decimal.nines s.length)
    (hlower : itemsWords lower = digitWords (Decimal.between s (Decimal.nines s.length)))
    (hupper : itemsWords upper = digitWords (Decimal.between (Decimal.zeros s.length) t)) :
    alternativesWords ((if s = Decimal.zeros s.length then
        [[digitRange f (u - 1), moreDigits s.length s.length]]
      else [digitRange f f, group [lower]] ::
        if f < u - 1 then
          [[digitRange (f + 1) (if toReached then u else u - 1), moreDigits s.length s.length]]
        else []) ++ if toReached then [] else [digitRange u u :: upper]) =
      digitWords (Decimal.between (f :: s) (u :: t)) := by
  have hmore : (moreDigits s.length s.length).words =
      digitWords (Decimal.lengths s.length s.length) := words_moreDigits hmax
  rw [Decimal.between_of_lt h hfu, alternativesWords_append]
  by_cases hzero : s = Decimal.zeros s.length
  · have hnot : toReached = false := by
      rw [← Bool.not_eq_true, hreached]
      exact fun hr => hr.1 hzero
    have hfree : Decimal.between s (Decimal.nines s.length) =
        Decimal.lengths s.length s.length := by
      conv_lhs => rw [hzero, Decimal.length_zeros]
      exact Decimal.between_zeros_nines _
    rw [if_pos hzero, hnot, hfree, ← add_mul, Decimal.oneOf_add_pred hfu]
    simp [words_digitRange, hmore, hupper]
  rw [if_neg hzero]
  by_cases hfar : f < u - 1
  · rw [if_pos hfar]
    by_cases hnine : t = Decimal.nines s.length
    · have hyes : toReached = true := hreached.2 ⟨hzero, hfar, hnine⟩
      rw [hyes, hnine, Decimal.between_zeros_nines, add_assoc, ← add_mul,
        Decimal.oneOf_add_left hfu]
      simp [words_digitRange, hmore, hlower, words_group_single]
    · have hnot : toReached = false := by
        rw [← Bool.not_eq_true, hreached]
        exact fun hr => hnine hr.2.2
      rw [hnot]
      simp [words_digitRange, hmore, hlower, hupper, words_group_single, add_assoc]
  · have hnot : toReached = false := by
      rw [← Bool.not_eq_true, hreached]
      exact fun hr => hfar hr.2.1
    have hnone : Decimal.oneOf (f + 1) (u - 1) = 0 := by
      refine Decimal.oneOf_of_lt (not_le.1 fun hle => hfar ?_)
      exact (Decimal.add_one_le_iff hfu).1 hle
    rw [if_neg hfar, hnot, hnone]
    simp [words_digitRange, hlower, hupper, words_group_single]

/-- The numerals of one length from the lower bound up to the upper one. -/
theorem itemsWords_uniformRange {n : ℕ} (hmax : (n : Int) < intMax) (hst : s.length = t.length)
    (hn : s.length ≤ n) (hle : Decimal.value s ≤ Decimal.value t) :
    itemsWords (uniformRange n s t) = digitWords (Decimal.between s t) := by
  induction n generalizing s t with
  | zero =>
    obtain rfl := List.length_eq_zero_iff.1 (Nat.le_zero.1 hn)
    obtain rfl := List.length_eq_zero_iff.1 hst.symm
    rw [Decimal.between_self]
    exact (map_one digitWords).symm
  | succ n ih =>
    rcases eq_or_differ hst with rfl | ⟨p, f, u, s, t, hne, rfl, rfl, hlen⟩
    · rw [uniformRange_self, itemsWords_common, Decimal.between_self]
    have hlen' : (f :: s).length = (u :: t).length := by simpa using hlen
    have hfu : f < u := by
      rw [Decimal.value_append, Decimal.value_append, hlen', Nat.add_le_add_iff_left,
        Decimal.value_cons_le hlen] at hle
      exact hle.resolve_right fun h => hne h.1
    have hs : s.length ≤ n := by
      rw [List.length_append, List.length_cons] at hn
      omega
    rw [Decimal.between_append hlen', map_mul, ← itemsWords_common]
    simp only [uniformRange, commonLength_append hne, List.take_left, List.drop_left]
    rcases s with _ | ⟨d, s⟩
    · obtain rfl := List.length_eq_zero_iff.1 hlen.symm
      rw [if_neg (by simp), itemsWords_append, itemsWords_cons, itemsWords_nil, mul_one,
        words_digitRange, Decimal.between_single]
    rw [if_pos (by simp), itemsWords_append, itemsWords_cons, itemsWords_nil, mul_one,
      words_group (List.append_ne_nil_of_left_ne_nil (by split_ifs <;> simp) _)]
    generalize d :: s = s at *
    have hmax' : (n : Int) < intMax := by omega
    rw [alternativesWords_differ hlen hfu (by omega) (by simp)]
    · exact ih hmax' (Decimal.length_nines _).symm hs (Decimal.value_le_nines s)
    · refine ih hmax' ?_ ?_ ?_
      · rw [Decimal.length_zeros, hlen]
      · rwa [Decimal.length_zeros]
      · rw [Decimal.value_zeros]
        exact Nat.zero_le _

theorem itemsFull_append {items items' : List BoundsItem} :
    ItemsFull (items ++ items') ↔ ItemsFull items ∧ ItemsFull items' := by
  induction items with
  | nil => simp [ItemsFull]
  | cons item items ih => simp [ItemsFull, ih, and_assoc]

theorem alternativesFull_append {alternatives alternatives' : BoundsAlternatives} :
    AlternativesFull (alternatives ++ alternatives') ↔
      AlternativesFull alternatives ∧ AlternativesFull alternatives' := by
  induction alternatives with
  | nil => simp [AlternativesFull]
  | cons items alternatives ih => simp [AlternativesFull, ih, and_assoc]

theorem uniformRange_ne_nil {n : ℕ} (hst : s.length = t.length) (hn : s.length ≤ n)
    (hs : s ≠ []) : uniformRange n s t ≠ [] := by
  obtain ⟨n, rfl⟩ : ∃ m, n = m + 1 := ⟨n - 1, by have := List.length_pos_iff.2 hs; omega⟩
  rcases eq_or_differ hst with rfl | ⟨p, f, u, s, t, hne, rfl, rfl, -⟩
  · rw [uniformRange_self, if_pos (List.length_pos_iff.2 hs)]
    exact List.cons_ne_nil _ _
  · simp only [uniformRange, commonLength_append hne, List.take_left, List.drop_left]
    split_ifs <;> exact List.append_ne_nil_of_right_ne_nil _ (List.cons_ne_nil _ _)

theorem itemsFull_uniformRange {n : ℕ} (hst : s.length = t.length) (hn : s.length ≤ n) :
    ItemsFull (uniformRange n s t) := by
  induction n generalizing s t with
  | zero => trivial
  | succ n ih =>
    have hcommon (p : List Digit) : ItemsFull (if p.length > 0 then [literal p] else []) := by
      split_ifs <;> simp [ItemsFull, Full]
    rcases eq_or_differ hst with rfl | ⟨p, f, u, s, t, hne, rfl, rfl, hlen⟩
    · rw [uniformRange_self]
      exact hcommon s
    simp only [uniformRange, commonLength_append hne, List.take_left, List.drop_left]
    have hs : s.length ≤ n := by
      rw [List.length_append, List.length_cons] at hn
      omega
    by_cases hpos : s.length > 0
    · have hlower := ih (t := Decimal.nines s.length) (by simp) hs
      have hupper := ih (s := Decimal.zeros s.length) (t := t) (by simp [hlen]) (by simpa)
      have hne := uniformRange_ne_nil (t := Decimal.nines s.length) (by simp) hs
        (List.length_pos_iff.1 hpos)
      rw [if_pos hpos, itemsFull_append]
      refine ⟨hcommon p, ⟨List.append_ne_nil_of_left_ne_nil (by split_ifs <;> simp) _,
        alternativesFull_append.2 ⟨?_, ?_⟩⟩, trivial⟩
      · split_ifs <;> simp [AlternativesFull, ItemsFull, Full, hlower, hne]
      · split_ifs <;> simp [AlternativesFull, ItemsFull, Full, hupper]
    · rw [if_neg hpos, itemsFull_append]
      exact ⟨hcommon p, trivial, trivial⟩

/-! ## Ranges between numerals of any length -/

theorem uniformRanges_full : ∀ {n : ℕ} {s t : List Digit}, t.length = s.length + n → s ≠ [] →
    uniformRanges n s t ≠ [] ∧ AlternativesFull (uniformRanges n s t)
  | 0, s, t, hlen, hs => by
    have hfull := itemsFull_uniformRange hlen.symm le_rfl
    have hne := uniformRange_ne_nil hlen.symm le_rfl hs
    exact ⟨List.cons_ne_nil _ _, ⟨hne, hfull⟩, trivial⟩
  | n + 1, s, t, hlen, hs => by
    have hnines := (Decimal.length_nines s.length).symm
    have hfull := itemsFull_uniformRange hnines le_rfl
    have hne := uniformRange_ne_nil hnines le_rfl hs
    have ih := uniformRanges_full (n := n) (s := 1 :: Decimal.zeros s.length) (t := t)
      (by simp; omega) (List.cons_ne_nil _ _)
    exact ⟨List.cons_ne_nil _ _, ⟨hne, hfull⟩, ih.2⟩

theorem alternativesWords_uniformRanges {n : ℕ} (hmax : (t.length : Int) < intMax)
    (hlen : t.length = s.length + n) (hs : Canonical s) (ht : Canonical t)
    (hle : Decimal.value s ≤ Decimal.value t) : alternativesWords (uniformRanges n s t) =
      digitWords (Decimal.numerals (Decimal.value s) (Decimal.value t)) := by
  induction n generalizing s with
  | zero =>
    rw [uniformRanges, alternativesWords_cons, alternativesWords_nil, add_zero,
      itemsWords_uniformRange (by omega) hlen.symm le_rfl hle,
      Decimal.between_eq_numerals hs hlen.symm]
  | succ n ih =>
    have hnext : Canonical (1 :: Decimal.zeros s.length) :=
      Decimal.canonical_cons.2 (.inl (by decide))
    have hle' : Decimal.value (1 :: Decimal.zeros s.length) ≤ Decimal.value t := by
      rw [Decimal.value_one_zeros]
      exact ht.value_nines_lt hs.1 (by omega)
    rw [uniformRanges, alternativesWords_cons,
      itemsWords_uniformRange (by omega) (Decimal.length_nines _).symm le_rfl
        (Decimal.value_le_nines s),
      ih (by simp; omega) hnext hle', Decimal.numerals_of_lt hs ht (by omega), map_add]

end LamaServer

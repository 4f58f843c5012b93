import LamaServer.IntegerBounds
import Mathlib.Tactic.FinCases

/-!
# The text of bounds

The text of an expression for bounds is read as the expression.
-/

namespace LamaServer

open scoped Decimal
open Decimal (Digit)

/-- The character of a digit. -/
def digitVal (d : Digit) : UInt32 := (digitText d).toUInt32

/-! ## Reading digits -/

section Reading

variable {d e : Digit} {rest : Text} {nested : Bool}

theorem digitText_solid (d : Digit) :
    digitText d ≠ ascii '"' ∧ digitText d ≠ ascii ']' ∧ digitText d ≠ ascii '-' := by
  fin_cases d <;> decide

theorem isDigitChar_digitText (d : Digit) : isDigitChar (digitText d) = true := by
  fin_cases d <;> rfl

theorem parseChar_digitText (d : Digit) (rest : Text) :
    parseChar (digitText d :: rest) = .ok (digitVal d, rest) := by
  fin_cases d <;> rfl

theorem parseSpace_digitText (d : Digit) (rest : Text) :
    parseSpace nested (digitText d :: rest) = digitText d :: rest := by
  fin_cases d <;> rfl

theorem readLiteral_digits (rest : Text) : ∀ (ds : List Digit) {fuel : Nat} (chars : List UInt32),
    ds.length < fuel →
    Gbnf.readLiteral fuel (ds.map digitText ++ ascii '"' :: rest) chars =
      some ((ds.map digitVal).reverse ++ chars, rest)
  | [], fuel + 1, chars, _ => by simp [Gbnf.readLiteral]
  | d :: ds, fuel + 1, chars, h => by
    rw [List.map_cons, List.cons_append, Gbnf.readLiteral, if_neg (digitText_solid d).1,
      parseChar_digitText]
    have ih := readLiteral_digits rest ds (digitVal d :: chars) (Nat.lt_of_succ_lt_succ h)
    simpa [Except.toOption] using ih

theorem readRanges_single (fuel : Nat) (d : Digit) (rest : Text) :
    Gbnf.readRanges (fuel + 2) (digitText d :: ascii ']' :: rest) =
      some ([(digitVal d, digitVal d)], rest) := by
  fin_cases d <;> rfl

theorem readRanges_pair (fuel : Nat) (d e : Digit) (rest : Text) :
    Gbnf.readRanges (fuel + 2) (digitText d :: ascii '-' :: digitText e :: ascii ']' :: rest) =
      some ([(digitVal d, digitVal e)], rest) := by
  rw [Gbnf.readRanges, if_neg (digitText_solid d).2.1, parseChar_digitText]
  have hclose := (digitText_solid e).2.1
  simp [hclose, parseChar_digitText, Gbnf.readRanges, Except.toOption]

theorem number_append (digits : Text) (b : UInt8) :
    Gbnf.number (digits ++ [b]) = 10 * Gbnf.number digits + (b - ascii '0').toNat := by
  simp [Gbnf.number]

theorem number_digits (ds : List Digit) : Gbnf.number (ds.map digitText) = Decimal.value ds := by
  induction ds using List.reverseRecOn with
  | nil => rfl
  | append_singleton ds d ih =>
    have hd : (digitText d - ascii '0').toNat = d.val := by fin_cases d <;> rfl
    rw [List.map_append, List.map_singleton, number_append, ih, hd, Decimal.value_append]
    simp [Decimal.value_cons, Nat.mul_comm]

theorem number_numberText (n : Nat) : Gbnf.number (numberText n) = n := by
  rw [numberText, number_digits, Decimal.value_ofNat]

theorem span_numberText {c : UInt8} (hc : isDigitChar c = false) (n : Nat) (rest : Text) :
    (numberText n ++ c :: rest).span isDigitChar = (numberText n, c :: rest) := by
  have hall : ∀ b ∈ numberText n, isDigitChar b = true := fun b hb => by
    obtain ⟨d, -, rfl⟩ := List.mem_map.1 hb
    exact isDigitChar_digitText d
  rw [List.span_eq_takeWhile_dropWhile, List.takeWhile_append_of_pos hall,
    List.dropWhile_append_of_pos hall, List.takeWhile_cons_of_neg (by simp [hc]),
    List.dropWhile_cons_of_neg (by simp [hc]), List.append_nil]

theorem numberText_eq_cons (n : Nat) : ∃ d ds, numberText n = digitText d :: ds := by
  rcases h : Decimal.ofNat n with _ | ⟨d, ds⟩
  · exact absurd h (Decimal.canonical_ofNat n).1
  · exact ⟨d, ds.map digitText, by rw [numberText, h]; rfl⟩

theorem readBounds_exactly (n : Nat) (rest : Text) :
    Gbnf.readBounds nested (numberText n ++ ascii '}' :: rest) =
      some (n, some n, parseSpace nested rest) := by
  obtain ⟨d, ds, hn⟩ := numberText_eq_cons n
  have hspace : parseSpace nested (ascii '}' :: rest) = ascii '}' :: rest := rfl
  unfold Gbnf.readBounds
  rw [span_numberText rfl]
  simp only [number_numberText, hspace, if_true]
  rw [if_neg (by simp [hn])]

theorem readBounds_atLeast (n : Nat) (rest : Text) :
    Gbnf.readBounds nested (numberText n ++ ascii ',' :: ascii '}' :: rest) =
      some (n, none, parseSpace nested rest) := by
  obtain ⟨d, ds, hn⟩ := numberText_eq_cons n
  have hcomma : parseSpace nested (ascii ',' :: ascii '}' :: rest) =
    ascii ',' :: ascii '}' :: rest := rfl
  have hspace : parseSpace nested (ascii '}' :: rest) = ascii '}' :: rest := rfl
  have hspan : (ascii '}' :: rest).span isDigitChar = ([], ascii '}' :: rest) := rfl
  unfold Gbnf.readBounds
  rw [span_numberText rfl]
  simp only [number_numberText, hcomma, hspace, hspan]
  rw [if_neg (by simp [hn])]
  rfl

theorem readBounds_between (n m : Nat) (rest : Text) :
    Gbnf.readBounds nested (numberText n ++ ascii ',' :: (numberText m ++ ascii '}' :: rest)) =
      some (n, some m, parseSpace nested rest) := by
  obtain ⟨d, ds, hn⟩ := numberText_eq_cons n
  obtain ⟨e, es, hm⟩ := numberText_eq_cons m
  have hcomma (pos : Text) : parseSpace nested (ascii ',' :: pos) = ascii ',' :: pos := rfl
  have hclose : parseSpace nested (ascii '}' :: rest) = ascii '}' :: rest := rfl
  have hspace : parseSpace nested (numberText m ++ ascii '}' :: rest) =
      numberText m ++ ascii '}' :: rest := by
    rw [hm, List.cons_append, parseSpace_digitText]
  unfold Gbnf.readBounds
  rw [span_numberText rfl]
  have hdigit : isDigitChar (ascii '}') = false := rfl
  simp only [number_numberText, hcomma, hspace, span_numberText hdigit, hclose]
  rw [if_neg (by simp [hn]), if_neg (by decide), if_pos trivial]
  simp [hm]

end Reading

/-! ## The expression of a tree -/

/-- Some digit. -/
def anyDigit : Gbnf.Expr := .char (.cls ⟨false, [(digitVal 0, digitVal 9)]⟩)

namespace BoundsItem

mutual

def expr : BoundsItem → Gbnf.Expr
  | minus => Gbnf.literal ['-'.val]
  | literal digits => Gbnf.literal (digits.map digitVal).reverse
  | digitRange from_ to_ => .char (.cls ⟨false, [(digitVal from_, digitVal to_)]⟩)
  | moreDigits minDigits maxDigits =>
    if minDigits = maxDigits ∧ minDigits = 1 then anyDigit
    else .rep anyDigit minDigits
      (if maxDigits ≠ minDigits ∧ (maxDigits : Int) = intMax then none else some maxDigits)
  | group alternatives => alternativesExpr alternatives

def itemsExpr : List BoundsItem → List Gbnf.Expr
  | [] => []
  | item :: items => item.expr :: itemsExpr items

def laterExpr : BoundsAlternatives → List Gbnf.Expr
  | [] => []
  | items :: alternatives => .seqs (itemsExpr items).reverse :: laterExpr alternatives

def alternativesExpr : BoundsAlternatives → Gbnf.Expr
  | [] => .empty
  | items :: alternatives => .alts (.seqs (itemsExpr items).reverse) (laterExpr alternatives)

end

mutual

/-- There is something between any parentheses. -/
def Full : BoundsItem → Prop
  | group alternatives => alternatives ≠ [] ∧ AlternativesFull alternatives
  | _ => True

def ItemsFull : List BoundsItem → Prop
  | [] => True
  | item :: items => item.Full ∧ ItemsFull items

/-- There is something in each alternative. -/
def AlternativesFull : BoundsAlternatives → Prop
  | [] => True
  | items :: alternatives => (items ≠ [] ∧ ItemsFull items) ∧ AlternativesFull alternatives

end

/-! ## Reading a tree -/

variable {nested : Bool} {rest : Text}

theorem text_head (item : BoundsItem) : ∃ c pos, item.text = c :: pos ∧
    (c = ascii '"' ∨ c = ascii '[' ∨ c = ascii '(') := by
  cases item with
  | minus => exact ⟨_, _, rfl, .inl rfl⟩
  | literal => exact ⟨_, _, rfl, .inl rfl⟩
  | digitRange => exact ⟨_, _, rfl, .inr (.inl rfl)⟩
  | moreDigits => exact ⟨_, _, rfl, .inr (.inl rfl)⟩
  | group => exact ⟨_, _, rfl, .inr (.inr rfl)⟩

theorem parseSpace_text (item : BoundsItem) (rest : Text) :
    parseSpace nested (item.text ++ rest) = item.text ++ rest := by
  obtain ⟨c, pos, htext, h⟩ := item.text_head
  rw [htext, List.cons_append]
  rcases h with rfl | rfl | rfl <;> rfl

theorem sequenceText_cons (item : BoundsItem) {items : List BoundsItem} (h : items ≠ []) :
    sequenceText (item :: items) = item.text ++ ascii ' ' :: sequenceText items := by
  rw [sequenceText]
  exact h

theorem alternativesText_cons (items : List BoundsItem) {alternatives : BoundsAlternatives}
    (h : alternatives ≠ []) : alternativesText (items :: alternatives) =
      sequenceText items ++ [ascii ' ', ascii '|', ascii ' '] ++ alternativesText alternatives := by
  rw [alternativesText]
  exact h

theorem parseSpace_sequenceText {items : List BoundsItem} (h : items ≠ []) (rest : Text) :
    parseSpace nested (sequenceText items ++ rest) = sequenceText items ++ rest := by
  rcases items with _ | ⟨item, _ | ⟨item', items⟩⟩
  · exact absurd rfl h
  · exact parseSpace_text item rest
  · rw [sequenceText_cons item (by simp), List.append_assoc]
    exact parseSpace_text item _

theorem parseSpace_alternativesText {alternatives : BoundsAlternatives} (h : alternatives ≠ [])
    (hfull : AlternativesFull alternatives) (rest : Text) :
    parseSpace nested (alternativesText alternatives ++ rest) =
      alternativesText alternatives ++ rest := by
  rcases alternatives with _ | ⟨items, _ | ⟨items', alternatives⟩⟩
  · exact absurd rfl h
  · exact parseSpace_sequenceText hfull.1.1 rest
  · rw [alternativesText_cons items (by simp), List.append_assoc, List.append_assoc]
    exact parseSpace_sequenceText hfull.1.1 _

/-- The end of a group or of the text. -/
def AtEnd (rest : Text) : Prop := rest = [] ∨ ∃ pos, rest = ascii ')' :: pos

/-- The end of an alternative. -/
def AtStop (rest : Text) : Prop := AtEnd rest ∨ ∃ pos, rest = ascii '|' :: pos

/-- The item is read, and what is left of the fuel is enough for the rest. -/
def Reads (item : BoundsItem) : Prop :=
  ∀ (nested : Bool) (rest : Text) (acc : List Gbnf.Expr) {n fuel : Nat},
    2 * item.text.length + n ≤ fuel → ∃ m ≥ n,
      Gbnf.readSequence fuel (item.text ++ rest) nested acc =
        Gbnf.readSequence m (parseSpace nested rest) nested (item.expr :: acc)

theorem reads_minus : Reads minus := by
  intro nested rest acc n fuel h
  obtain ⟨m, rfl⟩ : ∃ m, fuel = m + 1 := ⟨fuel - 1, by simp [text] at h; omega⟩
  refine ⟨m, by simp [text] at h; omega, ?_⟩
  rw [text, List.cons_append, Gbnf.readSequence, if_pos rfl]
  rfl

theorem reads_literal (digits : List Digit) : Reads (literal digits) := by
  intro nested rest acc n fuel h
  rw [text, List.length_append, List.length_cons] at h
  obtain ⟨m, rfl⟩ : ∃ m, fuel = m + 1 := ⟨fuel - 1, by omega⟩
  refine ⟨m, by omega, ?_⟩
  have hlen : digits.length < (digits.map digitText ++ ascii '"' :: rest).length + 1 := by
    simp
  have hread := readLiteral_digits rest digits [] hlen
  rw [text, List.cons_append, List.cons_append, List.append_assoc, List.singleton_append,
    Gbnf.readSequence, if_pos rfl]
  simp only [hread, List.append_nil]
  rfl

/-- One step over a class. -/
theorem readSequence_range (nested : Bool) (d e : Digit) (m : Nat) (acc : List Gbnf.Expr)
    (pos : Text) : Gbnf.readSequence (m + 1) (ascii '[' ::
        ((if d = e then [digitText d] else [digitText d, ascii '-', digitText e]) ++
          ascii ']' :: pos)) nested acc =
      Gbnf.readSequence m (parseSpace nested pos) nested
        (.char (.cls ⟨false, [(digitVal d, digitVal e)]⟩) :: acc) := by
  have hnot (d : Digit) : digitText d ≠ ascii '^' := by fin_cases d <;> decide
  by_cases h : d = e
  · subst h
    rw [if_pos rfl, Gbnf.readSequence, if_neg (by decide), if_pos rfl]
    simp [hnot, readRanges_single]
  · rw [if_neg h, Gbnf.readSequence, if_neg (by decide), if_pos rfl]
    simp [hnot, readRanges_pair]

theorem reads_digitRange (d e : Digit) : Reads (digitRange d e) := by
  intro nested rest acc n fuel h
  rw [text, List.length_append, List.length_cons] at h
  obtain ⟨m, rfl⟩ : ∃ m, fuel = m + 1 := ⟨fuel - 1, by omega⟩
  refine ⟨m, by omega, ?_⟩
  rw [text, List.cons_append, List.cons_append, List.append_assoc, List.singleton_append,
    readSequence_range]
  rfl

/-- One step over a repetition in braces. -/
theorem readSequence_braces {pos rest : Text} {lo : Nat} {hi : Option Nat}
    (h : Gbnf.readBounds nested pos = some (lo, hi, rest)) (hpos : parseSpace nested pos = pos)
    (m : Nat) (e : Gbnf.Expr) (acc : List Gbnf.Expr) :
    Gbnf.readSequence (m + 1) (ascii '{' :: pos) nested (e :: acc) =
      Gbnf.readSequence m rest nested (.rep e lo hi :: acc) := by
  have hword : isWordChar (ascii '{') = false := rfl
  rw [Gbnf.readSequence, if_neg (by decide), if_neg (by decide), if_neg (by simp [hword]),
    if_neg (by decide), if_neg (by decide), if_neg (by decide), if_neg (by decide),
    if_neg (by decide), if_pos rfl, hpos, h]
  rfl

theorem reads_moreDigits (lo hi : Nat) : Reads (moreDigits lo hi) := by
  intro nested rest acc n fuel h
  have hlen : 2 ≤ 2 * (moreDigits lo hi).text.length := by
    rw [text, List.length_append, List.length_cons]
    omega
  obtain ⟨m, rfl⟩ : ∃ m, fuel = m + 2 := ⟨fuel - 2, by omega⟩
  have hdigit (pos : Text) : Gbnf.readSequence (m + 2)
      ([ascii '[', ascii '0', ascii '-', ascii '9', ascii ']'] ++ pos) nested acc =
        Gbnf.readSequence (m + 1) (parseSpace nested pos) nested (anyDigit :: acc) :=
    readSequence_range nested 0 9 (m + 1) acc pos
  by_cases hone : lo = hi ∧ lo = 1
  · refine ⟨m + 1, by omega, ?_⟩
    rw [text, if_pos hone, expr, if_pos hone, List.append_nil, hdigit]
  refine ⟨m, by omega, ?_⟩
  have hbounds : ∃ pos, Gbnf.readBounds nested (numberText lo ++ pos) =
      some (lo, if hi ≠ lo ∧ (hi : Int) = intMax then none else some hi, parseSpace nested rest) ∧
      (moreDigits lo hi).text ++ rest =
        [ascii '[', ascii '0', ascii '-', ascii '9', ascii ']'] ++
          ascii '{' :: (numberText lo ++ pos) := by
    rw [text, if_neg hone]
    by_cases heq : hi = lo
    · subst heq
      exact ⟨ascii '}' :: rest, by simpa using readBounds_exactly hi rest, by simp⟩
    by_cases hmax : (hi : Int) = intMax
    · refine ⟨ascii ',' :: ascii '}' :: rest, ?_, by simp [heq, hmax]⟩
      simpa [heq, hmax] using readBounds_atLeast lo rest
    · refine ⟨ascii ',' :: (numberText hi ++ ascii '}' :: rest), ?_, by simp [heq, hmax]⟩
      simpa [heq, hmax] using readBounds_between lo hi rest
  obtain ⟨pos, hread, htext⟩ := hbounds
  have hpos : parseSpace nested (numberText lo ++ pos) = numberText lo ++ pos := by
    obtain ⟨d, ds, hlo⟩ := numberText_eq_cons lo
    rw [hlo, List.cons_append, parseSpace_digitText]
  have hspace (pos : Text) : parseSpace nested (ascii '{' :: pos) = ascii '{' :: pos := rfl
  rw [htext, hdigit, hspace, readSequence_braces hread hpos, expr, if_neg hone]

/-- At an end nothing more is read. -/
theorem readSequence_stop (h : AtStop rest) (fuel : Nat) (acc : List Gbnf.Expr) :
    Gbnf.readSequence (fuel + 1) rest nested acc = some (acc, rest) := by
  rcases h with (rfl | ⟨pos, rfl⟩) | ⟨pos, rfl⟩ <;> rfl

theorem readLater_end (h : AtEnd rest) (fuel : Nat) :
    Gbnf.readLater (fuel + 1) rest nested = some ([], rest) := by
  rcases h with rfl | ⟨pos, rfl⟩ <;> rfl

theorem parseSpace_end (h : AtEnd rest) : parseSpace nested rest = rest := by
  rcases h with rfl | ⟨pos, rfl⟩ <;> rfl

/-- What stands behind an alternative, without the blank in front. -/
def laterText (alternatives : BoundsAlternatives) : Text :=
  if alternatives = [] then []
  else ascii '|' :: ascii ' ' :: alternativesText alternatives

theorem alternativesText_append (nested : Bool) (items : List BoundsItem)
    (alternatives : BoundsAlternatives) (h : AtEnd rest) : ∃ pos, alternativesText (items :: alternatives) ++ rest =
      sequenceText items ++ pos ∧ parseSpace nested pos = laterText alternatives ++ rest := by
  rcases alternatives with _ | ⟨items', alternatives⟩
  · exact ⟨rest, rfl, parseSpace_end h⟩
  · refine ⟨ascii ' ' :: ascii '|' :: ascii ' ' ::
      (alternativesText (items' :: alternatives) ++ rest), ?_, ?_⟩
    · rw [alternativesText_cons items (by simp)]
      simp
    · rw [laterText, if_neg (by simp)]
      rfl

theorem atStop_laterText (alternatives : BoundsAlternatives) (h : AtEnd rest) :
    AtStop (laterText alternatives ++ rest) := by
  rw [laterText]
  split_ifs
  · exact .inl h
  · exact .inr ⟨_, rfl⟩

theorem length_laterText (items : List BoundsItem) (alternatives : BoundsAlternatives) :
    (sequenceText items).length + (laterText alternatives).length ≤
      (alternativesText (items :: alternatives)).length := by
  rcases alternatives with _ | ⟨items', alternatives⟩
  · exact Nat.le_refl _
  · rw [alternativesText_cons items (by simp), laterText, if_neg (by simp)]
    simp

mutual

theorem reads : ∀ item : BoundsItem, item.Full → Reads item
  | minus, _ => reads_minus
  | literal digits, _ => reads_literal digits
  | digitRange d e, _ => reads_digitRange d e
  | moreDigits lo hi, _ => reads_moreDigits lo hi
  | group alternatives, h => fun nested rest acc n fuel hfuel => by
    rw [text, List.length_append, List.length_cons, List.length_singleton] at hfuel
    obtain ⟨m, rfl⟩ : ∃ m, fuel = m + 1 := ⟨fuel - 1, by omega⟩
    refine ⟨m, by omega, ?_⟩
    have hread := reads_alternatives alternatives h.1 h.2 true (.inr ⟨rest, rfl⟩)
      (show 2 * (alternativesText alternatives).length + 3 ≤ m by omega)
    have hspace : parseSpace true (alternativesText alternatives ++ ascii ')' :: rest) =
        alternativesText alternatives ++ ascii ')' :: rest :=
      parseSpace_alternativesText h.1 h.2 _
    have hword : isWordChar (ascii '(') = false := rfl
    rw [text, List.cons_append, List.cons_append, List.append_assoc, List.singleton_append,
      Gbnf.readSequence, if_neg (by decide), if_neg (by decide), if_neg (by simp [hword]),
      if_pos rfl, hspace, hread]
    rfl

theorem reads_items : ∀ items : List BoundsItem, items ≠ [] → ItemsFull items →
    ∀ (nested : Bool) {rest : Text} (acc : List Gbnf.Expr) {fuel : Nat},
      AtStop (parseSpace nested rest) → 2 * (sequenceText items).length + 1 ≤ fuel →
      Gbnf.readSequence fuel (sequenceText items ++ rest) nested acc =
        some ((itemsExpr items).reverse ++ acc, parseSpace nested rest)
  | [], h, _ => absurd rfl h
  | [item], _, h => fun nested rest acc fuel hrest hfuel => by
    obtain ⟨m, hm, hread⟩ := reads item h.1 nested rest acc hfuel
    obtain ⟨m, rfl⟩ : ∃ k, m = k + 1 := ⟨m - 1, by omega⟩
    rw [sequenceText, hread, readSequence_stop hrest]
    rfl
  | item :: item' :: items, _, h => fun nested rest acc fuel hrest hfuel => by
    rw [sequenceText_cons item (by simp), List.length_append, List.length_cons] at hfuel
    obtain ⟨m, hm, hread⟩ := reads item h.1 nested
      (ascii ' ' :: (sequenceText (item' :: items) ++ rest)) acc
      (show _ + (2 * (sequenceText (item' :: items)).length + 1) ≤ fuel by omega)
    have hspace : parseSpace nested (ascii ' ' :: (sequenceText (item' :: items) ++ rest)) =
        sequenceText (item' :: items) ++ rest :=
      parseSpace_sequenceText (by simp) rest
    rw [sequenceText_cons item (by simp), List.append_assoc, List.cons_append, hread, hspace,
      reads_items (item' :: items) (by simp) h.2 nested (item.expr :: acc) hrest hm]
    simp [itemsExpr]

theorem reads_later : ∀ alternatives : BoundsAlternatives, AlternativesFull alternatives →
    ∀ (nested : Bool) {rest : Text} {fuel : Nat}, AtEnd rest →
      2 * (laterText alternatives).length + 1 ≤ fuel →
      Gbnf.readLater fuel (laterText alternatives ++ rest) nested =
        some (laterExpr alternatives, rest)
  | [], _ => fun nested rest fuel hrest hfuel => by
    obtain ⟨m, rfl⟩ : ∃ m, fuel = m + 1 := ⟨fuel - 1, by omega⟩
    exact readLater_end hrest m
  | items :: alternatives, h => fun nested rest fuel hrest hfuel => by
    have hlen := length_laterText items alternatives
    rw [laterText, if_neg (by simp), List.length_cons, List.length_cons] at hfuel
    obtain ⟨m, rfl⟩ : ∃ m, fuel = m + 1 := ⟨fuel - 1, by omega⟩
    obtain ⟨pos, htext, hpos⟩ := alternativesText_append nested items alternatives hrest
    have hspace : parseSpace true (ascii ' ' :: (sequenceText items ++ pos)) =
        sequenceText items ++ pos := parseSpace_sequenceText h.1.1 pos
    have hstop := atStop_laterText alternatives hrest
    rw [← hpos] at hstop
    rw [laterText, if_neg (by simp), List.cons_append, List.cons_append, htext, Gbnf.readLater,
      List.head?_cons, if_pos rfl, List.tail_cons, hspace,
      reads_items items h.1.1 h.1.2 nested [] hstop (by omega), hpos]
    simp only [Option.bind_eq_bind, Option.bind_some]
    rw [reads_later alternatives h.2 nested hrest (by omega)]
    simp [laterExpr]

theorem reads_alternatives : ∀ alternatives : BoundsAlternatives, alternatives ≠ [] →
    AlternativesFull alternatives → ∀ (nested : Bool) {rest : Text} {fuel : Nat}, AtEnd rest →
      2 * (alternativesText alternatives).length + 3 ≤ fuel →
      Gbnf.readAlternates fuel (alternativesText alternatives ++ rest) nested =
        some (alternativesExpr alternatives, rest)
  | [], h, _ => absurd rfl h
  | items :: alternatives, _, h => fun nested rest fuel hrest hfuel => by
    have hlen := length_laterText items alternatives
    obtain ⟨m, rfl⟩ : ∃ m, fuel = m + 1 := ⟨fuel - 1, by omega⟩
    obtain ⟨pos, htext, hpos⟩ := alternativesText_append nested items alternatives hrest
    have hstop := atStop_laterText alternatives hrest
    rw [← hpos] at hstop
    rw [htext, Gbnf.readAlternates, reads_items items h.1.1 h.1.2 nested [] hstop (by omega), hpos]
    simp only [Option.bind_eq_bind, Option.bind_some]
    rw [reads_later alternatives h.2 nested hrest (by omega)]
    simp [alternativesExpr]

end

/-- The text is read as the expression. -/
theorem readAlternates_text {alternatives : BoundsAlternatives} (hne : alternatives ≠ [])
    (h : AlternativesFull alternatives) :
    Gbnf.readAlternates (2 * (alternativesText alternatives).length + 4)
      (alternativesText alternatives) false = some (alternativesExpr alternatives, []) := by
  have hread := reads_alternatives alternatives hne h false (.inl rfl) (Nat.le_succ _)
  rwa [List.append_nil] at hread

end BoundsItem

end LamaServer

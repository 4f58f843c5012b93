import LamaServer.Lib.Backtrack
import LamaServer.Proofs.Unicode
import Mathlib.Data.List.DropRight
import Mathlib.Data.List.GetD

/-!
# The custom splitters and their regular expressions

What the loops of the custom splitters look for is what the regular expressions in their comments
match first. Behind a contraction, a code point is a letter, a number, a space or something else,
and this says which alternative matches; only spaces are given back.
-/

namespace LamaServer

open Backtrack Backtrack.Regex

/-! ## The expressions -/

/-- `c` in an expression. -/
def isCpt (c : Char) (cpt : UInt32) : Bool := cpt = c.val

/-- `(?i:c)`, over ASCII. -/
def isCptIgnoreCase (c : Char) (cpt : UInt32) : Bool := cpt = c.val ∨ cpt = c.toUpper.val

/-- `[\r\n]` -/
def isLineBreak (cpt : UInt32) : Bool := cpt = '\r'.val ∨ cpt = '\n'.val

/-- `'s|'t|'re|'ve|'m|'ll|'d`, where `is` says what a character stands for. -/
def contractions (is : Char → UInt32 → Bool) : List (Regex UInt32) :=
  [word [is '\'', is 's'], word [is '\'', is 't'], word [is '\'', is 'r', is 'e'],
    word [is '\'', is 'v', is 'e'], word [is '\'', is 'm'], word [is '\'', is 'l', is 'l'],
    word [is '\'', is 'd']]

namespace UnicodeEnv

variable (env : UnicodeEnv)

/-- `\p{L}` -/
def letter (cpt : UInt32) : Bool := (env.cptFlags cpt).isLetter

/-- `\p{N}` -/
def number (cpt : UInt32) : Bool := (env.cptFlags cpt).isNumber

/-- `\s` -/
def whitespace (cpt : UInt32) : Bool := (env.cptFlags cpt).isWhitespace

/-- `[^\s\p{L}\p{N}]` -/
def symbol (cpt : UInt32) : Bool := !(env.whitespace cpt || env.letter cpt || env.number cpt)

/-- `\s+(?!\S)|\s+` -/
def spacesExpr : List (Regex UInt32) :=
  [seq (plus (char env.whitespace)) (notAhead (char (!env.whitespace ·))),
    plus (char env.whitespace)]

/-- `'s|'t|'re|'ve|'m|'ll|'d| ?\p{L}+| ?\p{N}+| ?[^\s\p{L}\p{N}]+|\s+(?!\S)|\s+` -/
def gpt2Expr : Regex UInt32 :=
  oneOf (contractions isCpt ++
    [seq (opt (char (isCpt ' '))) (plus (char env.letter)),
      seq (opt (char (isCpt ' '))) (plus (char env.number)),
      seq (opt (char (isCpt ' '))) (plus (char env.symbol))] ++ env.spacesExpr)

/-- `(?i:'s|'t|'re|'ve|'m|'ll|'d)|[^\r\n\p{L}\p{N}]?\p{L}+|\p{N}{1,3}| ?[^\s\p{L}\p{N}]+[\r\n]*`
and `|\s*[\r\n]+|\s+(?!\S)|\s+` -/
def llama3Expr : Regex UInt32 :=
  oneOf (contractions isCptIgnoreCase ++
    [seq (opt (char fun cpt => !(isLineBreak cpt || env.letter cpt || env.number cpt)))
        (plus (char env.letter)),
      seq (char env.number) (upTo env.number 2),
      seq (opt (char (isCpt ' '))) (seq (plus (char env.symbol)) (star (char isLineBreak))),
      seq (star (char env.whitespace)) (plus (char isLineBreak))] ++ env.spacesExpr)

/-- Whitespace, letters and numbers are apart, and a code point has some flag. -/
structure DisjointFlags : Prop where
  whitespace_letter : ∀ cpt, env.whitespace cpt → ¬ env.letter cpt
  whitespace_number : ∀ cpt, env.whitespace cpt → ¬ env.number cpt
  letter_number : ∀ cpt, env.letter cpt → ¬ env.number cpt
  asUint_ne_zero : ∀ cpt, (env.cptFlags cpt).asUint ≠ 0

/-- What the tables of `unicode-data.h` say of some ASCII characters. -/
structure AsciiTables : Prop where
  -- `unicode_set_whitespace`
  whitespace : ∀ c ∈ [' ', '\r', '\n'], env.whitespace c.val
  -- `unicode_ranges_flags`
  apostrophe : ¬ env.number '\''.val
  -- `unicode_map_lowercase`
  tolower : ∀ c ∈ ['s', 't', 'r', 'e', 'v', 'm', 'l', 'd'], ∀ cpt,
    env.tolower cpt = c.val ↔ isCptIgnoreCase c cpt

end UnicodeEnv

/-! ## Contractions -/

section Contraction

variable {rest : List UInt32}

/-- The contractions of a splitter are those of an expression. -/
theorem contraction_eq (env : UnicodeEnv) (is : Char → UInt32 → Bool) (f : UInt32 → UInt32)
    (hquote : ∀ cpt, is '\'' cpt = decide (cpt = '\''.val))
    (his : ∀ c ∈ ['s', 't', 'r', 'e', 'v', 'm', 'l', 'd'], ∀ cpt,
      is c cpt = decide (f cpt = c.val)) :
    (contractions is).findSome? (·.first rest) = Segment.contraction ⟨env, rest⟩ f := by
  have hword : ∀ c ∈ ['s', 't', 'r', 'e', 'v', 'm', 'l', 'd'], is c = fun cpt =>
      decide (f cpt = c.val) := fun c hc => funext (his c hc)
  simp only [List.forall_mem_cons] at hword
  obtain ⟨hs, ht, hr, he, hv, hm, hl, hd, -⟩ := hword
  rw [contractions, funext hquote, hs, ht, hr, he, hv, hm, hl, hd]
  simp only [List.findSome?_cons, List.findSome?_nil, first_word_cons, first_word_nil]
  rcases rest with _ | ⟨a, _ | ⟨b, rest⟩⟩
  · rfl
  · simp [Segment.contraction]
  · by_cases ha : a = 39
    · simp only [ha, Segment.contraction, Segment.getCpt, List.getD_cons_zero,
        List.getD_cons_succ]
      -- of the letters at most one is at hand
      by_cases htwo : f b = 115 ∨ f b = 116 ∨ f b = 109 ∨ f b = 100
      · rcases htwo with h | h | h | h <;> simp [h]
      · obtain ⟨hs, ht, hm, hd⟩ := by simpa only [not_or] using htwo
        rcases rest with _ | ⟨c, rest⟩
        · simp [hs, ht, hm, hd]
        · rw [List.getD_cons_zero]
          by_cases hthree : f b = 114 ∧ f c = 101 ∨ f b = 118 ∧ f c = 101 ∨ f b = 108 ∧ f c = 108
          · rcases hthree with ⟨hx, hy⟩ | ⟨hx, hy⟩ | ⟨hx, hy⟩ <;> simp [hx, hy]
          · obtain ⟨hr, hv, hl⟩ := by simpa only [not_or] using hthree
            simp [hs, ht, hm, hd, ← ite_and, hr, hv, hl]
    · simp [Segment.contraction, Segment.getCpt, ha]

end Contraction

/-! ## The other alternatives -/

namespace Segment

section Alternatives

variable {env : UnicodeEnv} {rest : List UInt32} {p : UInt32 → Bool} {r : Regex UInt32} {k : Nat}

/-- The flags at a position say whether there is a code point of the class. -/
theorem getFlags_eq {p : CptFlags → Bool} (hp : p {} = false) :
    p (getFlags ⟨env, rest⟩ k) = (rest.drop k).head?.any fun cpt => p (env.cptFlags cpt) := by
  rw [getFlags, List.head?_drop]
  cases rest[k]? with
  | none => exact hp
  | some cpt => rfl

theorem isLetter_getFlags :
    (getFlags ⟨env, rest⟩ k).isLetter = (rest.drop k).head?.any env.letter :=
  getFlags_eq rfl

theorem isNumber_getFlags :
    (getFlags ⟨env, rest⟩ k).isNumber = (rest.drop k).head?.any env.number :=
  getFlags_eq rfl

theorem isWhitespace_getFlags :
    (getFlags ⟨env, rest⟩ k).isWhitespace = (rest.drop k).head?.any env.whitespace :=
  getFlags_eq rfl

theorem isOther_eq (h : env.DisjointFlags) :
    (fun cpt => (env.cptFlags cpt).isOther) = env.symbol := by
  funext cpt
  simp only [CptFlags.isOther, h.asUint_ne_zero cpt, ne_eq, not_false_eq_true, decide_true,
    Bool.and_true]
  rfl

theorem isOther_getFlags (h : env.DisjointFlags) :
    (getFlags ⟨env, rest⟩ k).isOther = (rest.drop k).head?.any env.symbol := by
  rw [← isOther_eq h]
  exact getFlags_eq rfl

/-- A space that may come first. -/
theorem first_opt_space (env : UnicodeEnv) (hr : rest.head? = some ' '.val → r.first rest = none) :
    (seq (opt (char (isCpt ' '))) r).first rest =
      (r.first (rest.drop (space ⟨env, rest⟩))).map (space ⟨env, rest⟩ + ·) := by
  rw [first_opt_seq, first_seq_char]
  rcases rest with _ | ⟨c, rest⟩
  · simp [space, getCpt, outOfRange]
  · by_cases hc : c = ' '.val
    · have hspace : space ⟨env, c :: rest⟩ = 1 := if_pos hc
      rw [hspace, hr (congrArg some hc), if_pos (by simp [isCpt, hc])]
      simp
    · have hspace : space ⟨env, c :: rest⟩ = 0 := if_neg hc
      rw [hspace, if_neg (by simpa [isCpt] using hc)]
      simp

/-- The class of a character has no space in it, so that it is not given back. -/
theorem first_opt_space_plus (env : UnicodeEnv) (hp : ¬ p ' '.val) :
    (seq (opt (char (isCpt ' '))) (plus (char p))).first rest =
      if (rest.drop (space ⟨env, rest⟩)).head?.any p then
        some (space ⟨env, rest⟩ + run p (rest.drop (space ⟨env, rest⟩))) else none := by
  rw [first_opt_space env, first_plus_char]
  · simp only [run_pos]
    split_ifs <;> rfl
  · intro hhead
    rw [first_plus_char, if_neg]
    rw [run_pos, hhead]
    exact hp

/-- What is left when neither letters, numbers nor symbols match: spaces. -/
theorem first_spacesExpr (hout : outOfRange ∉ rest) (h : rest.head?.any env.whitespace) :
    env.spacesExpr.findSome? (·.first rest) = some (spaces ⟨env, rest⟩) := by
  have hpos := run_pos.2 h
  have hle : run env.whitespace rest ≤ rest.length := run_le
  have hget : getCpt ⟨env, rest⟩ (run env.whitespace rest) ≠ outOfRange ↔
      run env.whitespace rest < rest.length := by
    rw [getCpt]
    rcases Nat.lt_or_ge (run env.whitespace rest) rest.length with hlt | hge
    · rw [List.getD_eq_getElem _ _ hlt]
      exact iff_of_true (fun heq => hout (heq ▸ List.getElem_mem hlt)) hlt
    · rw [List.getD_eq_default _ _ hge]
      exact iff_of_false (fun hne => hne rfl) (Nat.not_lt.2 hge)
  have hcount : countFlags ⟨env, rest⟩ (·.isWhitespace) 0 = run env.whitespace rest := rfl
  rw [UnicodeEnv.spacesExpr, List.findSome?_cons, List.findSome?_singleton, first_plus_notAhead,
    first_plus_char, spaces]
  simp only [hcount, hget, gt_iff_lt, if_pos hpos]
  by_cases hlast : 1 < run env.whitespace rest ∧ run env.whitespace rest < rest.length
  · rw [if_pos hlast, if_pos hlast]
  · rw [if_neg hlast, if_neg hlast]
    split_ifs <;> rfl

/-- A code point that is no letter, number or symbol is a space. -/
theorem whitespace_of_none (hne : rest ≠ []) (hl : ¬ rest.head?.any env.letter)
    (hn : ¬ rest.head?.any env.number) (hs : ¬ rest.head?.any env.symbol) :
    rest.head?.any env.whitespace := by
  obtain ⟨c, rest, rfl⟩ := List.exists_cons_of_ne_nil hne
  by_contra hw
  simp only [List.head?_cons, Option.any_some, Bool.not_eq_true] at hl hn hs hw
  rw [UnicodeEnv.symbol, hw, hl, hn] at hs
  cases hs

theorem space_spec (hspace : env.whitespace ' '.val) (hw : ¬ rest.head?.any env.whitespace) :
    space ⟨env, rest⟩ = 0 := by
  rcases rest with _ | ⟨c, rest⟩
  · rfl
  · refine if_neg fun hc => hw ?_
    have hc : c = ' '.val := hc
    rw [hc]
    exact hspace

/-- The word of the GPT-2 splitter is the first match of its expression. -/
theorem first_gpt2Expr (hflags : env.DisjointFlags) (htables : env.AsciiTables) (hne : rest ≠ [])
    (hout : outOfRange ∉ rest) :
    env.gpt2Expr.first rest = some (gpt2Word ⟨env, rest⟩) := by
  have hspace : env.whitespace ' '.val := htables.whitespace _ (by simp)
  have hsymbol : ¬ env.symbol ' '.val := by
    rw [UnicodeEnv.symbol, hspace]
    exact Bool.false_ne_true
  rw [UnicodeEnv.gpt2Expr, first_oneOf, List.findSome?_append, List.findSome?_append,
    contraction_eq env isCpt id (fun _ => rfl) fun _ _ _ => rfl, gpt2Word]
  rcases contraction ⟨env, rest⟩ id with _ | n
  · simp only [List.findSome?_cons, List.findSome?_nil,
      first_opt_space_plus env (hflags.whitespace_letter _ hspace),
      first_opt_space_plus env (hflags.whitespace_number _ hspace),
      first_opt_space_plus env hsymbol, isLetter_getFlags, isNumber_getFlags,
      isOther_getFlags hflags]
    by_cases hl : (rest.drop (space ⟨env, rest⟩)).head?.any env.letter
    · rw [if_pos hl, if_pos hl]
      rfl
    rw [if_neg hl, if_neg hl]
    by_cases hn : (rest.drop (space ⟨env, rest⟩)).head?.any env.number
    · rw [if_pos hn, if_pos hn]
      rfl
    rw [if_neg hn, if_neg hn]
    by_cases hs : (rest.drop (space ⟨env, rest⟩)).head?.any env.symbol
    · rw [if_pos hs, if_pos hs, countFlags, isOther_eq hflags]
      rfl
    rw [if_neg hs, if_neg hs]
    refine first_spacesExpr hout ?_
    by_contra hw
    rw [space_spec hspace hw] at hl hn hs
    exact hw (whitespace_of_none hne hl hn hs)
  · rfl

theorem whitespace_of_isLineBreak (htables : env.AsciiTables) {cpt : UInt32}
    (h : isLineBreak cpt) : env.whitespace cpt := by
  rcases of_decide_eq_true h with rfl | rfl
  · exact htables.whitespace _ (by simp)
  · exact htables.whitespace _ (by simp)

theorem whitespace_of_getCpt (htables : env.AsciiTables) (hne : rest ≠ [])
    (h : isLineBreak (getCpt ⟨env, rest⟩ 0)) : rest.head?.any env.whitespace := by
  obtain ⟨c, rest, rfl⟩ := List.exists_cons_of_ne_nil hne
  exact whitespace_of_isLineBreak htables h

/-- Letters, behind a code point that is no letter, number or line break, if there is one. -/
theorem first_letters (hflags : env.DisjointFlags) (htables : env.AsciiTables) (hne : rest ≠ []) :
    (seq (opt (char fun cpt => !(isLineBreak cpt || env.letter cpt || env.number cpt)))
        (plus (char env.letter))).first rest =
      if ¬ (getCpt ⟨env, rest⟩ 0 = 13 ∨ getCpt ⟨env, rest⟩ 0 = 10 ∨
          (getFlags ⟨env, rest⟩ 0).isNumber) ∧
        ((getFlags ⟨env, rest⟩ 0).isLetter ∨ (getFlags ⟨env, rest⟩ 1).isLetter) then
        some (1 + countFlags ⟨env, rest⟩ (·.isLetter) 1) else none := by
  obtain ⟨c, rest, rfl⟩ := List.exists_cons_of_ne_nil hne
  have hcount : countFlags ⟨env, c :: rest⟩ (·.isLetter) 1 = run env.letter rest := rfl
  have hnumber : (getFlags ⟨env, c :: rest⟩ 0).isNumber = env.number c := rfl
  have hletter : (getFlags ⟨env, c :: rest⟩ 0).isLetter = env.letter c := rfl
  have hnext : (getFlags ⟨env, c :: rest⟩ 1).isLetter ↔ 0 < run env.letter rest := by
    rw [isLetter_getFlags, run_pos]
    rfl
  have hcpt : getCpt ⟨env, c :: rest⟩ 0 = c := rfl
  rw [hcount, hnumber, hletter, hcpt, first_opt_seq, first_seq_char]
  simp only [hnext, first_plus_char, List.head?_cons, Option.any_some, List.tail_cons, run_cons]
  by_cases hl : env.letter c
  · have hbreak : ¬ isLineBreak c := fun h =>
      hflags.whitespace_letter c (whitespace_of_isLineBreak htables h) hl
    have hcond : ¬ (c = 13 ∨ c = 10 ∨ env.number c) := fun h => by
      rcases h with h | h | h
      · exact hbreak (decide_eq_true (.inl h))
      · exact hbreak (decide_eq_true (.inr h))
      · exact hflags.letter_number c hl h
    rw [hl, Bool.or_true, Bool.true_or, Bool.not_true, if_neg Bool.false_ne_true, if_pos rfl,
      if_pos (Nat.succ_pos _), if_pos ⟨hcond, .inl rfl⟩, Nat.add_comm]
    rfl
  · have hcond : (!(isLineBreak c || env.letter c || env.number c)) = true ↔
        ¬ (c = 13 ∨ c = 10 ∨ env.number c) := by
      simp only [isLineBreak, hl, Bool.or_false, Bool.not_eq_true', Bool.or_eq_false_iff]
      simp [and_assoc]
    rw [if_neg hl, if_neg (Nat.lt_irrefl 0), Option.or_none]
    simp only [hcond]
    simp only [hl, false_or, Bool.false_eq_true, ite_and]
    split_ifs <;> rfl

/-- Symbols behind a space, and line breaks. -/
theorem first_symbols (hflags : env.DisjointFlags) (hspace : env.whitespace ' '.val) :
    (seq (opt (char (isCpt ' '))) (seq (plus (char env.symbol)) (star (char isLineBreak)))).first
        rest =
      let n := space ⟨env, rest⟩ + countFlags ⟨env, rest⟩ (·.isOther) (space ⟨env, rest⟩)
      if (rest.drop (space ⟨env, rest⟩)).head?.any env.symbol then
        some (n + countNewlines ⟨env, rest⟩ n) else none := by
  have hsymbols : ∀ t : List UInt32,
      (seq (plus (char env.symbol)) (star (char isLineBreak))).first t =
        if 0 < run env.symbol t then
          some (run env.symbol t + run isLineBreak (t.drop (run env.symbol t)))
        else none := fun t => by
    rw [first_plus_seq_of_some (by rw [first_star_char]; rfl), first_star_char]
    rfl
  have hcount : countFlags ⟨env, rest⟩ (·.isOther) (space ⟨env, rest⟩) =
      run env.symbol (rest.drop (space ⟨env, rest⟩)) := by
    rw [countFlags, isOther_eq hflags]
    rfl
  have hnewlines : ∀ n, countNewlines ⟨env, rest⟩ n = run isLineBreak (rest.drop n) := fun _ => rfl
  rw [first_opt_space env, hsymbols, hcount]
  · simp only [hnewlines, run_pos, List.drop_drop]
    split_ifs
    · rw [Option.map_some, Nat.add_assoc]
    · rfl
  · intro hhead
    rw [hsymbols, if_neg]
    rw [run_pos, hhead, Option.any_some, UnicodeEnv.symbol, hspace]
    exact Bool.false_ne_true

/-- `lastEndRN` is behind the last line break of the spaces. -/
theorem lastEndRN_spec (env : UnicodeEnv) (rest : List UInt32) : ∃ before after,
    rest.takeWhile env.whitespace = before ++ after ∧
    before.length = lastEndRN ⟨env, rest⟩ ∧ (∀ c ∈ after, ¬ isLineBreak c) ∧
    ∀ c ∈ before.getLast?, isLineBreak c := by
  let spaces := rest.takeWhile env.whitespace
  refine ⟨spaces.rdropWhile (!isLineBreak ·), spaces.rtakeWhile (!isLineBreak ·),
    List.rdropWhile_append_rtakeWhile.symm, ?_, fun c hc => ?_, fun c hc => ?_⟩
  · rw [List.rdropWhile, List.length_reverse, lastEndRN]
    congr 2
    funext c
    simp [isLineBreak]
  · simpa using List.mem_rtakeWhile_imp hc
  · obtain ⟨hne, rfl⟩ := List.mem_getLast?_eq_getLast hc
    simpa using List.rdropWhile_last_not _ _ hne

/-- Whitespace up to its last line break. -/
theorem first_breaks (htables : env.AsciiTables) :
    (seq (star (char env.whitespace)) (plus (char isLineBreak))).first rest =
      if lastEndRN ⟨env, rest⟩ > 0 then some (lastEndRN ⟨env, rest⟩) else none := by
  have hrun : ∀ c, isLineBreak c → env.whitespace c := fun _ => whitespace_of_isLineBreak htables
  obtain ⟨before, after, hspaces, hlen, hafter, hbefore⟩ := lastEndRN_spec env rest
  have hsize : run env.whitespace rest = before.length + after.length := by
    rw [run, hspaces, List.length_append]
  have hrest : rest = before ++ (after ++ rest.dropWhile env.whitespace) := by
    rw [← List.append_assoc, ← hspaces, List.takeWhile_append_dropWhile]
  have hnone : ∀ j, before.length ≤ j → j < run env.whitespace rest →
      ¬ (rest.drop j).head?.any isLineBreak := fun j hj hlt => by
    have hget : (rest.drop j).head? = after[j - before.length]? := by
      rw [hrest, List.head?_drop, List.getElem?_append_right hj,
        List.getElem?_append_left (by omega)]
    rw [hget, List.getElem?_eq_getElem (by omega)]
    exact hafter _ (List.getElem_mem _)
  rw [← hlen]
  rcases List.eq_nil_or_concat' before with rfl | ⟨init, c, rfl⟩
  · rw [List.length_nil, if_neg (Nat.lt_irrefl 0)]
    exact first_star_plus_of_none hrun fun j => hnone j (Nat.zero_le j)
  · rw [List.length_append, List.length_singleton] at hsize hnone ⊢
    rw [if_pos (Nat.succ_pos _)]
    refine first_star_plus_of_last hrun (by omega) ?_ hnone
    rw [hrest, List.append_assoc, List.drop_left]
    exact hbefore c (by simp)

end Alternatives

/-! ## The LLaMA 3 splitter -/

section Llama3

variable {env : UnicodeEnv} {rest : List UInt32} {n : Nat}

/-- The contractions of the expression, over ASCII, are those of the splitter. -/
theorem llama3_contraction (htables : env.AsciiTables) :
    (contractions isCptIgnoreCase).findSome? (·.first rest) =
      contraction ⟨env, rest⟩ env.tolower := by
  refine contraction_eq env _ _ (fun cpt => ?_) fun c hc cpt => ?_
  · simp [isCptIgnoreCase]
  · rw [Bool.eq_iff_iff, decide_eq_true_iff]
    exact (htables.tolower c hc cpt).symm

theorem contraction_of_number (htables : env.AsciiTables) (hnum : rest.head?.any env.number) :
    contraction ⟨env, rest⟩ env.tolower = none := by
  obtain ⟨c, rest, rfl⟩ := List.exists_cons_of_ne_nil (show rest ≠ [] by rintro rfl; cases hnum)
  refine if_neg fun h => htables.apostrophe ?_
  have hc : c = '\''.val := h.1
  exact hc ▸ hnum

/-- Of a number, up to three digits are matched. -/
theorem first_number (hflags : env.DisjointFlags) (htables : env.AsciiTables)
    (hnum : rest.head?.any env.number) :
    env.llama3Expr.first rest = some (min 3 (run env.number rest)) := by
  obtain ⟨c, rest, rfl⟩ := List.exists_cons_of_ne_nil (show rest ≠ [] by rintro rfl; cases hnum)
  have hnumber : (getFlags ⟨env, c :: rest⟩ 0).isNumber := hnum
  rw [UnicodeEnv.llama3Expr, first_oneOf, List.findSome?_append, List.findSome?_append,
    llama3_contraction htables, contraction_of_number htables hnum, List.findSome?_cons,
    List.findSome?_cons,
    first_letters hflags htables (List.cons_ne_nil c rest),
    if_neg fun h => h.1 (.inr (.inr hnumber)), first_seq_upTo 2 (first_upTo 2 _),
    if_pos (run_pos.2 hnum)]
  rfl

/-- When the splitter looks for symbols: also at a space that is the last code point. -/
theorem symbol_iff (hflags : env.DisjointFlags) (hne : rest ≠ []) :
    (¬ ((getFlags ⟨env, rest⟩ (space ⟨env, rest⟩)).isWhitespace ∨
        (getFlags ⟨env, rest⟩ (space ⟨env, rest⟩)).isLetter ∨
        (getFlags ⟨env, rest⟩ (space ⟨env, rest⟩)).isNumber) ∧
      (getFlags ⟨env, rest⟩ 0).asUint ≠ 0) ↔
    (rest.drop (space ⟨env, rest⟩)).head?.any env.symbol ∨ rest = [' '.val] := by
  obtain ⟨c, rest, rfl⟩ := List.exists_cons_of_ne_nil hne
  have hflag : (getFlags ⟨env, c :: rest⟩ 0).asUint ≠ 0 := hflags.asUint_ne_zero c
  rw [isWhitespace_getFlags, isLetter_getFlags, isNumber_getFlags, and_iff_left hflag]
  rcases hdrop : (c :: rest).drop (space ⟨env, c :: rest⟩) with _ | ⟨d, tail⟩
  · have hlen := List.drop_eq_nil_iff.1 hdrop
    rw [List.length_cons, space] at hlen
    split_ifs at hlen with hc
    · have hc : c = ' '.val := hc
      rw [hc, List.eq_nil_of_length_eq_zero (show rest.length = 0 by omega)]
      simp
    · omega
  · have halone : c :: rest ≠ [' '.val] := fun h => by
      rw [h] at hdrop
      cases hdrop
    rw [or_iff_left halone]
    simp [UnicodeEnv.symbol, and_assoc]

/-- Anything else is one word. -/
theorem first_llama3Expr (hflags : env.DisjointFlags) (htables : env.AsciiTables)
    (hne : rest ≠ []) (hout : outOfRange ∉ rest) (hnum : ¬ rest.head?.any env.number) :
    ∃ n, env.llama3Expr.first rest = some n ∧ llama3Words ⟨env, rest⟩ = [n] := by
  have hspace : env.whitespace ' '.val := htables.whitespace _ (by simp)
  have hnumber : ¬ (getFlags ⟨env, rest⟩ 0).isNumber := by
    rw [isNumber_getFlags]
    exact hnum
  rw [UnicodeEnv.llama3Expr, first_oneOf, List.findSome?_append, List.findSome?_append,
    llama3_contraction htables, llama3Words]
  rcases contraction ⟨env, rest⟩ env.tolower with _ | n
  · simp only [List.findSome?_cons, List.findSome?_nil, first_letters hflags htables hne,
      first_seq_upTo 2 (first_upTo 2 _), first_symbols hflags hspace, first_breaks htables,
      if_neg hnumber, run_pos, if_neg hnum]
    by_cases hl : ¬ (getCpt ⟨env, rest⟩ 0 = 13 ∨ getCpt ⟨env, rest⟩ 0 = 10 ∨
          (getFlags ⟨env, rest⟩ 0).isNumber) ∧
        ((getFlags ⟨env, rest⟩ 0).isLetter ∨ (getFlags ⟨env, rest⟩ 1).isLetter)
    · rw [if_pos hl, if_pos hl]
      exact ⟨_, rfl, rfl⟩
    rw [if_neg hl, if_neg hl]
    by_cases hs : (rest.drop (space ⟨env, rest⟩)).head?.any env.symbol
    · rw [if_pos hs, if_pos ((symbol_iff hflags hne).2 (.inl hs))]
      exact ⟨_, rfl, rfl⟩
    rw [if_neg hs]
    by_cases halone : rest = [' '.val]
    · rw [if_pos ((symbol_iff hflags hne).2 (.inr halone)), halone]
      have hlast : lastEndRN ⟨env, [' '.val]⟩ = 0 := by
        simp [lastEndRN, show (env.cptFlags 32).isWhitespace from hspace]
      have hword : spaces ⟨env, [' '.val]⟩ = 1 := by
        simp [spaces, countFlags, show (env.cptFlags 32).isWhitespace from hspace]
      rw [hlast, if_neg (Nat.lt_irrefl 0), first_spacesExpr (halone ▸ hout) (by exact hspace),
        hword]
      exact ⟨1, rfl, rfl⟩
    rw [if_neg fun h => ((symbol_iff hflags hne).1 h).elim hs halone]
    by_cases hb : lastEndRN ⟨env, rest⟩ > 0
    · rw [if_pos hb, if_pos hb]
      exact ⟨_, rfl, rfl⟩
    rw [if_neg hb, if_neg hb]
    refine ⟨_, first_spacesExpr hout ?_, rfl⟩
    by_contra hw
    rw [space_spec hspace hw] at hs
    refine hw (whitespace_of_none hne (fun hletter => hl ⟨fun h => ?_, .inl ?_⟩) hnum hs)
    · rcases h with h | h | h
      · exact hw (whitespace_of_getCpt htables hne (decide_eq_true (.inl h)))
      · exact hw (whitespace_of_getCpt htables hne (decide_eq_true (.inr h)))
      · exact hnumber h
    · rw [isLetter_getFlags]
      exact hletter
  · exact ⟨n, rfl, rfl⟩

theorem threes_add (n : Nat) : threes (n + 3) = 3 :: threes n := by
  rw [threes, threes, Nat.add_div_right n (by decide), Nat.add_mod_right]
  rfl

theorem threes_of_lt (hpos : 0 < n) (hlt : n < 3) : threes n = [n] := by
  rw [threes, Nat.div_eq_of_lt hlt, Nat.mod_eq_of_lt hlt, if_pos hpos]
  rfl

/-- A number is matched three digits at a time. -/
theorem split_number (hflags : env.DisjointFlags) (htables : env.AsciiTables)
    (hn : run env.number rest = n) :
    env.llama3Expr.split rest = threes n ++ env.llama3Expr.split (rest.drop n) := by
  induction n using Nat.strong_induction_on generalizing rest with
  | _ n ih =>
    rcases Nat.eq_zero_or_pos n with rfl | hpos
    · rfl
    have hfirst := first_number hflags htables (run_pos.1 (hn ▸ hpos))
    rw [split_of_first hfirst (by omega), hn]
    rcases Nat.lt_or_ge n 3 with hlt | hge
    · rw [threes_of_lt hpos hlt, Nat.min_eq_right (Nat.le_of_lt hlt)]
      rfl
    · obtain ⟨m, rfl⟩ := Nat.exists_eq_add_of_le' hge
      have hdrop : run env.number (rest.drop 3) = m := by
        rw [run_drop (hn ▸ hge), hn, Nat.add_sub_cancel]
      rw [Nat.min_eq_left hge, threes_add, ih m (by omega) hdrop, List.drop_drop, Nat.add_comm 3 m]
      rfl

/-- The words of the LLaMA 3 splitter are what its expression matches next. -/
theorem split_llama3Words (hflags : env.DisjointFlags) (htables : env.AsciiTables)
    (hne : rest ≠ []) (hout : outOfRange ∉ rest) :
    env.llama3Expr.split rest = llama3Words ⟨env, rest⟩ ++
      env.llama3Expr.split (rest.drop (llama3Words ⟨env, rest⟩).sum) := by
  by_cases hnum : rest.head?.any env.number
  · have hnumber : (getFlags ⟨env, rest⟩ 0).isNumber := isNumber_getFlags.trans hnum
    have hwords : llama3Words ⟨env, rest⟩ = threes (run env.number rest) := by
      rw [llama3Words, contraction_of_number htables hnum]
      dsimp only
      rw [if_neg fun h => h.1 (.inr (.inr hnumber)), if_pos hnumber]
      rfl
    rw [hwords, sum_threes]
    exact split_number hflags htables rfl
  · obtain ⟨n, hfirst, hwords⟩ := first_llama3Expr hflags htables hne hout hnum
    have hpos := (llama3Words_bounds (show (⟨env, rest⟩ : Segment).rest ≠ [] from hne)).1
    rw [hwords, List.sum_singleton] at hpos ⊢
    exact split_of_first hfirst hpos

end Llama3

end Segment

/-! ## The splitters -/

section Custom

variable {env : UnicodeEnv} {text : Text} {offsets : List Nat}

theorem decodes_lt : ∀ {bytes : Text} {n : Nat}, Decodes bytes n → n < 2 ^ 21
  | [_], _, h => by
    simp only [Decodes] at h
    omega
  | [_, _], _, h => by
    simp only [Decodes] at h
    omega
  | [_, _, _], _, h => by
    simp only [Decodes] at h
    omega
  | [_, _, _, _], _, h => by
    simp only [Decodes] at h
    omega

/-- No code point of a text is what stands for the end. -/
theorem outOfRange_notMem (text : Text) : Segment.outOfRange ∉ unicodeCptsFromUtf8 text := by
  rw [← map_snd_decodedPieces, List.mem_map]
  rintro ⟨piece, hpiece, heq⟩
  have hlt := decodes_lt (decodes_of_mem_decodedPieces piece hpiece)
  rw [heq] at hlt
  exact absurd hlt (by decide)

theorem outOfRange_notMem_segment (h : offsets.sum = (unicodeCptsFromUtf8 text).length) :
    ∀ seg ∈ offsets.splitLengths (unicodeCptsFromUtf8 text), Segment.outOfRange ∉ seg :=
  fun _ hseg hmem => outOfRange_notMem text (Segments.mem_of_mem_splitLengths h hseg hmem)

/-- The scanner of a custom splitter, against an expression. -/
theorem customBy_eq_split {words : Segment → List Nat}
    {hwords : ∀ seg : Segment, seg.rest ≠ [] → 0 < (words seg).sum} {r : Regex UInt32}
    (hsplit : ∀ rest, rest ≠ [] → Segment.outOfRange ∉ rest →
      r.split rest = words ⟨env, rest⟩ ++ r.split (rest.drop (words ⟨env, rest⟩).sum))
    (h : offsets.sum = (unicodeCptsFromUtf8 text).length) :
    unicodeRegexSplitCustomBy env words hwords text offsets =
      Segments.refine r.split offsets (unicodeCptsFromUtf8 text) := by
  rw [unicodeRegexSplitCustomBy, Segments.refine, Segments.refine]
  refine List.flatMap_congr fun seg hseg => ?_
  exact scan_eq_split (fun l k hl hmem => hl (List.mem_of_mem_drop hmem)) hsplit seg
    (outOfRange_notMem_segment h seg hseg)

/-- The custom splitters split as the regular expressions in their comments, and the lengths of the
segments add up to that of the text. -/
theorem unicodeRegexSplitCustom_eq_split (env : UnicodeEnv) (hflags : env.DisjointFlags)
    (htables : env.AsciiTables) (text : Text) (offsets : List Nat)
    (h : offsets.sum = (unicodeCptsFromUtf8 text).length) :
    (unicodeRegexSplitCustomGpt2 env text offsets =
        Segments.refine env.gpt2Expr.split offsets (unicodeCptsFromUtf8 text) ∧
      (unicodeRegexSplitCustomGpt2 env text offsets).sum = (unicodeCptsFromUtf8 text).length) ∧
    unicodeRegexSplitCustomLlama3 env text offsets =
        Segments.refine env.llama3Expr.split offsets (unicodeCptsFromUtf8 text) ∧
      (unicodeRegexSplitCustomLlama3 env text offsets).sum = (unicodeCptsFromUtf8 text).length := by
  refine ⟨⟨customBy_eq_split (fun rest hne hout => ?_) h, sum_customBy (fun seg hseg => ?_) h⟩,
    customBy_eq_split (fun rest hne hout => Segment.split_llama3Words hflags htables hne hout) h,
    sum_customBy (fun seg hseg => (Segment.llama3Words_bounds hseg).2) h⟩
  · have hpos := (Segment.gpt2Word_bounds (show (⟨env, rest⟩ : Segment).rest ≠ [] from hne)).1
    rw [List.sum_singleton]
    exact split_of_first (Segment.first_gpt2Expr hflags htables hne hout) hpos
  · rw [List.sum_singleton]
    exact (Segment.gpt2Word_bounds hseg).2

/-- The tables for ASCII. -/
def asciiEnv : UnicodeEnv where
  cptFlags cpt :=
    if cpt = 32 ∨ cpt = 13 ∨ cpt = 10 then ⟨0x0108⟩
    else if 48 ≤ cpt ∧ cpt ≤ 57 then ⟨0x0002⟩
    else if 65 ≤ cpt ∧ cpt ≤ 90 ∨ 97 ≤ cpt ∧ cpt ≤ 122 then ⟨0x0004⟩
    else ⟨0x0020⟩
  tolower cpt := if 65 ≤ cpt ∧ cpt ≤ 90 then cpt + 32 else cpt
  regex := idleEngine UInt8
  wregex := idleEngine UInt32

theorem asciiEnv_disjointFlags : asciiEnv.DisjointFlags where
  whitespace_letter cpt := by
    simp only [UnicodeEnv.whitespace, UnicodeEnv.letter, asciiEnv]
    split_ifs <;> decide
  whitespace_number cpt := by
    simp only [UnicodeEnv.whitespace, UnicodeEnv.number, asciiEnv]
    split_ifs <;> decide
  letter_number cpt := by
    simp only [UnicodeEnv.letter, UnicodeEnv.number, asciiEnv]
    split_ifs <;> decide
  asUint_ne_zero cpt := by
    simp only [asciiEnv]
    split_ifs <;> decide

theorem asciiEnv_asciiTables : asciiEnv.AsciiTables where
  whitespace := by
    simp only [List.forall_mem_cons, List.not_mem_nil, false_imp_iff, implies_true]
    decide
  apostrophe := by decide
  tolower c hc cpt := by
    have hlower : 97 ≤ c.val.toNat ∧ c.val.toNat ≤ 122 ∧
        c.toUpper.val.toNat + 32 = c.val.toNat := by
      revert c
      simp only [List.forall_mem_cons, List.not_mem_nil, false_imp_iff, implies_true]
      decide
    simp only [isCptIgnoreCase, asciiEnv, decide_eq_true_iff, ← UInt32.toNat_inj,
      UInt32.le_iff_toNat_le, UInt32.reduceToNat]
    split_ifs with h
    · simp only [UInt32.toNat_add, UInt32.reduceToNat]
      omega
    · omega

/-- `It's` -/
theorem unicodeRegexSplitCustom_eq_split_its :
    (unicodeRegexSplitCustomGpt2 asciiEnv [73, 116, 39, 115] [4] =
        Segments.refine asciiEnv.gpt2Expr.split [4] (unicodeCptsFromUtf8 [73, 116, 39, 115]) ∧
      (unicodeRegexSplitCustomGpt2 asciiEnv [73, 116, 39, 115] [4]).sum =
        (unicodeCptsFromUtf8 [73, 116, 39, 115]).length) ∧
    unicodeRegexSplitCustomLlama3 asciiEnv [73, 116, 39, 115] [4] =
        Segments.refine asciiEnv.llama3Expr.split [4] (unicodeCptsFromUtf8 [73, 116, 39, 115]) ∧
      (unicodeRegexSplitCustomLlama3 asciiEnv [73, 116, 39, 115] [4]).sum =
        (unicodeCptsFromUtf8 [73, 116, 39, 115]).length :=
  unicodeRegexSplitCustom_eq_split asciiEnv asciiEnv_disjointFlags asciiEnv_asciiTables
    [73, 116, 39, 115] [4] (by decide +kernel)

end Custom

end LamaServer

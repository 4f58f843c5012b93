import LamaServer.GrammarParser
import LamaServer.Lib.Segments
import LamaServer.Lib.Utf8

/-!
# Unicode and pre-tokenization

A text is decoded, split by the regular expressions of the vocabulary on lengths in code points,
and each word is encoded again, byte by byte: every byte becomes a character that can be printed.
The tables of `unicode-data.h` and the regular expression engine are parameters.
-/

namespace LamaServer

/-- What `unicode.cpp` throws. -/
inductive UnicodeError where
  | invalidCodepoint
  | notSupported
  | failedToProcessRegex
  /-- The `std::range_error` of `std::wstring_convert`. -/
  | rangeError
  deriving DecidableEq, Repr

/-! ## UTF-8 -/

def unicodeLenUtf8 (src : UInt8) : Nat :=
  [1, 1, 1, 1, 1, 1, 1, 1, 1, 1, 1, 1, 2, 2, 3, 4].getD (src >>> 4).toNat 0

/-- A byte of a character: what says which byte it is, and bits of the code point. -/
def utf8Byte (mark bits : UInt32) : UInt8 := (mark ||| bits).toUInt8

/-- `unicode_cpt_to_utf8`. -/
def unicodeCptToUtf8 (cpt : UInt32) : Except UnicodeError Text :=
  if cpt ≤ 0x7f then .ok [cpt.toUInt8]
  else if cpt ≤ 0x7ff then
    .ok [utf8Byte 0xc0 ((cpt >>> 6) &&& 0x1f), utf8Byte 0x80 (cpt &&& 0x3f)]
  else if cpt ≤ 0xffff then
    .ok [utf8Byte 0xe0 ((cpt >>> 12) &&& 0x0f), utf8Byte 0x80 ((cpt >>> 6) &&& 0x3f),
      utf8Byte 0x80 (cpt &&& 0x3f)]
  else if cpt ≤ 0x10ffff then
    .ok [utf8Byte 0xf0 ((cpt >>> 18) &&& 0x07), utf8Byte 0x80 ((cpt >>> 12) &&& 0x3f),
      utf8Byte 0x80 ((cpt >>> 6) &&& 0x3f), utf8Byte 0x80 (cpt &&& 0x3f)]
  else .error .invalidCodepoint

/-- A byte that may follow the first one of a character. -/
def isContinuation (c : UInt8) : Bool := c &&& 0xc0 = 0x80

/-- `unicode_cpt_from_utf8` at the start of `utf8`: the code point and the bytes that it takes.
There is none where it throws. -/
def unicodeCptFromUtf8 : Text → Option (UInt32 × Nat)
  | [] => none
  | c :: utf8 =>
    if c &&& 0x80 = 0 then some (c.toUInt32, 1)
    else if c &&& 0x40 = 0 then none
    else if c &&& 0x20 = 0 then
      match utf8 with
      | c1 :: _ =>
        if isContinuation c1 then
          some (((c &&& 0x1f).toUInt32 <<< 6) ||| (c1 &&& 0x3f).toUInt32, 2)
        else none
      | _ => none
    else if c &&& 0x10 = 0 then
      match utf8 with
      | c1 :: c2 :: _ =>
        if isContinuation c1 ∧ isContinuation c2 then
          some (((c &&& 0x0f).toUInt32 <<< 12) ||| ((c1 &&& 0x3f).toUInt32 <<< 6)
            ||| (c2 &&& 0x3f).toUInt32, 3)
        else none
      | _ => none
    else if c &&& 0x08 = 0 then
      match utf8 with
      | c1 :: c2 :: c3 :: _ =>
        if isContinuation c1 ∧ isContinuation c2 ∧ isContinuation c3 then
          some (((c &&& 0x07).toUInt32 <<< 18) ||| ((c1 &&& 0x3f).toUInt32 <<< 12)
            ||| ((c2 &&& 0x3f).toUInt32 <<< 6) ||| (c3 &&& 0x3f).toUInt32, 4)
        else none
      | _ => none
    else none

/-- `unicode_cpts_from_utf8`. A character takes a byte and those of its rest, if it has one. -/
def unicodeCptsFromUtf8 : Text → List UInt32
  | [] => []
  | c :: utf8 =>
    match unicodeCptFromUtf8 (c :: utf8) with
    | some (cpt, n) => cpt :: unicodeCptsFromUtf8 (utf8.drop (n - 1))
    | none => 0xFFFD :: unicodeCptsFromUtf8 utf8
  termination_by utf8 => utf8.length

/-- `unicode_cpts_to_utf8`. -/
def unicodeCptsToUtf8 (cps : List UInt32) : Except UnicodeError Text :=
  List.flatten <$> cps.mapM unicodeCptToUtf8

/-- `unicode_wstring_from_utf8`, where a `wchar_t` has 32 bits. -/
def unicodeWstringFromUtf8 (s : Text) : Except UnicodeError (List UInt32) :=
  match Utf8.Pending.run ⟨0, 0⟩ s with
  | some (w, ⟨_, 0⟩) => .ok w
  | _ => .error .rangeError

/-! ## Bytes as characters -/

/-- The bytes that are characters already: `!` to `~`, `¡` to `¬` and `®` to `ÿ`. -/
def isPrintableByte (ch : Nat) : Bool :=
  0x21 ≤ ch ∧ ch ≤ 0x7E ∨ 0xA1 ≤ ch ∧ ch ≤ 0xAC ∨ 0xAE ≤ ch ∧ ch ≤ 0xFF

/-- The code point for each byte, as `unicode_byte_to_utf8_map` and `unicode_utf8_to_byte_map`
number those that remain. -/
def byteCpts : List (Nat × Nat) :=
  ((List.range 256).filter isPrintableByte).map (fun ch => (ch, ch))
    ++ ((List.range 256).filter (!isPrintableByte ·)).zipIdx.map fun (ch, n) => (ch, 256 + n)

/-- A code point of a byte in UTF-8. -/
def byteCptToUtf8 (cpt : Nat) : Text :=
  (unicodeCptToUtf8 (UInt32.ofNat cpt)).toOption.getD []

/-- `unicode_byte_to_utf8_map`. -/
def unicodeByteToUtf8Map : List (UInt8 × Text) :=
  byteCpts.map fun (ch, cpt) => (UInt8.ofNat ch, byteCptToUtf8 cpt)

/-- `unicode_utf8_to_byte_map`. -/
def unicodeUtf8ToByteMap : List (Text × UInt8) :=
  byteCpts.map fun (ch, cpt) => (byteCptToUtf8 cpt, UInt8.ofNat ch)

/-- `unicode_byte_to_utf8`; the map has every byte. -/
def unicodeByteToUtf8 (byte : UInt8) : Text := (unicodeByteToUtf8Map.lookup byte).getD []

/-- `unicode_utf8_to_byte`. There is none where `map.at` throws. -/
def unicodeUtf8ToByte (utf8 : Text) : Option UInt8 := unicodeUtf8ToByteMap.lookup utf8

/-- `unicode_byte_encoding_process`. -/
def unicodeByteEncodingProcess (bpeWords : List Text) : Except UnicodeError (List Text) :=
  bpeWords.mapM fun word => do
    let textUtf ← unicodeCptsToUtf8 (unicodeCptsFromUtf8 word)
    return textUtf.flatMap unicodeByteToUtf8

/-- `format("%02x", c)`. -/
def formatHexByte (c : UInt8) : Text := bytesToHex [c]

/-- `llama_decode_text` on a character. -/
def llamaDecodeCpt (text : Text) (cpt : UInt32) : Except UnicodeError Text := do
  let utf8 ← unicodeCptToUtf8 cpt
  match unicodeUtf8ToByte utf8 with
  | some byte => return [byte]
  | none =>
    return "[UNK_BYTE_0x".toList.map ascii ++ utf8.flatMap formatHexByte ++ text ++ [ascii ']']

/-- `llama_decode_text`. -/
def llamaDecodeText (text : Text) : Except UnicodeError Text :=
  List.flatten <$> (unicodeCptsFromUtf8 text).mapM (llamaDecodeCpt text)

/-! ## What is known of code points -/

/-- `unicode_cpt_flags`. -/
structure CptFlags where
  asUint : UInt16 := 0
  deriving DecidableEq, Repr

namespace CptFlags

def isNumber (flags : CptFlags) : Bool := flags.asUint &&& 0x0002 ≠ 0

def isLetter (flags : CptFlags) : Bool := flags.asUint &&& 0x0004 ≠ 0

def isWhitespace (flags : CptFlags) : Bool := flags.asUint &&& 0x0100 ≠ 0

def categoryFlag (flags : CptFlags) : UInt16 := flags.asUint &&& 0x00FF

/-- Neither a space, a letter nor a number, but something. -/
def isOther (flags : CptFlags) : Bool :=
  !(flags.isWhitespace || flags.isLetter || flags.isNumber) && flags.asUint ≠ 0

end CptFlags

/-- A regular expression engine: the matches of an expression that it takes come from left to right,
do not overlap and are not empty. -/
structure RegexEngine (α : Type) where
  compile : List α → Option (List α → List (Nat × Nat))
  inOrder : ∀ {expr find}, compile expr = some find →
    ∀ text, Segments.InOrder text.length 0 (find text)

/-- The tables, `std::regex` and `std::wregex`. -/
structure UnicodeEnv where
  cptFlags : UInt32 → CptFlags
  tolower : UInt32 → UInt32
  regex : RegexEngine UInt8
  wregex : RegexEngine UInt32

/-! ## Custom splitters -/

/-- What a segment has from the current position on. -/
structure Segment where
  env : UnicodeEnv
  rest : List UInt32

namespace Segment

def outOfRange : UInt32 := 0xFFFFFFFF

/-- `_get_cpt(pos + k)`. -/
def getCpt (seg : Segment) (k : Nat) : UInt32 := seg.rest.getD k outOfRange

/-- `_get_flags(pos + k)`. -/
def getFlags (seg : Segment) (k : Nat) : CptFlags :=
  match seg.rest[k]? with
  | some cpt => seg.env.cptFlags cpt
  | none => {}

/-- How many flags in a row satisfy `p` from `pos + k` on. -/
def countFlags (seg : Segment) (p : CptFlags → Bool) (k : Nat) : Nat :=
  ((seg.rest.drop k).takeWhile fun cpt => p (seg.env.cptFlags cpt)).length

/-- How many line breaks follow in a row from `pos + k` on. -/
def countNewlines (seg : Segment) (k : Nat) : Nat :=
  ((seg.rest.drop k).takeWhile fun cpt => cpt = 13 ∨ cpt = 10).length

/-- The length of `'s`, `'re` and the like, where `f` is applied to what follows the apostrophe. -/
def contraction (seg : Segment) (f : UInt32 → UInt32) : Option Nat :=
  let isChar (k : Nat) (c : Char) : Bool := f (seg.getCpt k) = c.val
  if seg.getCpt 0 = '\''.val ∧ 1 < seg.rest.length then
    if isChar 1 's' ∨ isChar 1 't' ∨ isChar 1 'm' ∨ isChar 1 'd' then some 2
    else if 2 < seg.rest.length ∧ (isChar 1 'r' ∧ isChar 2 'e' ∨ isChar 1 'v' ∧ isChar 2 'e' ∨
      isChar 1 'l' ∧ isChar 2 'l') then some 3
    else none
  else none

/-- `\s+(?!\S)` and `\s+`, or a code point that nothing matches. -/
def spaces (seg : Segment) : Nat :=
  let numWhitespaces := seg.countFlags (·.isWhitespace) 0
  if numWhitespaces > 1 ∧ seg.getCpt numWhitespaces ≠ outOfRange then numWhitespaces - 1
  else if numWhitespaces > 0 then numWhitespaces
  else 1

/-- `cpt == ' '`, as a number. -/
def space (seg : Segment) : Nat := if seg.getCpt 0 = ' '.val then 1 else 0

/-- The loop body of `unicode_regex_split_custom_gpt2`: the length of the word at `pos`. -/
def gpt2Word (seg : Segment) : Nat :=
  match seg.contraction id with
  | some n => n
  | none =>
    let flags2 := seg.getFlags seg.space
    if flags2.isLetter then seg.space + seg.countFlags (·.isLetter) seg.space
    else if flags2.isNumber then seg.space + seg.countFlags (·.isNumber) seg.space
    else if flags2.isOther then seg.space + seg.countFlags (·.isOther) seg.space
    else seg.spaces

/-- Numbers in threes. -/
def threes (n : Nat) : List Nat :=
  List.replicate (n / 3) 3 ++ if n % 3 > 0 then [n % 3] else []

/-- Where the last line break of the spaces at `pos` ends, or 0. -/
def lastEndRN (seg : Segment) : Nat :=
  let spaces := seg.rest.takeWhile fun cpt => (seg.env.cptFlags cpt).isWhitespace
  (spaces.reverse.dropWhile fun cpt => cpt ≠ 13 ∧ cpt ≠ 10).length

/-- The loop body of `unicode_regex_split_custom_llama3`: the lengths of the words it adds. -/
def llama3Words (seg : Segment) : List Nat :=
  match seg.contraction seg.env.tolower with
  | some n => [n]
  | none =>
    let cpt := seg.getCpt 0
    let flags := seg.getFlags 0
    if ¬ (cpt = 13 ∨ cpt = 10 ∨ flags.isNumber) ∧ (flags.isLetter ∨ (seg.getFlags 1).isLetter) then
      [1 + seg.countFlags (·.isLetter) 1]
    else if flags.isNumber then threes (seg.countFlags (·.isNumber) 0)
    else
      let flags2 := seg.getFlags seg.space
      if ¬ (flags2.isWhitespace ∨ flags2.isLetter ∨ flags2.isNumber) ∧ flags.asUint ≠ 0 then
        let n := seg.space + seg.countFlags (·.isOther) seg.space
        [n + seg.countNewlines n]
      else if seg.lastEndRN > 0 then [seg.lastEndRN]
      else [seg.spaces]

end Segment

namespace Segment

variable {seg : Segment} {n : Nat}

theorem countFlags_le (p : CptFlags → Bool) (k : Nat) :
    seg.countFlags p k ≤ seg.rest.length - k := by
  unfold countFlags
  exact (List.takeWhile_prefix _).length_le.trans (by rw [List.length_drop])

theorem countNewlines_le (k : Nat) : seg.countNewlines k ≤ seg.rest.length - k := by
  unfold countNewlines
  exact (List.takeWhile_prefix _).length_le.trans (by rw [List.length_drop])

/-- The flags at a position are counted if they satisfy `p`. -/
theorem countFlags_pos {p : CptFlags → Bool} {k : Nat} (hp : p (seg.getFlags k) = true)
    (hnone : p {} = false) : 0 < seg.countFlags p k ∧ k < seg.rest.length := by
  unfold getFlags at hp
  rcases hk : seg.rest[k]? with _ | cpt
  · simp [hk, hnone] at hp
  · obtain ⟨hlt, hcpt⟩ := List.getElem?_eq_some_iff.1 hk
    rw [hk] at hp
    refine ⟨?_, hlt⟩
    rw [countFlags, List.drop_eq_getElem_cons hlt, hcpt, List.takeWhile_cons_of_pos (by exact hp)]
    exact Nat.succ_pos _

theorem contraction_bounds {f : UInt32 → UInt32} (h : seg.contraction f = some n) :
    0 < n ∧ n ≤ seg.rest.length := by
  unfold contraction at h
  dsimp only at h
  split_ifs at h with h1 h2 h3
  · cases h
    exact ⟨Nat.succ_pos _, h1.2⟩
  · cases h
    exact ⟨Nat.succ_pos _, h3.1⟩

theorem spaces_bounds (h : seg.rest ≠ []) : 0 < seg.spaces ∧ seg.spaces ≤ seg.rest.length := by
  have hpos := List.length_pos_iff.2 h
  have hle := seg.countFlags_le (·.isWhitespace) 0
  unfold spaces
  dsimp only
  split_ifs <;> omega

theorem countFlags_bounds {p : CptFlags → Bool} {k : Nat} (hp : p (seg.getFlags k) = true)
    (hnone : p {} = false) :
    0 < k + seg.countFlags p k ∧ k + seg.countFlags p k ≤ seg.rest.length := by
  obtain ⟨hpos, hlt⟩ := countFlags_pos hp hnone
  have := seg.countFlags_le p k
  omega

theorem gpt2Word_bounds (h : seg.rest ≠ []) :
    0 < seg.gpt2Word ∧ seg.gpt2Word ≤ seg.rest.length := by
  unfold gpt2Word
  split
  · exact contraction_bounds (by assumption)
  · dsimp only
    split_ifs with h1 h2 h3
    · exact countFlags_bounds h1 rfl
    · exact countFlags_bounds h2 rfl
    · exact countFlags_bounds h3 rfl
    · exact spaces_bounds h

theorem sum_threes (n : Nat) : (threes n).sum = n := by
  unfold threes
  split_ifs with h
  · rw [List.sum_append, List.sum_replicate_nat, List.sum_singleton]
    omega
  · rw [List.sum_append, List.sum_replicate_nat, List.sum_nil]
    omega

theorem lastEndRN_le : seg.lastEndRN ≤ seg.rest.length := by
  unfold lastEndRN
  dsimp only
  refine (List.dropWhile_suffix _).length_le.trans ?_
  rw [List.length_reverse]
  exact (List.takeWhile_prefix _).length_le

/-- A space, symbols and line breaks: there is one of the first two. -/
theorem symbols_bounds (h : seg.rest ≠ []) (hother : seg.space = 0 → (seg.getFlags 0).isOther) :
    0 < seg.space + seg.countFlags (·.isOther) seg.space ∧
      seg.space + seg.countFlags (·.isOther) seg.space ≤ seg.rest.length := by
  have hpos := List.length_pos_iff.2 h
  by_cases hspace : seg.space = 0
  · exact countFlags_bounds (hspace.symm ▸ hother hspace) rfl
  · have hle := seg.countFlags_le (·.isOther) seg.space
    have hone : seg.space ≤ 1 := by
      unfold space
      split_ifs <;> omega
    omega

theorem llama3Words_bounds (h : seg.rest ≠ []) :
    0 < seg.llama3Words.sum ∧ seg.llama3Words.sum ≤ seg.rest.length := by
  have hpos := List.length_pos_iff.2 h
  unfold llama3Words
  split
  · rw [List.sum_singleton]
    exact contraction_bounds (by assumption)
  · dsimp only
    split_ifs with h1 h2 h3 h4
    · have := seg.countFlags_le (·.isLetter) 1
      rw [List.sum_singleton]
      omega
    · rw [sum_threes]
      exact ⟨(countFlags_pos h2 rfl).1, seg.countFlags_le _ 0⟩
    · obtain ⟨hnospace, hsome⟩ := h3
      obtain ⟨hlo, hhi⟩ := symbols_bounds h fun hspace => by
        rw [hspace] at hnospace
        simpa [CptFlags.isOther, not_or, hsome, and_assoc] using hnospace
      have := seg.countNewlines_le (seg.space + seg.countFlags (·.isOther) seg.space)
      rw [List.sum_singleton]
      omega
    · rw [List.sum_singleton]
      exact ⟨h4, lastEndRN_le⟩
    · rw [List.sum_singleton]
      exact spaces_bounds h

end Segment

/-- The loop of the custom splitters over the segments. -/
def unicodeRegexSplitCustomBy (env : UnicodeEnv) (words : Segment → List Nat)
    (hwords : ∀ seg : Segment, seg.rest ≠ [] → 0 < (words seg).sum) (text : Text)
    (offsets : List Nat) : List Nat :=
  Segments.refine (Segments.scan (fun rest => words ⟨env, rest⟩) fun rest h => hwords ⟨env, rest⟩ h)
    offsets (unicodeCptsFromUtf8 text)

def unicodeRegexSplitCustomGpt2 (env : UnicodeEnv) (text : Text) (offsets : List Nat) : List Nat :=
  unicodeRegexSplitCustomBy env (fun seg => [seg.gpt2Word])
    (fun _ h => by rw [List.sum_singleton]; exact (Segment.gpt2Word_bounds h).1) text offsets

def unicodeRegexSplitCustomLlama3 (env : UnicodeEnv) (text : Text) (offsets : List Nat) :
    List Nat :=
  unicodeRegexSplitCustomBy env Segment.llama3Words
    (fun _ h => (Segment.llama3Words_bounds h).1) text offsets

def gpt2Regex : Text :=
  r"'s|'t|'re|'ve|'m|'ll|'d| ?\p{L}+| ?\p{N}+| ?[^\s\p{L}\p{N}]+|\s+(?!\S)".toList.map ascii

/-- What both regular expressions of LLaMA 3 end with. -/
def llama3Words : Text :=
  r"|[^\r\n\p{L}\p{N}]?\p{L}+|\p{N}{1,3}| ?[^\s\p{L}\p{N}]+[\r\n]*".toList.map ascii
    ++ r"|\s*[\r\n]+|\s+(?!\S)|\s+".toList.map ascii

def llama3Regexes : List Text :=
  [r"(?i:'s|'t|'re|'ve|'m|'ll|'d)".toList.map ascii ++ llama3Words,
    r"(?:'[sS]|'[tT]|'[rR][eE]|'[vV][eE]|'[mM]|'[lL][lL]|'[dD])".toList.map ascii ++ llama3Words]

/-- `unicode_regex_split_custom`; there are no offsets for an expression that it does not know. -/
def unicodeRegexSplitCustom (env : UnicodeEnv) (text regexExpr : Text) (offsets : List Nat) :
    List Nat :=
  if regexExpr = gpt2Regex then unicodeRegexSplitCustomGpt2 env text offsets
  else if regexExpr ∈ llama3Regexes then unicodeRegexSplitCustomLlama3 env text offsets
  else []

/-! ## Regular expressions -/

/-- `unicode_regex_split_stl`, for both character types. -/
def unicodeRegexSplitStl {α : Type} (engine : RegexEngine α) (text regexExpr : List α)
    (offsets : List Nat) : Except UnicodeError (List Nat) :=
  match engine.compile regexExpr with
  | none => .error .failedToProcessRegex
  | some find => .ok (Segments.refine (fun seg => Segments.around seg.length 0 (find seg))
      offsets text)

/-- A Unicode category: its expression (`k_ucat_enum`), its flag, the byte that stands for it
(`k_ucat_cpt`), and its ASCII characters as in a bracket expression (`k_ucat_map`). -/
structure Category where
  pattern : Text
  flag : UInt16
  cpt : UInt8
  chars : Text

def categories : List Category :=
  [⟨r"\p{N}".toList.map ascii, 0x0002, 0xD1, "0-9".toList.map ascii⟩,
    ⟨r"\p{L}".toList.map ascii, 0x0004, 0xD2, "A-Za-z".toList.map ascii⟩,
    ⟨r"\p{P}".toList.map ascii, 0x0020, 0xD3,
      "!-#%-*,-/:-;?-@\\[-\\]_\\\x7b\\\x7d".toList.map ascii⟩,
    ⟨r"\p{M}".toList.map ascii, 0x0010, 0xD4, []⟩,
    ⟨r"\p{S}".toList.map ascii, 0x0040, 0xD5, r"\$\+<->^`\|".toList.map ascii⟩]

/-- Some Unicode category is used in the expression. -/
def useCollapsed (regexExpr : Text) : Bool :=
  categories.any fun ucat => (Text.find regexExpr ucat.pattern 0).isSome

/-- The byte that stands for a code point in `text_collapsed`. -/
def collapseCpt (env : UnicodeEnv) (cpt : UInt32) : UInt8 :=
  if cpt < 128 then cpt.toUInt8
  else if (env.cptFlags cpt).isWhitespace then 0x0B
  else match categories.find? (·.flag = (env.cptFlags cpt).categoryFlag) with
    | some ucat => ucat.cpt
    | none => 0xD0

/-- `regex_expr_collapsed`: `inside` is set within brackets, and `prev` is `regex_expr[i - 1]`. -/
def collapseRegex (inside : Bool) (prev : Option UInt8) : Text → Text
  | [] => []
  | c :: expr =>
    if c = ascii '[' ∧ prev ≠ some (ascii '\\') then c :: collapseRegex true (some c) expr
    else if inside ∧ c = ascii ']' ∧ prev ≠ some (ascii '\\') then
      c :: collapseRegex false (some c) expr
    else match categories.find? (·.pattern.isPrefixOf (c :: expr)) with
      | some ucat =>
        (if inside then ucat.cpt :: ucat.chars
          else ascii '[' :: ucat.cpt :: ucat.chars ++ [ascii ']'])
        ++ collapseRegex inside (some (ascii '}')) (expr.drop 4)
      | none => c :: collapseRegex inside (some c) expr
  termination_by expr => expr.length

/-- A character of `wtext`. -/
def wideCpt (env : UnicodeEnv) (cpt : UInt32) : UInt32 :=
  if cpt > 0x7F ∧ (env.cptFlags cpt).isWhitespace then 0x0B else cpt

/-- The loop body of `unicode_regex_split` over the expressions. -/
def unicodeRegexSplitOne (env : UnicodeEnv) (text : Text) (bpeOffsets : List Nat)
    (regexExpr : Text) : Except UnicodeError (List Nat) := do
  let cpts := unicodeCptsFromUtf8 text
  let tmp := unicodeRegexSplitCustom env text regexExpr bpeOffsets
  if tmp ≠ [] then return tmp
  if useCollapsed regexExpr then
    if (unicodeCptsFromUtf8 regexExpr).any (· ≥ 128) then throw .notSupported
    unicodeRegexSplitStl env.regex (cpts.map (collapseCpt env)) (collapseRegex false none regexExpr)
      bpeOffsets
  else
    let wregexExpr ← unicodeWstringFromUtf8 regexExpr
    unicodeRegexSplitStl env.wregex (cpts.map (wideCpt env)) wregexExpr bpeOffsets

/-- `unicode_regex_split`. -/
def unicodeRegexSplit (env : UnicodeEnv) (text : Text) (regexExprs : List Text) :
    Except UnicodeError (List Text) := do
  let cpts := unicodeCptsFromUtf8 text
  let bpeOffsets ← regexExprs.foldlM (unicodeRegexSplitOne env text) [cpts.length]
  let bpeWords ← (bpeOffsets.splitLengths cpts).mapM unicodeCptsToUtf8
  unicodeByteEncodingProcess bpeWords

end LamaServer

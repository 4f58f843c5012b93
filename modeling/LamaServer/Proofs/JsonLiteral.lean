import LamaServer.JsonSchema
import LamaServer.Proofs.Gbnf

/-!
# Literals in grammars of JSON schemas

`format_literal` escapes quotation marks and line breaks but no backslash. So the parser of grammars
takes an escape of the JSON text for an escape of its own, and what it reads is shorter than the
text. A JSON text without escapes is read as it is.
-/

namespace LamaServer

/-! ## Characters of a literal -/

/-- Between the quotation marks of a literal. -/
def literalBody (s : List Char) : Text :=
  replacePattern (Utf8.encode s) grammarLiteralEscapeRe fun c =>
    (grammarLiteralEscapes.lookup c).getD []

theorem formatLiteral_encode (s : List Char) :
    formatLiteral (Utf8.encode s) = ascii '"' :: literalBody s ++ [ascii '"'] := rfl

@[simp] theorem literalBody_nil : literalBody [] = [] := rfl

theorem literalBody_cons (c : Char) (s : List Char) :
    literalBody (c :: s) = literalBody [c] ++ literalBody s := by
  simp [literalBody, replacePattern]

theorem literalBody_append (s t : List Char) :
    literalBody (s ++ t) = literalBody s ++ literalBody t := by
  simp [literalBody, replacePattern, Utf8.encode_append]

theorem literalBody_quote : literalBody ['"'] = [ascii '\\', ascii '"'] := by decide

theorem literalBody_return : literalBody ['\r'] = [ascii '\\', ascii 'r'] := by decide

theorem literalBody_newline : literalBody ['\n'] = [ascii '\\', ascii 'n'] := by decide

/-- A byte that is escaped is a character. -/
theorem eq_of_escaped_byte {b : UInt8} {c : Char} (hb : b ∈ String.utf8EncodeChar c)
    (h : grammarLiteralEscapeRe b = true) : c = '\r' ∨ c = '\n' ∨ c = '"' := by
  have hlt : b.toNat < 0x80 := by
    rcases of_decide_eq_true h with rfl | rfl | rfl <;> decide
  have hchar := Utf8.val_of_mem_encodeChar hb hlt
  refine (of_decide_eq_true h).imp ?_ (Or.imp ?_ ?_) <;> rintro rfl <;>
    exact Char.toNat_inj.1 hchar

theorem literalBody_other {c : Char} (hr : c ≠ '\r') (hn : c ≠ '\n') (hq : c ≠ '"') :
    literalBody [c] = String.utf8EncodeChar c := by
  have hplain : ∀ b ∈ String.utf8EncodeChar c, grammarLiteralEscapeRe b = false := fun b hb => by
    by_contra h
    rcases eq_of_escaped_byte hb (by simpa using h) with h | h | h
    exacts [hr h, hn h, hq h]
  rw [literalBody, replacePattern, Utf8.encode_cons, Utf8.encode_nil, List.append_nil,
    List.flatMap_congr (g := fun b => [b]) fun b hb => by rw [hplain b hb]; rfl]
  exact List.flatMap_singleton' _

/-! ## A text without escapes -/

/-- A character that is no backslash is read as it is. -/
theorem parseLiteral_char {c : Char} (hc : c ≠ '\\') (fuel : Nat) (rest : Text)
    (rule : GrammarRule) : parseLiteral (fuel + 1) (literalBody [c] ++ rest) rule =
      parseLiteral fuel rest (rule ++ [.char c.val]) := by
  by_cases hq : c = '"'
  · subst hq
    rw [literalBody_quote]
    rfl
  by_cases hr : c = '\r'
  · subst hr
    rw [literalBody_return]
    rfl
  by_cases hn : c = '\n'
  · subst hn
    rw [literalBody_newline]
    rfl
  rw [literalBody_other hr hn hq]
  have hchar := parseChar_encode c hc rest
  rcases hbytes : String.utf8EncodeChar c with _ | ⟨b, bytes⟩
  · exact absurd hbytes String.utf8EncodeChar_ne_nil
  have hb : b ≠ ascii '"' := by
    rintro rfl
    rcases eq_of_escaped_byte (c := c) (b := ascii '"') (by rw [hbytes]; simp) (by decide) with
      h | h | h
    exacts [hr h, hn h, hq h]
  rw [hbytes, List.cons_append] at hchar
  rw [List.cons_append, parseLiteral, if_neg hb, hchar]
  rfl

theorem parseLiteral_body (rest : Text) : ∀ {s : List Char} {fuel : Nat} (rule : GrammarRule),
    '\\' ∉ s → s.length < fuel →
    parseLiteral fuel (literalBody s ++ ascii '"' :: rest) rule =
      .ok (rest, rule ++ s.map fun c => .char c.val)
  | [], fuel + 1, rule, _, _ => by simp [parseLiteral]
  | c :: s, fuel + 1, rule, hs, hfuel => by
    rw [List.mem_cons, not_or] at hs
    rw [literalBody_cons, List.append_assoc, parseLiteral_char (Ne.symm hs.1),
      parseLiteral_body rest _ hs.2 (by simpa using hfuel)]
    simp

theorem length_le_literalBody : ∀ s : List Char, s.length ≤ (literalBody s).length
  | [] => Nat.zero_le _
  | c :: s => by
    have hpos : 0 < (literalBody [c]).length := by
      by_cases h : c = '\r' ∨ c = '\n' ∨ c = '"'
      · rcases h with rfl | rfl | rfl <;> decide
      · simp only [not_or] at h
        rw [literalBody_other h.1 h.2.1 h.2.2]
        exact List.length_pos_iff.2 String.utf8EncodeChar_ne_nil
    have ih := length_le_literalBody s
    rw [literalBody_cons, List.length_append, List.length_cons]
    omega

/-! ## A text with escapes -/

/-- The escapes of `dump_escaped` with one letter. -/
def shortEscapes : List Char := ['b', 't', 'n', 'f', 'r', '"', '\\']

/-- A text whose backslashes are those of escapes. -/
inductive EscapedText : List Char → Prop
  | nil : EscapedText []
  | plain {c : Char} {s : List Char} (hc : c ≠ '\\') : EscapedText s → EscapedText (c :: s)
  | short {c : Char} {s : List Char} (hc : c ∈ shortEscapes) : EscapedText s →
      EscapedText ('\\' :: c :: s)
  | unicode (n : Nat) {s : List Char} : EscapedText s → EscapedText (Json.unicodeEscape n ++ s)

theorem EscapedText.append {s t : List Char} (h : EscapedText s) (ht : EscapedText t) :
    EscapedText (s ++ t) := by
  induction h with
  | nil => exact ht
  | plain hc _ ih => exact .plain hc ih
  | short hc _ ih => exact .short hc ih
  | unicode n _ ih =>
    rw [List.append_assoc]
    exact .unicode n ih

theorem EscapedText.of_notMem : ∀ {s : List Char}, '\\' ∉ s → EscapedText s
  | [], _ => .nil
  | c :: s, h => by
    rw [List.mem_cons, not_or] at h
    exact .plain (Ne.symm h.1) (of_notMem h.2)

/-- The letter of an escape is read as one character, or not at all, unless it is a quotation mark:
then the backslash is escaped and the literal ends. -/
theorem parseLiteral_short {c : Char} (hc : c ∈ shortEscapes) (fuel : Nat) (rest : Text)
    (rule : GrammarRule) {pos : Text} {rule' : GrammarRule}
    (h : parseLiteral (fuel + 1) (literalBody ['\\', c] ++ rest) rule = .ok (pos, rule')) :
    rule' = rule ++ [.char '\\'.val] ∨
      ∃ chr, parseLiteral fuel rest (rule ++ [.char chr]) = .ok (pos, rule') := by
  simp only [shortEscapes, List.mem_cons, List.not_mem_nil, or_false] at hc
  rcases hc with rfl | rfl | rfl | rfl | rfl | rfl | rfl
  · cases h
  · exact .inr ⟨_, h⟩
  · exact .inr ⟨_, h⟩
  · cases h
  · exact .inr ⟨_, h⟩
  · cases fuel with
    | zero => cases h
    | succ fuel =>
      cases h
      exact .inl rfl
  · exact .inr ⟨_, h⟩

theorem literalBody_digitChar : ∀ n < 16, ∃ b d, literalBody [Nat.digitChar n] = [b] ∧
    hexValue b = some d := fun n hn =>
  ⟨(Nat.digitChar n).toUInt8, n, by revert n; decide⟩

theorem parseHex_digits (src rest : Text) (size : Nat) : ∀ (value : UInt32) {digits : Text},
    (∀ b ∈ digits, ∃ d, hexValue b = some d) → ∃ v,
      parseHex src size digits.length value (digits ++ rest) = .ok (v, rest)
  | value, [], _ => ⟨value, rfl⟩
  | value, b :: digits, h => by
    obtain ⟨⟨d, hd⟩, h⟩ := List.forall_mem_cons.1 h
    obtain ⟨v, hv⟩ := parseHex_digits src rest size ((value <<< 4) + UInt32.ofNat d) h
    refine ⟨v, ?_⟩
    rw [List.cons_append, List.length_cons, parseHex, hd]
    exact hv

/-- The four digits are read as one character. -/
theorem parseLiteral_unicode (n fuel : Nat) (rest : Text) (rule : GrammarRule) :
    ∃ chr, parseLiteral (fuel + 1) (literalBody (Json.unicodeEscape n) ++ rest) rule =
      parseLiteral fuel rest (rule ++ [.char chr]) := by
  obtain ⟨b₁, d₁, hb₁, hd₁⟩ := literalBody_digitChar (n / 4096 % 16) (Nat.mod_lt _ (by decide))
  obtain ⟨b₂, d₂, hb₂, hd₂⟩ := literalBody_digitChar (n / 256 % 16) (Nat.mod_lt _ (by decide))
  obtain ⟨b₃, d₃, hb₃, hd₃⟩ := literalBody_digitChar (n / 16 % 16) (Nat.mod_lt _ (by decide))
  obtain ⟨b₄, d₄, hb₄, hd₄⟩ := literalBody_digitChar (n % 16) (Nat.mod_lt _ (by decide))
  have hbody : literalBody (Json.unicodeEscape n) =
      ascii '\\' :: ascii 'u' :: [b₁, b₂, b₃, b₄] := by
    rw [Json.unicodeEscape, literalBody_cons '\\', literalBody_cons 'u',
      literalBody_cons (Nat.digitChar _), hb₁, literalBody_cons (Nat.digitChar _), hb₂,
      literalBody_cons (Nat.digitChar _), hb₃, hb₄]
    rfl
  have hdigits : ∀ b ∈ [b₁, b₂, b₃, b₄], ∃ d, hexValue b = some d := by
    simp only [List.forall_mem_cons]
    exact ⟨⟨d₁, hd₁⟩, ⟨d₂, hd₂⟩, ⟨d₃, hd₃⟩, ⟨d₄, hd₄⟩, by simp⟩
  obtain ⟨chr, hchr⟩ := parseHex_digits ([b₁, b₂, b₃, b₄] ++ rest) rest 4 0 hdigits
  have hchar : parseChar (ascii '\\' :: ascii 'u' :: ([b₁, b₂, b₃, b₄] ++ rest)) =
      .ok (chr, rest) := hchr
  refine ⟨chr, ?_⟩
  rw [hbody, List.cons_append, List.cons_append, parseLiteral, if_neg (by decide), hchar]
  rfl

/-- As many characters are read as the text has, and fewer if it has an escape. -/
theorem parseLiteral_le {s : List Char} (hs : EscapedText s) (rest : Text) :
    ∀ {fuel : Nat} {rule rule' : GrammarRule} {pos : Text},
      parseLiteral fuel (literalBody s ++ ascii '"' :: rest) rule = .ok (pos, rule') →
      rule'.length ≤ rule.length + s.length ∧
        ('\\' ∈ s → rule'.length < rule.length + s.length) := by
  induction hs with
  | nil =>
    intro fuel rule rule' pos h
    cases fuel with
    | zero => cases h
    | succ fuel =>
      cases h
      exact ⟨Nat.le_refl _, fun h => by cases h⟩
  | @plain c s hc _ ih =>
    intro fuel rule rule' pos h
    cases fuel with
    | zero => cases h
    | succ fuel =>
      rw [literalBody_cons, List.append_assoc, parseLiteral_char hc] at h
      obtain ⟨hle, hlt⟩ := ih h
      simp only [List.length_append, List.length_cons, List.length_nil] at hle hlt ⊢
      refine ⟨by omega, fun hmem => ?_⟩
      have := hlt ((List.mem_cons.1 hmem).resolve_left (Ne.symm hc))
      omega
  | @short c s hc _ ih =>
    intro fuel rule rule' pos h
    cases fuel with
    | zero => cases h
    | succ fuel =>
      rw [show '\\' :: c :: s = ['\\', c] ++ s from rfl, literalBody_append,
        List.append_assoc] at h
      simp only [List.length_cons]
      rcases parseLiteral_short hc fuel _ rule h with rfl | ⟨chr, h⟩
      · rw [List.length_append, List.length_singleton]
        omega
      · have hle := (ih h).1
        rw [List.length_append, List.length_singleton] at hle
        omega
  | @unicode n s _ ih =>
    intro fuel rule rule' pos h
    cases fuel with
    | zero => cases h
    | succ fuel =>
      rw [literalBody_append, List.append_assoc] at h
      obtain ⟨chr, hchr⟩ := parseLiteral_unicode n fuel (literalBody s ++ ascii '"' :: rest) rule
      have hle := (ih (hchr ▸ h)).1
      rw [List.length_append, List.length_singleton] at hle
      have hlen : (Json.unicodeEscape n ++ s).length = s.length + 6 := rfl
      omega

/-! ## Values -/

namespace Json

/-- `dump_escaped` keeps the character. -/
def plainChar (c : Char) : Bool := c ≠ '"' ∧ c ≠ '\\' ∧ 0x20 ≤ c.toNat

mutual

/-- `dump_escaped` keeps the characters of all strings and keys. -/
def plain : Json → Bool
  | string s => s.all plainChar
  | array values => plainValues values
  | object members => plainMembers members
  | _ => true

def plainValues : List Json → Bool
  | [] => true
  | v :: values => v.plain && plainValues values

def plainMembers : List (List Char × Json) → Bool
  | [] => true
  | (key, v) :: members => key.all plainChar && v.plain && plainMembers members

end

/-- The text has escapes unless it is plain. -/
def Marked (s : List Char) (plain : Bool) : Prop :=
  EscapedText s ∧ ('\\' ∈ s ↔ plain = false)

variable {s t : List Char} {p q : Bool}

theorem marked_of_notMem (h : '\\' ∉ s) : Marked s true :=
  ⟨.of_notMem h, by simp [h]⟩

theorem Marked.append (h : Marked s p) (ht : Marked t q) : Marked (s ++ t) (p && q) := by
  refine ⟨h.1.append ht.1, ?_⟩
  rw [List.mem_append, h.2, ht.2, Bool.and_eq_false_iff]

/-- Characters that are no backslash may stand in between. -/
theorem Marked.cons {c : Char} (h : Marked s p) (hc : c ≠ '\\') : Marked (c :: s) p := by
  simpa using (marked_of_notMem (s := [c]) (by simpa using Ne.symm hc)).append h

theorem marked_escapeChar (c : Char) : Marked (escapeChar c) (plainChar c) := by
  have hshort (e : Char) (he : e ∈ shortEscapes) : EscapedText ['\\', e] := .short he .nil
  have hpos {n : Nat} (h : c.toNat = n) (hn : n < 0x20 ∨ n = 0x22 ∨ n = 0x5C) :
      plainChar c = false := by
    rw [plainChar, decide_eq_false_iff_not]
    rintro ⟨hq, hb, hle⟩
    rcases hn with hn | rfl | rfl
    · omega
    · exact hq (Char.toNat_inj.1 h)
    · exact hb (Char.toNat_inj.1 h)
  unfold escapeChar
  split_ifs with h1 h2 h3 h4 h5 h6 h7 h8
  · exact ⟨hshort _ (by decide), by simp [hpos h1]⟩
  · exact ⟨hshort _ (by decide), by simp [hpos h2]⟩
  · exact ⟨hshort _ (by decide), by simp [hpos h3]⟩
  · exact ⟨hshort _ (by decide), by simp [hpos h4]⟩
  · exact ⟨hshort _ (by decide), by simp [hpos h5]⟩
  · exact ⟨hshort _ (by decide), by simp [hpos h6]⟩
  · exact ⟨hshort _ (by decide), by simp [hpos h7]⟩
  · have hunicode : EscapedText (unicodeEscape c.toNat ++ []) := .unicode _ .nil
    rw [List.append_nil] at hunicode
    exact ⟨hunicode, by simp [unicodeEscape, hpos rfl (.inl (by omega))]⟩
  · have hb : c ≠ '\\' := by
      rintro rfl
      exact h7 rfl
    have hplain : plainChar c = true := by
      rw [plainChar, decide_eq_true_eq]
      refine ⟨?_, hb, by omega⟩
      rintro rfl
      exact h6 rfl
    rw [hplain]
    exact marked_of_notMem (by simpa using Ne.symm hb)

theorem marked_dumpEscaped : ∀ s, Marked (dumpEscaped s) (s.all plainChar)
  | [] => marked_of_notMem (by simp [dumpEscaped])
  | c :: s => (marked_escapeChar c).append (marked_dumpEscaped s)

theorem marked_dumpString (s : List Char) : Marked (dumpString s) (s.all plainChar) := by
  have h := ((marked_dumpEscaped s).cons (c := '"') (by decide)).append
    (marked_of_notMem (s := ['"']) (by decide))
  rwa [Bool.and_true] at h

theorem notMem_toString (n : Int) : '\\' ∉ (toString n).toList := by
  have hdigits (m : Nat) : '\\' ∉ (Nat.repr m).toList := by
    rw [Nat.toList_repr]
    intro h
    exact absurd (Nat.isDigit_of_mem_toDigits (by decide) (by decide) h) (by decide)
  cases n with
  | ofNat m => exact hdigits m
  | negSucc m =>
    have hstring : toString (Int.negSucc m) = "-" ++ Nat.repr (m + 1) := rfl
    rw [hstring, String.toList_append, List.mem_append, not_or]
    exact ⟨by decide, hdigits _⟩

mutual

theorem marked_dump : ∀ v : Json, Marked v.dump v.plain
  | null => marked_of_notMem (by decide)
  | boolean true => marked_of_notMem (by decide)
  | boolean false => marked_of_notMem (by decide)
  | integer n => marked_of_notMem (notMem_toString n)
  | float x => marked_of_notMem fun h => absurd (x.plain _ h) (by decide)
  | string s => marked_dumpString s
  | array values => by
    have h := ((marked_dumpValues values).cons (c := '[') (by decide)).append
      (marked_of_notMem (s := [']']) (by decide))
    rwa [Bool.and_true] at h
  | object members => by
    have h := ((marked_dumpMembers members).cons (c := '{') (by decide)).append
      (marked_of_notMem (s := ['}']) (by decide))
    rwa [Bool.and_true] at h

theorem marked_dumpValues : ∀ values : List Json, Marked (dumpValues values) (plainValues values)
  | [] => marked_of_notMem (by simp [dumpValues])
  | [v] => by
    have h := marked_dump v
    simpa [dumpValues, plainValues] using h
  | v :: w :: values =>
    (marked_dump v).append ((marked_dumpValues (w :: values)).cons (by decide))

theorem marked_dumpMembers : ∀ members : List (List Char × Json),
    Marked (dumpMembers members) (plainMembers members)
  | [] => marked_of_notMem (by simp [dumpMembers])
  | [(key, v)] => by
    have h := (marked_dumpString key).append ((marked_dump v).cons (c := ':') (by decide))
    simpa [dumpMembers, plainMembers] using h
  | (key, v) :: w :: members => by
    have h := ((marked_dumpString key).append ((marked_dump v).cons (c := ':') (by decide))).append
      ((marked_dumpMembers (w :: members)).cons (c := ',') (by decide))
    simpa [dumpMembers, plainMembers] using h

end

/-! ## Literals of values -/

/-- The parser of grammars reads the characters of the JSON text, in front of any text. -/
def LiteralSurvives (v : Json) : Prop :=
  ∀ rest, literalElements (v.generateConstantRule ++ rest) =
    .ok (rest, v.dump.map fun c => .char c.val)

theorem literalElements_generateConstantRule (v : Json) (rest : Text) :
    literalElements (v.generateConstantRule ++ rest) =
      parseLiteral (v.generateConstantRule ++ rest).length
        (literalBody v.dump ++ ascii '"' :: rest) [] := by
  rw [literalElements, generateConstantRule, dumpText, formatLiteral_encode]
  simp

theorem literalSurvives_iff (v : Json) : v.LiteralSurvives ↔ v.plain := by
  obtain ⟨hescaped, hmem⟩ := marked_dump v
  constructor
  · intro h
    by_contra hplain
    have hread := h []
    rw [literalElements_generateConstantRule] at hread
    have hlt := (parseLiteral_le hescaped [] hread).2 (hmem.2 (by simpa using hplain))
    simp at hlt
  · intro hplain rest
    have hnot : '\\' ∉ v.dump := fun h => by simp [hmem.1 h] at hplain
    have hlen := length_le_literalBody v.dump
    rw [literalElements_generateConstantRule, parseLiteral_body rest [] hnot, List.nil_append]
    rw [generateConstantRule, dumpText, formatLiteral_encode]
    simp only [List.length_append, List.length_cons]
    omega

/-- The string `a"b`, whose literal ends behind `a\`. -/
theorem not_literalSurvives : ¬ (Json.string ['a', '"', 'b']).LiteralSurvives := by
  intro h
  have hread : literalElements ((Json.string ['a', '"', 'b']).generateConstantRule ++ []) =
      .ok ([ascii 'b', ascii '\\', ascii '"', ascii '"'],
        ['"', 'a', '\\'].map fun c => .char c.val) := by decide
  have hend := (Prod.mk.inj (Except.ok.inj (hread.symm.trans (h [])))).1
  cases hend

end Json

end LamaServer

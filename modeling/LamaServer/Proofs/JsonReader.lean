import LamaServer.JsonText

/-!
# A reader of JSON

A reader that takes no numbers, and everything else as the library does. It reads every JSON text
and finds where one ends (`plainReader_correct`).
-/

namespace LamaServer

namespace Json

/-! ## Strings -/

/-- The character behind `\u` and its first four digits. -/
def readUnit (n : Nat) : List Char → Option (Char × List Char)
  | '\\' :: 'u' :: e :: f :: g :: h :: t =>
    if n < 0xD800 ∨ 0xE000 ≤ n then some (Char.ofNat n, '\\' :: 'u' :: e :: f :: g :: h :: t)
    else
      match codeUnit e f g h with
      | some low =>
        if n < 0xDC00 ∧ 0xDC00 ≤ low ∧ low < 0xE000 then
          some (Char.ofNat (0x10000 + 1024 * (n - 0xD800) + (low - 0xDC00)), t)
        else none
      | none => none
  | t => if n < 0xD800 ∨ 0xE000 ≤ n then some (Char.ofNat n, t) else none

/-- The character behind a backslash. -/
def readEscape : List Char → Option (Char × List Char)
  | 'u' :: a :: b :: c :: d :: t => (codeUnit a b c d).bind fun n => readUnit n t
  | e :: t => (escaped.lookup e).map fun c => (c, t)
  | [] => none

/-- A character of a string. -/
def readChar : List Char → Option (Char × List Char)
  | [] => none
  | c :: t =>
    if c = '\\' then readEscape t
    else if c = '"' ∨ c.toNat < 0x20 then none
    else some (c, t)

/-- What is in front of the closing quotation mark, and what is behind it. -/
def readString : Nat → List Char → Option (List Char × List Char)
  | 0, _ => none
  | n + 1, t =>
    if t.head? = some '"' then some ([], t.tail)
    else (readChar t).bind fun (c, t) => (readString n t).map fun (s, t) => (c :: s, t)

theorem readUnit_of_char {n : Nat} (h : n < 0xD800 ∨ 0xE000 ≤ n) (t : List Char) :
    readUnit n t = some (Char.ofNat n, t) := by
  unfold readUnit
  split <;> rw [if_pos h]

theorem lookup_escaped_u : escaped.lookup 'u' = none := by decide

theorem readChar_of_charText {w : List Char} {c : Char} (h : CharText w c) (t : List Char) :
    readChar (w ++ t) = some (c, t) := by
  cases h with
  | plain hquote hback hcontrol =>
    rw [List.singleton_append, readChar, if_neg hback, if_neg]
    rintro (h | h)
    · exact hquote h
    · omega
  | @escape e c he =>
    have hu : e ≠ 'u' := by
      rintro rfl
      rw [lookup_escaped_u] at he
      cases he
    have hread : readEscape (e :: t) = (escaped.lookup e).map fun c => (c, t) := by
      unfold readEscape
      split
      · rename_i heq
        exact absurd (List.cons.inj heq).1 hu
      · rename_i heq
        obtain ⟨rfl, rfl⟩ := List.cons.inj heq
        rfl
      · rename_i heq
        cases heq
    change readEscape (e :: t) = _
    rw [hread, he]
    rfl
  | @unit a b c d n hunit hn =>
    change (codeUnit a b c d).bind (fun n => readUnit n t) = _
    rw [hunit, Option.bind_some, readUnit_of_char hn]
  | @pair a b c d e f g h high low hhigh h1 h2 hlow h3 h4 =>
    change (codeUnit a b c d).bind (fun n => readUnit n ('\\' :: 'u' :: e :: f :: g :: h :: t)) = _
    rw [hhigh, Option.bind_some, readUnit, if_neg (by omega), hlow]
    simp only [h2, h3, h4, and_self, if_true]

theorem CharText.head {w : List Char} {c : Char} (h : CharText w c) :
    ∃ d u, w = d :: u ∧ d ≠ '"' := by
  cases h with
  | plain hquote _ _ => exact ⟨_, [], rfl, hquote⟩
  | escape _ => exact ⟨_, _, rfl, by decide⟩
  | unit _ _ => exact ⟨_, _, rfl, by decide⟩
  | pair _ _ _ _ _ _ => exact ⟨_, _, rfl, by decide⟩

theorem readString_of_stringText {w s : List Char} (h : StringText w s) :
    ∀ {n : Nat}, w.length < n → ∀ t, readString n (w ++ '"' :: t) = some (s, t) := by
  induction h with
  | nil =>
    rintro (_ | n) hn t
    · cases hn
    · simp [readString]
  | @cons w u c s hc _ ih =>
    rintro (_ | n) hn t
    · cases hn
    obtain ⟨d, v, rfl, hd⟩ := hc.head
    have hlt : u.length < n := by
      simp only [List.length_append, List.length_cons] at hn
      omega
    rw [readString, if_neg (by simpa using hd), List.append_assoc, readChar_of_charText hc]
    simp only [Option.bind_some, ih hlt, Option.map_some]

/-! ## Values -/

mutual

/-- The value at the start of a text, and what is behind it. -/
def readValue : Nat → List Char → Option (Json × List Char)
  | 0, _ => none
  | n + 1, t =>
    match t with
    | 'n' :: 'u' :: 'l' :: 'l' :: t => some (.null, t)
    | 't' :: 'r' :: 'u' :: 'e' :: t => some (.boolean true, t)
    | 'f' :: 'a' :: 'l' :: 's' :: 'e' :: t => some (.boolean false, t)
    | '"' :: t => (readString n t).map fun (s, t) => (.string s, t)
    | '[' :: t =>
      if (t.dropWhile isBlank).head? = some ']' then some (.array [], (t.dropWhile isBlank).tail)
      else (readElements n t).map fun (values, t) => (.array values, t)
    | '\x7b' :: t =>
      if (t.dropWhile isBlank).head? = some '\x7d' then
        some (.object [], (t.dropWhile isBlank).tail)
      else (readMembers n t).map fun (members, t) => (ofMembers members, t)
    | _ => none

/-- The elements in front of the closing bracket, and what is behind it. -/
def readElements : Nat → List Char → Option (List Json × List Char)
  | 0, _ => none
  | n + 1, t => (readValue n (t.dropWhile isBlank)).bind fun (v, t) =>
    match t.dropWhile isBlank with
    | ',' :: t => (readElements n t).map fun (values, t) => (v :: values, t)
    | ']' :: t => some ([v], t)
    | _ => none

/-- The members in front of the closing brace, and what is behind it. -/
def readMembers : Nat → List Char → Option (List (List Char × Json) × List Char)
  | 0, _ => none
  | n + 1, t =>
    match t.dropWhile isBlank with
    | '"' :: t => (readString n t).bind fun (key, t) =>
      match t.dropWhile isBlank with
      | ':' :: t => (readValue n (t.dropWhile isBlank)).bind fun (v, t) =>
        match t.dropWhile isBlank with
        | ',' :: t => (readMembers n t).map fun (members, t) => ((key, v) :: members, t)
        | '\x7d' :: t => some ([(key, v)], t)
        | _ => none
      | _ => none
    | _ => none

end

/-- A text is read with as much fuel as it has characters. -/
def readText (t : List Char) : Option (Json × List Char) :=
  (readValue (t.length + 1) (t.dropWhile isBlank)).map fun (v, t) => (v, t.dropWhile isBlank)

end Json

open Json

/-- The reader. Where there is no value it reports an error at the start. -/
def plainReader : JsonReader where
  parse t := ((textChars t).bind readText).bind fun (v, u) => if u = [] then some v else none
  errorAt t :=
    match (textChars t).bind readText with
    | some (_, u) => if u = [] then none else some (t.length - (Utf8.encode u).length)
    | none => some 0
  parse_nil := by decide

namespace Json

theorem dropWhile_blank {a : List Char} (h : a.all isBlank) (t : List Char) :
    (a ++ t).dropWhile isBlank = t.dropWhile isBlank := by
  rw [List.dropWhile_append_of_pos]
  simpa using h

theorem dropWhile_of_not {c : Char} (h : isBlank c = false) (t : List Char) :
    (c :: t).dropWhile isBlank = c :: t := List.dropWhile_cons_of_neg (by simp [h])

theorem head_of_numbers {w : List Char} (h : w ∈ numbers) :
    ∃ c u, w = c :: u ∧ (c = '-' ∨ c.isDigit) := by
  obtain ⟨x, ⟨y, ⟨sign, hsign, digits, hdigits, rfl⟩, f, -, rfl⟩, e, -, rfl⟩ := h
  obtain ⟨⟨hne, hdigits⟩, -⟩ := hdigits
  obtain ⟨d, ds, rfl⟩ := List.exists_cons_of_ne_nil hne
  rcases hsign with hsign | hsign
  · obtain rfl := Language.mem_one _ |>.1 hsign
    exact ⟨d, _, rfl, .inr (hdigits d List.mem_cons_self)⟩
  · obtain rfl := Set.mem_singleton_iff.1 hsign
    exact ⟨'-', _, rfl, .inl rfl⟩

theorem isBlank_of_numbers {c : Char} (h : c = '-' ∨ c.isDigit) :
    isBlank c = false ∧ c ≠ ']' := by
  constructor
  · rw [isBlank, decide_eq_false_iff_not]
    rintro (rfl | rfl | rfl | rfl) <;> revert h <;> decide
  · rintro rfl
    revert h
    decide

theorem readValue_of_numbers {c : Char} (h : c = '-' ∨ c.isDigit) (n : Nat) (t : List Char) :
    readValue n (c :: t) = none := by
  rcases n with _ | n
  · rfl
  unfold readValue
  split
  all_goals first
    | rfl
    | rename_i heq
      obtain ⟨rfl, -⟩ := List.cons.inj heq
      exact absurd h (by decide)

/-- The first character of a value. -/
theorem Spells.head {J : JsonReader} {v : Json} {w : List Char} (h : Spells J (.value v) w) :
    ∃ c u, w = c :: u ∧ isBlank c = false ∧ c ≠ ']' := by
  cases h with
  | number hw _ =>
    obtain ⟨c, u, rfl, hc⟩ := head_of_numbers hw
    exact ⟨c, u, rfl, isBlank_of_numbers hc⟩
  | null => exact ⟨_, _, rfl, by decide, by decide⟩
  | yes => exact ⟨_, _, rfl, by decide, by decide⟩
  | no => exact ⟨_, _, rfl, by decide, by decide⟩
  | string _ => exact ⟨_, _, rfl, by decide, by decide⟩
  | emptyArray _ => exact ⟨_, _, rfl, by decide, by decide⟩
  | array _ => exact ⟨_, _, rfl, by decide, by decide⟩
  | emptyObject _ => exact ⟨_, _, rfl, by decide, by decide⟩
  | object _ => exact ⟨_, _, rfl, by decide, by decide⟩

/-- The first character of elements, and of members, behind the blanks. -/
theorem Spells.head_elements {J : JsonReader} {values : List Json} {w : List Char}
    (h : Spells J (.elements values) w) (t : List Char) :
    ((w ++ t).dropWhile isBlank).head? ≠ some ']' := by
  cases h with
  | element ha hv _ =>
    obtain ⟨c, u, rfl, hblank, hc⟩ := hv.head
    simp only [List.append_assoc, List.cons_append]
    rw [dropWhile_blank ha, dropWhile_of_not hblank]
    simpa using hc
  | elements ha hv _ _ =>
    obtain ⟨c, u, rfl, hblank, hc⟩ := hv.head
    simp only [List.append_assoc, List.cons_append]
    rw [dropWhile_blank ha, dropWhile_of_not hblank]
    simpa using hc

theorem Spells.head_members {J : JsonReader} {members : List (List Char × Json)} {w : List Char}
    (h : Spells J (.members members) w) (t : List Char) :
    ((w ++ t).dropWhile isBlank).head? ≠ some '\x7d' := by
  cases h with
  | member ha _ _ _ _ _ =>
    simp only [List.append_assoc, List.cons_append]
    rw [dropWhile_blank ha, dropWhile_of_not (by decide)]
    simp
  | members ha _ _ _ _ _ _ =>
    simp only [List.append_assoc, List.cons_append]
    rw [dropWhile_blank ha, dropWhile_of_not (by decide)]
    simp

/-- With fuel for all of its characters the text of an item is read. -/
def Item.Read (w : List Char) : Item → Prop
  | .value v => ∀ n t, w.length < n → readValue n (w ++ t) = some (v, t)
  | .elements values => ∀ n t, w.length + 1 < n →
    readElements n (w ++ ']' :: t) = some (values, t)
  | .members ms => ∀ n t, w.length + 1 < n → readMembers n (w ++ '\x7d' :: t) = some (ms, t)

theorem plainReader_number {w : List Char} (h : w ∈ numbers) :
    plainReader.parse (Utf8.encode w) = none := by
  obtain ⟨c, u, rfl, hc⟩ := head_of_numbers h
  change ((textChars _).bind readText).bind _ = none
  rw [textChars_encode, Option.bind_some, readText, dropWhile_of_not (isBlank_of_numbers hc).1,
    readValue_of_numbers hc]
  rfl

theorem read_of_spells {item : Item} {w : List Char} (h : Spells plainReader item w) :
    item.Read w := by
  induction h with
  | null | yes | no =>
    intro n t hn
    rcases n with _ | n
    · cases hn
    · rfl
  | number hw hparse => rw [plainReader_number hw] at hparse; cases hparse
  | @string w s hs =>
    intro n t hn
    rcases n with _ | n
    · cases hn
    have hlt : w.length < n := by
      simp only [List.length_append, List.length_cons] at hn
      omega
    rw [List.cons_append, List.cons_append, List.append_assoc, List.singleton_append]
    change (readString n (w ++ '"' :: t)).map _ = _
    rw [readString_of_stringText hs hlt]
    rfl
  | @emptyArray a ha =>
    intro n t hn
    rcases n with _ | n
    · cases hn
    rw [List.cons_append, List.cons_append, List.append_assoc, List.singleton_append]
    simp only [readValue]
    rw [dropWhile_blank ha, dropWhile_of_not (by decide)]
    rfl
  | @array values w hw ih =>
    intro n t hn
    rcases n with _ | n
    · cases hn
    rw [List.cons_append, List.cons_append, List.append_assoc, List.singleton_append]
    simp only [readValue]
    rw [if_neg (hw.head_elements _), ih]
    · rfl
    · simp only [List.length_append, List.length_cons] at hn
      omega
  | @emptyObject a ha =>
    intro n t hn
    rcases n with _ | n
    · cases hn
    rw [List.cons_append, List.cons_append, List.append_assoc, List.singleton_append]
    simp only [readValue]
    rw [dropWhile_blank ha, dropWhile_of_not (by decide)]
    rfl
  | @object members w hw ih =>
    intro n t hn
    rcases n with _ | n
    · cases hn
    rw [List.cons_append, List.cons_append, List.append_assoc, List.singleton_append]
    simp only [readValue]
    rw [if_neg (hw.head_members _), ih]
    · rfl
    · simp only [List.length_append, List.length_cons] at hn
      omega
  | @element a w b v ha hv hb ih =>
    intro n t hn
    rcases n with _ | n
    · cases hn
    obtain ⟨c, u, rfl, hblank, -⟩ := hv.head
    have hlt : (c :: u).length < n := by
      simp only [List.length_append, List.length_cons] at hn ⊢
      omega
    simp only [readElements, List.append_assoc]
    rw [dropWhile_blank ha, List.cons_append, dropWhile_of_not hblank, ← List.cons_append,
      ih n _ hlt]
    simp only [Option.bind_some]
    rw [dropWhile_blank hb, dropWhile_of_not (by decide)]
    rfl
  | @elements a w b u v values ha hv hb _ ih ih' =>
    intro n t hn
    rcases n with _ | n
    · cases hn
    obtain ⟨c, x, rfl, hblank, -⟩ := hv.head
    simp only [List.length_append, List.length_cons] at hn
    have hlt : (c :: x).length < n := by
      rw [List.length_cons]
      omega
    simp only [readElements, List.append_assoc]
    rw [dropWhile_blank ha, List.cons_append, dropWhile_of_not hblank, ← List.cons_append,
      ih n _ hlt]
    simp only [Option.bind_some]
    rw [dropWhile_blank hb, List.cons_append, dropWhile_of_not (by decide)]
    simp only []
    rw [ih' n t (by omega)]
    rfl
  | @member a k b c w d key v ha hk hb hc hv hd ih =>
    intro n t hn
    rcases n with _ | n
    · cases hn
    obtain ⟨e, x, rfl, hblank, -⟩ := hv.head
    simp only [List.length_append, List.length_cons] at hn
    have hlt : (e :: x).length < n := by
      rw [List.length_cons]
      omega
    simp only [readMembers, List.append_assoc, List.cons_append]
    rw [dropWhile_blank ha, dropWhile_of_not (by decide)]
    simp only []
    rw [readString_of_stringText hk (by omega)]
    simp only [Option.bind_some]
    rw [dropWhile_blank hb, dropWhile_of_not (by decide)]
    simp only []
    rw [dropWhile_blank hc, dropWhile_of_not hblank, ← List.cons_append, ih n _ hlt]
    simp only [Option.bind_some]
    rw [dropWhile_blank hd, dropWhile_of_not (by decide)]
    rfl
  | @members a k b c w d u key v members ha hk hb hc hv hd _ ih ih' =>
    intro n t hn
    rcases n with _ | n
    · cases hn
    obtain ⟨e, x, rfl, hblank, -⟩ := hv.head
    simp only [List.length_append, List.length_cons] at hn
    have hlt : (e :: x).length < n := by
      rw [List.length_cons]
      omega
    simp only [readMembers, List.append_assoc, List.cons_append]
    rw [dropWhile_blank ha, dropWhile_of_not (by decide)]
    simp only []
    rw [readString_of_stringText hk (by omega)]
    simp only [Option.bind_some]
    rw [dropWhile_blank hb, dropWhile_of_not (by decide)]
    simp only []
    rw [dropWhile_blank hc, dropWhile_of_not hblank, ← List.cons_append, ih n _ hlt]
    simp only [Option.bind_some]
    rw [dropWhile_blank hd, dropWhile_of_not (by decide)]
    simp only []
    rw [ih' n t (by omega)]
    rfl

/-- A text is read up to where it ends, in front of anything that is no blank. -/
theorem readText_of_isText {w : List Char} {v : Json} (h : IsText plainReader w v) {t : List Char}
    (ht : t.dropWhile isBlank = t) : readText (w ++ t) = some (v, t) := by
  obtain ⟨a, u, b, ha, hu, hb, rfl⟩ := h
  obtain ⟨c, x, hx, hblank, -⟩ := hu.head
  have hread := read_of_spells hu ((a ++ u ++ b ++ t).length + 1) (b ++ t) (by
    simp only [List.length_append]
    omega)
  have hdrop : (a ++ u ++ b ++ t).dropWhile isBlank = u ++ (b ++ t) := by
    rw [List.append_assoc, List.append_assoc, dropWhile_blank ha, hx, List.cons_append,
      dropWhile_of_not hblank]
  have hrest : (b ++ t).dropWhile isBlank = t := (dropWhile_blank hb t).trans ht
  rw [readText, hdrop, hread]
  exact congrArg (fun u => some (v, u)) hrest

end Json

theorem plainReader_correct : plainReader.Correct where
  parse_eq {w v} h := by
    have hread := readText_of_isText h (t := []) rfl
    rw [List.append_nil] at hread
    change ((textChars _).bind readText).bind _ = _
    rw [textChars_encode, Option.bind_some, hread]
    rfl
  errorAt_eq_none {w v} h := by
    have hread := readText_of_isText h (t := []) rfl
    rw [List.append_nil] at hread
    simp only [plainReader, textChars_encode, Option.bind_some, hread, if_true]
  errorAt_eq_some {w v c rest} h hc := by
    have hblank : (c :: rest).dropWhile isBlank = c :: rest := by
      refine dropWhile_of_not ?_ rest
      simp only [List.mem_cons, List.not_mem_nil, or_false] at hc
      rcases hc with rfl | rfl | rfl <;> rfl
    simp only [plainReader, textChars_encode, Option.bind_some, readText_of_isText h hblank]
    rw [if_neg (List.cons_ne_nil _ _), Utf8.encode_append, List.length_append, Nat.add_sub_cancel]

end LamaServer

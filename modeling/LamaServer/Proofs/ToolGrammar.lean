import LamaServer.ToolGrammar

/-!
# What the words of a rule spell

Where the words of the rules for the values are JSON texts, so are those of the rules for an object
and for an array of them.
-/

namespace LamaServer

namespace Json

/-! ## Strings as they are dumped -/

theorem codeUnit_digitChar : ∀ n < 0x20,
    codeUnit (Nat.digitChar (n / 4096 % 16)) (Nat.digitChar (n / 256 % 16))
      (Nat.digitChar (n / 16 % 16)) (Nat.digitChar (n % 16)) = some n := by
  decide

theorem charText_escapeChar (c : Char) : CharText (escapeChar c) c := by
  have hc (n : Nat) (h : c.toNat = n) : Char.ofNat n = c := h ▸ Char.ofNat_toNat c
  unfold escapeChar
  split_ifs with hb ht hn hf hr hquote hback hcontrol
  · exact .escape (congrArg some (hc _ hb))
  · exact .escape (congrArg some (hc _ ht))
  · exact .escape (congrArg some (hc _ hn))
  · exact .escape (congrArg some (hc _ hf))
  · exact .escape (congrArg some (hc _ hr))
  · exact .escape (congrArg some (hc _ hquote))
  · exact .escape (congrArg some (hc _ hback))
  · have hunit := CharText.unit (codeUnit_digitChar c.toNat (by omega)) (.inl (by omega))
    rw [Char.ofNat_toNat] at hunit
    exact hunit
  · refine .plain ?_ ?_ (by omega)
    · rintro rfl
      exact hquote rfl
    · rintro rfl
      exact hback rfl

theorem stringText_dumpEscaped : ∀ s, StringText (dumpEscaped s) s
  | [] => .nil
  | c :: s => .cons (charText_escapeChar c) (stringText_dumpEscaped s)

/-! ## Blanks around a text -/

section Blanks

variable {J : JsonReader} {v : Json} {w a : List Char}

theorem Spells.isText (h : Spells J (.value v) w) : IsText J w v :=
  ⟨[], w, [], rfl, h, rfl, by simp⟩

theorem IsText.append (h : IsText J w v) (ha : a.all isBlank) : IsText J (w ++ a) v := by
  obtain ⟨b, u, c, hb, hu, hc, rfl⟩ := h
  exact ⟨b, u, c ++ a, hb, hu, by rw [List.all_append, hc, ha]; rfl, by simp⟩

end Blanks

end Json

open Json SchemaConverter

namespace SchemaConverter

theorem mem_literal {s : String} {w : List Char} : w ∈ literal s ↔ w = s.toList := Iff.rfl

theorem all_of_repetition {L : Language Char} {p : Char → Bool} (hL : ∀ w ∈ L, w.all p)
    {lo : ℕ} {hi : Option ℕ} {w : List Char} (h : w ∈ repetition L lo hi) : w.all p := by
  obtain ⟨n, -, -, hw⟩ := h
  obtain ⟨ws, rfl, -, hws⟩ := Language.mem_pow.1 hw
  rw [List.all_flatten, List.all_eq_true]
  exact fun w hw => hL w (hws w hw)

theorem all_of_space {w : List Char} (h : w ∈ space) : w.all isBlank := by
  rcases h with (h | h) | ⟨u, hu, v, hv, rfl⟩
  · rw [(Language.mem_one _).1 h]
    rfl
  · rw [mem_literal.1 h]
    rfl
  · have hline := all_of_repetition (p := isBlank) (fun w hw => by rw [mem_literal.1 hw]; rfl) hu
    have hblank := all_of_repetition (p := isBlank) (fun w hw => by
      obtain ⟨c, hc, rfl⟩ := hw
      have : isBlank c := by rcases List.mem_pair.1 hc with rfl | rfl <;> rfl
      simpa using this) hv
    rw [List.all_append, hline, hblank]
    rfl

/-- What comes behind a separator. -/
theorem mem_joined_cons {L L' : Language Char} {Ls : List (Language Char)} {w : List Char} :
    w ∈ joined comma (L :: L' :: Ls) ↔ ∃ u ∈ L, ∃ b ∈ space, ∃ v ∈ joined comma (L' :: Ls),
      w = u ++ ',' :: (b ++ v) := by
  constructor
  · rintro ⟨x, ⟨u, hu, y, ⟨c, hc, b, hb, rfl⟩, rfl⟩, v, hv, rfl⟩
    obtain rfl := mem_literal.1 hc
    exact ⟨u, hu, b, hb, v, hv, by simp⟩
  · rintro ⟨u, hu, b, hb, v, hv, rfl⟩
    exact ⟨_, ⟨u, hu, _, ⟨_, rfl, b, hb, rfl⟩, rfl⟩, v, hv, by simp⟩

section Spelled

variable {J : JsonReader} {w : List Char}

theorem spells_elements {Ls : List (Language Char)} {vs : List Json}
    (h : List.Forall₂ (fun L v => ∀ u ∈ L, IsText J u v) Ls vs) (hne : Ls ≠ []) :
    ∀ {w a : List Char}, w ∈ joined comma Ls → a.all isBlank → Spells J (.elements vs) (a ++ w) := by
  induction h with
  | nil => exact absurd rfl hne
  | @cons L v Ls vs hL hLs ih =>
    intro w a hw ha
    cases hLs with
    | nil =>
      obtain ⟨b, u, c, hb, hu, hc, rfl⟩ := hL w hw
      have hab : (a ++ b).all isBlank := by rw [List.all_append, ha, hb]; rfl
      simpa using Spells.element hab hu hc
    | cons hL' hLs =>
      obtain ⟨x, hx, d, hd, y, hy, rfl⟩ := mem_joined_cons.1 hw
      obtain ⟨b, u, c, hb, hu, hc, rfl⟩ := hL x hx
      have hab : (a ++ b).all isBlank := by rw [List.all_append, ha, hb]; rfl
      have hrest := ih (by simp) hy (all_of_space hd)
      simpa using Spells.elements hab hu hc hrest

/-- An array of JSON texts. -/
theorem isText_array {Ls : List (Language Char)} {vs : List Json}
    (h : List.Forall₂ (fun L v => ∀ u ∈ L, IsText J u v) Ls vs) (hne : Ls ≠ [])
    (hw : w ∈ literal "[" * space * joined comma Ls * literal "]" * space) :
    IsText J w (.array vs) := by
  obtain ⟨_, ⟨_, ⟨_, ⟨_, ho, a, ha, rfl⟩, x, hx, rfl⟩, _, hc, rfl⟩, b, hb, rfl⟩ := hw
  obtain rfl := mem_literal.1 ho
  obtain rfl := mem_literal.1 hc
  have hspells := spells_elements h hne hx (all_of_space ha)
  have htext := (Spells.array hspells).isText.append (all_of_space hb)
  simpa using htext

/-- The words of a property, with the blanks in front. -/
theorem spells_kv {property : String × Language Char} {v : Json}
    (h : ∀ u ∈ property.2, IsText J u v) {w a : List Char} (hw : w ∈ kv property) : ∃ b c u d, b.all isBlank ∧ c.all isBlank ∧ Spells J (.value v) u ∧
      d.all isBlank ∧ a ++ w =
        a ++ '"' :: dumpEscaped property.1.toList ++ '"' :: b ++ ':' :: c ++ u ++ d := by
  obtain ⟨_, ⟨_, ⟨_, ⟨_, hk, b, hb, rfl⟩, _, hcolon, rfl⟩, c, hc, rfl⟩, x, hx, rfl⟩ := hw
  obtain rfl := Set.mem_singleton_iff.1 hk
  obtain rfl := mem_literal.1 hcolon
  obtain ⟨e, u, d, he, hu, hd, rfl⟩ := h x hx
  refine ⟨b, c ++ e, u, d, all_of_space hb, ?_, hu, hd, ?_⟩
  · rw [List.all_append, all_of_space hc, he]
    rfl
  · simp [Json.dump, dumpString]

theorem spells_members {properties : List (String × Language Char)}
    {ms : List (List Char × Json)}
    (h : List.Forall₂ (fun p m => p.1.toList = m.1 ∧ ∀ u ∈ p.2, IsText J u m.2) properties ms)
    (hne : properties ≠ []) : ∀ {w a : List Char}, w ∈ joined comma (properties.map kv) →
      a.all isBlank → Spells J (.members ms) (a ++ w) := by
  induction h with
  | nil => exact absurd rfl hne
  | @cons p m properties ms hp hps ih =>
    obtain ⟨key, v⟩ := m
    obtain ⟨rfl, hp⟩ := hp
    intro w a hw ha
    cases hps with
    | nil =>
      obtain ⟨b, c, u, d, hb, hc, hu, hd, hw⟩ := spells_kv hp hw (a := a)
      rw [hw]
      exact .member ha (stringText_dumpEscaped _) hb hc hu hd
    | cons hp' hps =>
      obtain ⟨x, hx, e, he, y, hy, rfl⟩ := mem_joined_cons.1 hw
      obtain ⟨b, c, u, d, hb, hc, hu, hd, hw⟩ := spells_kv hp hx (a := a)
      have hrest := ih (by simp) hy (all_of_space he)
      rw [← List.append_assoc, hw]
      exact .members ha (stringText_dumpEscaped _) hb hc hu hd hrest

/-- An object with properties of JSON texts. -/
theorem isText_object {properties : List (String × Language Char)}
    {ms : List (List Char × Json)}
    (h : List.Forall₂ (fun p m => p.1.toList = m.1 ∧ ∀ u ∈ p.2, IsText J u m.2) properties ms)
    (hne : properties ≠ []) (hnodup : (ms.map (·.1)).Nodup) (hw : w ∈ object properties) :
    IsText J w (.object ms) := by
  obtain ⟨_, ⟨_, ⟨_, ⟨_, ho, a, ha, rfl⟩, x, hx, rfl⟩, _, hc, rfl⟩, b, hb, rfl⟩ := hw
  obtain rfl := mem_literal.1 ho
  obtain rfl := mem_literal.1 hc
  have hspells := spells_members h hne hx (all_of_space ha)
  have htext := (Spells.object hspells).isText.append (all_of_space hb)
  rw [ofMembers_of_nodup hnodup] at htext
  simpa using htext

end Spelled

/-! ## Rules taken apart -/

theorem mem_union {Ls : List (Language Char)} {w : List Char} :
    w ∈ union Ls ↔ ∃ L ∈ Ls, w ∈ L := by
  induction Ls with
  | nil => simp [union]
  | cons L Ls ih =>
    rw [union] at ih ⊢
    rw [List.sum_cons, Language.mem_add, ih, List.exists_mem_cons_iff]

/-- A language of one word of `L`. -/
def Chooses (L M : Language Char) : Prop := ∃ u ∈ L, M = {u}

theorem mem_kv {key : String} {L : Language Char} {w : List Char} (h : w ∈ kv (key, L)) :
    ∃ M, Chooses L M ∧ w ∈ kv (key, M) := by
  obtain ⟨a, ha, u, hu, rfl⟩ := h
  exact ⟨{u}, ⟨u, hu, rfl⟩, a, ha, u, rfl, rfl⟩

theorem mem_joined_kv {properties : List (String × Language Char)} : ∀ {w : List Char},
    w ∈ joined comma (properties.map kv) → ∃ chosen : List (String × Language Char),
      List.Forall₂ (fun p q => q.1 = p.1 ∧ Chooses p.2 q.2) properties chosen ∧
        w ∈ joined comma (chosen.map kv) := by
  induction properties with
  | nil => exact fun h => ⟨[], .nil, h⟩
  | cons p properties ih =>
    intro w h
    cases properties with
    | nil =>
      obtain ⟨M, hM, hw⟩ := mem_kv h
      exact ⟨[(p.1, M)], .cons ⟨rfl, hM⟩ .nil, hw⟩
    | cons p' properties =>
      obtain ⟨u, hu, b, hb, v, hv, rfl⟩ := mem_joined_cons.1 h
      obtain ⟨M, hM, hu⟩ := mem_kv hu
      obtain ⟨chosen, hchosen, hv⟩ := ih hv
      refine ⟨(p.1, M) :: chosen, .cons ⟨rfl, hM⟩ hchosen, ?_⟩
      cases hchosen with
      | cons hq hqs => exact mem_joined_cons.2 ⟨u, hu, b, hb, v, hv, rfl⟩

/-- A word of an object has one word for each property. -/
theorem mem_object {properties : List (String × Language Char)} {w : List Char}
    (h : w ∈ object properties) : ∃ chosen : List (String × Language Char),
      List.Forall₂ (fun p q => q.1 = p.1 ∧ Chooses p.2 q.2) properties chosen ∧
        w ∈ object chosen := by
  obtain ⟨_, ⟨_, ⟨o, ho, x, hx, rfl⟩, c, hc, rfl⟩, b, hb, rfl⟩ := h
  obtain ⟨chosen, hchosen, hx⟩ := mem_joined_kv hx
  exact ⟨chosen, hchosen, _, ⟨_, ⟨o, ho, x, hx, rfl⟩, c, hc, rfl⟩, b, hb, rfl⟩

theorem mem_object_single {k : String} {L : Language Char} {w : List Char}
    (h : w ∈ object [(k, L)]) : ∃ u ∈ L, w ∈ object [(k, {u})] := by
  obtain ⟨chosen, hchosen, hw⟩ := mem_object h
  simp only [List.forall₂_cons_left_iff, List.forall₂_nil_left_iff] at hchosen
  obtain ⟨⟨_, _⟩, _, ⟨rfl, u, hu, rfl⟩, rfl, rfl⟩ := hchosen
  exact ⟨u, hu, hw⟩

theorem mem_object_of_mem {k : String} {L : Language Char} {u w : List Char} (hu : u ∈ L)
    (h : w ∈ object [(k, {u})]) : w ∈ object [(k, L)] := by
  obtain ⟨_, ⟨_, ⟨o, ho, _, ⟨a, ha, v, hv, rfl⟩, rfl⟩, c, hc, rfl⟩, b, hb, rfl⟩ := h
  obtain rfl := Set.mem_singleton_iff.1 hv
  exact ⟨_, ⟨_, ⟨o, ho, _, ⟨a, ha, v, hu, rfl⟩, rfl⟩, c, hc, rfl⟩, b, hb, rfl⟩

theorem mem_object_pair {k k' : String} {L L' : Language Char} {w : List Char}
    (h : w ∈ object [(k, L), (k', L')]) :
    ∃ u ∈ L, ∃ u' ∈ L', w ∈ object [(k, {u}), (k', {u'})] := by
  obtain ⟨chosen, hchosen, hw⟩ := mem_object h
  simp only [List.forall₂_cons_left_iff, List.forall₂_nil_left_iff] at hchosen
  obtain ⟨⟨_, _⟩, _, ⟨rfl, u, hu, rfl⟩, ⟨⟨_, _⟩, _, ⟨rfl, u', hu', rfl⟩, rfl, rfl⟩, rfl⟩ := hchosen
  exact ⟨u, hu, u', hu', hw⟩

theorem mem_object_triple {k k' k'' : String} {L L' L'' : Language Char} {w : List Char}
    (h : w ∈ object [(k, L), (k', L'), (k'', L'')]) :
    ∃ u ∈ L, ∃ u' ∈ L', ∃ u'' ∈ L'', w ∈ object [(k, {u}), (k', {u'}), (k'', {u''})] := by
  obtain ⟨chosen, hchosen, hw⟩ := mem_object h
  simp only [List.forall₂_cons_left_iff, List.forall₂_nil_left_iff] at hchosen
  obtain ⟨⟨_, _⟩, _, ⟨rfl, u, hu, rfl⟩, ⟨⟨_, _⟩, _, ⟨rfl, u', hu', rfl⟩,
    ⟨⟨_, _⟩, _, ⟨rfl, u'', hu'', rfl⟩, rfl, rfl⟩, rfl⟩, rfl⟩ := hchosen
  exact ⟨u, hu, u', hu', u'', hu'', hw⟩

/-- The words of an item, each of them one of `words c`, with separators between them. -/
theorem mem_repeated {α : Type} {Q : α → Prop} {words : α → Language Char} {item : Language Char}
    (hitem : ∀ u ∈ item, ∃ c, Q c ∧ u ∈ words c) : ∀ (n : ℕ) {w : List Char},
      w ∈ item * (comma * item) ^ n → ∃ cs : List α, cs.length = n + 1 ∧ (∀ c ∈ cs, Q c) ∧
        w ∈ joined comma (cs.map words) := by
  intro n
  induction n with
  | zero =>
    intro w h
    rw [pow_zero, mul_one] at h
    obtain ⟨c, hc, hw⟩ := hitem w h
    exact ⟨[c], rfl, by simpa using hc, hw⟩
  | succ n ih =>
    intro w h
    rw [pow_succ', mul_assoc comma item] at h
    obtain ⟨u, hu, _, ⟨_, ⟨_, hcomma, b, hb, rfl⟩, v, hv, rfl⟩, rfl⟩ := h
    obtain rfl := mem_literal.1 hcomma
    obtain ⟨c, hc, hu⟩ := hitem u hu
    obtain ⟨cs, hlen, hcs, hv⟩ := ih hv
    refine ⟨c :: cs, by rw [List.length_cons, hlen], List.forall_mem_cons.2 ⟨hc, hcs⟩, ?_⟩
    obtain ⟨c', cs, rfl⟩ := List.exists_cons_of_length_eq_add_one hlen
    exact mem_joined_cons.2 ⟨u, hu, b, hb, v, hv, by simp⟩

theorem mem_array {α : Type} {Q : α → Prop} {words : α → Language Char} {item : Language Char}
    (hitem : ∀ u ∈ item, ∃ c, Q c ∧ u ∈ words c) {maxItems : Option ℕ} {w : List Char}
    (h : w ∈ array item maxItems) : ∃ cs : List α, cs ≠ [] ∧
      (∀ m ∈ maxItems, cs.length ≤ m - 1 + 1) ∧ (∀ c ∈ cs, Q c) ∧
        w ∈ literal "[" * space * joined comma (cs.map words) * literal "]" * space := by
  obtain ⟨_, ⟨_, ⟨o, ho, _, ⟨u, hu, v, ⟨n, -, hn, hv⟩, rfl⟩, rfl⟩, c, hc, rfl⟩, b, hb, rfl⟩ := h
  obtain ⟨cs, hlen, hcs, hx⟩ := mem_repeated hitem n ⟨u, hu, v, hv, rfl⟩
  refine ⟨cs, List.ne_nil_of_length_eq_add_one hlen, fun m hm => ?_, hcs,
    _, ⟨_, ⟨o, ho, _, hx, rfl⟩, c, hc, rfl⟩, b, hb, rfl⟩
  rw [hlen]
  exact Nat.succ_le_succ (hn (m - 1) (Option.mem_map_of_mem _ hm))

end SchemaConverter

end LamaServer

import LamaServer.Escapes
import Mathlib.Data.List.TakeWhile

/-!
# What becomes of escapes

The text that has been written takes no more room than the text that has been read, so the rest of
the buffer is still the rest of the string: the loop replaces escapes from left to right. What it
takes for two hexadecimal digits is what `strtol` reads to the end, which may start with a blank or
a sign.
-/

namespace LamaServer

/-! ## Replacing escapes -/

/-- The escape at the start of a text, with its length; `hex` reads the two characters behind
`\x`. -/
def escapeAt (hex : UInt8 → UInt8 → Option UInt8) : Text → Option (UInt8 × Nat)
  | b :: c :: text =>
    if b = ascii '\\' then
      match simpleEscape c with
      | some d => some (d, 2)
      | none =>
        match text with
        | h :: l :: _ => if c = ascii 'x' then (hex h l).map fun d => (d, 4) else none
        | _ => none
    else none
  | _ => none

theorem escapeAt_x (hex : UInt8 → UInt8 → Option UInt8) (h l : UInt8) (text : Text) :
    escapeAt hex (ascii '\\' :: ascii 'x' :: h :: l :: text) = (hex h l).map fun d => (d, 4) := rfl

/-- The text with a character for each escape, from left to right. -/
def replaceEscapes (hex : UInt8 → UInt8 → Option UInt8) : Text → Text
  | [] => []
  | c :: text =>
    match escapeAt hex (c :: text) with
    | some (d, n) => d :: replaceEscapes hex (text.drop (n - 1))
    | none => c :: replaceEscapes hex text
  termination_by text => text.length

/-- The rests of a text at which an escape is looked for. -/
def escapeRests (hex : UInt8 → UInt8 → Option UInt8) : Text → List Text
  | [] => []
  | c :: text =>
    match escapeAt hex (c :: text) with
    | some (_, n) => (c :: text) :: escapeRests hex (text.drop (n - 1))
    | none => (c :: text) :: escapeRests hex text
  termination_by text => text.length

/-- Two hexadecimal digits. -/
def hexPair (h l : UInt8) : Option UInt8 := do
  let high ← hexValue h
  let low ← hexValue l
  return UInt8.ofNat (16 * high + low)

/-- What `strtol` reads to the end. -/
def strtolPair (h l : UInt8) : Option UInt8 :=
  if (strtol16 [h, l]).2 = 2 then some (UInt8.ofInt (strtol16 [h, l]).1) else none

section Replace

variable {hex : UInt8 → UInt8 → Option UInt8} {c e d : UInt8} {text : Text} {n : Nat}

theorem replaceEscapes_some (h : escapeAt hex (c :: text) = some (d, n)) :
    replaceEscapes hex (c :: text) = d :: replaceEscapes hex (text.drop (n - 1)) := by
  rw [replaceEscapes, h]

theorem replaceEscapes_none (h : escapeAt hex (c :: text) = none) :
    replaceEscapes hex (c :: text) = c :: replaceEscapes hex text := by
  rw [replaceEscapes, h]

theorem escapeAt_bounds : ∀ {text : Text}, escapeAt hex text = some (d, n) →
    2 ≤ n ∧ n ≤ text.length
  | [], h | [_], h => by cases h
  | b :: c :: text, h => by
    by_cases hb : b = ascii '\\'
    · rcases hsimple : simpleEscape c with _ | d'
      · rcases text with _ | ⟨x, _ | ⟨y, text⟩⟩ <;> simp [escapeAt, hb, hsimple] at h
        obtain ⟨-, _, -, -, rfl⟩ := h
        exact ⟨by decide, by simp⟩
      · simp [escapeAt, hb, hsimple] at h
        exact ⟨h.2.le, by simp [← h.2]⟩
    · simp [escapeAt, hb] at h

theorem escapeAt_of_ne (h : c ≠ ascii '\\') : escapeAt hex (c :: text) = none := by
  cases text with
  | nil => rfl
  | cons e text => simp [escapeAt, h]

/-- A backslash behind a backslash is an escape. -/
theorem ne_backslash (h : escapeAt hex (ascii '\\' :: e :: text) = none) : e ≠ ascii '\\' := by
  rintro rfl
  cases h

end Replace

/-! ## The two characters behind `\x` -/

section Pair

variable {h l d : UInt8} {v w : Nat}

/-- A blank or a sign, which `strtol` passes over in front of a digit. -/
def isPassed (c : UInt8) : Bool := isSpace c ∨ c = ascii '+' ∨ c = ascii '-'

theorem hexValue_range (hv : hexValue h = some v) : v < 16 ∧
    (48 ≤ h.toNat ∧ h.toNat ≤ 57 ∨ 97 ≤ h.toNat ∧ h.toNat ≤ 102 ∨
      65 ≤ h.toNat ∧ h.toNat ≤ 70) := by
  have h48 : UInt8.toNat 48 = 48 := rfl
  have h57 : UInt8.toNat 57 = 57 := rfl
  have h97 : UInt8.toNat 97 = 97 := rfl
  have h102 : UInt8.toNat 102 = 102 := rfl
  have h65 : UInt8.toNat 65 = 65 := rfl
  have h70 : UInt8.toNat 70 = 70 := rfl
  unfold hexValue at hv
  simp only [UInt8.le_iff_toNat_le] at hv
  split_ifs at hv <;> cases hv <;> omega

theorem not_isPassed_of_hex (hv : hexValue h = some v) :
    (isSpace h = false ∧ h ≠ ascii '+' ∧ h ≠ ascii '-') ∧ h ≠ 0 := by
  obtain ⟨-, hr⟩ := hexValue_range hv
  have hplus : (ascii '+').toNat = 43 := rfl
  have hminus : (ascii '-').toNat = 45 := rfl
  have hzero : UInt8.toNat 0 = 0 := rfl
  simp [isSpace, UInt8.le_iff_toNat_le, ← UInt8.toNat_inj]
  omega

theorem strtol16_digits (hh : hexValue h = some v) (hl : hexValue l = some w) :
    strtol16 [h, l] = (((16 * v + w : Nat) : Int), 2) := by
  obtain ⟨hh', hh0⟩ := not_isPassed_of_hex hh
  obtain ⟨-, hl0⟩ := not_isPassed_of_hex hl
  simp [strtol16, hh0, hl0, hh', hh, hl, hexDigits]

theorem strtol16_passed (hh : isPassed h) (hl : hexValue l = some w) :
    strtol16 [h, l] = (if h = ascii '-' then -(w : Int) else w, 2) := by
  obtain ⟨hl', hl0⟩ := not_isPassed_of_hex hl
  simp only [isPassed, decide_eq_true_eq] at hh
  rcases hh with hh | rfl | rfl
  · have hh0 : h ≠ 0 := by
      rintro rfl
      revert hh
      decide
    have hminus : h ≠ ascii '-' := by
      rintro rfl
      revert hh
      decide
    simp [strtol16, hh0, hl0, hl', hh, hl, hminus, hexDigits]
  · have hspace : isSpace (ascii '+') = false := rfl
    have hh0 : ascii '+' ≠ 0 := by decide
    have hminus : ascii '+' ≠ ascii '-' := by decide
    simp [strtol16, hspace, hl0, hh0, hminus, hl, hexDigits]
  · have hspace : isSpace (ascii '-') = false := rfl
    have hh0 : ascii '-' ≠ 0 := by decide
    simp [strtol16, hspace, hl0, hh0, hl, hexDigits]

/-- The first character is neither a digit nor passed over. -/
theorem strtol16_first (hh : hexValue h = none) (hp : isPassed h = false) :
    (strtol16 [h, l]).2 ≠ 2 := by
  simp [isPassed] at hp
  by_cases hh0 : h = 0
  · simp [strtol16, hh0, hexDigits]
  · by_cases hl0 : l = 0
    · simp [strtol16, hh0, hl0, hp, hh, hexDigits]
    · simp [strtol16, hh0, hl0, hp, hh, hexDigits]

/-- The second character is no digit. -/
theorem strtol16_second (hl : hexValue l = none) : (strtol16 [h, l]).2 ≠ 2 := by
  rcases hh : hexValue h with _ | v
  · rcases hp : isPassed h with _ | _
    · exact strtol16_first hh hp
    · have hh0 : h ≠ 0 := by
        rintro rfl
        revert hp
        decide
      simp only [isPassed, decide_eq_true_eq] at hp
      by_cases hl0 : l = 0
      · rcases hp with hp | rfl | rfl
        · simp [strtol16, hh0, hl0, hp, hexDigits]
        · simp [strtol16, hh0, hl0, show isSpace (ascii '+') = false from rfl, hexDigits]
        · simp [strtol16, hh0, hl0, show isSpace (ascii '-') = false from rfl, hexDigits]
      · rcases hp with hp | rfl | rfl
        · by_cases hspace : isSpace l
          · simp [strtol16, hh0, hl0, hp, hspace, hexDigits]
          · by_cases hsign : l = ascii '+' ∨ l = ascii '-'
            · simp [strtol16, hh0, hl0, hp, hspace, hsign, hexDigits]
            · simp [strtol16, hh0, hl0, hp, hspace, hsign, hl, hexDigits]
        · simp [strtol16, hh0, hl0, show isSpace (ascii '+') = false from rfl, hl, hexDigits]
        · simp [strtol16, hh0, hl0, show isSpace (ascii '-') = false from rfl, hl, hexDigits]
  · obtain ⟨hh', hh0⟩ := not_isPassed_of_hex hh
    by_cases hl0 : l = 0
    · simp [strtol16, hh0, hl0, hh', hh, hexDigits]
    · simp [strtol16, hh0, hl0, hh', hh, hl, hexDigits]

theorem strtolPair_of_hexPair (h' : hexPair h l = some d) : strtolPair h l = some d := by
  obtain ⟨v, hv, hrest⟩ := Option.bind_eq_some_iff.1 h'
  obtain ⟨w, hw, hd⟩ := Option.bind_eq_some_iff.1 hrest
  cases hd
  rw [strtolPair, strtol16_digits hv hw, if_pos rfl]
  refine congrArg some (UInt8.toNat_inj.1 ?_)
  rw [UInt8.ofInt, UInt8.toNat_ofNat', UInt8.toNat_ofNat']
  omega

/-- A digit that is passed over to is a small number, or minus one. -/
theorem strtolPair_of_passed (hh : isPassed h) (hl : (hexValue l).isSome) :
    ∃ d ≠ ascii '\\', strtolPair h l = some d := by
  obtain ⟨w, hw⟩ := Option.isSome_iff_exists.1 hl
  have hlt := (hexValue_range hw).1
  refine ⟨_, ?_, by rw [strtolPair, strtol16_passed hh hw, if_pos rfl]⟩
  have hsmall : ∀ w < 16, UInt8.ofInt (w : Nat) ≠ ascii '\\' ∧
      UInt8.ofInt (-(w : Nat)) ≠ ascii '\\' := by decide
  split_ifs
  · exact (hsmall w hlt).2
  · exact (hsmall w hlt).1

theorem hexPair_of_passed (hh : isPassed h) : hexPair h l = none := by
  rcases hv : hexValue h with _ | v
  · simp [hexPair, hv]
  · obtain ⟨hh', -⟩ := not_isPassed_of_hex hv
    simp [isPassed, hh'] at hh

theorem strtolPair_eq_hexPair (h' : ¬(isPassed h ∧ (hexValue l).isSome)) :
    strtolPair h l = hexPair h l := by
  rcases hw : hexValue l with _ | w
  · rw [strtolPair, if_neg (strtol16_second hw)]
    cases hv : hexValue h <;> simp [hexPair, hv, hw]
  · rcases hv : hexValue h with _ | v
    · have hp : isPassed h = false := by
        rw [← Bool.not_eq_true]
        exact fun hp => h' ⟨hp, by rw [hw]; rfl⟩
      rw [strtolPair, if_neg (strtol16_first hv hp)]
      simp [hexPair, hv]
    · have hpair : hexPair h l = some (UInt8.ofNat (16 * v + w)) := by simp [hexPair, hv, hw]
      rw [hpair, strtolPair_of_hexPair hpair]

end Pair

/-! ## One round of the loop -/

namespace EscapeState

variable {st st' : EscapeState} {w text : Text} {c d e : UInt8} {n len : Nat}

/-- From `st` to `st'`, `n` characters are read and `w` is written. -/
structure Round (st st' : EscapeState) (w : Text) (n : Nat) : Prop where
  inputIdx : st'.inputIdx = st.inputIdx + n
  outputIdx : st'.outputIdx = st.outputIdx + w.length
  written : st'.input.take st'.outputIdx = st.input.take st.outputIdx ++ w
  unread : st'.input.drop st'.inputIdx = st.input.drop st'.inputIdx
  length : st'.input.length = st.input.length
  writes : ∃ ws, st'.writes = st.writes ++ ws ∧ ∀ p ∈ ws, p.1 ≤ p.2

theorem take_set (hlt : st.outputIdx < st.input.length) :
    (st.input.set st.outputIdx c).take (st.outputIdx + 1) = st.input.take st.outputIdx ++ [c] := by
  rw [List.set_eq_take_append_cons_drop, if_pos hlt, List.take_append,
    List.length_take_of_le (Nat.le_of_lt hlt), Nat.add_sub_cancel_left, List.take_take,
    Nat.min_eq_right (Nat.le_succ _)]
  rfl

/-- A character is written after `m` characters have been read and before `n` have. -/
theorem round_put {m : Nat} (hlt : st.outputIdx < st.input.length)
    (hle : st.outputIdx ≤ st.inputIdx + m) (hmn : m < n) :
    Round st (((st.advance m).put c).advance (n - m)) [c] n where
  inputIdx := by simp only [advance, put]; omega
  outputIdx := rfl
  written := take_set hlt
  unread := by
    simp only [advance, put]
    exact List.drop_set_of_lt (by omega)
  length := List.length_set ..
  writes := ⟨[(st.outputIdx, st.inputIdx + m)], rfl, by simpa using hle⟩

/-- One more character is written before the last of the `n` is passed. -/
theorem Round.put (h : Round st (st'.advance 1) w n) (hlt : st'.outputIdx < st'.input.length)
    (hle : st'.outputIdx ≤ st'.inputIdx) : Round st ((st'.put c).advance 1) (w ++ [c]) n where
  inputIdx := h.inputIdx
  outputIdx := by
    rw [List.length_append, ← Nat.add_assoc, ← h.outputIdx]
    rfl
  written := (take_set hlt).trans (by rw [← List.append_assoc, ← h.written]; rfl)
  unread := (List.drop_set_of_lt (Nat.lt_succ_of_le hle)).trans h.unread
  length := (List.length_set ..).trans h.length
  writes := by
    obtain ⟨ws, hws, hall⟩ := h.writes
    refine ⟨ws ++ [(st'.outputIdx, st'.inputIdx)], ?_, fun p hp => ?_⟩
    · rw [← List.append_assoc, ← hws]
      rfl
    · rcases List.mem_append.1 hp with hp | hp
      · exact hall p hp
      · rw [List.mem_singleton.1 hp]
        exact hle

theorem get_of_drop {i : Nat} (h : st.input.drop i = text) (k : Nat) :
    st.get (i + k) = text.getD k 0 := by
  rw [get, List.getD_eq_getElem?_getD, ← List.getElem?_drop, h, ← List.getD_eq_getElem?_getD]

/-- What a round writes for the start of the rest, and how much of it is read. -/
def roundOf : Text → Text × Nat
  | [] => ([], 0)
  | c :: text =>
    match escapeAt strtolPair (c :: text) with
    | some (d, n) => ([d], n)
    | none =>
      match text with
      | [] => ([c], 1)
      | e :: _ => if c = ascii '\\' then ([c, e], 2) else ([c], 1)

theorem length_of_drop (h : st.input.drop st.inputIdx = text) (hne : text ≠ []) :
    st.input.length = st.inputIdx + text.length := by
  have hlen := congrArg List.length h
  have hpos := List.length_pos_iff.2 hne
  rw [List.length_drop] at hlen
  omega

/-- The two characters that stay when there is no escape. -/
theorem round_two (hinv : st.outputIdx ≤ st.inputIdx)
    (hrest : st.input.drop st.inputIdx = c :: e :: text) :
    Round st ((((st.advance 1).put c).put (((st.advance 1).put c).get (st.inputIdx + 1))).advance 1)
      [c, e] 2 := by
  have hlen := length_of_drop hrest (List.cons_ne_nil _ _)
  rw [List.length_cons, List.length_cons] at hlen
  have he : ((st.advance 1).put c).get (st.inputIdx + 1) = e := by
    have hset : ((st.advance 1).put c).get (st.inputIdx + 1) = st.get (st.inputIdx + 1) := by
      simp only [get, advance, put, List.getD_eq_getElem?_getD]
      rw [List.getElem?_set_ne (by omega)]
    exact hset.trans (get_of_drop hrest 1)
  have hfirst : Round st (((st.advance 1).put c).advance 1) [c] 2 :=
    round_put (m := 1) (by omega) (Nat.le_succ_of_le hinv) (Nat.lt_succ_self 1)
  rw [he]
  refine hfirst.put ?_ (Nat.succ_le_succ hinv)
  simp only [advance, put, List.length_set]
  omega

/-- The `switch`. -/
theorem round_escape (hinv : st.outputIdx ≤ st.inputIdx)
    (hrest : st.input.drop st.inputIdx = ascii '\\' :: e :: text) :
    Round st (((st.advance 1).escape st.input.length).advance 1)
      (roundOf (ascii '\\' :: e :: text)).1 (roundOf (ascii '\\' :: e :: text)).2 := by
  have hlen := length_of_drop hrest (List.cons_ne_nil _ _)
  rw [List.length_cons, List.length_cons] at hlen
  have hlt : st.outputIdx < st.input.length := by omega
  have he : (st.advance 1).get (st.advance 1).inputIdx = e := get_of_drop hrest 1
  rw [escape, he]
  rcases hsimple : simpleEscape e with _ | d
  · have htwo := round_two hinv hrest
    rcases text with _ | ⟨h, _ | ⟨l, text⟩⟩
    · have hround : roundOf [ascii '\\', e] = ([ascii '\\', e], 2) := by
        simp [roundOf, escapeAt, hsimple]
      rw [hround]
      dsimp only
      rw [if_neg (fun hx => by simp only [advance, List.length_nil] at hx hlen; omega)]
      exact htwo
    · have hround : roundOf [ascii '\\', e, h] = ([ascii '\\', e], 2) := by
        simp [roundOf, escapeAt, hsimple]
      rw [hround]
      dsimp only
      rw [if_neg (fun hx => by simp only [advance, List.length_cons, List.length_nil] at hx hlen; omega)]
      exact htwo
    · have hh : (st.advance 1).get ((st.advance 1).inputIdx + 1) = h := get_of_drop hrest 2
      have hl : (st.advance 1).get ((st.advance 1).inputIdx + 2) = l := get_of_drop hrest 3
      rw [hh, hl]
      dsimp only
      by_cases hx : e = ascii 'x' ∧ (strtol16 [h, l]).2 = 2
      · have hround : roundOf (ascii '\\' :: e :: h :: l :: text) =
            ([UInt8.ofInt (strtol16 [h, l]).1], 4) := by
          simp [roundOf, hx.1, escapeAt_x, strtolPair, hx.2]
        rw [hround, if_pos ⟨hx.1, by simp only [advance, List.length_cons] at hlen ⊢; omega, hx.2⟩]
        exact round_put (m := 3) hlt (hinv.trans (Nat.le_add_right _ 3)) (Nat.lt_succ_self 3)
      · have hround : roundOf (ascii '\\' :: e :: h :: l :: text) = ([ascii '\\', e], 2) := by
          by_cases hchar : e = ascii 'x'
          · have hval : ¬(strtol16 [h, l]).2 = 2 := fun h => hx ⟨hchar, h⟩
            simp [roundOf, hchar, escapeAt_x, strtolPair, hval]
          · simp [roundOf, escapeAt, hsimple, hchar]
        rw [hround, if_neg fun hx' => hx ⟨hx'.1, hx'.2.2⟩]
        exact htwo
  · have hround : roundOf (ascii '\\' :: e :: text) = ([d], 2) := by
      simp [roundOf, escapeAt, hsimple]
    rw [hround]
    exact round_put (m := 1) hlt (Nat.le_succ_of_le hinv) (Nat.lt_succ_self 1)

theorem round_step (hinv : st.outputIdx ≤ st.inputIdx)
    (hrest : st.input.drop st.inputIdx = c :: text) :
    Round st (st.step st.input.length) (roundOf (c :: text)).1 (roundOf (c :: text)).2 := by
  have hlen := length_of_drop hrest (List.cons_ne_nil _ _)
  rw [List.length_cons] at hlen
  have hc : st.get st.inputIdx = c := get_of_drop hrest 0
  have hcopy : Round st ((st.put c).advance 1) [c] 1 :=
    round_put (m := 0) (by omega) hinv (Nat.succ_pos 0)
  rw [step, hc]
  by_cases hb : c = ascii '\\'
  · subst hb
    rcases text with _ | ⟨e, text⟩
    · have hround : roundOf [ascii '\\'] = ([ascii '\\'], 1) := rfl
      rw [hround, if_neg fun h => by simp only [hlen, List.length_nil] at h; omega]
      exact hcopy
    · rw [if_pos ⟨rfl, by simp only [hlen, List.length_cons]; omega⟩]
      exact round_escape hinv hrest
  · have hround : roundOf (c :: text) = ([c], 1) := by
      cases text <;> simp [roundOf, escapeAt, hb]
    rw [hround, if_neg fun h => hb h.1]
    exact hcopy

/-- A round writes what the escapes at the start of the rest are replaced by. -/
theorem roundOf_spec (c : UInt8) (text : Text) :
    replaceEscapes strtolPair (c :: text) = (roundOf (c :: text)).1 ++
        replaceEscapes strtolPair ((c :: text).drop (roundOf (c :: text)).2) ∧
      0 < (roundOf (c :: text)).2 ∧ (roundOf (c :: text)).1.length ≤ (roundOf (c :: text)).2 := by
  rcases hescape : escapeAt strtolPair (c :: text) with _ | ⟨d, n⟩
  · rcases text with _ | ⟨e, text⟩
    · rw [replaceEscapes_none hescape]
      simp [roundOf, hescape]
    · by_cases hb : c = ascii '\\'
      · subst hb
        have hround : roundOf (ascii '\\' :: e :: text) = ([ascii '\\', e], 2) := by
          simp [roundOf, hescape]
        have he := ne_backslash hescape
        rw [hround, replaceEscapes_none hescape, replaceEscapes_none (escapeAt_of_ne he)]
        exact ⟨rfl, Nat.two_pos, Nat.le_refl 2⟩
      · have hround : roundOf (c :: e :: text) = ([c], 1) := by simp [roundOf, hescape, hb]
        rw [hround, replaceEscapes_none hescape]
        exact ⟨rfl, Nat.one_pos, Nat.le_refl 1⟩
  · have hround : roundOf (c :: text) = ([d], n) := by simp [roundOf, hescape]
    have hn := (escapeAt_bounds hescape).1
    obtain ⟨n, rfl⟩ := Nat.exists_eq_add_of_le' hn
    rw [hround, replaceEscapes_some hescape]
    exact ⟨rfl, Nat.succ_pos _, Nat.succ_le_succ (Nat.zero_le _)⟩

/-- The loop writes the rest with its escapes replaced, and does not write ahead of what it
reads. -/
theorem loop_spec : ∀ (fuel : Nat) (st : EscapeState), st.outputIdx ≤ st.inputIdx →
    st.input.length ≤ st.inputIdx + fuel → (∀ p ∈ st.writes, p.1 ≤ p.2) →
    (st.loop st.input.length fuel).input.take (st.loop st.input.length fuel).outputIdx =
        st.input.take st.outputIdx ++ replaceEscapes strtolPair (st.input.drop st.inputIdx) ∧
      ∀ p ∈ (st.loop st.input.length fuel).writes, p.1 ≤ p.2
  | 0, st, hinv, hfuel, hwrites => by
    rw [List.drop_eq_nil_of_le (by omega)]
    simpa [EscapeState.loop, replaceEscapes] using hwrites
  | fuel + 1, st, hinv, hfuel, hwrites => by
    rw [EscapeState.loop]
    split_ifs with hlt
    · rcases hrest : st.input.drop st.inputIdx with _ | ⟨c, text⟩
      · exact absurd (List.drop_eq_nil_iff.1 hrest) (Nat.not_le.2 hlt)
      · have hround := round_step hinv hrest
        obtain ⟨hreplace, hpos, hle⟩ := roundOf_spec c text
        generalize roundOf (c :: text) = r at hround hreplace hpos hle
        obtain ⟨ws, hws, hall⟩ := hround.writes
        have ih := loop_spec fuel (st.step st.input.length)
          (by rw [hround.outputIdx, hround.inputIdx]; omega)
          (by rw [hround.inputIdx, hround.length]; omega)
          (fun p hp => by
            rw [hws, List.mem_append] at hp
            exact hp.elim (hwrites p) (hall p))
        rw [hround.length] at ih
        refine ⟨ih.1.trans ?_, ih.2⟩
        rw [hround.written, hround.unread, hround.inputIdx, hreplace, ← hrest, List.drop_drop,
          List.append_assoc]
    · rw [List.drop_eq_nil_of_le (Nat.not_lt.1 hlt)]
      simpa [replaceEscapes] using hwrites

end EscapeState

/-! ## What `strtol` adds -/

/-- The escape `\x` with a blank or a sign in front of one digit. -/
def isPassedHex : Text → Bool
  | b :: x :: h :: l :: _ => b = ascii '\\' ∧ x = ascii 'x' ∧ isPassed h ∧ (hexValue l).isSome
  | _ => false

theorem isPassedHex_cases : ∀ {text : Text}, isPassedHex text = true → ∃ h l rest,
    text = ascii '\\' :: ascii 'x' :: h :: l :: rest ∧ isPassed h ∧ (hexValue l).isSome
  | b :: x :: h :: l :: rest, hp => by
    simp only [isPassedHex, decide_eq_true_eq] at hp
    exact ⟨h, l, rest, by rw [hp.1, hp.2.1], hp.2.2⟩

theorem escapeAt_congr : ∀ {text : Text}, isPassedHex text = false →
    escapeAt strtolPair text = escapeAt hexPair text
  | [], _ | [_], _ => rfl
  | [b, c], _ | [b, c, _], _ => rfl
  | b :: c :: h :: l :: text, hp => by
    by_cases hx : b = ascii '\\' ∧ c = ascii 'x'
    · obtain ⟨rfl, rfl⟩ := hx
      rw [escapeAt_x, escapeAt_x, strtolPair_eq_hexPair fun h' => ?_]
      simp [isPassedHex, h'] at hp
    · simp only [escapeAt]
      split_ifs <;> simp_all

theorem replaceEscapes_iff : ∀ {k : Nat} (text : Text), text.length ≤ k →
    (replaceEscapes strtolPair text = replaceEscapes hexPair text ↔
      ∀ rest ∈ escapeRests hexPair text, isPassedHex rest = false)
  | _, [], _ => by simp [replaceEscapes, escapeRests]
  | k + 1, c :: text, hk => by
    rw [List.length_cons, Nat.add_le_add_iff_right] at hk
    rcases hpassed : isPassedHex (c :: text) with _ | _
    · have hcongr := escapeAt_congr hpassed
      rcases hescape : escapeAt hexPair (c :: text) with _ | ⟨d, n⟩
      · rw [replaceEscapes_none hescape, replaceEscapes_none (hcongr.trans hescape), escapeRests,
          hescape]
        simp only [List.cons.injEq, true_and, List.forall_mem_cons, hpassed]
        exact replaceEscapes_iff text hk
      · rw [replaceEscapes_some hescape, replaceEscapes_some (hcongr.trans hescape), escapeRests,
          hescape]
        simp only [List.cons.injEq, true_and, List.forall_mem_cons, hpassed]
        exact replaceEscapes_iff (text.drop (n - 1)) ((List.drop_suffix ..).length_le.trans hk)
    · have hmem : c :: text ∈ escapeRests hexPair (c :: text) := by
        rw [escapeRests]
        split <;> exact List.mem_cons_self ..
      refine iff_of_false (fun heq => ?_) fun h => Bool.noConfusion (hpassed.symm.trans (h _ hmem))
      obtain ⟨h, l, rest, htext, hh, hl⟩ := isPassedHex_cases hpassed
      obtain ⟨d, hd, hpair⟩ := strtolPair_of_passed hh hl
      rw [htext, replaceEscapes_some (by rw [escapeAt_x, hpair]; rfl),
        replaceEscapes_none (by rw [escapeAt_x, hexPair_of_passed hh]; rfl)] at heq
      exact hd (List.cons.inj heq).1

theorem stringProcessEscapes_eq (input : Text) :
    stringProcessEscapes input = replaceEscapes strtolPair input ∧
      ∀ p ∈ (escapeRun input).writes, p.1 ≤ p.2 :=
  EscapeState.loop_spec input.length { input } (Nat.le_refl 0) (Nat.le_of_eq (Nat.zero_add _).symm)
    (fun _ hp => nomatch hp)

/-- `string_process_escapes` replaces the escapes from left to right where no `\x` is followed by a
blank or a sign and one digit, and it never writes ahead of what it reads. -/
theorem stringProcessEscapes_iff (input : Text) :
    (stringProcessEscapes input = replaceEscapes hexPair input ↔
      ∀ rest ∈ escapeRests hexPair input, isPassedHex rest = false) ∧
    ∀ p ∈ (escapeRun input).writes, p.1 ≤ p.2 := by
  obtain ⟨heq, hwrites⟩ := stringProcessEscapes_eq input
  rw [heq]
  exact ⟨replaceEscapes_iff input (Nat.le_refl _), hwrites⟩

/-- `\x 5` is no escape, but is taken for the character 5. -/
theorem not_stringProcessEscapes : ¬∀ input : Text,
    stringProcessEscapes input = replaceEscapes hexPair input := by
  intro h
  have h := h (r"\x 5".toList.map ascii)
  have hcode : stringProcessEscapes (r"\x 5".toList.map ascii) = [5] := by decide
  have hescape : escapeAt hexPair (r"\x 5".toList.map ascii) = none := by decide
  rw [hcode] at h
  have hhead := congrArg List.head? (h.trans (replaceEscapes_none hescape))
  revert hhead
  decide

end LamaServer

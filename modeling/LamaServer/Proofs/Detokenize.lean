import LamaServer.Detokenize
import LamaServer.Proofs.Vocab

/-!
# The size that detokenizing asks for

A text that does not fit into the buffer should be counted in full, so that a buffer of that size has
room for it. The count is an `int32_t`: a text of 2^31 bytes or more overflows it.
-/

namespace LamaServer

open VocabImpl (stripSpace stripFirst stripFirst_cons stripFirst_false)

section Sizes

variable {n : Int} {room lstrip size : Nat} {token text : Text} {length : Int} {r : Int × Text}

theorem sizeToInt32_of_lt (h : size < 2 ^ 31) : sizeToInt32 size = size := by
  have hlow : size % 2 ^ 32 = size := Nat.mod_eq_of_lt (by omega)
  rw [sizeToInt32, hlow]
  exact if_pos h

theorem sizeToInt32_bounds (size : Nat) :
    -2 ^ 31 ≤ sizeToInt32 size ∧ sizeToInt32 size < 2 ^ 31 := by
  have hlt : size % 2 ^ 32 < 2 ^ 32 := Nat.mod_lt _ (by decide)
  rw [sizeToInt32]
  split_ifs <;> omega

theorem resizeText_of_length (h : text.length = size) : resizeText text size = text := by
  rw [resizeText, h, Nat.sub_self, List.replicate_zero, List.append_nil, ← h, List.take_length]

theorem length_resizeText : (resizeText text size).length = size := by
  rw [resizeText, List.length_take, List.length_append, List.length_replicate]
  omega

theorem skipSpaces_zero : skipSpaces 0 text = text := by
  rw [skipSpaces]
  exact fun _ _ _ h => nomatch h

theorem skipSpaces_toNat (removeSpace : Bool) : skipSpaces removeSpace.toNat text =
    if removeSpace then stripSpace text else text := by
  rcases removeSpace with _ | _
  · exact skipSpaces_zero
  · rcases text with _ | ⟨c, text⟩
    · rfl
    · change (if c = ascii ' ' then skipSpaces 0 text else c :: text) = stripSpace (c :: text)
      rw [skipSpaces_zero, stripSpace]
      simp

theorem length_skipSpaces : ∀ {lstrip : Nat} {text : Text},
    (skipSpaces lstrip text).length ≤ text.length
  | 0, text => by rw [skipSpaces_zero]
  | lstrip + 1, [] => Nat.le_refl 0
  | lstrip + 1, c :: text => by
    rw [skipSpaces]
    split_ifs
    · exact (length_skipSpaces).trans (Nat.le_succ _)
    · exact Nat.le_refl _

/-- A text that `int32_t` has the size of is copied if there is room, and counted otherwise. -/
theorem tryCopy_of_lt (hsize : token.length < 2 ^ 31) (hroom : length ≤ room) :
    tryCopy length room lstrip token = .ok (
      if length < (skipSpaces lstrip token).length then
        (-((skipSpaces lstrip token).length : Int), [])
      else ((skipSpaces lstrip token).length, skipSpaces lstrip token)) := by
  have hle : (skipSpaces lstrip token).length < 2 ^ 31 := length_skipSpaces.trans_lt hsize
  rw [tryCopy, sizeToInt32_of_lt hle]
  split_ifs with hfit
  · rw [checkedInt32, if_pos (by omega)]
    rfl
  · rw [copyOut, if_pos (by omega)]
    rfl

/-- What `token_to_piece` may return for a buffer of less than 2^31 bytes. -/
def IsCount (r : Int × Text) : Prop := -2 ^ 31 < r.1 ∧ r.1 < 2 ^ 31

theorem tryCopy_bounds (hroom : room < 2 ^ 31) :
    Except.Ends (fun _ => True) IsCount
      (tryCopy length room lstrip token) := by
  have hbounds := sizeToInt32_bounds (skipSpaces lstrip token).length
  rw [tryCopy]
  split_ifs with hfit
  · rw [checkedInt32]
    split_ifs with h
    · exact ⟨by dsimp only; omega, h.2⟩
    · trivial
  · rw [copyOut]
    split_ifs with h
    · have hsize := sizeToInt32_of_lt (h.trans_lt hroom)
      exact ⟨by dsimp only; omega, hbounds.2⟩
    · trivial

theorem copyRwkvToken_bounds (hroom : room < 2 ^ 31) :
    Except.Ends (fun _ => True) IsCount
      (copyRwkvToken length room token) := by
  have hbounds := sizeToInt32_bounds token.length
  rw [copyRwkvToken]
  split_ifs with hfit
  · rw [checkedInt32]
    split_ifs with h
    · exact ⟨by dsimp only; omega, h.2⟩
    · trivial
  · rw [copyOut]
    split_ifs with h
    · have hsize := sizeToInt32_of_lt (h.trans_lt hroom)
      exact ⟨by dsimp only; omega, hbounds.2⟩
    · trivial

theorem ends_true {ε α : Type} (x : Except ε α) :
    Except.Ends (fun _ => True) (fun _ => True) x := by
  rcases x with e | a <;> trivial

end Sizes

theorem mapM_eq_some {α β : Type} {f : α → Option β} : ∀ {as : List α} {bs : List β},
    as.mapM f = some bs → List.Forall₂ (f · = some ·) as bs
  | [], bs, h => by
    obtain rfl : [] = bs := Option.some.inj h
    exact .nil
  | a :: as, bs, h => by
    rw [List.mapM_cons, Option.bind_eq_bind, Option.bind_eq_some_iff] at h
    obtain ⟨b, hb, h⟩ := h
    rw [Option.bind_eq_bind, Option.bind_eq_some_iff] at h
    obtain ⟨bs', hbs, h⟩ := h
    obtain rfl : b :: bs' = bs := Option.some.inj h
    exact .cons hb (mapM_eq_some hbs)

theorem forall_mem_of_forall₂ {α β : Type} {R : α → β → Prop} {P : β → Prop} {as : List α}
    {bs : List β} (h : List.Forall₂ R as bs) (hP : ∀ a b, R a b → P b) : ∀ b ∈ bs, P b := by
  induction h with
  | nil => exact List.forall_mem_nil _
  | cons hab _ ih => exact List.forall_mem_cons.2 ⟨hP _ _ hab, ih⟩

namespace PieceVocab

variable {v : PieceVocab} {token : Token} {tokens : List Token} {length avail total : Int}
  {room lstrip capacity textLenMax : Nat} {special removeSpace : Bool} {r : Int × Text}
  {p text : Text} {ps : List Text}

/-! ## The cache -/

theorem tokenToPiece_bounds (hroom : room < 2 ^ 31) :
    Except.Ends (fun _ => True) IsCount
      (v.tokenToPiece token length room lstrip special) := by
  have hzero : Except.Ends (fun _ => True) IsCount
      (pure (0, []) : Except PieceError (Int × Text)) := ⟨by decide, by decide⟩
  have hcopy (text : Text) : Except.Ends (fun _ => True) IsCount
      (tryCopy length room lstrip text) := tryCopy_bounds hroom
  unfold tokenToPiece
  refine (ends_true _).bind fun data _ => .ite (fun _ => hzero) fun _ =>
    .ite (fun _ => (ends_true _).bind fun result _ => hcopy result) fun _ => ?_
  have htext (data : VocabToken) : Except.Ends (fun _ => True)
      (fun r => -2 ^ 31 < r.1 ∧ r.1 < 2 ^ 31)
      (if data.attr.byte then v.tokenToByte data >>= fun byte => tryCopy length room lstrip [byte]
        else pure (0, [])) :=
    .ite (fun _ => (ends_true _).bind fun byte _ => hcopy [byte]) fun _ => hzero
  generalize v.type = type
  rcases type with _ | _ | _ | _ | _ | _
  · trivial
  · exact .ite (fun _ => hcopy _) fun _ => .ite (fun _ => hcopy _) fun _ => htext data
  · exact .ite (fun _ => hcopy _) fun _ =>
      .ite (fun _ => (ends_true _).bind fun result _ => hcopy result) fun _ => hzero
  · exact .ite (fun _ => hcopy _) fun _ => .ite (fun _ => hcopy _) fun _ => htext data
  · exact .ite (fun _ => hcopy _) fun _ => .ite (fun _ => hcopy _) fun _ => htext data
  · exact copyRwkvToken_bounds hroom

/-- What is put into the cache has a size of less than 2^31. -/
theorem length_of_tokenToPieceForCache (hcapacity : capacity < 2 ^ 31)
    (h : v.tokenToPieceForCache capacity token = .ok p) : p.length < 2 ^ 31 := by
  obtain ⟨⟨nChars, written⟩, hcall, h⟩ := Except.bind_eq_ok.1 h
  obtain ⟨hlow, hhigh⟩ := (tokenToPiece_bounds hcapacity).of_ok hcall
  dsimp only at h hlow hhigh
  split_ifs at h with hneg
  · obtain ⟨⟨check, written'⟩, -, h⟩ := Except.bind_eq_ok.1 h
    dsimp only at h
    split_ifs at h
    · cases h
    · obtain rfl := Except.pure_eq_ok.1 h
      rw [length_resizeText]
      omega
  · obtain rfl := Except.pure_eq_ok.1 h
    rw [length_resizeText]
    omega

theorem tokenToPieceForCache_of_copies (hp : p.length < 2 ^ 31)
    (h : ∀ length room, v.tokenToPiece token length room 0 true = tryCopy length room 0 p) :
    v.tokenToPieceForCache capacity token = .ok p := by
  rw [tokenToPieceForCache, h, tryCopy_of_lt hp (Int.le_refl _), Except.ok_bind_eq, skipSpaces_zero]
  split_ifs with hfit
  · have hlen : (-(-(p.length : Int))).toNat = p.length := by omega
    dsimp only
    rw [if_pos (by omega), h, hlen, Int.neg_neg, tryCopy_of_lt hp (Int.le_refl _), skipSpaces_zero,
      if_neg (Int.lt_irrefl _), Except.ok_bind_eq]
    dsimp only
    rw [if_neg (not_not.2 rfl), resizeText_of_length rfl]
    rfl
  · dsimp only
    rw [if_neg (by omega), Int.toNat_natCast, resizeText_of_length rfl]
    rfl

/-! ## What is claimed -/

/-- What a token stands for: its piece in the cache, or nothing for a special one that is not to be
shown. -/
def piece (v : PieceVocab) (special : Bool) (token : Token) : Option Text :=
  match v.tokenData token with
  | .error _ => none
  | .ok data =>
    if !special && (data.attr.unknown || data.attr.control) then some []
    else v.cacheTokenToPiece[token.toNat]?

/-- The pieces, put together, of the tokens that are not removed, without the leading space if it is
to be removed. There is none if a token is not of the vocabulary. -/
def pieceString (v : PieceVocab) (tokens : List Token) (removeSpecial unparseSpecial : Bool) :
    Option Text :=
  if v.type = .none then some []
  else
    let (tokens, removeSpace) := v.trimSpecial tokens removeSpecial
    (tokens.mapM (v.piece unparseSpecial)).map fun pieces =>
      (stripFirst removeSpace pieces).flatten

/-- The buffer has the text, and its size is returned; or the text has no room, and a buffer of the
size that is asked for has. -/
def SizeProtocol (v : PieceVocab) (tokens : List Token) (textLenMax : Nat)
    (removeSpecial unparseSpecial : Bool) : Prop :=
  ∃ text, v.pieceString tokens removeSpecial unparseSpecial = some text ∧
    ((text.length ≤ textLenMax ∧
        v.detokenize tokens textLenMax removeSpecial unparseSpecial = .ok (text.length, text)) ∨
      textLenMax < text.length ∧
        (∃ written : Text, written.length ≤ textLenMax ∧
          v.detokenize tokens textLenMax removeSpecial unparseSpecial =
            .ok (-(text.length : Int), written)) ∧
        v.detokenize tokens text.length removeSpecial unparseSpecial = .ok (text.length, text))

/-! ## The loop -/

theorem tokenToPiece_of_piece (h : v.piece special token = some p) (hp : p.length < 2 ^ 31)
    (hlength : 0 ≤ length) (hroom : length ≤ room) :
    v.tokenToPiece token length room lstrip special = .ok (
      if length < (skipSpaces lstrip p).length then (-((skipSpaces lstrip p).length : Int), [])
      else ((skipSpaces lstrip p).length, skipSpaces lstrip p)) := by
  unfold piece at h
  unfold tokenToPiece
  rcases hdata : v.tokenData token with e | data <;> rw [hdata] at h
  · cases h
  rw [Except.ok_bind_eq]
  dsimp only at h ⊢
  split_ifs at h with hhidden
  · obtain rfl := Option.some.inj h
    have hnil : skipSpaces lstrip [] = [] := by rcases lstrip with _ | _ <;> rfl
    rw [if_pos hhidden, hnil, if_neg (by simpa using hlength)]
    rfl
  · have hcache : v.cacheTokenToPiece ≠ [] := fun hnil => by simp [hnil] at h
    rw [if_neg hhidden, if_pos hcache, h, ← tryCopy_of_lt hp hroom]
    rfl

/-- The loop counts the whole text, and writes it if it has room. -/
theorem detokenizeLoop_spec (h : List.Forall₂ (v.piece special · = some ·) tokens ps)
    (hps : ∀ p ∈ ps, p.length < 2 ^ 31) : ∀ (avail total : Int) (text : Text) (removeSpace : Bool),
    text.length ≤ textLenMax → 0 ≤ total →
    (avail = textLenMax - text.length ∧ total = text.length ∨ avail = 0 ∧ textLenMax < total) →
    (total + (stripFirst removeSpace ps).flatten.length < 2 ^ 31 → ∃ text' : Text,
      v.detokenizeLoop special textLenMax tokens avail total text removeSpace =
        .ok (total + (stripFirst removeSpace ps).flatten.length, text') ∧
      text'.length ≤ textLenMax ∧
      (total + (stripFirst removeSpace ps).flatten.length ≤ textLenMax →
        text' = text ++ (stripFirst removeSpace ps).flatten)) ∧
    (total < 2 ^ 31 → 2 ^ 31 ≤ total + (stripFirst removeSpace ps).flatten.length →
      v.detokenizeLoop special textLenMax tokens avail total text removeSpace =
        .error .undefined) := by
  induction h with
  | nil =>
    intro avail total text removeSpace htext htotal havail
    have hnil : (stripFirst removeSpace []).flatten = [] := by
      rcases removeSpace with _ | _ <;> rfl
    rw [hnil, detokenizeLoop]
    refine ⟨fun _ => ⟨text, ?_, htext, fun _ => (List.append_nil text).symm⟩, fun hlt hge => ?_⟩
    · simp
    · simp only [List.length_nil, Nat.cast_zero] at hge
      omega
  | @cons token p tokens ps hpiece _ ih =>
    intro avail total text removeSpace htext htotal havail
    obtain ⟨hp, hps⟩ := List.forall_mem_cons.1 hps
    rw [stripFirst_cons, List.flatten_cons, List.length_append]
    rw [detokenizeLoop, if_neg (by omega : ¬ avail < 0),
      tokenToPiece_of_piece hpiece hp (by omega) (by omega), skipSpaces_toNat]
    generalize (if removeSpace then stripSpace p else p) = first
    have ih (avail total : Int) (text : Text) := stripFirst_false ps ▸ ih hps avail total text false
    have hsum : total + (first.length + ps.flatten.length : Nat) =
        total + first.length + ps.flatten.length := by
      rw [Nat.cast_add, Int.add_assoc]
    rw [hsum, Except.ok_bind_eq]
    have hcount (h : total + first.length < 2 ^ 31) :
        checkedInt32 (total + first.length) = .ok (total + first.length) := by
      rw [checkedInt32, if_pos (by omega)]
    have hover (h : ¬ total + first.length < 2 ^ 31) :
        checkedInt32 (total + first.length) = .error .undefined := by
      rw [checkedInt32, if_neg (by omega)]
    split_ifs with hfit
    · -- the piece is only counted
      have hneg : -(first.length : Int) < 0 := by omega
      dsimp only
      rw [if_pos hneg, Int.sub_neg]
      by_cases hlt : total + first.length < 2 ^ 31
      · have hmore : textLenMax < total + first.length := by omega
        obtain ⟨hok, herror⟩ := ih 0 (total + first.length) text htext (by omega)
          (.inr ⟨rfl, hmore⟩)
        rw [hcount hlt, Except.ok_bind_eq]
        refine ⟨fun h => ?_, fun _ h => herror hlt h⟩
        obtain ⟨text', hloop, hle, -⟩ := hok h
        refine ⟨text', hloop, hle, fun h => absurd h (Int.not_le.2 (Int.lt_of_lt_of_le hmore ?_))⟩
        exact Int.le_add_of_nonneg_right (Int.natCast_nonneg _)
      · rw [hover hlt]
        exact ⟨fun h => by omega, fun _ _ => rfl⟩
    · dsimp only
      rw [if_neg (by omega : ¬ (first.length : Int) < 0)]
      by_cases hpos : (first.length : Int) > 0
      · rw [if_pos hpos]
        by_cases hlt : total + first.length < 2 ^ 31
        · have hlen : (text ++ first).length = text.length + first.length := List.length_append
          obtain ⟨hok, herror⟩ := ih (avail - first.length) (total + first.length)
            (text ++ first) (by omega) (by omega) (by omega)
          rw [hcount hlt, Except.ok_bind_eq]
          refine ⟨fun h => ?_, fun _ h => herror hlt h⟩
          obtain ⟨text', hloop, hle, hroom⟩ := hok h
          exact ⟨text', hloop, hle, fun h => by rw [hroom h, List.append_assoc]⟩
        · rw [hover hlt]
          exact ⟨fun h => by omega, fun _ _ => rfl⟩
      · obtain rfl : first = [] := List.length_eq_zero_iff.1 (by omega)
        rw [if_neg hpos]
        have hzero : total + ([] : Text).length = total := Int.add_zero total
        rw [hzero]
        exact ih avail total text htext htotal havail

end PieceVocab

/-! ## The protocol -/

namespace LoadedVocab

open PieceVocab

variable {v : LoadedVocab} {tokens : List Token} {textLenMax : Nat}
  {removeSpecial unparseSpecial : Bool} {text : Text}

theorem length_of_mem_cache (htype : v.type ≠ .none) :
    ∀ p ∈ v.cacheTokenToPiece, p.length < 2 ^ 31 :=
  forall_mem_of_forall₂ (Except.mapM_eq_ok.1 (v.loaded htype)) fun _ _ h =>
    length_of_tokenToPieceForCache v.capacity_lt h

theorem length_of_piece (htype : v.type ≠ .none) {special : Bool} {token : Token} {p : Text}
    (h : v.piece special token = some p) : p.length < 2 ^ 31 := by
  unfold piece at h
  rcases hdata : v.tokenData token with e | data <;> rw [hdata] at h
  · cases h
  dsimp only at h
  split_ifs at h
  · obtain rfl := Option.some.inj h
    decide
  · exact v.length_of_mem_cache htype p (List.mem_of_getElem? h)

/-- The text is written or counted, or its size overflows. -/
theorem detokenize_spec (hclean : v.cleanSpaces = false) (textLenMax : Nat)
    (h : v.pieceString tokens removeSpecial unparseSpecial = some text) :
    (text.length < 2 ^ 31 → text.length ≤ textLenMax →
      v.detokenize tokens textLenMax removeSpecial unparseSpecial = .ok (text.length, text)) ∧
    (text.length < 2 ^ 31 → textLenMax < text.length → ∃ written : Text,
      written.length ≤ textLenMax ∧
      v.detokenize tokens textLenMax removeSpecial unparseSpecial =
        .ok (-(text.length : Int), written)) ∧
    (2 ^ 31 ≤ text.length →
      v.detokenize tokens textLenMax removeSpecial unparseSpecial = .error .undefined) := by
  unfold pieceString at h
  unfold detokenize
  split_ifs at h with htype
  · obtain rfl := Option.some.inj h
    rw [if_pos htype]
    exact ⟨fun _ _ => rfl, fun _ h => (Nat.not_lt_zero _ h).elim, fun h => absurd h (by decide)⟩
  rw [if_neg htype]
  generalize v.trimSpecial tokens removeSpecial = trimmed at h
  obtain ⟨rest, removeSpace⟩ := trimmed
  dsimp only at h ⊢
  obtain ⟨ps, hps, rfl⟩ := Option.map_eq_some_iff.1 h
  have hall := mapM_eq_some hps
  have hlength := forall_mem_of_forall₂ hall fun _ _ h => length_of_piece htype h
  obtain ⟨hok, herror⟩ := detokenizeLoop_spec hall hlength textLenMax 0 [] removeSpace
    (Nat.zero_le textLenMax) (Int.le_refl 0) (.inl ⟨(Int.sub_zero _).symm, rfl⟩)
  generalize (stripFirst removeSpace ps).flatten = text at hok herror
  rw [Int.zero_add] at hok herror
  refine ⟨fun hlt hle => ?_, fun hlt hmore => ?_, fun hge => ?_⟩
  · obtain ⟨written, hloop, -, hroom⟩ := hok (by omega)
    obtain rfl := hroom (by omega)
    rw [hloop, Except.ok_bind_eq]
    dsimp only
    rw [if_neg (by omega), hclean]
    rfl
  · obtain ⟨written, hloop, hwritten, -⟩ := hok (by omega)
    refine ⟨written, hwritten, ?_⟩
    rw [hloop, Except.ok_bind_eq]
    dsimp only
    rw [if_pos (by omega), checkedInt32, if_pos (by omega)]
    rfl
  · rw [herror (by decide) (by omega)]
    rfl

/-- Detokenizing keeps to the protocol exactly where the text has less than 2^31 bytes. -/
theorem sizeProtocol_iff (v : LoadedVocab) (hclean : v.cleanSpaces = false) (tokens : List Token)
    (textLenMax : Nat) (removeSpecial unparseSpecial : Bool) :
    v.SizeProtocol tokens textLenMax removeSpecial unparseSpecial ↔
      ∃ text, v.pieceString tokens removeSpecial unparseSpecial = some text ∧
        text.length < 2 ^ 31 := by
  constructor
  · rintro ⟨text, htext, hcase⟩
    refine ⟨text, htext, ?_⟩
    by_contra hge
    have herror := (detokenize_spec hclean textLenMax htext).2.2 (Nat.le_of_not_lt hge)
    rcases hcase with ⟨-, hok⟩ | ⟨-, ⟨written, -, hok⟩, -⟩ <;> cases herror.symm.trans hok
  · rintro ⟨text, htext, hlt⟩
    refine ⟨text, htext, ?_⟩
    obtain ⟨hfit, hcount, -⟩ := detokenize_spec hclean textLenMax htext
    rcases Nat.lt_or_ge textLenMax text.length with hmore | hle
    · exact .inr ⟨hmore, hcount hlt hmore,
        (detokenize_spec hclean text.length htext).1 hlt (Nat.le_refl _)⟩
    · exact .inl ⟨hle, hfit hlt hle⟩

/-- An SPM vocabulary with one user-defined token. -/
def single (text : Text) (h : text.length < 2 ^ 31) : LoadedVocab where
  type := .spm
  idToToken := [{ text := text, attr := { userDefined := true } }]
  cacheTokenToPiece := [text]
  capacity := 15
  capacity_lt := by decide
  loaded _ := by
    have hpiece : PieceVocab.tokenToPieceForCache
        { type := .spm, idToToken := [{ text := text, attr := { userDefined := true } }] } 15 0 =
          .ok text := tokenToPieceForCache_of_copies h fun _ _ => rfl
    exact Except.mapM_eq_ok.2 (.cons hpiece .nil)

theorem pieceString_single (text : Text) (h : text.length < 2 ^ 31) :
    (single text h).pieceString [0, 0] false true = some (text ++ (text ++ [])) := rfl

theorem sizeProtocol_iff_short :
    (single [0x61, 0x62] (by decide)).SizeProtocol [0, 0] 3 false true :=
  (sizeProtocol_iff _ rfl [0, 0] 3 false true).2 ⟨[0x61, 0x62, 0x61, 0x62], rfl, by decide⟩

/-- A token of 2^30 bytes. -/
def longText : Text := List.replicate (2 ^ 30) 0x61

theorem length_longText : longText.length = 2 ^ 30 := List.length_replicate

/-- The size of two of them overflows. -/
theorem not_sizeProtocol : ¬ ∀ (v : LoadedVocab) (tokens : List Token) (textLenMax : Nat)
    (removeSpecial unparseSpecial : Bool), v.cleanSpaces = false →
    v.SizeProtocol tokens textLenMax removeSpecial unparseSpecial := by
  intro h
  have hlt : longText.length < 2 ^ 31 := by
    rw [length_longText]
    decide
  obtain ⟨text, htext, hcase⟩ := h (single longText hlt) [0, 0] 0 false true rfl
  obtain rfl := Option.some.inj ((pieceString_single longText hlt).symm.trans htext)
  have hsize : 2 ^ 31 ≤ (longText ++ (longText ++ [])).length := by
    rw [List.append_nil, List.length_append, length_longText]
    decide
  have herror := (detokenize_spec rfl 0 htext).2.2 hsize
  rcases hcase with ⟨-, hok⟩ | ⟨-, ⟨written, -, hok⟩, -⟩ <;> cases herror.symm.trans hok

end LoadedVocab

end LamaServer

import LamaServer.Vocab

/-!
# What a vocabulary stands for

No two tokens have the same text, so the token that is looked up by a text is the one with that
text. A text in which no special token occurs is not cut. Where every token of a list stands for a
piece, detokenizing puts the pieces together, less the space that the first one starts with if it
is to be removed.
-/

namespace LamaServer

/-- A token that stands for its text, whatever is asked of special tokens. -/
def TokenAttr.Plain (attr : TokenAttr) : Prop :=
  attr.normal ∧ ¬ attr.unknown ∧ ¬ attr.control ∧ ¬ attr.userDefined

instance (attr : TokenAttr) : Decidable attr.Plain := by
  unfold TokenAttr.Plain; infer_instance

def TokenAttr.Special (attr : TokenAttr) : Prop :=
  attr.control ∨ attr.userDefined ∨ attr.unknown

instance (attr : TokenAttr) : Decidable attr.Special := by
  unfold TokenAttr.Special; infer_instance

namespace VocabImpl

variable {v : VocabImpl} {text raw piece : Text} {data : VocabToken} {token : Token}
  {tokens : List Token} {length : Int} {special : Bool} {lstrip : Nat}

/-! ## Looking up -/

theorem textToToken_cases (v : VocabImpl) (text : Text) :
    v.textToToken text = tokenNull ∧ (∀ data ∈ v.idToToken, data.text ≠ text) ∨
    ∃ (id : Nat) (data : VocabToken), v.textToToken text = id ∧ v.idToToken[id]? = some data ∧
      data.text = text := by
  rw [textToToken]
  rcases hid : v.idToToken.findIdx? (·.text = text) with _ | id
  · exact .inl ⟨by rw [hid], by simpa using hid⟩
  · obtain ⟨hlt, htext, -⟩ := List.findIdx?_eq_some_iff_getElem.1 hid
    exact .inr ⟨id, _, by rw [hid], List.getElem?_eq_getElem hlt, of_decide_eq_true htext⟩

theorem textToToken_spec (h : v.textToToken text ≠ tokenNull) :
    ∃ data ∈ v.idToToken, data.text = text ∧ v.getTokenData (v.textToToken text) = .ok data := by
  obtain ⟨hnull, -⟩ | ⟨id, data, hid, hdata, htext⟩ := v.textToToken_cases text
  · exact absurd hnull h
  · refine ⟨data, List.mem_of_getElem? hdata, htext, ?_⟩
    simp [getTokenData, hid, hdata]

theorem textToToken_ne_null : v.textToToken text ≠ tokenNull ↔
    ∃ data ∈ v.idToToken, data.text = text := by
  obtain ⟨hnull, hnone⟩ | ⟨id, data, hid, hdata, htext⟩ := v.textToToken_cases text
  · simpa [hnull] using hnone
  · have hne : (id : Token) ≠ tokenNull := by
      show (id : Int) ≠ -1
      omega
    rw [hid]
    exact iff_of_true hne ⟨data, List.mem_of_getElem? hdata, htext⟩

/-- A token is found by its text. -/
theorem getTokenData_of_mem (h : data ∈ v.idToToken) :
    v.getTokenData (v.textToToken data.text) = .ok data := by
  obtain ⟨data', hdata', htext, heq⟩ := textToToken_spec (textToToken_ne_null.2 ⟨data, h, rfl⟩)
  rw [heq, List.inj_on_of_nodup_map v.text_nodup hdata' h htext]

/-! ## Special tokens -/

/-- The text of a special token does not occur. -/
def FreeOfSpecial (v : VocabImpl) (text : Text) : Prop :=
  ∀ data ∈ v.idToToken, data.attr.Special → ¬ data.text <:+: text

theorem indexOf_eq_none : ∀ {text : Text}, ¬ raw <:+: text → Text.indexOf raw text = none
  | [], h => by
    rw [Text.indexOf, if_neg]
    rintro rfl
    exact h List.nil_infix
  | c :: text, h => by
    rw [Text.indexOf, if_neg,
      indexOf_eq_none fun h' => h (h'.trans (List.suffix_cons c text).isInfix)]
    · rfl
    · exact fun h' => h (List.isPrefixOf_iff_prefix.1 h').isInfix

theorem attr_of_mem_cacheSpecialTokens {id : Nat} (h : id ∈ v.cacheSpecialTokens)
    (hdata : v.idToToken[id]? = some data) : data.attr.Special := by
  rw [cacheSpecialTokens, List.mem_insertionSort, List.mem_filter, hdata] at h
  simpa [TokenAttr.Special, or_assoc] using h.2

theorem tokenizerStPartition_of_free {parseSpecial : Bool} (h : v.FreeOfSpecial raw) :
    v.tokenizerStPartition parseSpecial [.rawText raw] = [.rawText raw] := by
  rw [tokenizerStPartition]
  refine List.foldlRecOn (motive := fun buffer => buffer = [Fragment.rawText raw]) _ _ rfl ?_
  rintro buffer rfl id hid
  split
  · rfl
  · next data hdata =>
    have hnone := indexOf_eq_none (h data (List.mem_of_getElem? hdata)
      (attr_of_mem_cacheSpecialTokens hid hdata))
    split_ifs
    · rfl
    · rw [splitFragments, List.flatMap_singleton]
      dsimp only
      unfold splitFragment
      split
      · rfl
      · next pos hpos => cases hnone.symm.trans hpos

/-! ## Pieces -/

/-- What a token stands for. -/
def Yields (v : VocabImpl) (special : Bool) (token : Token) (piece : Text) : Prop :=
  ∀ length lstrip, v.tokenToPiece token length lstrip special = .ok (tryCopy length lstrip piece)

theorem yields_of_pieceText (hdata : v.getTokenData token = .ok data)
    (hattr : ¬ data.attr.unknown ∧ ¬ data.attr.control) (hpiece : v.pieceText data = .ok piece) :
    v.Yields special token piece := by
  intro length lstrip
  simp only [tokenToPiece, hdata, Except.ok_bind_eq, hattr, hpiece]
  simp
  rfl

/-- The pieces of a list of tokens, put together; each is copied to a buffer of the given length. -/
def pieces (v : VocabImpl) (tokens : List Token) (length : Int) (special : Bool) :
    Except TokenizeError Text := do
  return (← tokens.mapM fun token => Prod.snd <$> v.tokenToPiece token length 0 special).flatten

theorem tryCopy_zero_eq : tryCopy length 0 piece = if length < piece.length then
    (-(piece.length : Int), []) else ((piece.length : Int), piece) := by
  rw [tryCopy]

theorem tryCopy_zero (h : (piece.length : Int) ≤ length) :
    tryCopy length 0 piece = ((piece.length : Int), piece) := by
  rw [tryCopy_zero_eq, if_neg (by omega)]

theorem pieces_of_yields {ps : List Text} (h : List.Forall₂ (v.Yields special) tokens ps)
    (hlength : (ps.flatten.length : Int) ≤ length) : v.pieces tokens length special =
      .ok ps.flatten := by
  have hmap : tokens.mapM (fun token => Prod.snd <$> v.tokenToPiece token length 0 special) =
      .ok ps := by
    induction h with
    | nil => rfl
    | cons hpiece _ ih =>
      rw [List.flatten_cons, List.length_append] at hlength
      rw [List.mapM_cons, ih (by omega), hpiece,
        tryCopy_zero (show ((List.length _ : Nat) : Int) ≤ length by omega)]
      rfl
  rw [pieces, hmap]
  rfl

/-- A piece without the space that it starts with. -/
def stripSpace (piece : Text) : Text :=
  if piece.head? = some (ascii ' ') then piece.tail else piece

/-- The pieces, with the first one stripped if the space is to be removed. -/
def stripFirst : Bool → List Text → List Text
  | true, piece :: pieces => stripSpace piece :: pieces
  | _, pieces => pieces

theorem tryCopy_toNat (removeSpace : Bool) : tryCopy length removeSpace.toNat piece =
    tryCopy length 0 (if removeSpace then stripSpace piece else piece) := by
  rcases removeSpace with _ | _
  · rfl
  · change tryCopy length (0 + 1) piece = tryCopy length 0 (stripSpace piece)
    rw [stripSpace, apply_ite (tryCopy length 0)]
    exact tryCopy.eq_2 length piece 0

theorem stripFirst_false (pieces : List Text) : stripFirst false pieces = pieces := by
  cases pieces <;> rfl

theorem stripFirst_cons (removeSpace : Bool) (piece : Text) (pieces : List Text) :
    stripFirst removeSpace (piece :: pieces) =
      (if removeSpace then stripSpace piece else piece) :: pieces := by
  rcases removeSpace with _ | _ <;> rfl

/-- The loop counts all of the bytes, and has the text if there is room for it. -/
theorem detokenizeLoop_spec {ps : List Text} (h : List.Forall₂ (v.Yields special) tokens ps)
    {avail : Int} (havail : 0 ≤ avail) (removeSpace : Bool) : ∃ text,
      v.detokenizeLoop special tokens avail removeSpace =
        .ok (((stripFirst removeSpace ps).flatten.length : Int), text) ∧
      (((stripFirst removeSpace ps).flatten.length : Int) ≤ avail →
        text = (stripFirst removeSpace ps).flatten) := by
  induction h generalizing avail removeSpace with
  | nil => rcases removeSpace with _ | _ <;> exact ⟨[], rfl, fun _ => rfl⟩
  | @cons token piece tokens ps hpiece _ ih =>
    rw [stripFirst_cons]
    generalize hfirst : (if removeSpace then stripSpace piece else piece) = first
    have hneg : ¬ avail < 0 := by omega
    rw [detokenizeLoop, if_neg hneg, hpiece, tryCopy_toNat, hfirst, tryCopy_zero_eq]
    have hfalse := stripFirst_false ps
    rw [List.flatten_cons, List.length_append]
    split_ifs with hlt
    · obtain ⟨text, htext, -⟩ := ih (Int.le_refl 0) false
      have hpos : (-(first.length : Int)) < 0 := by omega
      refine ⟨text, ?_, fun h => by omega⟩
      simp only [Except.ok_bind_eq, if_pos hpos, htext, hfalse, List.nil_append]
      simp [pure, Except.pure, Int.add_comm]
    · obtain ⟨text, htext, hroom⟩ := 
        ih (show 0 ≤ avail - first.length by omega) false
      have hpos : ¬ (first.length : Int) < 0 := by omega
      refine ⟨first ++ text, ?_, fun h => ?_⟩
      · simp only [Except.ok_bind_eq, if_neg hpos, htext, hfalse]
        simp [pure, Except.pure, Int.add_comm]
      · rw [hfalse] at hroom
        rw [hroom (by omega)]

end VocabImpl

end LamaServer

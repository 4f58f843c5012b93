import LamaServer.Vocab

/-!
# The list of fragments

`tokenizer_st_partition` goes through a list of fragments and edits it on the way: what a fragment
of text is cut into is put behind it, and it is erased by its index. The text of a fragment is a
part of the raw text.
-/

namespace LamaServer

/-- `fragment_buffer_variant`: a token, or a part of the raw text by its offset and length. -/
inductive FragmentVariant where
  | token (token : Token)
  | rawText (offset length : Nat)
  deriving DecidableEq, Repr

/-- The `forward_list`, and the iterator as the index of its fragment. -/
structure FragmentBuffer where
  fragments : List FragmentVariant
  it : Nat
  deriving DecidableEq, Repr

namespace FragmentBuffer

/-- `emplace_after(it, ...)` and `it++`. -/
def emplace (buffer : FragmentBuffer) (fragment : FragmentVariant) : FragmentBuffer :=
  ⟨buffer.fragments.insertIdx (buffer.it + 1) fragment, buffer.it + 1⟩

/-- `erase_after` of what comes before `source`, which is before `it`: that stays with its
fragment. -/
def erase (buffer : FragmentBuffer) (source : Nat) : FragmentBuffer :=
  ⟨buffer.fragments.eraseIdx source, buffer.it - 1⟩

/-- The constructor of a fragment of text asserts that it is one. -/
def emplaceRawText (rawText : Text) (offset length : Nat) (buffer : FragmentBuffer) :
    Except TokenizeError FragmentBuffer :=
  if 1 ≤ length ∧ offset + length ≤ rawText.length then
    .ok (buffer.emplace (.rawText offset length))
  else .error .abort

end FragmentBuffer

/-- The loop of LSTRIP: the length of what is left at `offset`. -/
def stripLeft (rawText : Text) (offset : Nat) : Nat → Nat
  | 0 => 0
  | length + 1 =>
    if (rawText[offset + length]?).any isSpace then stripLeft rawText offset length else length + 1

/-- The loop of RSTRIP: the offset and the length of what is left. -/
def stripRight (rawText : Text) (offset : Nat) : Nat → Nat × Nat
  | 0 => (offset, 0)
  | length + 1 =>
    if (rawText[offset]?).any isSpace then stripRight rawText (offset + 1) length
    else (offset, length + 1)

/-- What is to the left of a special token at `pos`. -/
def addLeft (rawText : Text) (data : VocabToken) (offset pos : Nat) (buffer : FragmentBuffer) :
    Except TokenizeError FragmentBuffer :=
  if pos > offset then
    let length := if data.attr.lstrip then stripLeft rawText offset (pos - offset) else pos - offset
    if length > 0 then buffer.emplaceRawText rawText offset length else .ok buffer
  else .ok buffer

/-- The loop over the occurrences of a special token in the fragment at the iterator. -/
def splitLoop (rawText : Text) (specialId : Token) (data : VocabToken) :
    Nat → FragmentBuffer → Nat → Nat → Except TokenizeError FragmentBuffer
  | 0, _, _, _ => .error .outOfFuel
  | fuel + 1, buffer, offset, length =>
    match Text.find (rawText.take (offset + length)) data.text offset with
    | none => .ok buffer
    | some pos => do
      let source := buffer.it
      let buffer ← addLeft rawText data offset pos buffer
      let buffer := buffer.emplace (.token specialId)
      if pos + data.text.length < offset + length then
        let right := pos + data.text.length
        let rightLength := length - ((pos - offset) + data.text.length)
        let (right, rightLength) := if data.attr.rstrip then stripRight rawText right rightLength
          else (right, rightLength)
        let buffer ← if rightLength > 0 then buffer.emplaceRawText rawText right rightLength
          else .ok buffer
        splitLoop rawText specialId data fuel (buffer.erase source) right rightLength
      else return buffer.erase source

/-- The loop over the fragments. -/
def partitionLoop (rawText : Text) (specialId : Token) (data : VocabToken) :
    Nat → FragmentBuffer → Except TokenizeError (List FragmentVariant)
  | 0, _ => .error .outOfFuel
  | fuel + 1, buffer =>
    match buffer.fragments[buffer.it]? with
    | none => .ok buffer.fragments
    | some (.token _) =>
      partitionLoop rawText specialId data fuel { buffer with it := buffer.it + 1 }
    | some (.rawText offset length) => do
      let buffer ← splitLoop rawText specialId data (length + 1) buffer offset length
      partitionLoop rawText specialId data fuel { buffer with it := buffer.it + 1 }

/-- `tokenizer_st_partition`, for a list of special tokens. -/
def VocabImpl.stPartition (v : VocabImpl) (cacheSpecialTokens : List Token) (parseSpecial : Bool)
    (rawText : Text) (fragments : List FragmentVariant) :
    Except TokenizeError (List FragmentVariant) :=
  cacheSpecialTokens.foldlM (fun fragments specialId => do
    let data ← v.getTokenData specialId
    if !parseSpecial && (data.attr.control || data.attr.unknown) then return fragments
    else partitionLoop rawText specialId data (fragments.length + 1) ⟨fragments, 0⟩) fragments

end LamaServer

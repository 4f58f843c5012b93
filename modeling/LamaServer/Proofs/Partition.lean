import LamaServer.Partition
import LamaServer.Proofs.StopWords
import LamaServer.Proofs.Vocab

/-!
# The special tokens of a text

Editing the list while it is gone through comes to the same as cutting each fragment of text on its
own: the iterator is past what a fragment has been cut into, and what is erased is the fragment
itself. What is cut out is the first occurrence of the first special token that occurs in a
fragment, and only whitespace next to it is lost.
-/

namespace LamaServer

open Relation

/-! ## Parts of the raw text -/

section Parts

variable {raw : Text} {offset length n : Nat}

/-- The text of a part. -/
def part (raw : Text) (offset length : Nat) : Text := (raw.drop offset).take length

theorem part_length (h : offset + length ≤ raw.length) :
    (part raw offset length).length = length := by
  rw [part, List.length_take, List.length_drop]
  omega

theorem part_ne_nil (h : offset + length ≤ raw.length) :
    part raw offset length ≠ [] ↔ 0 < length := by
  rw [← List.length_pos_iff, part_length h]

theorem part_succ (h : offset + (length + 1) ≤ raw.length) : ∃ c, raw[offset + length]? = some c ∧
    part raw offset (length + 1) = part raw offset length ++ [c] := by
  have hlt : offset + length < raw.length := by omega
  refine ⟨raw[offset + length], List.getElem?_eq_getElem hlt, ?_⟩
  rw [part, part, List.take_add_one, List.getElem?_drop, List.getElem?_eq_getElem hlt]
  rfl

theorem part_cons (h : offset + (length + 1) ≤ raw.length) : ∃ c, raw[offset]? = some c ∧
    part raw offset (length + 1) = c :: part raw (offset + 1) length := by
  have hlt : offset < raw.length := by omega
  refine ⟨raw[offset], List.getElem?_eq_getElem hlt, ?_⟩
  rw [part, part, List.drop_eq_getElem_cons hlt, List.take_succ_cons]

theorem stripLeft_spec : ∀ {length : Nat}, offset + length ≤ raw.length →
    stripLeft raw offset length ≤ length ∧
    part raw offset (stripLeft raw offset length) = (part raw offset length).rdropWhile isSpace
  | 0, _ => ⟨Nat.le_refl _, rfl⟩
  | length + 1, h => by
    obtain ⟨c, hc, hpart⟩ := part_succ h
    obtain ⟨hle, ih⟩ := stripLeft_spec (show offset + length ≤ raw.length by omega)
    rw [stripLeft, hc, Option.any_some]
    split_ifs with hspace
    · refine ⟨by omega, ?_⟩
      rw [ih, hpart, List.rdropWhile_concat_pos _ _ _ hspace]
    · refine ⟨Nat.le_refl _, ?_⟩
      rw [hpart, List.rdropWhile_concat_neg _ _ _ hspace]

theorem stripRight_spec : ∀ {length offset : Nat}, offset + length ≤ raw.length →
    (stripRight raw offset length).1 + (stripRight raw offset length).2 = offset + length ∧
    (stripRight raw offset length).2 ≤ length ∧
    part raw (stripRight raw offset length).1 (stripRight raw offset length).2 =
      (part raw offset length).dropWhile isSpace
  | 0, _, _ => ⟨rfl, Nat.le_refl _, rfl⟩
  | length + 1, offset, h => by
    obtain ⟨c, hc, hpart⟩ := part_cons h
    obtain ⟨hsum, hle, ih⟩ := stripRight_spec (show offset + 1 + length ≤ raw.length by omega)
    rw [stripRight, hc, Option.any_some]
    split_ifs with hspace
    · refine ⟨by omega, by omega, ?_⟩
      rw [ih, hpart, List.dropWhile_cons_of_pos hspace]
    · refine ⟨rfl, Nat.le_refl _, ?_⟩
      rw [hpart, List.dropWhile_cons_of_neg hspace]

end Parts

/-! ## Cutting a text -/

namespace VocabImpl

/-- The text to the left of a special token at `pos`, and the text to the right of it. -/
def leftOf (data : VocabToken) (text : Text) (pos : Nat) : Text :=
  if data.attr.lstrip then (text.take pos).rdropWhile isSpace else text.take pos

def rightOf (data : VocabToken) (text : Text) (pos : Nat) : Text :=
  if data.attr.rstrip then (text.drop (pos + data.text.length)).dropWhile isSpace
  else text.drop (pos + data.text.length)

/-- A text as fragments. -/
def fragmentsOf (text : Text) : List Fragment := if text ≠ [] then [.rawText text] else []

section Cut

variable {data : VocabToken} {specialId : Token} {text : Text} {pos : Nat}

theorem splitFragment_none (hdata : data.text ≠ []) (h : Text.indexOf data.text text = none) :
    splitFragment specialId data hdata text = [.rawText text] := by
  unfold splitFragment
  split
  · rfl
  · next pos hpos => cases h.symm.trans hpos

theorem splitFragment_some (hdata : data.text ≠ []) (h : Text.indexOf data.text text = some pos) :
    splitFragment specialId data hdata text = fragmentsOf (leftOf data text pos) ++
      .token specialId :: (if rightOf data text pos ≠ [] then
        splitFragment specialId data hdata (rightOf data text pos) else []) := by
  conv_lhs => unfold splitFragment
  split
  · next hnone => cases h.symm.trans hnone
  · next pos' hpos =>
    cases h.symm.trans hpos
    rfl

end Cut

end VocabImpl

/-! ## Editing the list -/

namespace FragmentVariant

/-- A part of the raw text that is not empty. -/
def Valid (raw : Text) : FragmentVariant → Prop
  | token _ => True
  | rawText offset length => 0 < length ∧ offset + length ≤ raw.length

/-- The fragment with its own text. -/
def fragment (raw : Text) : FragmentVariant → VocabImpl.Fragment
  | token t => .token t
  | rawText offset length => .rawText (part raw offset length)

end FragmentVariant

section Edit

variable {raw : Text} {data : VocabToken} {specialId : Token} {offset length pos fuel : Nat}
  {pre post frags : List FragmentVariant} {f : FragmentVariant}

theorem insertIdx_append (f : FragmentVariant) (post : List FragmentVariant) :
    ∀ pre : List FragmentVariant, (pre ++ post).insertIdx pre.length f = pre ++ f :: post
  | [] => rfl
  | _ :: pre => congrArg _ (insertIdx_append f post pre)

/-- A fragment is put behind what the fragment at the start has been cut into so far. -/
theorem emplace_eq (f₀ f : FragmentVariant) (pre frags post : List FragmentVariant) :
    FragmentBuffer.emplace ⟨pre ++ f₀ :: (frags ++ post), pre.length + frags.length⟩ f =
      ⟨pre ++ f₀ :: ((frags ++ [f]) ++ post), pre.length + (frags ++ [f]).length⟩ := by
  have h := insertIdx_append f post (pre ++ f₀ :: frags)
  simp only [List.append_assoc, List.cons_append, List.length_append, List.length_cons] at h
  rw [FragmentBuffer.emplace]
  simp only [List.append_assoc, List.cons_append, List.nil_append, List.length_append,
    List.length_cons, List.length_nil]
  exact congrArg₂ _ h rfl

theorem erase_eq (f₀ : FragmentVariant) (hne : frags ≠ []) :
    FragmentBuffer.erase ⟨pre ++ f₀ :: (frags ++ post), pre.length + frags.length⟩ pre.length =
      ⟨pre ++ (frags ++ post), pre.length + (frags.length - 1)⟩ := by
  have hpos := List.length_pos_iff.2 hne
  have herase : (pre ++ f₀ :: (frags ++ post)).eraseIdx pre.length = pre ++ (frags ++ post) := by
    rw [List.eraseIdx_append_of_length_le (Nat.le_refl _), Nat.sub_self]
    rfl
  rw [FragmentBuffer.erase, herase]
  exact congrArg₂ _ rfl (Nat.add_sub_assoc hpos _)

/-- The search in the part of the raw text. -/
theorem find_part (h : offset + length ≤ raw.length) (word : Text) :
    Text.find (raw.take (offset + length)) word offset =
      (Text.indexOf word (part raw offset length)).map (· + offset) := by
  have hlen : offset ≤ (raw.take (offset + length)).length := by
    rw [List.length_take]
    omega
  rw [Text.find, if_pos hlen, part, List.drop_take, Nat.add_sub_cancel_left]

/-- A part, as fragments. -/
def partsOf (offset length : Nat) : List FragmentVariant :=
  if length > 0 then [.rawText offset length] else []

theorem partsOf_spec (h : offset + length ≤ raw.length) :
    (partsOf offset length).map (·.fragment raw) =
      VocabImpl.fragmentsOf (part raw offset length) ∧
    ∀ f ∈ partsOf offset length, f.Valid raw := by
  rw [partsOf, VocabImpl.fragmentsOf]
  by_cases hpos : 0 < length
  · rw [if_pos hpos, if_pos ((part_ne_nil h).2 hpos)]
    exact ⟨rfl, List.forall_mem_singleton.2 ⟨hpos, h⟩⟩
  · rw [if_neg hpos, if_neg fun hne => hpos ((part_ne_nil h).1 hne)]
    exact ⟨rfl, List.forall_mem_nil _⟩

theorem emplaceRawText_eq (h : offset + length ≤ raw.length) (f₀ : FragmentVariant)
    (pre frags post : List FragmentVariant) :
    (if length > 0 then FragmentBuffer.emplaceRawText raw offset length
        ⟨pre ++ f₀ :: (frags ++ post), pre.length + frags.length⟩
      else .ok ⟨pre ++ f₀ :: (frags ++ post), pre.length + frags.length⟩) =
    .ok ⟨pre ++ f₀ :: ((frags ++ partsOf offset length) ++ post),
      pre.length + (frags ++ partsOf offset length).length⟩ := by
  rw [partsOf]
  by_cases hpos : 0 < length
  · rw [if_pos hpos, if_pos hpos, FragmentBuffer.emplaceRawText, if_pos ⟨hpos, h⟩, emplace_eq]
  · rw [if_neg hpos, if_neg hpos, List.append_nil]

theorem addLeft_spec (data : VocabToken) (hpos : pos ≤ length)
    (h : offset + length ≤ raw.length) (f₀ : FragmentVariant) (pre post : List FragmentVariant) :
    ∃ n, addLeft raw data offset (pos + offset) ⟨pre ++ f₀ :: ([] ++ post), pre.length + 0⟩ =
        .ok ⟨pre ++ f₀ :: (([] ++ partsOf offset n) ++ post),
          pre.length + ([] ++ partsOf offset n).length⟩ ∧
      offset + n ≤ raw.length ∧
      part raw offset n = VocabImpl.leftOf data (part raw offset length) pos := by
  have htake : (part raw offset length).take pos = part raw offset pos := by
    rw [part, part, List.take_take, Nat.min_eq_left hpos]
  obtain ⟨n, hn, hle, hleft⟩ : ∃ n,
      (if data.attr.lstrip then stripLeft raw offset pos else pos) = n ∧ n ≤ pos ∧
        part raw offset n = VocabImpl.leftOf data (part raw offset length) pos := by
    obtain ⟨hle, hstrip⟩ := stripLeft_spec (show offset + pos ≤ raw.length by omega)
    rw [VocabImpl.leftOf, htake]
    split_ifs
    · exact ⟨_, rfl, hle, hstrip⟩
    · exact ⟨pos, rfl, Nat.le_refl pos, rfl⟩
  have hn' : offset + n ≤ raw.length := by omega
  refine ⟨n, ?_, hn', hleft⟩
  rw [addLeft, Nat.add_sub_cancel, hn, ← emplaceRawText_eq hn']
  by_cases hlt : pos + offset > offset
  · rw [if_pos hlt]
    rfl
  · rw [if_neg hlt, if_neg (by omega)]
    rfl

/-- What is to the right of a special token. -/
theorem right_spec (hpos : pos + data.text.length ≤ length) (h : offset + length ≤ raw.length) :
    ∃ right n, (if data.attr.rstrip then stripRight raw (pos + offset + data.text.length)
          (length - ((pos + offset - offset) + data.text.length))
        else (pos + offset + data.text.length,
          length - ((pos + offset - offset) + data.text.length))) = (right, n) ∧
      right + n = offset + length ∧ n + (pos + data.text.length) ≤ length ∧
      part raw right n = VocabImpl.rightOf data (part raw offset length) pos := by
  have hdrop : (part raw offset length).drop (pos + data.text.length) =
      part raw (pos + offset + data.text.length) (length - (pos + data.text.length)) := by
    rw [part, part, List.drop_take, List.drop_drop]
    congr 2
    omega
  have hsum : pos + offset + data.text.length + (length - (pos + data.text.length)) =
      offset + length := by
    omega
  obtain ⟨hsum', hle, hstrip⟩ := stripRight_spec (hsum.trans_le h)
  rw [VocabImpl.rightOf, hdrop, Nat.add_sub_cancel]
  split_ifs
  · exact ⟨_, _, rfl, by omega, by omega, hstrip⟩
  · exact ⟨_, _, rfl, by omega, by omega, rfl⟩

theorem splitLoop_none (specialId : Token) (fuel : Nat) (h : offset + length ≤ raw.length)
    (hfind : Text.indexOf data.text (part raw offset length) = none) (buffer : FragmentBuffer) :
    splitLoop raw specialId data (fuel + 1) buffer offset length = .ok buffer := by
  rw [splitLoop, find_part h, hfind]
  rfl

/-- One occurrence of a special token: what is cut out stands in place of the fragment. -/
theorem splitLoop_some (specialId : Token) (fuel : Nat) (hdata : data.text ≠ [])
    (h : offset + length ≤ raw.length)
    (hfind : Text.indexOf data.text (part raw offset length) = some pos) (f₀ : FragmentVariant)
    (pre post : List FragmentVariant) : ∃ left right n,
      left.map (·.fragment raw) =
        VocabImpl.fragmentsOf (VocabImpl.leftOf data (part raw offset length) pos) ∧
      (∀ f ∈ left, f.Valid raw) ∧ right + n = offset + length ∧
      n + (pos + data.text.length) ≤ length ∧
      part raw right n = VocabImpl.rightOf data (part raw offset length) pos ∧
      splitLoop raw specialId data (fuel + 1) ⟨pre ++ f₀ :: post, pre.length⟩ offset length =
        if pos + data.text.length < length then
          splitLoop raw specialId data fuel ⟨pre ++ ((left ++ [FragmentVariant.token specialId] ++
            partsOf right n) ++ post), pre.length + ((left ++ [FragmentVariant.token specialId] ++
            partsOf right n).length - 1)⟩ right n
        else .ok ⟨pre ++ (left ++ [FragmentVariant.token specialId] ++ post),
          pre.length + ((left ++ [FragmentVariant.token specialId]).length - 1)⟩ := by
  have htext := List.length_pos_iff.2 hdata
  have hle := VocabImpl.indexOf_le hfind
  rw [part_length h] at hle
  have hpos : pos ≤ length := by omega
  obtain ⟨m, hadd, hm, hleft⟩ := addLeft_spec data hpos h f₀ pre post
  obtain ⟨right, n, hstrip, hsum, hn, hright⟩ := right_spec hle h
  obtain ⟨hfragments, hvalid⟩ := partsOf_spec hm
  refine ⟨partsOf offset m, right, n, hleft ▸ hfragments, hvalid, hsum, hn, hright, ?_⟩
  have hiff : pos + offset + data.text.length < offset + length ↔
      pos + data.text.length < length := by
    omega
  rw [splitLoop, find_part h, hfind]
  change (addLeft raw data offset (pos + offset) ⟨pre ++ f₀ :: ([] ++ post), pre.length + 0⟩ >>=
    fun buffer => _) = _
  rw [hadd, Except.ok_bind_eq]
  simp only [emplace_eq, hstrip, hiff, List.nil_append]
  by_cases hlt : pos + data.text.length < length
  · have hbuffer := emplaceRawText_eq (hsum.trans_le h) f₀ pre
      (partsOf offset m ++ [FragmentVariant.token specialId]) post
    rw [if_pos hlt, if_pos hlt, ← erase_eq f₀ (by simp)]
    by_cases hpos : n > 0
    · rw [if_pos hpos] at hbuffer ⊢
      rw [hbuffer, Except.ok_bind_eq]
    · rw [if_neg hpos] at hbuffer ⊢
      rw [hbuffer, Except.ok_bind_eq]
  · rw [if_neg hlt, if_neg hlt, erase_eq f₀ (by simp)]
    rfl

/-- The loop over the occurrences of a special token leaves, in place of the fragment at the
iterator, what its text is cut into, and the iterator at the last of it. -/
theorem splitLoop_spec (specialId : Token) (hdata : data.text ≠ []) (post : List FragmentVariant) :
    ∀ (fuel : Nat) {offset length : Nat} (pre : List FragmentVariant), length < fuel → 0 < length →
    offset + length ≤ raw.length → ∃ frags, frags ≠ [] ∧
      splitLoop raw specialId data fuel ⟨pre ++ .rawText offset length :: post, pre.length⟩
        offset length = .ok ⟨pre ++ (frags ++ post), pre.length + (frags.length - 1)⟩ ∧
      frags.map (·.fragment raw) =
        VocabImpl.splitFragment specialId data hdata (part raw offset length) ∧
      ∀ f ∈ frags, f.Valid raw
  | 0, _, _, _, hfuel, _, _ => by omega
  | fuel + 1, offset, length, pre, hfuel, hlength, h => by
    rcases hfind : Text.indexOf data.text (part raw offset length) with _ | pos
    · refine ⟨[.rawText offset length], List.cons_ne_nil _ _, ?_, ?_, ?_⟩
      · rw [splitLoop_none specialId fuel h hfind]
        rfl
      · rw [VocabImpl.splitFragment_none hdata hfind]
        rfl
      · exact List.forall_mem_singleton.2 ⟨hlength, h⟩
    · have htext := List.length_pos_iff.2 hdata
      obtain ⟨left, right, n, hleft, hvalid, hsum, hn, hright, hloop⟩ :=
        splitLoop_some specialId fuel hdata h hfind (.rawText offset length) pre post
      have hend : right + n ≤ raw.length := hsum.trans_le h
      have hcut : ∀ frags : List FragmentVariant, left ++ [.token specialId] ++ frags ≠ [] := by
        simp
      have hvalid' : ∀ frags : List FragmentVariant, (∀ f ∈ frags, f.Valid raw) →
          ∀ f ∈ left ++ [.token specialId] ++ frags, f.Valid raw := fun frags hfrags =>
        List.forall_mem_append.2 ⟨List.forall_mem_append.2
          ⟨hvalid, List.forall_mem_singleton.2 trivial⟩, hfrags⟩
      rw [hloop, VocabImpl.splitFragment_some hdata hfind, ← hleft, ← hright]
      rcases Nat.eq_zero_or_pos n with rfl | hpos
      · refine ⟨left ++ [.token specialId] ++ [], hcut [], ?_, ?_, hvalid' [] (by simp)⟩
        · obtain ⟨fuel, rfl⟩ := Nat.exists_eq_succ_of_ne_zero (show fuel ≠ 0 by omega)
          have hnone : Text.indexOf data.text (part raw right 0) = none := by
            rw [part, List.take_zero, Text.indexOf, if_neg hdata]
          rw [splitLoop_none specialId fuel hend hnone, partsOf, if_neg (Nat.lt_irrefl 0), List.append_nil]
          split_ifs <;> rfl
        · rw [if_neg fun hne => Nat.lt_irrefl 0 ((part_ne_nil hend).1 hne)]
          simp [FragmentVariant.fragment]
      · obtain ⟨frags, hne, hfrags, hmap, hfragsValid⟩ := splitLoop_spec specialId hdata post fuel
          (pre ++ (left ++ [.token specialId])) (by omega) hpos hend
        refine ⟨left ++ [.token specialId] ++ frags, hcut frags, ?_, ?_, hvalid' frags hfragsValid⟩
        · have hlen : 0 < frags.length := List.length_pos_iff.2 hne
          have hlt : pos + data.text.length < length := by omega
          rw [if_pos hlt, partsOf, if_pos hpos]
          generalize left ++ [FragmentVariant.token specialId] = cut at hfrags ⊢
          have hsource : (⟨pre ++ (cut ++ [.rawText right n] ++ post), pre.length +
              ((cut ++ [FragmentVariant.rawText right n]).length - 1)⟩ : FragmentBuffer) =
              ⟨pre ++ cut ++ .rawText right n :: post, (pre ++ cut).length⟩ := by
            simp
          rw [hsource, hfrags]
          simp only [List.append_assoc, List.length_append, Except.ok.injEq,
            FragmentBuffer.mk.injEq, true_and]
          omega
        · rw [if_pos ((part_ne_nil hend).2 hpos), ← hmap]
          simp [FragmentVariant.fragment]

/-- The loop over the fragments cuts each fragment of text on its own. -/
theorem partitionLoop_spec (specialId : Token) (hdata : data.text ≠ []) :
    ∀ (fuel : Nat) {todo : List FragmentVariant} (done : List FragmentVariant),
    todo.length < fuel → (∀ f ∈ todo, f.Valid raw) → ∃ out,
      partitionLoop raw specialId data fuel ⟨done ++ todo, done.length⟩ = .ok (done ++ out) ∧
      out.map (·.fragment raw) =
        VocabImpl.splitFragments specialId data hdata (todo.map (·.fragment raw)) ∧
      ∀ f ∈ out, f.Valid raw
  | 0, _, _, hfuel, _ => by omega
  | fuel + 1, [], done, _, _ => by
    refine ⟨[], ?_, rfl, List.forall_mem_nil _⟩
    rw [partitionLoop, List.append_nil, List.getElem?_eq_none (Nat.le_refl _)]
  | fuel + 1, f :: todo, done, hfuel, hvalid => by
    obtain ⟨hf, htodo⟩ := List.forall_mem_cons.1 hvalid
    have hget : (done ++ f :: todo)[done.length]? = some f := by simp
    cases f with
    | token t =>
      obtain ⟨out, hout, hmap, hoValid⟩ := partitionLoop_spec specialId hdata fuel
        (done ++ [.token t]) (by rw [List.length_cons] at hfuel; omega) htodo
      refine ⟨.token t :: out, ?_, ?_, List.forall_mem_cons.2 ⟨trivial, hoValid⟩⟩
      · rw [partitionLoop, hget]
        simpa using hout
      · rw [List.map_cons, hmap]
        rfl
    | rawText offset length =>
      obtain ⟨frags, hne, hsplit, hfrags, hfValid⟩ := splitLoop_spec specialId hdata todo
        (length + 1) done (Nat.lt_succ_self length) hf.1 hf.2
      have hlen := List.length_pos_iff.2 hne
      obtain ⟨out, hout, hmap, hoValid⟩ := partitionLoop_spec specialId hdata fuel
        (done ++ frags) (by rw [List.length_cons] at hfuel; omega) htodo
      refine ⟨frags ++ out, ?_, ?_, List.forall_mem_append.2 ⟨hfValid, hoValid⟩⟩
      · have hit : done.length + (frags.length - 1) + 1 = (done ++ frags).length := by
          rw [List.length_append]
          omega
        rw [partitionLoop, hget]
        change (splitLoop raw specialId data (length + 1)
          ⟨done ++ .rawText offset length :: todo, done.length⟩ offset length >>= _) = _
        rw [hsplit, Except.ok_bind_eq, hit, ← List.append_assoc, hout, List.append_assoc]
      · rw [List.map_append, hfrags, hmap]
        rfl

end Edit

end LamaServer

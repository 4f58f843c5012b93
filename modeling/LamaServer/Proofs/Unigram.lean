import LamaServer.Proofs.Rwkv
import LamaServer.Unigram
import Mathlib.Algebra.Order.Ring.Rat

/-!
# The tokens with the highest sum of scores

The results hold the best sum for each end of a code point, so what is backtracked has the highest
sum of all segmentations, as long as the score of -FLT_MAX that an entry starts with is lower than
every sum. A sum that is not higher leaves the entry as it was: one unknown token for all that comes
before.
-/

namespace LamaServer

namespace LoadedUgm

open Viterbi (Edge Path Settled)

/-! ## What is claimed -/

/-- A token with the bytes that it stands for and its score. -/
structure Piece where
  token : Token
  text : Text
  score : ℚ

/-- Tokens of the matcher, where user-defined ones score 0, and code points that are no token. -/
inductive IsPiece (v : LoadedUgm) : Piece → Prop
  | token {id : Nat} {data : VocabToken} (hid : v.idToToken[id]? = some data)
    (hmatcher : inMatcher data) :
    IsPiece v ⟨id, data.text, if data.attr.userDefined then 0 else data.score⟩
  | unknown {c : Char}
    (h : ∀ data ∈ v.idToToken, inMatcher data → data.text ≠ String.utf8EncodeChar c) :
    IsPiece v ⟨v.tokenUnk, String.utf8EncodeChar c, v.unknownTokenScore⟩

def spell (pieces : List Piece) : Text := pieces.flatMap (·.text)

def totalScore (pieces : List Piece) : ℚ := (pieces.map (·.score)).sum

/-- The pieces spell the text. -/
structure Segmentation (v : LoadedUgm) (text : Text) (pieces : List Piece) : Prop where
  piece : ∀ p ∈ pieces, v.IsPiece p
  spells : spell pieces = text

/-- The pieces from an offset on, as they are emitted. -/
def emit : Nat → List Piece → List EmittedToken
  | _, [] => []
  | offset, p :: pieces =>
    ⟨p.token, offset, offset + p.text.length⟩ :: emit (offset + p.text.length) pieces

/-- What is emitted is a segmentation with the highest total score. -/
def TokenizesOptimally (v : LoadedUgm) (normalized : Text) : Prop :=
  ∃ pieces, v.Segmentation normalized pieces ∧
    v.tokenizeNormalized normalized = .ok (emit 0 pieces) ∧
    ∀ pieces', v.Segmentation normalized pieces' → totalScore pieces' ≤ totalScore pieces

/-- An unknown token for all of `pre`, if that is not empty, and pieces for the rest. -/
def Way (v : LoadedUgm) (cs pre : List Char) (pieces : List Piece) : Prop :=
  ∃ post, cs = pre ++ post ∧ v.Segmentation (Utf8.encode post) pieces

/-- The score with which the results start stands for what is in front of the pieces. -/
def wayScore (pre : List Char) (pieces : List Piece) : ℚ :=
  (if pre = [] then 0 else -fltMax) + totalScore pieces

/-- Where the pieces start, from the last one on. -/
def wayStarts (pre : List Char) (pieces : List Piece) : List Nat :=
  ((emit (Utf8.encode pre).length pieces).map (·.start)).reverse

/-- No way has a higher score, and of those with this score it has the earliest starts. -/
def IsPreferred (v : LoadedUgm) (cs pre : List Char) (pieces : List Piece) : Prop :=
  v.Way cs pre pieces ∧ ∀ pre' pieces', v.Way cs pre' pieces' →
    wayScore pre' pieces' < wayScore pre pieces ∨ wayScore pre' pieces' = wayScore pre pieces ∧
      Viterbi.Earlier (wayStarts pre pieces) (wayStarts pre' pieces')

/-- The pieces are all there is, or the unknown token in front of them is a piece as well, and the
total score with it is the highest one. -/
def IsSound (v : LoadedUgm) (cs pre : List Char) (pieces : List Piece) : Prop :=
  pre = [] ∨ ∃ score, v.IsPiece ⟨v.tokenUnk, Utf8.encode pre, score⟩ ∧
    ∀ pieces', v.Segmentation (Utf8.encode cs) pieces' →
      totalScore pieces' ≤ score + totalScore pieces

variable {v : LoadedUgm}

/-! ## The matcher -/

theorem lookup_tokenMatcher {p : Text} {token : Token} :
    v.tokenMatcher.lookup p = some token ↔
      ∃ (id : Nat) (data : VocabToken), token = id ∧ v.idToToken[id]? = some data ∧
        inMatcher data ∧ data.text = p := by
  have hsome {token : Token} (h : v.tokenMatcher.lookup p = some token) :
      ∃ (id : Nat) (data : VocabToken), token = id ∧ v.idToToken[id]? = some data ∧
        inMatcher data ∧ data.text = p := by
    rcases NaiveTrie.lookup_foldl_eq_some h with h | ⟨⟨data, id⟩, hmem, htext, rfl⟩
    · cases NaiveTrie.lookup_empty.symm.trans h
    · obtain ⟨hmem, hmatcher⟩ := List.mem_filter.1 hmem
      exact ⟨id, data, rfl, List.mem_zipIdx_iff_getElem?.1 hmem, hmatcher, htext⟩
  refine ⟨hsome, ?_⟩
  rintro ⟨id, data, rfl, hid, hmatcher, htext⟩
  rcases hlookup : v.tokenMatcher.lookup p with _ | token
  · have hnone := (NaiveTrie.lookup_foldl_eq_none.1 hlookup).2 (data, id)
      (List.mem_filter.2 ⟨List.mem_zipIdx_iff_getElem?.2 hid, hmatcher⟩)
    exact absurd htext hnone
  · obtain ⟨id', data', rfl, hid', -, htext'⟩ := hsome hlookup
    have hget : (v.idToToken.map (·.text))[id]? = (v.idToToken.map (·.text))[id']? := by
      rw [List.getElem?_map, List.getElem?_map, hid, hid', Option.map_some, Option.map_some, htext,
        htext']
    have hlt : id < (v.idToToken.map (·.text)).length := by
      rw [List.length_map]
      exact (List.getElem?_eq_some_iff.1 hid).1
    rw [(List.getElem?_inj hlt v.text_nodup).1 hget]

theorem lookup_tokenMatcher_eq_none {p : Text} : v.tokenMatcher.lookup p = none ↔
    ∀ data ∈ v.idToToken, inMatcher data → data.text ≠ p := by
  constructor
  · intro h data hdata hmatcher htext
    obtain ⟨id, hid⟩ := List.mem_iff_getElem?.1 hdata
    rw [lookup_tokenMatcher.2 ⟨id, data, rfl, hid, hmatcher, htext⟩] at h
    cases h
  · intro h
    rcases hlookup : v.tokenMatcher.lookup p with _ | token
    · rfl
    · obtain ⟨id, data, -, hid, hmatcher, htext⟩ := lookup_tokenMatcher.1 hlookup
      exact absurd htext (h data (List.mem_of_getElem? hid) hmatcher)

/-- What the matcher has for a text is a piece. -/
theorem isPiece_of_lookup {p : Text} {token : Token} (h : v.tokenMatcher.lookup p = some token) :
    v.IsPiece ⟨token, p, v.tokenScore token⟩ := by
  obtain ⟨id, data, rfl, hid, hmatcher, rfl⟩ := lookup_tokenMatcher.1 h
  have hscore : v.tokenScore id = if data.attr.userDefined then 0 else data.score := by
    rw [tokenScore, Int.toNat_natCast, hid]
  rw [hscore]
  exact .token hid hmatcher

theorem IsPiece.cases {p : Piece} (h : v.IsPiece p) :
    v.tokenMatcher.lookup p.text = some p.token ∧ p.score = v.tokenScore p.token ∨
      v.tokenMatcher.lookup p.text = none ∧ (∃ c, p.text = String.utf8EncodeChar c) ∧
        p.token = v.tokenUnk ∧ p.score = v.unknownTokenScore := by
  rcases h with ⟨hid, hmatcher⟩ | hnone
  · rename_i id data
    refine .inl ⟨lookup_tokenMatcher.2 ⟨id, data, rfl, hid, hmatcher, rfl⟩, ?_⟩
    rw [tokenScore, Int.toNat_natCast, hid]
  · exact .inr ⟨lookup_tokenMatcher_eq_none.2 hnone, ⟨_, rfl⟩, rfl, rfl⟩

theorem IsPiece.ne_nil {p : Piece} (h : v.IsPiece p) : p.text ≠ [] := by
  rcases h with ⟨hid, -⟩ | -
  · exact v.text_ne_nil _ (List.mem_of_getElem? hid)
  · exact String.utf8EncodeChar_ne_nil

/-! ## The edges -/

/-- The piece as an edge. -/
def Piece.edge (p : Piece) (offset : Nat) : Edge Token ℚ :=
  ⟨offset, offset + p.text.length, p.token, p.score⟩

/-- The edges of the inner loop. -/
def matchEdges (v : LoadedUgm) (inputOffset : Nat) : NaiveTrie → Nat → Text → List (Edge Token ℚ)
  | _, _, [] => []
  | node, prefixOffset, c :: rest =>
    match node.traverse c with
    | none => []
    | some node =>
      (if node.hasValue then
        [⟨inputOffset, prefixOffset + 1, node.value, v.tokenScore node.value⟩] else []) ++
      matchEdges v inputOffset node (prefixOffset + 1) rest

theorem matchTokens_eq (i n : Nat) : ∀ (rest : Text) (node : NaiveTrie) (offset : Nat)
    (st : Bool × (Nat → BestTokenization)), v.matchTokens i n node offset rest st =
      (st.1 || (v.matchEdges i node offset rest).any (fun e => e.target - i = n),
        (v.matchEdges i node offset rest).foldl Viterbi.relax st.2)
  | [], _, _, st => by simp [matchTokens, matchEdges]
  | c :: rest, node, offset, st => by
    unfold matchTokens matchEdges
    rcases node.traverse c with _ | node
    · simp
    · dsimp only
      rw [matchTokens_eq i n rest]
      by_cases hvalue : node.hasValue = true
      · simp [hvalue, Bool.or_assoc]
      · simp [hvalue]

theorem mem_matchEdges {i : Nat} {e : Edge Token ℚ} : ∀ {rest : Text} {node : NaiveTrie}
    {offset : Nat}, e ∈ v.matchEdges i node offset rest ↔ ∃ q token, q ≠ [] ∧ q <+: rest ∧
      node.lookup q = some token ∧ e = ⟨i, offset + q.length, token, v.tokenScore token⟩
  | [], _, _ => by
    refine ⟨fun h => by simp [matchEdges] at h, ?_⟩
    rintro ⟨q, -, hne, hq, -⟩
    exact absurd (List.prefix_nil.1 hq) hne
  | c :: rest, node, offset => by
    unfold matchEdges
    rcases htrav : node.traverse c with _ | res
    · refine ⟨fun h => by simp at h, ?_⟩
      rintro ⟨_ | ⟨d, q⟩, token, hne, hq, hlookup, -⟩
      · exact absurd rfl hne
      · obtain ⟨rfl, -⟩ := List.cons_prefix_cons.1 hq
        rw [NaiveTrie.lookup, htrav] at hlookup
        cases hlookup
    · have hlookup (q : Text) : node.lookup (c :: q) = res.lookup q := by
        rw [NaiveTrie.lookup, htrav, Option.bind_some]
      dsimp only
      rw [List.mem_append, mem_matchEdges]
      constructor
      · rintro (h | ⟨q, token, -, hq, hid, rfl⟩)
        · split_ifs at h with hvalue
          · refine ⟨[c], res.value, List.cons_ne_nil _ _, ?_, ?_, List.mem_singleton.1 h⟩
            · exact List.cons_prefix_cons.2 ⟨rfl, List.nil_prefix⟩
            · rw [hlookup, NaiveTrie.lookup, if_pos hvalue]
          · cases h
        · refine ⟨c :: q, token, List.cons_ne_nil _ _, List.cons_prefix_cons.2 ⟨rfl, hq⟩, ?_, ?_⟩
          · rw [hlookup, hid]
          · rw [List.length_cons, Nat.add_assoc, Nat.add_comm 1]
      · rintro ⟨_ | ⟨d, q⟩, token, hne, hq, hid, rfl⟩
        · exact absurd rfl hne
        obtain ⟨rfl, hq'⟩ := List.cons_prefix_cons.1 hq
        rw [hlookup] at hid
        rcases q with _ | ⟨d', q⟩
        · rw [NaiveTrie.lookup] at hid
          split_ifs at hid with hvalue
          rw [if_pos hvalue, ← Option.some.inj hid]
          exact .inl (List.mem_singleton_self _)
        · refine .inr ⟨d' :: q, token, List.cons_ne_nil _ _, hq', hid, ?_⟩
          rw [List.length_cons, Nat.add_assoc, Nat.add_comm 1]

/-- The edges from a code point on: those of the matcher, and one for the unknown token if the code
point is no token. -/
def stepEdges (v : LoadedUgm) (i : Nat) (c : Char) (rest : Text) : List (Edge Token ℚ) :=
  v.matchEdges i v.tokenMatcher i (String.utf8EncodeChar c ++ rest) ++
    if (v.tokenMatcher.lookup (String.utf8EncodeChar c)).isSome then []
    else [⟨i, i + (String.utf8EncodeChar c).length, v.tokenUnk, v.unknownTokenScore⟩]

def textEdges (v : LoadedUgm) : Nat → List Char → List (Edge Token ℚ)
  | _, [] => []
  | i, c :: cs => v.stepEdges i c (Utf8.encode cs) ++
    v.textEdges (i + (String.utf8EncodeChar c).length) cs

/-- The edges are the pieces that the text goes on with. -/
theorem mem_stepEdges {i : Nat} {c : Char} {cs : List Char} {e : Edge Token ℚ} :
    e ∈ v.stepEdges i c (Utf8.encode cs) ↔
      ∃ p, v.IsPiece p ∧ p.text <+: Utf8.encode (c :: cs) ∧ e = p.edge i := by
  rw [stepEdges, List.mem_append, mem_matchEdges, ← Utf8.encode_cons]
  constructor
  · rintro (⟨q, token, -, hq, hlookup, rfl⟩ | h)
    · exact ⟨_, isPiece_of_lookup hlookup, hq, rfl⟩
    · split_ifs at h with hsome
      · cases h
      · have hnone : v.tokenMatcher.lookup (String.utf8EncodeChar c) = none := by simpa using hsome
        refine ⟨_, .unknown (lookup_tokenMatcher_eq_none.1 hnone), List.prefix_append _ _, ?_⟩
        exact List.mem_singleton.1 h
  · rintro ⟨⟨token, text, score⟩, hp, hstart, rfl⟩
    rcases hp.cases with ⟨hlookup, hscore⟩ | ⟨hnone, ⟨c', htext⟩, htoken, hscore⟩
    · dsimp only at hlookup hscore
      exact .inl ⟨text, token, hp.ne_nil, hstart, hlookup, by rw [Piece.edge, hscore]⟩
    · dsimp only at hnone htext htoken hscore hstart
      subst htext htoken hscore
      rw [Utf8.encode_cons] at hstart
      obtain rfl := encodeChar_start hstart
      right
      rw [hnone]
      exact List.mem_singleton_self _

theorem mem_textEdges {e : Edge Token ℚ} : ∀ {cs : List Char} {i : Nat},
    e ∈ v.textEdges i cs ↔ ∃ pre post p, cs = pre ++ post ∧ v.IsPiece p ∧
      p.text <+: Utf8.encode post ∧ e = p.edge (i + (Utf8.encode pre).length)
  | [], i => by
    refine ⟨fun h => by simp [textEdges] at h, ?_⟩
    rintro ⟨pre, post, p, hcs, hp, hstart, -⟩
    rw [(List.append_eq_nil_iff.1 hcs.symm).2, Utf8.encode_nil, List.prefix_nil] at hstart
    exact absurd hstart hp.ne_nil
  | c :: cs, i => by
    rw [textEdges, List.mem_append, mem_stepEdges, mem_textEdges]
    constructor
    · rintro (⟨p, hp, hstart, rfl⟩ | ⟨pre, post, p, rfl, hp, hstart, rfl⟩)
      · exact ⟨[], c :: cs, p, rfl, hp, hstart, rfl⟩
      · refine ⟨c :: pre, post, p, rfl, hp, hstart, ?_⟩
        rw [Utf8.encode_cons, List.length_append, Nat.add_assoc]
    · rintro ⟨_ | ⟨d, pre⟩, post, p, hcs, hp, hstart, rfl⟩
      · obtain rfl : c :: cs = post := hcs
        exact .inl ⟨p, hp, hstart, rfl⟩
      · obtain ⟨rfl, rfl⟩ := List.cons.inj hcs
        refine .inr ⟨pre, post, p, rfl, hp, hstart, ?_⟩
        rw [Utf8.encode_cons, List.length_append, Nat.add_assoc]

theorem source_lt_target {cs : List Char} {i : Nat} {e : Edge Token ℚ}
    (h : e ∈ v.textEdges i cs) : i ≤ e.source ∧ e.source < e.target := by
  obtain ⟨pre, post, p, -, hp, -, rfl⟩ := mem_textEdges.1 h
  have hpos := List.length_pos_iff.2 hp.ne_nil
  exact ⟨Nat.le_add_right _ _, Nat.lt_add_of_pos_right hpos⟩

theorem forward_textEdges (i : Nat) (cs : List Char) : Viterbi.Forward (v.textEdges i cs) := by
  refine ⟨?_, fun e he => (source_lt_target he).2⟩
  induction cs generalizing i with
  | nil => exact .nil
  | cons c cs ih =>
    have hsource {e : Edge Token ℚ} (he : e ∈ v.stepEdges i c (Utf8.encode cs)) : e.source = i := by
      obtain ⟨p, -, -, rfl⟩ := mem_stepEdges.1 he
      rfl
    rw [textEdges, List.pairwise_append]
    refine ⟨List.pairwise_of_forall_mem_list fun e he e' he' => ?_, ih _, fun e he e' he' => ?_⟩
    · rw [hsource he, hsource he']
    · rw [hsource he]
      exact (Nat.le_add_right _ _).trans (source_lt_target he').1

/-! ## The loops -/

/-- A token of the length of the next code point is that code point. -/
theorem any_matchEdges (i : Nat) (c : Char) (rest : Text) :
    (v.matchEdges i v.tokenMatcher i (String.utf8EncodeChar c ++ rest)).any
        (fun e => e.target - i = (String.utf8EncodeChar c).length) =
      (v.tokenMatcher.lookup (String.utf8EncodeChar c)).isSome := by
  rw [Bool.eq_iff_iff, List.any_eq_true, Option.isSome_iff_exists]
  constructor
  · rintro ⟨e, he, hlen⟩
    obtain ⟨q, token, -, hq, hlookup, rfl⟩ := mem_matchEdges.1 he
    have hlen : q.length = (String.utf8EncodeChar c).length := by
      have hlen : i + q.length - i = (String.utf8EncodeChar c).length := of_decide_eq_true hlen
      omega
    rw [← (List.prefix_of_prefix_length_le hq (List.prefix_append _ _) hlen.le).eq_of_length hlen]
    exact ⟨token, hlookup⟩
  · rintro ⟨token, hlookup⟩
    refine ⟨_, mem_matchEdges.2 ⟨_, token, String.utf8EncodeChar_ne_nil, List.prefix_append _ _,
      hlookup, rfl⟩, ?_⟩
    simp

theorem fillResults_encode : ∀ (cs : List Char) {fuel i : Nat} {results : Nat → BestTokenization},
    (Utf8.encode cs).length ≤ fuel → v.fillResults fuel i (Utf8.encode cs) results =
      .ok ((v.textEdges i cs).foldl Viterbi.relax results)
  | [], fuel, _, _, _ => by
    rw [Utf8.encode_nil, fillResults]
    rfl
  | c :: cs, fuel, i, results, hfuel => by
    have hunit := TokenizerSession.isUnit_of_decodes (decodes_of_toUtf8 (toUtf8_val c)).1
    have hany := v.any_matchEdges i c (Utf8.encode cs)
    rw [Utf8.encode_cons, List.length_append] at hfuel
    rw [textEdges, stepEdges, Utf8.encode_cons]
    generalize String.utf8EncodeChar c = bytes at *
    rcases bytes with _ | ⟨b, bytes⟩
    · cases hunit
    rcases fuel with _ | fuel
    · simp at hfuel
    have hunits : min (unicodeLenUtf8 b) ((bytes ++ Utf8.encode cs).length + 1) =
        (b :: bytes).length := by
      rw [show unicodeLenUtf8 b = bytes.length + 1 from hunit, List.length_append,
        List.length_cons]
      omega
    rw [List.cons_append, fillResults]
    dsimp only
    rw [hunits, matchTokens_eq, Bool.false_or, ← List.cons_append, hany, List.drop_left]
    rw [fillResults_encode cs (by rw [List.length_cons] at hfuel; omega)]
    rw [List.foldl_append, List.foldl_append]
    split_ifs with hsome
    · simp
    · simp

/-- What the results hold in the end. -/
theorem settled (v : LoadedUgm) (cs : List Char) :
    Settled v.initialResults (v.textEdges 0 cs)
      ((v.textEdges 0 cs).foldl Viterbi.relax v.initialResults) :=
  Viterbi.settled_foldl _ (forward_textEdges 0 cs)

def emitEdge (e : Edge Token ℚ) : EmittedToken := ⟨e.label, e.source, e.target⟩

theorem path_zero {edges p : List (Edge Token ℚ)} {i k : Nat} (hp : Path edges i p k)
    (hlt : ∀ e ∈ edges, e.source < e.target) (hk : k = 0) : i = 0 ∧ p = [] := by
  cases hp with
  | nil => exact ⟨hk, rfl⟩
  | snoc _ he => exact absurd (hlt _ he) (by omega)

/-- Backtracking emits the edges that the results name, behind one token for what is in front of
them. -/
theorem backtrack_path {results : Nat → BestTokenization} {edges p : List (Edge Token ℚ)}
    {i k : Nat} (hp : Path edges i p k) (hlt : ∀ e ∈ edges, e.source < e.target)
    (hfollows : Viterbi.Follows results p) (hstart : (results i).source = 0) :
    ∀ {fuel : Nat}, k ≤ fuel → 0 < k → backtrack results fuel k =
      .ok ((p.map emitEdge).reverse ++ if i = 0 then [] else [⟨(results i).label, 0, i⟩]) := by
  induction hp with
  | nil =>
    intro fuel hfuel hk
    rcases fuel with _ | fuel
    · omega
    · rw [backtrack, if_pos hstart, if_neg hk.ne']
      rfl
  | @snoc p e hp he ih =>
    intro fuel hfuel hk
    rcases fuel with _ | fuel
    · omega
    obtain ⟨hlabel, hsource⟩ := hfollows e (by simp)
    have hfollows' : Viterbi.Follows results p := fun e' he' => hfollows e' (by simp [he'])
    have hltet := hlt e he
    rw [backtrack, hlabel, hsource]
    by_cases hzero : e.source = 0
    · obtain ⟨rfl, rfl⟩ := path_zero hp hlt hzero
      rw [if_pos hzero]
      simp [emitEdge, hzero]
    · rw [if_neg hzero, ih hfollows' (by omega) (Nat.pos_of_ne_zero hzero)]
      simp [emitEdge, pure, Except.pure, bind, Except.bind]

/-! ## Pieces on a path -/

/-- The edges of pieces from an offset on. -/
def edgesOf : Nat → List Piece → List (Edge Token ℚ)
  | _, [] => []
  | offset, p :: pieces => p.edge offset :: edgesOf (offset + p.text.length) pieces

theorem map_edgesOf : ∀ (pieces : List Piece) (offset : Nat),
    (edgesOf offset pieces).map emitEdge = emit offset pieces
  | [], _ => rfl
  | _ :: pieces, _ => congrArg (_ :: ·) (map_edgesOf pieces _)

theorem total_edgesOf : ∀ (pieces : List Piece) (offset : Nat),
    Viterbi.total (edgesOf offset pieces) = totalScore pieces
  | [], _ => rfl
  | p :: pieces, offset => by
    have ih := total_edgesOf pieces (offset + p.text.length)
    simp only [Viterbi.total, totalScore, edgesOf, List.map_cons, List.sum_cons] at ih ⊢
    rw [ih]
    rfl

theorem edgesOf_snoc (q : Piece) : ∀ (pieces : List Piece) (offset : Nat),
    edgesOf offset (pieces ++ [q]) =
      edgesOf offset pieces ++ [q.edge (offset + (spell pieces).length)]
  | [], _ => rfl
  | p :: pieces, offset => by
    rw [List.cons_append, edgesOf, edgesOf_snoc q pieces, edgesOf, List.cons_append, spell, spell,
      List.flatMap_cons, List.length_append, Nat.add_assoc]

/-- A path from between two code points is along pieces. -/
theorem pieces_of_path {cs pre post : List Char} {p : List (Edge Token ℚ)} {i k : Nat}
    (hcs : cs = pre ++ post) (hi : i = (Utf8.encode pre).length)
    (hp : Path (v.textEdges 0 cs) i p k) : ∃ pieces rest, (∀ q ∈ pieces, v.IsPiece q) ∧
      p = edgesOf i pieces ∧ Utf8.encode post = spell pieces ++ rest ∧
      k = i + (spell pieces).length := by
  induction hp with
  | nil => exact ⟨[], Utf8.encode post, by simp, rfl, rfl, rfl⟩
  | @snoc p e _ he ih =>
    obtain ⟨pieces, rest, hpieces, rfl, hspell, hk⟩ := ih
    obtain ⟨pre', post', q, hcs', hq, hstart, rfl⟩ := mem_textEdges.1 he
    have hrest : rest = Utf8.encode post' := by
      have hall := congrArg Utf8.encode (hcs.symm.trans hcs')
      rw [Utf8.encode_append, Utf8.encode_append, hspell, ← List.append_assoc] at hall
      refine (List.append_inj hall ?_).2
      rw [List.length_append, ← hi, ← hk]
      exact Nat.zero_add _
    obtain ⟨rest', hrest'⟩ := hstart
    refine ⟨pieces ++ [q], rest', ?_, ?_, ?_, ?_⟩
    · exact List.forall_mem_append.2 ⟨hpieces, by simpa using hq⟩
    · rw [edgesOf_snoc, ← hk]
      rfl
    · simp [spell, hspell, hrest, ← hrest']
    · change _ + q.text.length = _
      rw [show (0 + (Utf8.encode pre').length) = i + (spell pieces).length from hk]
      simp [spell, Nat.add_assoc]

/-- The texts of the tokens are valid UTF-8. -/
def ValidTexts (v : LoadedUgm) : Prop := ∀ data ∈ v.idToToken, ∃ s, data.text = Utf8.encode s

theorem IsPiece.valid (hvalid : v.ValidTexts) {p : Piece} (h : v.IsPiece p) :
    ∃ s, p.text = Utf8.encode s := by
  rcases h with ⟨hid, -⟩ | -
  · exact hvalid _ (List.mem_of_getElem? hid)
  · exact ⟨[_], (List.append_nil _).symm⟩

/-- Pieces from between two code points are a path. -/
theorem path_of_pieces (hvalid : v.ValidTexts) {cs : List Char} : ∀ {pieces : List Piece}
    {pre post : List Char} {i : Nat}, cs = pre ++ post → i = (Utf8.encode pre).length →
    (∀ q ∈ pieces, v.IsPiece q) → spell pieces <+: Utf8.encode post →
    Path (v.textEdges 0 cs) i (edgesOf i pieces) (i + (spell pieces).length)
  | [], _, _, _, _, _, _, _ => .nil
  | q :: pieces, pre, post, i, hcs, hi, hpieces, hspell => by
    obtain ⟨hq, hpieces⟩ := List.forall_mem_cons.1 hpieces
    rw [spell, List.flatMap_cons] at hspell
    have hstart := (List.prefix_append _ _).trans hspell
    obtain ⟨t, ht⟩ := hq.valid hvalid
    rw [ht] at hstart
    obtain ⟨post', rfl⟩ := UgmVocab.encode_prefix hstart
    rw [Utf8.encode_append, ht, List.prefix_append_right_inj] at hspell
    have hedge : q.edge i ∈ v.textEdges 0 cs := mem_textEdges.2
      ⟨pre, t ++ post', q, hcs, hq, by rw [Utf8.encode_append, ht]; exact List.prefix_append _ _,
        by rw [Nat.zero_add, hi]⟩
    have hcs' : cs = (pre ++ t) ++ post' := by rw [hcs, List.append_assoc]
    have hi' : i + q.text.length = (Utf8.encode (pre ++ t)).length := by
      rw [Utf8.encode_append, List.length_append, hi, ht]
    have hpath := path_of_pieces hvalid hcs' hi' hpieces hspell
    have hsum : i + (spell (q :: pieces)).length = i + q.text.length + (spell pieces).length := by
      rw [spell, List.flatMap_cons, List.length_append, Nat.add_assoc]
      rfl
    rw [hsum]
    exact Path.cons hedge hpath

/-! ## The preferred way -/

section Ways

variable {cs pre : List Char} {pieces : List Piece}

theorem encode_eq_nil {s : List Char} : Utf8.encode s = [] ↔ s = [] := by
  rcases s with _ | ⟨c, s⟩
  · simp
  · simp [String.utf8EncodeChar_ne_nil]

theorem starts_edgesOf (pre : List Char) (pieces : List Piece) :
    Viterbi.starts (edgesOf (Utf8.encode pre).length pieces) = wayStarts pre pieces := by
  rw [Viterbi.starts, wayStarts, ← map_edgesOf, List.map_map]
  rfl

theorem score_initialResults (pre : List Char) (pieces : List Piece) :
    (v.initialResults (Utf8.encode pre).length).score +
      Viterbi.total (edgesOf (Utf8.encode pre).length pieces) = wayScore pre pieces := by
  rw [total_edgesOf, wayScore, initialResults]
  simp only [List.length_eq_zero_iff, encode_eq_nil]
  split_ifs <;> rfl

/-- A way is a path to the end of the text. -/
theorem Way.path (hvalid : v.ValidTexts) (h : v.Way cs pre pieces) :
    Path (v.textEdges 0 cs) (Utf8.encode pre).length (edgesOf (Utf8.encode pre).length pieces)
      (Utf8.encode cs).length := by
  obtain ⟨post, rfl, hseg⟩ := h
  have hspell : spell pieces <+: Utf8.encode post := by rw [hseg.spells]
  have hpath := path_of_pieces hvalid (rfl : pre ++ post = _) rfl hseg.piece hspell
  rw [hseg.spells, ← List.length_append, ← Utf8.encode_append] at hpath
  exact hpath

theorem way_of_path {p : List (Edge Token ℚ)} {i : Nat}
    (hp : Path (v.textEdges 0 cs) i p (Utf8.encode cs).length) :
    ∃ pre pieces, v.Way cs pre pieces ∧ i = (Utf8.encode pre).length ∧ p = edgesOf i pieces := by
  have hstart : ∃ pre post, cs = pre ++ post ∧ i = (Utf8.encode pre).length := by
    generalize hk : (Utf8.encode cs).length = k at hp
    have hsource : i = k ∨ ∃ e ∈ v.textEdges 0 cs, e.source = i := by
      clear hk
      induction hp with
      | nil => exact .inl rfl
      | snoc _ he ih =>
        rcases ih with rfl | h
        · exact .inr ⟨_, he, rfl⟩
        · exact .inr h
    rcases hsource with rfl | ⟨e, he, rfl⟩
    · exact ⟨cs, [], by simp, hk.symm⟩
    · obtain ⟨pre, post, q, hcs, -, -, rfl⟩ := mem_textEdges.1 he
      exact ⟨pre, post, hcs, Nat.zero_add _⟩
  obtain ⟨pre, post, rfl, rfl⟩ := hstart
  obtain ⟨pieces, rest, hpieces, rfl, hspell, hk⟩ := pieces_of_path rfl rfl hp
  have hrest : rest = [] := by
    rw [Utf8.encode_append, List.length_append, hspell, List.length_append] at hk
    exact List.length_eq_zero_iff.1 (by omega)
  exact ⟨pre, pieces, ⟨post, rfl, hpieces, by rw [hspell, hrest, List.append_nil]⟩, rfl, rfl⟩

/-- What is emitted is the preferred way. -/
theorem tokenizeNormalized_encode (hvalid : v.ValidTexts) (cs : List Char) :
    ∃ pre pieces, v.IsPreferred cs pre pieces ∧ v.tokenizeNormalized (Utf8.encode cs) =
      .ok ((if pre = [] then [] else [⟨v.tokenUnk, 0, (Utf8.encode pre).length⟩]) ++
        emit (Utf8.encode pre).length pieces) := by
  have hlt : ∀ e ∈ v.textEdges 0 cs, e.source < e.target := fun e he => (source_lt_target he).2
  obtain ⟨i, p, hp, hinit, hfollows, -, hpref⟩ :=
    (v.settled cs).exists_preferred hlt (Utf8.encode cs).length
  obtain ⟨pre, pieces, hway, rfl, rfl⟩ := way_of_path hp
  refine ⟨pre, pieces, ⟨hway, fun pre' pieces' hway' => ?_⟩, ?_⟩
  · have hless := hpref _ _ (hway'.path hvalid)
    unfold Viterbi.Preferred at hless
    rwa [score_initialResults, score_initialResults, starts_edgesOf, starts_edgesOf] at hless
  · rw [tokenizeNormalized]
    by_cases hnil : Utf8.encode cs = []
    · obtain ⟨post, rfl, hseg⟩ := hway
      rw [Utf8.encode_append, List.append_eq_nil_iff, encode_eq_nil, encode_eq_nil] at hnil
      obtain ⟨rfl, rfl⟩ := hnil
      rcases pieces with _ | ⟨p, pieces⟩
      · rfl
      · have hne := (hseg.piece p (by simp)).ne_nil
        exact absurd (List.append_eq_nil_iff.1 hseg.spells).1 hne
    · have hpos := List.length_pos_iff.2 hnil
      rw [if_neg hnil, fillResults_encode cs (Nat.le_refl _)]
      have hsource (i : Nat) : (v.initialResults i).source = 0 ∧
          (v.initialResults i).label = v.tokenUnk := by
        rw [initialResults]
        split_ifs <;> exact ⟨rfl, rfl⟩
      have hback := backtrack_path hp hlt hfollows (by rw [hinit]; exact (hsource _).1)
        (Nat.le_refl _) hpos
      rw [hinit, (hsource _).2, map_edgesOf] at hback
      simp only [List.length_eq_zero_iff, encode_eq_nil] at hback
      simp only [bind, Except.bind, hback, pure, Except.pure, List.reverse_append,
        List.reverse_reverse]
      split_ifs <;> rfl

variable {pre' : List Char} {pieces' : List Piece}

/-- The starts say how much is in front of the pieces. -/
theorem Way.pre_eq (h : v.Way cs pre pieces) (h' : v.Way cs pre' pieces')
    (hstarts : wayStarts pre pieces = wayStarts pre' pieces') : pre = pre' := by
  obtain ⟨post, hpost, hseg⟩ := h
  obtain ⟨post', hpost', hseg'⟩ := h'
  have hlen : (Utf8.encode pre).length = (Utf8.encode pre').length := by
    rcases pieces with _ | ⟨p, pieces⟩ <;> rcases pieces' with _ | ⟨p', pieces'⟩
    · have hnil {post : List Char} (h : spell [] = Utf8.encode post) : post = [] :=
        encode_eq_nil.1 h.symm
      rw [hnil hseg.spells, List.append_nil] at hpost
      rw [hnil hseg'.spells, List.append_nil] at hpost'
      rw [← hpost, ← hpost']
    · simp [wayStarts, emit] at hstarts
    · simp [wayStarts, emit] at hstarts
    · simp only [wayStarts, emit, List.map_cons, List.reverse_cons] at hstarts
      exact List.singleton_inj.1 (List.append_inj_right' hstarts rfl)
  have hall := congrArg Utf8.encode (hpost.symm.trans hpost')
  rw [Utf8.encode_append, Utf8.encode_append] at hall
  exact encode_inj (List.append_inj hall hlen).1

theorem Segmentation.way (h : v.Segmentation (Utf8.encode cs) pieces) : v.Way cs [] pieces :=
  ⟨cs, rfl, h⟩

theorem IsPreferred.score_le (h : v.IsPreferred cs pre pieces) (h' : v.Way cs pre' pieces') :
    wayScore pre' pieces' ≤ wayScore pre pieces :=
  (h.2 _ _ h').elim le_of_lt fun h => h.1.le

/-- The tokenizer is optimal if and only if the preferred way is sound. -/
theorem tokenizesOptimally_iff (hvalid : v.ValidTexts) (cs : List Char) :
    v.TokenizesOptimally (Utf8.encode cs) ↔
      ∃ pre pieces, v.IsPreferred cs pre pieces ∧ v.IsSound cs pre pieces := by
  obtain ⟨pre, pieces, hpref, hemitted⟩ := tokenizeNormalized_encode hvalid cs
  constructor
  · rintro ⟨pieces₀, hseg, hemitted₀, hbest⟩
    refine ⟨pre, pieces, hpref, ?_⟩
    by_cases hpre : pre = []
    · exact .inl hpre
    right
    have hemit := Except.ok.inj (hemitted.symm.trans hemitted₀)
    rw [if_neg hpre] at hemit
    obtain ⟨post, rfl, hsegpost⟩ := hpref.1
    rcases pieces₀ with _ | ⟨p₀, pieces₀⟩
    · cases hemit
    -- the unknown token in front is the first piece
    rw [emit, List.singleton_append, List.cons.injEq, EmittedToken.mk.injEq, Nat.zero_add] at hemit
    obtain ⟨⟨htoken, -, hlen⟩, -⟩ := hemit
    have hspells : p₀.text ++ spell pieces₀ = Utf8.encode pre ++ Utf8.encode post :=
      hseg.spells.trans (Utf8.encode_append pre post)
    obtain ⟨htext, hrest⟩ := List.append_inj hspells hlen.symm
    have hp₀ := hseg.piece p₀ (by simp)
    refine ⟨p₀.score, by rw [htoken, ← htext]; exact hp₀, fun pieces' hseg' => ?_⟩
    have hway : v.Way (pre ++ post) pre pieces₀ :=
      ⟨post, rfl, fun q hq => hseg.piece q (by simp [hq]), hrest⟩
    have hle := hpref.score_le hway
    rw [wayScore, wayScore, add_le_add_iff_left] at hle
    have hsum : totalScore (p₀ :: pieces₀) = p₀.score + totalScore pieces₀ := by
      simp [totalScore]
    exact (hbest pieces' hseg').trans (hsum ▸ add_le_add_right hle p₀.score)
  · rintro ⟨pre₀, pieces₀, hpref₀, hsound⟩
    have hscore := le_antisymm (hpref₀.score_le hpref.1) (hpref.score_le hpref₀.1)
    have hearlier := ((hpref.2 _ _ hpref₀.1).resolve_left (by rw [hscore]; exact lt_irrefl _)).2
    have hearlier₀ := ((hpref₀.2 _ _ hpref.1).resolve_left (by rw [hscore]; exact lt_irrefl _)).2
    obtain rfl := hpref.1.pre_eq hpref₀.1 (hearlier.antisymm hearlier₀)
    rw [wayScore, wayScore, add_right_inj] at hscore
    obtain ⟨post, hpost, hseg⟩ := hpref.1
    rcases hsound with rfl | ⟨score, hpiece, hbest⟩
    · obtain rfl : cs = post := hpost
      refine ⟨pieces, hseg, hemitted, fun pieces' hseg' => ?_⟩
      have hle := hpref.score_le hseg'.way
      rwa [wayScore, wayScore, add_le_add_iff_left] at hle
    · have hpre : pre ≠ [] := fun h => hpiece.ne_nil (encode_eq_nil.2 h)
      refine ⟨⟨v.tokenUnk, Utf8.encode pre, score⟩ :: pieces, ⟨?_, ?_⟩, ?_, fun pieces' hseg' => ?_⟩
      · exact List.forall_mem_cons.2 ⟨hpiece, hseg.piece⟩
      · rw [hpost, Utf8.encode_append, ← hseg.spells]
        rfl
      · rw [hemitted, if_neg hpre]
        simp [emit]
      · have hsum : totalScore (⟨v.tokenUnk, Utf8.encode pre, score⟩ :: pieces) =
            score + totalScore pieces := by
          simp [totalScore]
        rw [hsum, hscore]
        exact hbest pieces' hseg'

/-- It is sound if every start of the text has a segmentation with a sum above -FLT_MAX. -/
theorem IsPreferred.isSound (h : v.IsPreferred cs pre pieces)
    (habove : ∀ pre post, cs = pre ++ post → pre ≠ [] →
      ∃ pieces, v.Segmentation (Utf8.encode pre) pieces ∧ -fltMax < totalScore pieces) :
    v.IsSound cs pre pieces := by
  by_cases hpre : pre = []
  · exact .inl hpre
  obtain ⟨post, rfl, hseg⟩ := h.1
  obtain ⟨pieces₁, hseg₁, hlt⟩ := habove pre post rfl hpre
  have hway : v.Way (pre ++ post) [] (pieces₁ ++ pieces) :=
    Segmentation.way ⟨List.forall_mem_append.2 ⟨hseg₁.piece, hseg.piece⟩, by
      rw [spell, List.flatMap_append, Utf8.encode_append, ← hseg₁.spells, ← hseg.spells]
      rfl⟩
  have hle := h.score_le hway
  have hsum : totalScore (pieces₁ ++ pieces) = totalScore pieces₁ + totalScore pieces := by
    simp [totalScore]
  rw [wayScore, wayScore, if_pos rfl, if_neg hpre, hsum, zero_add, add_le_add_iff_right] at hle
  exact absurd hlt (not_lt.2 hle)

end Ways

/-! ## A sum that is not higher than -FLT_MAX -/

/-- The unknown token, `a` with the lowest score there is, and `b`. -/
def lowestVocab : LoadedUgm where
  idToToken := [⟨[ascii '<', ascii '>'], 0, { unknown := true }⟩,
    ⟨[ascii 'a'], -fltMax, { normal := true }⟩, ⟨[ascii 'b'], 0, { normal := true }⟩]
  tokenUnk := 0
  text_ne_nil := by decide
  text_nodup := by decide

theorem lowestVocab_valid : lowestVocab.ValidTexts := by
  intro data hdata
  simp only [lowestVocab, List.mem_cons, List.not_mem_nil, or_false] at hdata
  rcases hdata with rfl | rfl | rfl
  · exact ⟨['<', '>'], by decide⟩
  · exact ⟨['a'], by decide⟩
  · exact ⟨['b'], by decide⟩

theorem tokenizesOptimally_iff_lowest : lowestVocab.TokenizesOptimally (Utf8.encode ['b', 'b']) ↔
    ∃ pre pieces, lowestVocab.IsPreferred ['b', 'b'] pre pieces ∧
      lowestVocab.IsSound ['b', 'b'] pre pieces :=
  tokenizesOptimally_iff lowestVocab_valid ['b', 'b']

/-- One unknown token is emitted for `ab`. -/
theorem not_tokenizesOptimally :
    ¬ lowestVocab.TokenizesOptimally (Utf8.encode ['a', 'b']) := by
  rintro ⟨pieces, hseg, hemitted, -⟩
  have hemit : lowestVocab.tokenizeNormalized (Utf8.encode ['a', 'b']) = .ok [⟨0, 0, 2⟩] := by
    decide +kernel
  have hpieces := Except.ok.inj (hemit.symm.trans hemitted)
  rcases pieces with _ | ⟨p, _ | ⟨q, pieces⟩⟩
  · cases hpieces
  · have htoken := (EmittedToken.mk.inj (List.cons.inj hpieces).1).1
    have htext : p.text = Utf8.encode ['a', 'b'] := by simpa [spell] using hseg.spells
    rcases hseg.piece p (by simp) with ⟨hid, hmatcher⟩ | -
    · rename_i id data
      obtain rfl : id = 0 := by simpa using htoken.symm
      cases hid
      cases hmatcher
    · rename_i c
      have hchars : [c] = ['a', 'b'] := encode_inj ((List.append_nil _).trans htext)
      cases hchars
  · simp [emit] at hpieces

end LoadedUgm

end LamaServer

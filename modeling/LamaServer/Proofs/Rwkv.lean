import LamaServer.Proofs.Ugm
import LamaServer.Rwkv

/-!
# The RWKV tokenizer is greedy

At each position the longest token that the rest of the text starts with should be emitted. Where
the trie leads on from the first byte and no token is on the way, the length of the token is the
0 that it started with, and the position is set back to the start of the text: the loop does not
end. Where a token goes on with the rest and a NUL, the terminator is taken for a byte of it.
-/

namespace LamaServer

/-! ## The trie -/

namespace NaiveTrie

variable {trie : NaiveTrie} {key text p : Text} {c : UInt8} {value id : Token}

/-- The value that the trie has for a text. -/
def lookup : NaiveTrie → Text → Option Token
  | trie, [] => if trie.hasValue then some trie.value else none
  | trie, c :: text => (trie.traverse c).bind (·.lookup text)

theorem lookup_empty : empty.lookup p = none := by
  rcases p with _ | ⟨c, p⟩ <;> rfl

theorem lookup_insert (key : Text) : ∀ {trie : NaiveTrie} {p : Text},
    (trie.insert key value).lookup p = if p = key then some value else trie.lookup p := by
  induction key with
  | nil =>
    rintro ⟨children, hasValue, value'⟩ (_ | ⟨c, p⟩)
    · simp [insert, lookup, NaiveTrie.hasValue, NaiveTrie.value]
    · simp [insert, lookup, traverse]
  | cons k key ih =>
    rintro ⟨children, hasValue, value'⟩ (_ | ⟨c, p⟩)
    · rfl
    · simp only [insert, lookup, traverse]
      by_cases hck : c = k
      · subst hck
        rcases hc : children c with _ | res <;> simp [ih, lookup_empty]
      · simp [hck]

section Foldl

variable {α : Type*} {f : α → Text} {g : α → Token}

theorem lookup_foldl_eq_none : ∀ {xs : List α} {trie : NaiveTrie},
    (xs.foldl (fun trie x => trie.insert (f x) (g x)) trie).lookup p = none ↔
      trie.lookup p = none ∧ ∀ x ∈ xs, f x ≠ p
  | [], _ => by simp
  | x :: xs, trie => by
    rw [List.foldl_cons, lookup_foldl_eq_none, lookup_insert, List.forall_mem_cons]
    by_cases hx : p = f x
    · simp [hx]
    · simp [hx, Ne.symm hx]

theorem lookup_foldl_eq_some : ∀ {xs : List α} {trie : NaiveTrie},
    (xs.foldl (fun trie x => trie.insert (f x) (g x)) trie).lookup p = some id →
      trie.lookup p = some id ∨ ∃ x ∈ xs, f x = p ∧ g x = id
  | [], _, h => .inl h
  | x :: xs, trie, h => by
    rw [List.foldl_cons] at h
    rcases lookup_foldl_eq_some h with h | ⟨y, hy, h⟩
    · rw [lookup_insert] at h
      split_ifs at h with hp
      · exact .inr ⟨x, List.mem_cons_self .., hp.symm, Option.some.inj h⟩
      · exact .inl h
    · exact .inr ⟨y, List.mem_cons_of_mem _ hy, h⟩

end Foldl

end NaiveTrie

namespace RwkvVocab

variable {v : RwkvVocab} {text rest r p q : Text} {token : Token} {n position fuel : Nat}
  {output out : List Token} {node : NaiveTrie} {found found' : Token × Nat} {c : UInt8}

theorem tokenMatcher_hasPath : v.tokenMatcher.HasPath p ↔ p = [] ∨ ∃ t ∈ v.tokens, p <+: t := by
  rw [tokenMatcher, NaiveTrie.hasPath_foldl, NaiveTrie.hasPath_empty]
  refine or_congr_right ⟨fun ⟨x, hx, h⟩ => ⟨x.1, ?_, h⟩, fun ⟨t, ht, h⟩ => ?_⟩
  · exact List.fst_mem_of_mem_zipIdx hx
  · obtain ⟨i, hi⟩ := List.mem_iff_getElem?.1 ht
    exact ⟨(t, i), List.mem_zipIdx_iff_getElem?.2 hi, h⟩

theorem tokenMatcher_lookup_eq_none : v.tokenMatcher.lookup p = none ↔ p ∉ v.tokens := by
  rw [tokenMatcher, NaiveTrie.lookup_foldl_eq_none, NaiveTrie.lookup_empty]
  refine ⟨fun ⟨_, h⟩ hp => ?_, fun h => ⟨rfl, ?_⟩⟩
  · obtain ⟨i, hi⟩ := List.mem_iff_getElem?.1 hp
    exact h (p, i) (List.mem_zipIdx_iff_getElem?.2 hi) rfl
  · rintro x hx rfl
    exact h (List.fst_mem_of_mem_zipIdx hx)

theorem tokenMatcher_lookup_eq_some (h : v.tokenMatcher.lookup p = some token) :
    ∃ i : Nat, token = i ∧ v.tokens[i]? = some p := by
  rcases NaiveTrie.lookup_foldl_eq_some h with h | ⟨x, hx, rfl, rfl⟩
  · cases NaiveTrie.lookup_empty.symm.trans h
  · exact ⟨x.2, rfl, List.mem_zipIdx_iff_getElem?.1 hx⟩

/-! ## What is claimed -/

/-- The token for what is left of a text, and how many bytes it takes: the longest one that the rest
starts with, or the unknown token for a byte. -/
inductive GreedyToken (v : RwkvVocab) (rest : Text) : Token → Nat → Prop
  | longest {p : Text} {id : Nat} (hp : Longest (· ∈ v.tokens) rest p)
    (hid : v.tokens[id]? = some p) : GreedyToken v rest id p.length
  | unknown (h : ∀ p, ¬ Longest (· ∈ v.tokens) rest p) : GreedyToken v rest v.tokenUnk 1

inductive GreedyTokens (v : RwkvVocab) : Text → List Token → Prop
  | nil : GreedyTokens v [] []
  | cons {rest : Text} {token : Token} {n : Nat} {tokens : List Token} (hrest : rest ≠ [])
    (h : GreedyToken v rest token n) (htokens : GreedyTokens v (rest.drop n) tokens) :
    GreedyTokens v rest (token :: tokens)

/-- The tokenizer comes to an end within the text, with the greedy tokens. -/
def TokenizesGreedily (v : RwkvVocab) (text : Text) : Prop :=
  ∃ fuel output, v.tokenize fuel text = .ok output ∧ GreedyTokens v text output

/-- What the greedy tokens leave of a text, one after another. -/
inductive GreedyRest (v : RwkvVocab) (text : Text) : Text → Prop
  | start : GreedyRest v text text
  | next {rest : Text} {token : Token} {n : Nat} (h : GreedyRest v text rest) (hrest : rest ≠ [])
    (htoken : GreedyToken v rest token n) : GreedyRest v text (rest.drop n)

/-- The walk from here finds a token where it sets out, and does not pass the terminator. -/
structure WalkFits (v : RwkvVocab) (rest : Text) : Prop where
  finds : ∀ c t, c :: t ∈ v.tokens → [c] <+: rest → ∃ t ∈ v.tokens, t ≠ [] ∧ t <+: rest
  terminator : ∀ t ∈ v.tokens, ¬ rest ++ [0] <+: t

/-- The condition on a vocabulary and a text. -/
def WalksFit (v : RwkvVocab) (text : Text) : Prop :=
  text.length < 2 ^ 32 ∧ ∀ rest, GreedyRest v text rest → rest ≠ [] → v.WalkFits rest

/-! ## A walk -/

/-- What a walk from a node along `r` finds. -/
inductive WalkFinds (node : NaiveTrie) (position : Nat) (r : Text) (found : Token × Nat) :
    Token × Nat → Prop
  | last {q : Text} {id : Token} (hq : q <+: r) (hid : node.lookup q = some id)
    (hlast : ∀ q', q' <+: r → node.lookup q' ≠ none → q'.length ≤ q.length) :
    WalkFinds node position r found (id, position + 1 + q.length)
  | kept (h : ∀ q, q <+: r → node.lookup q = none) : WalkFinds node position r found found

theorem textAt_drop (h : text.drop position = c :: r) : textAt text position = .ok c := by
  have hlt : position < text.length := by
    by_contra hge
    rw [List.drop_eq_nil_of_le (Nat.le_of_not_lt hge)] at h
    cases h
  have hget : text[position]? = some c := by
    rw [← List.head?_drop, h]
    rfl
  rw [textAt, if_neg hlt.ne, hget]

theorem nextPosition_eq (hlen : text.length < 2 ^ 32) (hlt : position < text.length) :
    nextPosition position = position + 1 := Nat.mod_eq_of_lt (by omega)

/-- A walk that finds no token behind the node. -/
theorem WalkFinds.stop (h : ∀ d q, d :: q <+: r → node.lookup (d :: q) = none) :
    WalkFinds node position r found
      (if node.hasValue then (node.value, position + 1) else found) := by
  split_ifs with hvalue
  · refine .last (q := []) List.nil_prefix (if_pos hvalue) fun q hq hid => ?_
    rcases q with _ | ⟨d, q⟩
    · exact Nat.le_refl _
    · exact (hid (h d q hq)).elim
  · refine .kept fun q hq => ?_
    rcases q with _ | ⟨d, q⟩
    · exact if_neg hvalue
    · exact h d q hq

theorem WalkFinds.cons {res : NaiveTrie} (htrav : node.traverse c = some res)
    (h : WalkFinds res (position + 1) r
      (if node.hasValue then (node.value, position + 1) else found) found') :
    WalkFinds node position (c :: r) found found' := by
  have hlookup (q : Text) : node.lookup (c :: q) = res.lookup q := by
    rw [NaiveTrie.lookup, htrav, Option.bind_some]
  rcases h with ⟨hq, hid, hlast⟩ | hnone
  · rename_i q id
    have hend : position + 1 + 1 + q.length = position + 1 + (c :: q).length := by
      rw [List.length_cons]
      omega
    rw [hend]
    refine .last (List.cons_prefix_cons.2 ⟨rfl, hq⟩) ((hlookup q).trans hid) fun q' hq' hid' => ?_
    rcases q' with _ | ⟨d, q'⟩
    · exact Nat.zero_le _
    · obtain ⟨rfl, hr'⟩ := List.cons_prefix_cons.1 hq'
      rw [hlookup] at hid'
      exact Nat.succ_le_succ (hlast q' hr' hid')
  · refine .stop fun d q hq => ?_
    obtain ⟨rfl, hr⟩ := List.cons_prefix_cons.1 hq
    rw [hlookup, hnone q hr]

/-- Within the text a walk ends, with the last token on the way. -/
theorem walk_spec (hlen : text.length < 2 ^ 32) : ∀ {r : Text} (fuel : Nat) {position : Nat}
    {node : NaiveTrie} (found : Token × Nat), text.drop (position + 1) = r →
    position < text.length → ¬ node.HasPath (r ++ [0]) →
    (∀ found', walk text fuel node position found = .ok found' →
      WalkFinds node position r found found') ∧
    (r.length < fuel → ∃ found', walk text fuel node position found = .ok found')
  | r, 0, _, _, _, _, _, _ => ⟨fun _ h => (nomatch h), fun h => (nomatch h)⟩
  | [], fuel + 1, position, node, found, hr, hlt, hpath => by
    have hend : position + 1 = text.length := by
      have := List.drop_eq_nil_iff.1 hr
      omega
    have htrav : node.traverse 0 = none := by
      rcases h : node.traverse 0 with _ | res
      · rfl
      · exact (hpath ⟨res, h, trivial⟩).elim
    rw [walk, nextPosition_eq hlen hlt, textAt, if_pos hend, Except.ok_bind_eq, htrav]
    refine ⟨fun found' h => ?_, fun _ => ⟨_, rfl⟩⟩
    obtain rfl := Except.pure_eq_ok.1 h
    exact .stop fun d q hq => (List.cons_ne_nil d q (List.prefix_nil.1 hq)).elim
  | c :: r, fuel + 1, position, node, found, hr, hlt, hpath => by
    have hlt' : position + 1 < text.length := by
      by_contra hge
      rw [List.drop_eq_nil_of_le (Nat.le_of_not_lt hge)] at hr
      cases hr
    have hdrop : text.drop (position + 1 + 1) = r := by
      rw [← List.tail_drop, hr]
      rfl
    rw [walk, nextPosition_eq hlen hlt, textAt_drop hr, Except.ok_bind_eq]
    rcases htrav : node.traverse c with _ | res
    · refine ⟨fun found' h => ?_, fun _ => ⟨_, rfl⟩⟩
      obtain rfl := Except.pure_eq_ok.1 h
      refine .stop fun d q hq => ?_
      obtain ⟨rfl, -⟩ := List.cons_prefix_cons.1 hq
      rw [NaiveTrie.lookup, htrav, Option.bind_none]
    · obtain ⟨hfinds, htotal⟩ := walk_spec hlen fuel _ hdrop hlt'
        fun h => hpath ⟨res, htrav, h⟩
      exact ⟨fun found' h => .cons htrav (hfinds found' h),
        fun h => htotal (Nat.lt_of_succ_lt_succ h)⟩

/-- A walk that passes the terminator reads what is behind it. -/
theorem walk_ne_ok (hlen : text.length + 1 < 2 ^ 32) : ∀ {r : Text} {fuel position : Nat}
    {node : NaiveTrie} {found : Token × Nat}, text.drop (position + 1) = r →
    position < text.length → node.HasPath (r ++ [0]) →
    walk text fuel node position found ≠ .ok found'
  | _, 0, _, _, _, _, _, _ => fun h => nomatch h
  | [], 1, position, node, found, hr, hlt, ⟨res, htrav, _⟩ => by
    have hend : position + 1 = text.length := by
      have := List.drop_eq_nil_iff.1 hr
      omega
    rw [walk, nextPosition_eq (by omega) hlt, textAt, if_pos hend, Except.ok_bind_eq, htrav]
    exact fun h => nomatch h
  | [], fuel + 2, position, node, found, hr, hlt, ⟨res, htrav, _⟩ => by
    have hend : position + 1 = text.length := by
      have := List.drop_eq_nil_iff.1 hr
      omega
    have hnext : nextPosition (position + 1) = text.length + 1 := by
      rw [nextPosition, hend, Nat.mod_eq_of_lt hlen]
    have hread : textAt text (text.length + 1) = .error .undefined := by
      rw [textAt, if_neg (Nat.succ_ne_self _), List.getElem?_eq_none (Nat.le_succ _)]
    rw [walk, nextPosition_eq (by omega) hlt, textAt, if_pos hend, Except.ok_bind_eq, htrav]
    dsimp only
    rw [walk, hnext, hread]
    exact fun h => nomatch h
  | c :: r, fuel + 1, position, node, found, hr, hlt, ⟨res, htrav, hpath⟩ => by
    have hlt' : position + 1 < text.length := by
      by_contra hge
      rw [List.drop_eq_nil_of_le (Nat.le_of_not_lt hge)] at hr
      cases hr
    have hdrop : text.drop (position + 1 + 1) = r := by
      rw [← List.tail_drop, hr]
      rfl
    rw [walk, nextPosition_eq (by omega) hlt, textAt_drop hr, Except.ok_bind_eq, htrav]
    exact walk_ne_ok hlen hdrop hlt' hpath

theorem walk_lt : ∀ {fuel position : Nat} {node : NaiveTrie} {found : Token × Nat},
    found.2 < 2 ^ 32 → walk text fuel node position found = .ok found' → found'.2 < 2 ^ 32
  | 0, _, _, _, _, h => nomatch h
  | fuel + 1, position, node, found, hlt, h => by
    rw [walk, Except.bind_eq_ok] at h
    obtain ⟨c, -, h⟩ := h
    have hlt' : (if node.hasValue then (node.value, nextPosition position) else found).2 <
        2 ^ 32 := by
      split_ifs
      · exact Nat.mod_lt _ (by decide)
      · exact hlt
    rcases htrav : node.traverse c with _ | res <;> rw [htrav] at h
    · obtain rfl := Except.pure_eq_ok.1 h
      exact hlt'
    · exact walk_lt hlt' h

/-! ## A position -/

theorem GreedyToken.length_unique {token' : Token} {n' : Nat} (h : GreedyToken v rest token n)
    (h' : GreedyToken v rest token' n') : n = n' := by
  rcases h with ⟨hp, -⟩ | hno
  · rcases h' with ⟨hp', -⟩ | hno'
    · rw [hp.unique hp']
    · exact (hno' _ hp).elim
  · rcases h' with ⟨hp', -⟩ | -
    · exact (hno _ hp').elim
    · rfl

theorem GreedyToken.le (h : GreedyToken v rest token n) (hrest : rest ≠ []) :
    0 < n ∧ n ≤ rest.length := by
  rcases h with ⟨hp, -⟩ | -
  · exact ⟨List.length_pos_iff.2 hp.ne_nil, hp.start.length_le⟩
  · exact ⟨Nat.one_pos, List.length_pos_iff.2 hrest⟩

theorem GreedyRest.suffix (h : GreedyRest v text rest) : rest <:+ text := by
  induction h with
  | start => exact List.suffix_refl text
  | next _ _ _ ih => exact (List.drop_suffix _ _).trans ih

/-- There is a node for each first byte of a token. -/
theorem traverse_eq_none : v.tokenMatcher.traverse c = none ↔ ∀ t, c :: t ∉ v.tokens := by
  constructor
  · intro h t ht
    have hpath : v.tokenMatcher.HasPath (c :: t) :=
      tokenMatcher_hasPath.2 (.inr ⟨c :: t, ht, List.prefix_refl _⟩)
    obtain ⟨res, htrav, -⟩ := hpath
    cases h.symm.trans htrav
  · intro h
    rcases htrav : v.tokenMatcher.traverse c with _ | res
    · rfl
    · have hpath : v.tokenMatcher.HasPath [c] := ⟨res, htrav, trivial⟩
      rcases tokenMatcher_hasPath.1 hpath with hnil | ⟨_, ht, p, rfl⟩
      · cases hnil
      · exact (h p ht).elim

theorem GreedyRest.head (hrest : text ≠ []) (htoken : GreedyToken v text token n)
    (h : GreedyRest v (text.drop n) rest) : GreedyRest v text rest := by
  induction h with
  | start => exact .next .start hrest htoken
  | next h hne ht ih => exact ih.next hne ht

/-- Without a node for the first byte no token starts with it. -/
theorem greedyToken_of_traverse_eq_none (h : v.tokenMatcher.traverse c = none) :
    GreedyToken v (c :: r) v.tokenUnk 1 := by
  refine .unknown fun p hp => ?_
  rcases p with _ | ⟨d, p⟩
  · exact hp.ne_nil rfl
  · obtain ⟨rfl, -⟩ := List.cons_prefix_cons.1 hp.start
    exact traverse_eq_none.1 h p hp.holds

/-- What a walk finds is the greedy token, or there is no token for it to find. -/
theorem WalkFinds.greedyToken (htrav : v.tokenMatcher.traverse c = some node)
    (h : WalkFinds node position r (0, 0) found) :
    (∃ p, Longest (· ∈ v.tokens) (c :: r) p ∧ GreedyToken v (c :: r) found.1 p.length ∧
        found.2 = position + p.length) ∨
      (∀ t ∈ v.tokens, t ≠ [] → ¬ t <+: c :: r) ∧ found.2 = 0 := by
  have hlookup (q : Text) : node.lookup q = v.tokenMatcher.lookup (c :: q) := by
    rw [NaiveTrie.lookup, htrav, Option.bind_some]
  rcases h with ⟨hq, hid, hlast⟩ | hnone
  · rename_i q id
    rw [hlookup] at hid
    obtain ⟨i, rfl, hi⟩ := tokenMatcher_lookup_eq_some hid
    have hp : Longest (· ∈ v.tokens) (c :: r) (c :: q) := by
      refine ⟨List.cons_ne_nil c q, List.cons_prefix_cons.2 ⟨rfl, hq⟩, List.mem_of_getElem? hi,
        fun q' hq' ht => ?_⟩
      rcases q' with _ | ⟨d, q'⟩
      · exact Nat.zero_le _
      · obtain ⟨rfl, hr⟩ := List.cons_prefix_cons.1 hq'
        refine Nat.succ_le_succ (hlast q' hr fun hno => ?_)
        exact tokenMatcher_lookup_eq_none.1 ((hlookup q').symm.trans hno) ht
    refine .inl ⟨c :: q, hp, .longest hp hi, ?_⟩
    rw [List.length_cons]
    dsimp only
    omega
  · refine .inr ⟨fun t ht hne hstart => ?_, rfl⟩
    rcases t with _ | ⟨d, q⟩
    · exact hne rfl
    · obtain ⟨rfl, hr⟩ := List.cons_prefix_cons.1 hstart
      exact tokenMatcher_lookup_eq_none.1 ((hlookup q).symm.trans (hnone q hr)) ht

theorem WalkFits.not_hasPath (h : v.WalkFits (c :: r))
    (htrav : v.tokenMatcher.traverse c = some node) : ¬ node.HasPath (r ++ [0]) := fun hpath => by
  have hpath' : v.tokenMatcher.HasPath (c :: r ++ [0]) := ⟨node, htrav, hpath⟩
  rcases tokenMatcher_hasPath.1 hpath' with hnil | ⟨t, ht, hstart⟩
  · cases hnil
  · exact h.terminator t ht hstart

theorem not_walkFits (htrav : v.tokenMatcher.traverse c = some node)
    (hno : ∀ t ∈ v.tokens, t ≠ [] → ¬ t <+: c :: r) : ¬ v.WalkFits (c :: r) := fun hfits => by
  obtain ⟨p, hp⟩ : ∃ p, c :: p ∈ v.tokens := by
    by_contra hnone
    cases htrav.symm.trans (traverse_eq_none.2 fun p hp => hnone ⟨p, hp⟩)
  obtain ⟨t, ht, hne, hstart⟩ := hfits.finds c p hp ⟨r, rfl⟩
  exact hno t ht hne hstart

theorem drop_succ_of_drop (h : text.drop position = c :: r) :
    text.drop (position + 1) = r ∧ position < text.length := by
  refine ⟨by rw [← List.tail_drop, h]; rfl, ?_⟩
  by_contra hge
  rw [List.drop_eq_nil_of_le (Nat.le_of_not_lt hge)] at h
  cases h

theorem tokenizeLoop_succ (hlen : text.length < 2 ^ 32) (hrest : text.drop position = c :: r) :
    v.tokenizeLoop text (fuel + 1) position output =
      match v.tokenMatcher.traverse c with
      | none => v.tokenizeLoop text fuel (position + 1) (output ++ [v.tokenUnk])
      | some node => walk text fuel node position (0, 0) >>= fun found =>
          v.tokenizeLoop text fuel found.2 (output ++ [found.1]) := by
  have hlt := (drop_succ_of_drop hrest).2
  rcases htrav : v.tokenMatcher.traverse c with _ | node <;>
    rw [tokenizeLoop, if_pos hlt, textAt_drop hrest, Except.ok_bind_eq, nextPosition_eq hlen hlt,
      htrav]

/-- Where the walk fits, the loop emits the greedy token and goes on behind it. -/
theorem tokenizeLoop_of_walkFits (output : List Token) (hlen : text.length < 2 ^ 32)
    (hrest : text.drop position = c :: r) (hfits : v.WalkFits (c :: r)) (hfuel : r.length < fuel) :
    ∃ token n, GreedyToken v (c :: r) token n ∧ v.tokenizeLoop text (fuel + 1) position output =
      v.tokenizeLoop text fuel (position + n) (output ++ [token]) := by
  obtain ⟨hdrop, hlt⟩ := drop_succ_of_drop hrest
  rw [tokenizeLoop_succ hlen hrest]
  rcases htrav : v.tokenMatcher.traverse c with _ | node
  · exact ⟨_, 1, greedyToken_of_traverse_eq_none htrav, rfl⟩
  · obtain ⟨hfinds, htotal⟩ := walk_spec hlen fuel (0, 0) hdrop hlt
      (hfits.not_hasPath htrav)
    obtain ⟨found, hfound⟩ := htotal hfuel
    rcases (hfinds found hfound).greedyToken htrav with ⟨p, -, htoken, hn⟩ | ⟨hno, -⟩
    · refine ⟨_, p.length, htoken, ?_⟩
      dsimp only
      rw [hfound, Except.ok_bind_eq, hn]
    · exact (not_walkFits htrav hno hfits).elim

/-- A loop that ends has taken a greedy token, or was set back to the start of the text. -/
theorem tokenizeLoop_cases (hlen : text.length + 1 < 2 ^ 32)
    (hrest : text.drop position = c :: r)
    (h : v.tokenizeLoop text (fuel + 1) position output = .ok out) :
    (v.WalkFits (c :: r) ∧ ∃ token n, GreedyToken v (c :: r) token n ∧
      v.tokenizeLoop text fuel (position + n) (output ++ [token]) = .ok out) ∨
    ¬ v.WalkFits (c :: r) ∧ ∃ output', v.tokenizeLoop text fuel 0 output' = .ok out := by
  obtain ⟨hdrop, hlt⟩ := drop_succ_of_drop hrest
  rw [tokenizeLoop_succ (by omega) hrest] at h
  rcases htrav : v.tokenMatcher.traverse c with _ | node <;> rw [htrav] at h
  · have hno := traverse_eq_none.1 htrav
    refine .inl ⟨⟨fun d t ht hd => ?_, fun t ht hstart => ?_⟩, _, 1,
      greedyToken_of_traverse_eq_none htrav, h⟩
    · obtain ⟨rfl, -⟩ := List.cons_prefix_cons.1 hd
      exact (hno t ht).elim
    · obtain ⟨p, rfl⟩ := hstart
      exact hno _ ht
  · dsimp only at h
    obtain ⟨found, hfound, h⟩ := Except.bind_eq_ok.1 h
    have hpath : ¬ node.HasPath (r ++ [0]) := fun hpath =>
      walk_ne_ok hlen hdrop hlt hpath hfound
    rcases ((walk_spec (by omega) fuel _ hdrop hlt hpath).1 found hfound).greedyToken htrav with
      ⟨p, hp, htoken, hn⟩ | ⟨hno, hzero⟩
    · refine .inl ⟨⟨fun _ _ _ _ => ⟨p, hp.holds, hp.ne_nil, hp.start⟩, fun t ht hstart => ?_⟩,
        _, p.length, htoken, hn ▸ h⟩
      obtain ⟨res, htrav', hpath'⟩ := tokenMatcher_hasPath.2 (.inr ⟨t, ht, hstart⟩)
      cases htrav.symm.trans htrav'
      exact hpath hpath'
    · rw [hzero] at h
      exact .inr ⟨not_walkFits htrav hno, _, h⟩

/-! ## Every position -/

/-- Texts that the positions do not reach the end of. -/
theorem tokenizeLoop_ne_ok (hlen : 2 ^ 32 ≤ text.length) : ∀ {fuel position : Nat}
    {output : List Token}, position < 2 ^ 32 → v.tokenizeLoop text fuel position output ≠ .ok out
  | 0, _, _, _ => fun h => nomatch h
  | fuel + 1, position, output, hlt => fun h => by
    rw [tokenizeLoop, if_pos (hlt.trans_le hlen)] at h
    obtain ⟨c, -, h⟩ := Except.bind_eq_ok.1 h
    rcases htrav : v.tokenMatcher.traverse c with _ | node <;> rw [htrav] at h
    · exact tokenizeLoop_ne_ok hlen (Nat.mod_lt _ (by decide)) h
    · obtain ⟨found, hfound, h⟩ := Except.bind_eq_ok.1 h
      exact tokenizeLoop_ne_ok hlen (walk_lt (by decide) hfound) h

/-- With enough fuel the loop emits the greedy tokens of what is left of the text. -/
theorem tokenizeLoop_greedy (hlen : text.length < 2 ^ 32) : ∀ (fuel position : Nat)
    {rest : Text} (output : List Token), text.drop position = rest → position ≤ text.length →
    (∀ rest', GreedyRest v rest rest' → rest' ≠ [] → v.WalkFits rest') → rest.length < fuel →
    ∃ tokens, v.tokenizeLoop text fuel position output = .ok (output ++ tokens) ∧
      GreedyTokens v rest tokens
  | 0, _, _, _, _, _, _, hfuel => absurd hfuel (Nat.not_lt_zero _)
  | fuel + 1, position, [], output, hrest, hle, _, _ => by
    have hge := List.drop_eq_nil_iff.1 hrest
    refine ⟨[], ?_, .nil⟩
    rw [tokenizeLoop, if_neg (Nat.not_lt.2 hge), List.append_nil]
  | fuel + 1, position, c :: r, output, hrest, hle, hfits, hfuel => by
    have hne := List.cons_ne_nil c r
    rw [List.length_cons] at hfuel
    obtain ⟨token, n, htoken, hloop⟩ := tokenizeLoop_of_walkFits output hlen hrest
      (hfits _ .start hne) (by omega : r.length < fuel)
    obtain ⟨hpos, hn⟩ := htoken.le hne
    have hlength := congrArg List.length hrest
    rw [List.length_drop] at hlength
    obtain ⟨tokens, hok, htokens⟩ := tokenizeLoop_greedy hlen fuel (position + n) (output ++ [token])
      (by rw [← hrest, List.drop_drop] : text.drop (position + n) = (c :: r).drop n) (by omega)
      (fun rest' h hrest' => hfits rest' (h.head hne htoken) hrest')
      (by rw [List.length_drop, List.length_cons]; omega)
    refine ⟨token :: tokens, ?_, .cons hne htoken htokens⟩
    rw [hloop, hok, List.append_assoc]
    rfl

/-- A loop that ends from the start of the text has found its way at each greedy position. -/
theorem walkFits_of_ok (hlen : text.length + 1 < 2 ^ 32) (fuel : Nat) :
    ∀ {output : List Token}, v.tokenizeLoop text fuel 0 output = .ok out →
      ∀ rest, GreedyRest v text rest → rest ≠ [] → v.WalkFits rest := by
  induction fuel using Nat.strong_induction_on with
  | _ fuel ih =>
    intro output h
    have hstep (f position : Nat) (rest : Text) (output' : List Token) (hf : f ≤ fuel)
        (hreach : GreedyRest v text rest) (hne : rest ≠ []) (hrest : text.drop position = rest)
        (hok : v.tokenizeLoop text f position output' = .ok out) :
        v.WalkFits rest ∧ ∃ f' < f, ∃ token n, GreedyToken v rest token n ∧
          v.tokenizeLoop text f' (position + n) (output' ++ [token]) = .ok out := by
      rcases f with _ | f
      · cases hok
      obtain ⟨c, r, rfl⟩ := List.exists_cons_of_ne_nil hne
      rcases tokenizeLoop_cases hlen hrest hok with ⟨hfits, token, n, h⟩ | ⟨hfits, output', h⟩
      · exact ⟨hfits, f, Nat.lt_succ_self f, token, n, h⟩
      · exact (hfits (ih f (by omega) h _ hreach hne)).elim
    have hcomes (rest : Text) (hreach : GreedyRest v text rest) : ∃ f ≤ fuel, ∃ position output',
        text.drop position = rest ∧ v.tokenizeLoop text f position output' = .ok out := by
      induction hreach with
      | start => exact ⟨fuel, Nat.le_refl _, 0, output, List.drop_zero, h⟩
      | @next rest token n hreach hne htoken ih' =>
        obtain ⟨f, hf, position, output', hrest, hok⟩ := ih'
        obtain ⟨-, f', hf', token', n', htoken', hok'⟩ :=
          hstep f position rest output' hf hreach hne hrest hok
        obtain rfl := htoken.length_unique htoken'
        exact ⟨f', by omega, position + n, _, by rw [← hrest, List.drop_drop], hok'⟩
    intro rest hreach hne
    obtain ⟨f, hf, position, output', hrest, hok⟩ := hcomes rest hreach
    exact (hstep f position rest output' hf hreach hne hrest hok).1

/-- A text is tokenized greedily exactly where it has less than 2^32 bytes and each walk fits. For a
text of 2^32 - 1 bytes, where the position behind the terminator is 0 again, this is enough. -/
theorem tokenizesGreedily_iff (v : RwkvVocab) (text : Text) :
    (v.WalksFit text → v.TokenizesGreedily text) ∧
      (text.length + 1 ≠ 2 ^ 32 → v.TokenizesGreedily text → v.WalksFit text) := by
  constructor
  · rintro ⟨hlen, hfits⟩
    obtain ⟨tokens, hok, htokens⟩ := tokenizeLoop_greedy hlen (text.length + 1) 0 [] List.drop_zero
      (Nat.zero_le _) hfits (Nat.lt_succ_self _)
    exact ⟨text.length + 1, tokens, hok, htokens⟩
  · rintro hne ⟨fuel, output, hok, -⟩
    have hlen : text.length < 2 ^ 32 := by
      by_contra hge
      exact tokenizeLoop_ne_ok (Nat.le_of_not_lt hge) (by decide) hok
    exact ⟨hlen, walkFits_of_ok (by omega) fuel hok⟩

/-- A vocabulary with the token `ab` alone. -/
def pairVocab : RwkvVocab where
  idToToken := [{ text := [0x61, 0x62] }]
  tokenUnk := 0

/-- From the start of the text `a` the walk sets out for `ab`, and the loop is back at the start. -/
theorem not_tokenizesGreedily : ¬ pairVocab.TokenizesGreedily [0x61] := by
  rintro ⟨fuel, output, hok, -⟩
  have hfits := walkFits_of_ok (by decide) fuel hok _ .start (List.cons_ne_nil _ _)
  obtain ⟨t, ht, -, hstart⟩ := hfits.finds 0x61 [0x62] (List.mem_singleton.2 rfl) ⟨[], rfl⟩
  obtain rfl := List.mem_singleton.1 ht
  exact absurd hstart.length_le (by decide)

/-- With all single bytes for tokens, and a NUL only at the start of one, each walk fits. -/
theorem walksFit_of_bytes (hbytes : ∀ c, [c] ∈ v.tokens) (hnul : ∀ t ∈ v.tokens, 0 ∉ t.tail)
    (hlen : text.length < 2 ^ 32) : v.WalksFit text := by
  refine ⟨hlen, fun rest _ hne => ⟨fun c _ _ hc => ⟨[c], hbytes c, List.cons_ne_nil c [], hc⟩,
    fun t ht hstart => hnul t ht ?_⟩⟩
  obtain ⟨c, r, rfl⟩ := List.exists_cons_of_ne_nil hne
  obtain ⟨p, rfl⟩ := hstart
  simp

end RwkvVocab

end LamaServer

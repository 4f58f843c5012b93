import LamaServer.Proofs.Spm
import LamaServer.Ugm

/-!
# What a text is normalized to

At each position the longest user-defined token should be taken as it is, then the longest text of
the charsmap, then a character. The trie is asked for the longest start of a user-defined token, so
the tokens are passed over where the text goes on like one of them and then differs: its start is
taken as it is, and may end within a character.
-/

namespace LamaServer

/-! ## The trie -/

namespace NaiveTrie

variable {trie : NaiveTrie} {key text p : Text} {c : UInt8} {value : Token}

/-- There is a node for the text. -/
def HasPath : NaiveTrie → Text → Prop
  | _, [] => True
  | trie, c :: text => ∃ res, trie.traverse c = some res ∧ res.HasPath text

theorem hasPath_empty : empty.HasPath p ↔ p = [] := by
  rcases p with _ | ⟨c, p⟩
  · exact iff_of_true trivial rfl
  · exact iff_of_false (fun ⟨_, h, _⟩ => by cases h) (List.cons_ne_nil c p)

/-- The new paths are the starts of the key. -/
theorem hasPath_insert (key : Text) : ∀ {trie : NaiveTrie} {p : Text},
    (trie.insert key value).HasPath p ↔ trie.HasPath p ∨ p <+: key := by
  induction key with
  | nil =>
    rintro ⟨children, hasValue, value'⟩ (_ | ⟨c, p⟩)
    · simp [HasPath]
    · simp [insert, HasPath, traverse]
  | cons k key ih =>
    rintro ⟨children, hasValue, value'⟩ (_ | ⟨c, p⟩)
    · simp [HasPath]
    · rw [insert, List.cons_prefix_cons]
      simp only [HasPath, traverse]
      by_cases hck : c = k
      · subst hck
        simp only [Function.update_self, Option.some.injEq, exists_eq_left', ih, true_and]
        rcases hc : children c with _ | res
        · simp only [Option.getD_none, hasPath_empty, reduceCtorEq, false_and, exists_false,
            false_or, or_iff_right_iff_imp]
          rintro rfl
          exact List.nil_prefix
        · simp
      · simp [hck]

theorem hasPath_foldl {α : Type*} {key : α → Text} {value : α → Token} :
    ∀ {xs : List α} {trie : NaiveTrie},
      (xs.foldl (fun trie x => trie.insert (key x) (value x)) trie).HasPath p ↔
        trie.HasPath p ∨ ∃ x ∈ xs, p <+: key x
  | [], _ => by simp
  | x :: xs, trie => by
    rw [List.foldl_cons, hasPath_foldl, hasPath_insert, List.exists_mem_cons_iff, or_assoc]

theorem getLongestPrefix_le : ∀ (text : Text) (trie : NaiveTrie),
    trie.getLongestPrefix text ≤ text.length
  | [], _ => Nat.le_refl _
  | c :: text, trie => by
    rw [getLongestPrefix]
    rcases trie.traverse c with _ | res
    · exact Nat.zero_le _
    · exact Nat.succ_le_succ (getLongestPrefix_le text res)

/-- The longest path along a text. -/
theorem hasPath_iff : ∀ {text p : Text} {trie : NaiveTrie}, p <+: text →
    (trie.HasPath p ↔ p.length ≤ trie.getLongestPrefix text)
  | _, [], _, _ => by simp [HasPath]
  | [], c :: p, _, h => by cases List.prefix_nil.1 h
  | d :: text, c :: p, trie, hstart => by
    obtain ⟨rfl, h⟩ := List.cons_prefix_cons.1 hstart
    rw [HasPath, getLongestPrefix]
    rcases trie.traverse c with _ | res
    · simp
    · simp [hasPath_iff h]

end NaiveTrie

/-! ## What is documented -/

/-- The longest text with a property that the input starts with. -/
structure Longest (P : Text → Prop) (input p : Text) : Prop where
  ne_nil : p ≠ []
  start : p <+: input
  holds : P p
  longest : ∀ q, q <+: input → P q → q.length ≤ p.length

section Longest

variable {P : Text → Prop} {input p q : Text}

theorem Longest.unique (h : Longest P input p) (h' : Longest P input q) : p = q :=
  (List.prefix_of_prefix_length_le h.start h'.start (h'.longest p h.start h.holds)).eq_of_length
    (Nat.le_antisymm (h'.longest p h.start h.holds) (h.longest q h'.start h'.holds))

end Longest

namespace LlmTokenizerUgm

/-- The double array leads from a node along the text to a leaf with this value. -/
def MapsFrom (tok : LlmTokenizerUgm) (value : UInt32) : UInt32 → Text → Prop
  | _, [] => False
  | nodeIndex, [c] => ∃ next, tok.xcdaChild nodeIndex c = .ok (some (next, some value))
  | nodeIndex, c :: text => ∃ next w, tok.xcdaChild nodeIndex c = .ok (some (next, w)) ∧
    tok.MapsFrom value next text

/-- The charsmap has the text, with this value. -/
def Maps (tok : LlmTokenizerUgm) (value : UInt32) (text : Text) : Prop :=
  0 < tok.xcdaArraySize ∧ ∃ root, tok.getBase 0 = .ok root ∧ tok.MapsFrom value root text

/-- No lookup on the way along the input leaves the array. -/
def StaysFrom (tok : LlmTokenizerUgm) : UInt32 → Text → Prop
  | _, [] => True
  | nodeIndex, c :: input => ∃ child, tok.xcdaChild nodeIndex c = .ok child ∧
    ∀ next w, child = some (next, w) → tok.StaysFrom next input

def Stays (tok : LlmTokenizerUgm) (input : Text) : Prop :=
  0 < tok.xcdaArraySize → ∃ root, tok.getBase 0 = .ok root ∧ tok.StaysFrom root input

end LlmTokenizerUgm

namespace UgmVocab

open LlmTokenizerUgm

variable (v : UgmVocab) (tok : LlmTokenizerUgm)

/-- What the input starts with is taken as it is or replaced by the charsmap. -/
inductive Matches (input : Text) : NormalizationResult → Prop
  | userDefined {p : Text} (h : Longest (· ∈ v.userDefinedTokens) input p) :
    Matches input ⟨p, p.length⟩
  | charsmap {p text : Text} {value : UInt32}
    (huser : ∀ p, ¬ Longest (· ∈ v.userDefinedTokens) input p)
    (h : Longest (fun q => ∃ value, tok.Maps value q) input p) (hvalue : tok.Maps value p)
    (htext : tok.prefixReplacement value = .ok text) : Matches input ⟨text, p.length⟩
  | character {c : Char} (huser : ∀ p, ¬ Longest (· ∈ v.userDefinedTokens) input p)
    (hcharsmap : ∀ p, ¬ Longest (fun q => ∃ value, tok.Maps value q) input p)
    (h : String.utf8EncodeChar c <+: input) :
    Matches input ⟨String.utf8EncodeChar c, (String.utf8EncodeChar c).length⟩

/-- What `normalize_prefix` is to return: a match, or U+FFFD for a byte that starts none. -/
inductive Documented (input : Text) : NormalizationResult → Prop
  | found {res : NormalizationResult} (h : v.Matches tok input res) : Documented input res
  | invalid (huser : ∀ p, ¬ Longest (· ∈ v.userDefinedTokens) input p)
    (hcharsmap : ∀ p, ¬ Longest (fun q => ∃ value, tok.Maps value q) input p)
    (hcharacter : ∀ c, ¬ String.utf8EncodeChar c <+: input) :
    Documented input ⟨replacementCharacter, 1⟩

/-- A start of a user-defined token. -/
def StartsToken (p : Text) : Prop := ∃ text ∈ v.userDefinedTokens, p <+: text

/-- Without a user-defined token, these first bytes of the input stay as they are all the same: the
charsmap maps them to themselves, or they are a character that it does not have. -/
def Unchanged (input p : Text) : Prop :=
  (∀ p, ¬ Longest (· ∈ v.userDefinedTokens) input p) ∧
    (Longest (fun q => ∃ value, tok.Maps value q) input p ∧
        (∃ value, tok.Maps value p ∧ tok.prefixReplacement value = .ok p) ∨
      (∀ p, ¬ Longest (fun q => ∃ value, tok.Maps value q) input p) ∧
        p <+: input ∧ ∃ c, p = String.utf8EncodeChar c)

/-- The longest start of a user-defined token is one itself, or stays as it is; where there is none,
the charsmap is sound for the input, and what is decoded is a character. -/
structure Agrees (input : Text) : Prop where
  userDefined : ∀ p, Longest v.StartsToken input p →
    p ∈ v.userDefinedTokens ∨ v.Unchanged tok input p
  stays : (∀ p, ¬ Longest v.StartsToken input p) → tok.Stays input
  replaced : (∀ p, ¬ Longest v.StartsToken input p) →
    ∀ p value, Longest (fun q => ∃ value, tok.Maps value q) input p → tok.Maps value p →
      ∃ text, tok.prefixReplacement value = .ok text
  decoded : (∀ p, ¬ Longest v.StartsToken input p) →
    (∀ p, ¬ Longest (fun q => ∃ value, tok.Maps value q) input p) →
    ∀ cpt n, unicodeCptFromUtf8 input = some (cpt, n) →
      ∃ c, input.take n = String.utf8EncodeChar c

end UgmVocab

/-! ## The charsmap -/

namespace LlmTokenizerUgm

section Charsmap

variable {tok : LlmTokenizerUgm} {nodeIndex next value : UInt32} {c : UInt8} {n : Nat}
  {input text p : Text} {longest found : Nat × UInt32} {w : Option UInt32}

theorem mapsFrom_cons (hp : p ≠ []) : tok.MapsFrom value nodeIndex (c :: p) ↔
    ∃ next w, tok.xcdaChild nodeIndex c = .ok (some (next, w)) ∧ tok.MapsFrom value next p := by
  obtain ⟨d, p, rfl⟩ := List.exists_cons_of_ne_nil hp
  rfl

theorem MapsFrom.child (h : tok.MapsFrom value nodeIndex (c :: p)) :
    ∃ next w, tok.xcdaChild nodeIndex c = .ok (some (next, w)) ∧
      (p = [] ∧ w = some value ∨ tok.MapsFrom value next p) := by
  rcases eq_or_ne p [] with rfl | hp
  · obtain ⟨next, hnext⟩ := h
    exact ⟨next, _, hnext, .inl ⟨rfl, rfl⟩⟩
  · obtain ⟨next, w, hnext, h⟩ := (mapsFrom_cons hp).1 h
    exact ⟨next, w, hnext, .inr h⟩

theorem MapsFrom.ne_nil (h : tok.MapsFrom value nodeIndex p) : p ≠ [] := by
  rintro rfl
  exact h

theorem MapsFrom.unique {value' : UInt32} : ∀ {p : Text} {nodeIndex : UInt32},
    tok.MapsFrom value nodeIndex p → tok.MapsFrom value' nodeIndex p → value = value'
  | [], _, h, _ => h.elim
  | c :: p, nodeIndex, h, h' => by
    obtain ⟨next, w, hchild, hcase⟩ := h.child
    obtain ⟨next', w', hchild', hcase'⟩ := h'.child
    cases hchild.symm.trans hchild'
    rcases hcase with ⟨rfl, rfl⟩ | h
    · rcases hcase' with ⟨-, heq⟩ | h'
      · exact Option.some.inj heq
      · exact h'.elim
    · rcases hcase' with ⟨rfl, -⟩ | h'
      · exact h.elim
      · exact h.unique h'

theorem Maps.unique {value' : UInt32} (h : tok.Maps value p) (h' : tok.Maps value' p) :
    value = value' := by
  obtain ⟨-, root, hroot, h⟩ := h
  obtain ⟨-, root', hroot', h'⟩ := h'
  cases hroot.symm.trans hroot'
  exact h.unique h'

/-- What is found from a node on: nothing new, or the longest text that leads to a leaf. -/
def FindsFrom (tok : LlmTokenizerUgm) (nodeIndex : UInt32) (n : Nat) (longest : Nat × UInt32)
    (input : Text) (found : Nat × UInt32) : Prop :=
  found = longest ∧ (∀ p value, p <+: input → ¬ tok.MapsFrom value nodeIndex p) ∨
  ∃ p value, found = (n + p.length, value) ∧
    Longest (fun q => ∃ value, tok.MapsFrom value nodeIndex q) input p ∧
    tok.MapsFrom value nodeIndex p

/-- A step of the loop that does not end it. -/
theorem FindsFrom.step (hchild : tok.xcdaChild nodeIndex c = .ok (some (next, w)))
    (h : tok.FindsFrom next (n + 1) (w.elim longest (n + 1, ·)) input found) :
    tok.FindsFrom nodeIndex n longest (c :: input) found := by
  rcases h with ⟨rfl, hnone⟩ | ⟨p, value, rfl, hp, hvalue⟩
  · have hcases {q : Text} {value : UInt32} (hq : q <+: c :: input)
        (hm : tok.MapsFrom value nodeIndex q) : q = [c] ∧ w = some value := by
      obtain ⟨d, q, rfl⟩ := List.exists_cons_of_ne_nil hm.ne_nil
      obtain ⟨rfl, hq'⟩ := List.cons_prefix_cons.1 hq
      obtain ⟨next', w', hchild', hcase⟩ := hm.child
      cases hchild.symm.trans hchild'
      rcases hcase with ⟨rfl, rfl⟩ | hm
      · exact ⟨rfl, rfl⟩
      · exact absurd hm (hnone q value hq')
    rcases w with _ | x
    · refine .inl ⟨rfl, fun q value hq hm => ?_⟩
      cases (hcases hq hm).2
    · have hx : tok.MapsFrom x nodeIndex [c] := ⟨next, hchild⟩
      refine .inr ⟨[c], x, rfl, ⟨List.cons_ne_nil _ _, ⟨input, rfl⟩, ⟨x, hx⟩, ?_⟩, hx⟩
      rintro q hq ⟨y, hy⟩
      rw [(hcases hq hy).1]
  · have hcons : tok.MapsFrom value nodeIndex (c :: p) :=
      (mapsFrom_cons hp.ne_nil).2 ⟨next, w, hchild, hvalue⟩
    refine .inr ⟨c :: p, value, ?_, ⟨List.cons_ne_nil _ _,
      List.cons_prefix_cons.2 ⟨rfl, hp.start⟩, ⟨value, hcons⟩, ?_⟩, hcons⟩
    · rw [List.length_cons]
      exact congrArg (·, value) (by omega)
    · rintro q hq ⟨y, hy⟩
      obtain ⟨d, q, rfl⟩ := List.exists_cons_of_ne_nil hy.ne_nil
      obtain ⟨rfl, hq'⟩ := List.cons_prefix_cons.1 hq
      obtain ⟨next', w', hchild', hcase⟩ := hy.child
      cases hchild.symm.trans hchild'
      rcases hcase with ⟨rfl, -⟩ | hm
      · exact Nat.succ_le_succ (Nat.zero_le _)
      · exact Nat.succ_le_succ (hp.longest q hq' ⟨y, hm⟩)

/-- The loop returns where no lookup leaves the array, with the longest text that it found. -/
theorem xcdaLoop_spec (tok : LlmTokenizerUgm) : ∀ (input : Text) (nodeIndex : UInt32) (n : Nat)
    (longest : Nat × UInt32),
    (tok.StaysFrom nodeIndex input → ∃ found,
      tok.xcdaLoop nodeIndex n longest input = .ok found ∧
      tok.FindsFrom nodeIndex n longest input found) ∧
    (¬ tok.StaysFrom nodeIndex input → ∃ e, tok.xcdaLoop nodeIndex n longest input = .error e)
  | [], nodeIndex, n, longest => by
    refine ⟨fun _ => ⟨longest, rfl, .inl ⟨rfl, fun p value hp hm => ?_⟩⟩,
      fun h => absurd trivial h⟩
    exact hm.ne_nil (List.prefix_nil.1 hp)
  | c :: input, nodeIndex, n, longest => by
    rw [StaysFrom, xcdaLoop]
    rcases hchild : tok.xcdaChild nodeIndex c with e | (_ | ⟨next, w⟩)
    · exact ⟨fun ⟨_, h, _⟩ => (nomatch h), fun _ => ⟨e, rfl⟩⟩
    · refine ⟨fun _ => ⟨longest, rfl, .inl ⟨rfl, fun p value hp hm => ?_⟩⟩, fun h => ?_⟩
      · obtain ⟨d, p, rfl⟩ := List.exists_cons_of_ne_nil hm.ne_nil
        obtain ⟨rfl, -⟩ := List.cons_prefix_cons.1 hp
        obtain ⟨next, w, hchild', -⟩ := hm.child
        cases hchild.symm.trans hchild'
      · exact (h ⟨none, rfl, nofun⟩).elim
    · have hstays : (∃ child, Except.ok (some (next, w)) = (.ok child : Except UgmError _) ∧
          ∀ next w, child = some (next, w) → tok.StaysFrom next input) ↔
          tok.StaysFrom next input := by
        simp
      obtain ⟨hok, herror⟩ := xcdaLoop_spec tok input next (n + 1) (w.elim longest (n + 1, ·))
      rw [hstays]
      rcases w with _ | x
      · exact ⟨fun h => (hok h).imp fun found hfound => ⟨hfound.1, hfound.2.step hchild⟩, herror⟩
      · exact ⟨fun h => (hok h).imp fun found hfound => ⟨hfound.1, hfound.2.step hchild⟩, herror⟩

/-- What `normalize_prefix` looks up in the charsmap. -/
theorem longestPrefix_spec (tok : LlmTokenizerUgm) (input : Text) :
    (tok.Stays input → ∃ length value, tok.longestPrefix input = .ok (length, value) ∧
      (length = 0 ∧ (∀ p, ¬ Longest (fun q => ∃ value, tok.Maps value q) input p) ∨
        ∃ p, length = p.length ∧ Longest (fun q => ∃ value, tok.Maps value q) input p ∧
          tok.Maps value p)) ∧
    (¬ tok.Stays input → ∃ e, tok.longestPrefix input = .error e) := by
  rw [Stays, longestPrefix]
  by_cases hsize : 0 < tok.xcdaArraySize
  · rw [if_pos hsize]
    rcases hroot : tok.getBase 0 with e | root
    · refine ⟨fun h => ?_, fun _ => ⟨e, rfl⟩⟩
      obtain ⟨root, hroot', -⟩ := h hsize
      cases hroot'
    · have hmaps (p : Text) (value : UInt32) : tok.Maps value p ↔ tok.MapsFrom value root p := by
        rw [Maps, hroot]
        exact ⟨fun ⟨_, _, hroot', h⟩ => Except.ok.inj hroot' ▸ h, fun h => ⟨hsize, root, rfl, h⟩⟩
      obtain ⟨hok, herror⟩ := xcdaLoop_spec tok input root 0 (0, 0)
      refine ⟨fun h => ?_, fun h => herror fun hstays => h fun _ => ⟨root, rfl, hstays⟩⟩
      obtain ⟨root', hroot', hstays⟩ := h hsize
      cases hroot'
      obtain ⟨⟨length, value⟩, hfound, hcase⟩ := hok hstays
      refine ⟨length, value, hfound, ?_⟩
      simp only [hmaps]
      rcases hcase with ⟨heq, hnone⟩ | ⟨p, value', heq, hp, hvalue⟩
      · cases heq
        refine .inl ⟨rfl, fun p hp => ?_⟩
        obtain ⟨value, hvalue⟩ := hp.holds
        exact hnone p value hp.start hvalue
      · cases heq
        exact .inr ⟨p, Nat.zero_add _, hp, hvalue⟩
  · rw [if_neg hsize]
    refine ⟨fun _ => ⟨0, 0, rfl, .inl ⟨rfl, fun p hp => ?_⟩⟩, fun h => ?_⟩
    · obtain ⟨value, hpos, -⟩ := hp.holds
      exact hsize hpos
    · exact absurd (fun hpos => absurd hpos hsize) h

end Charsmap

end LlmTokenizerUgm

/-! ## One position -/

namespace UgmVocab

open LlmTokenizerUgm

section Position

variable {v : UgmVocab} {tok : LlmTokenizerUgm} {input p : Text} {res : NormalizationResult}
  {c : Char}

theorem trie_spec (h : v.tokenizer = .ok tok) :
    tok.userDefinedTokenMatcher.HasPath p ↔ p = [] ∨ v.StartsToken p := by
  have hmatcher : tok.userDefinedTokenMatcher =
      v.userDefinedTokens.foldl (fun trie text => trie.insert text 0) .empty := by
    rw [tokenizer] at h
    dsimp only at h
    split_ifs at h
    · cases h
      rfl
    · rcases hsize : readU32 v.precompiledCharsmap 0 with e | size <;> rw [hsize] at h
      · cases h
      · rw [Except.ok_bind_eq] at h
        split_ifs at h
        cases h
        rfl
  rw [hmatcher, NaiveTrie.hasPath_foldl, NaiveTrie.hasPath_empty]
  rfl

/-- What the trie is asked for. -/
theorem longest_startsToken (h : v.tokenizer = .ok tok) {n : Nat}
    (hn : tok.userDefinedTokenMatcher.getLongestPrefix input = n) :
    (0 < n → (input.take n).length = n ∧ Longest v.StartsToken input (input.take n)) ∧
    (n = 0 → ∀ p, p <+: input → p ≠ [] → ¬ v.StartsToken p) := by
  have hle := NaiveTrie.getLongestPrefix_le input tok.userDefinedTokenMatcher
  have hstarts {p : Text} (hp : p <+: input) (hne : p ≠ []) : v.StartsToken p ↔ p.length ≤ n := by
    rw [← hn, ← NaiveTrie.hasPath_iff hp, trie_spec h]
    simp [hne]
  refine ⟨fun hpos => ?_, fun hzero p hp hne hstart => ?_⟩
  · have hlen : (input.take n).length = n := List.length_take_of_le (hn ▸ hle)
    have hne : input.take n ≠ [] := List.length_pos_iff.1 (hpos.trans_eq hlen.symm)
    refine ⟨hlen, hne, List.take_prefix n input,
      (hstarts (List.take_prefix n input) hne).2 hlen.le, fun q hq hstart => ?_⟩
    rcases eq_or_ne q [] with rfl | hq'
    · exact Nat.zero_le _
    · rw [hlen]
      exact (hstarts hq hq').1 hstart
  · have := (hstarts hp hne).1 hstart
    have := List.length_pos_iff.2 hne
    omega

theorem fromUtf8_of_encodeChar (h : String.utf8EncodeChar c <+: input) :
    unicodeCptFromUtf8 input = some (c.val, (String.utf8EncodeChar c).length) := by
  obtain ⟨rest, rfl⟩ := h
  exact fromUtf8_of_decodes rest (decodes_of_toUtf8 (toUtf8_val c)).1

/-- A position that the trie takes something of. -/
theorem agrees_of_startsToken (hp : Longest v.StartsToken input p) :
    v.Documented tok input ⟨p, p.length⟩ ↔ v.Agrees tok input := by
  have huser (h : p ∈ v.userDefinedTokens) : Longest (· ∈ v.userDefinedTokens) input p :=
    ⟨hp.ne_nil, hp.start, h, fun q hq hmem => hp.longest q hq ⟨q, hmem, List.prefix_refl q⟩⟩
  have htake {q : Text} (hq : q <+: input) (hlen : q.length = p.length) : q = p :=
    (List.prefix_of_prefix_length_le hq hp.start hlen.le).eq_of_length hlen
  constructor
  · intro h
    refine ⟨fun q hq => ?_, fun hnone => (hnone p hp).elim, fun hnone => (hnone p hp).elim,
      fun hnone => (hnone p hp).elim⟩
    obtain rfl := hp.unique hq
    generalize hres : (⟨p, p.length⟩ : NormalizationResult) = res at h
    rcases h with (huser | ⟨hnone, hlongest, hvalue, htext⟩ | ⟨hnone, hcharsmap, hc⟩) | -
    · obtain ⟨rfl, -⟩ := NormalizationResult.mk.inj hres
      exact .inl huser.holds
    · obtain ⟨rfl, hlen⟩ := NormalizationResult.mk.inj hres
      obtain rfl := htake hlongest.start hlen.symm
      exact .inr ⟨hnone, .inl ⟨hlongest, _, hvalue, htext⟩⟩
    · obtain ⟨rfl, -⟩ := NormalizationResult.mk.inj hres
      exact .inr ⟨hnone, .inr ⟨hcharsmap, hc, _, rfl⟩⟩
    · obtain ⟨rfl, hlen⟩ := NormalizationResult.mk.inj hres
      cases hlen
  · intro h
    rcases h.userDefined p hp with hmem | ⟨hnone, ⟨hlongest, value, hvalue, htext⟩ |
      ⟨hcharsmap, hstart, c, rfl⟩⟩
    · exact .found (.userDefined (huser hmem))
    · exact .found (.charsmap hnone hlongest hvalue htext)
    · exact .found (.character hnone hcharsmap hstart)

/-- What is decoded where nothing is found has to be a character. -/
theorem documented_decoded (hnouser : ∀ p, ¬ Longest (· ∈ v.userDefinedTokens) input p)
    (hnomap : ∀ p, ¬ Longest (fun q => ∃ value, tok.Maps value q) input p) {cpt : UInt32} {n : Nat}
    (hcpt : unicodeCptFromUtf8 input = some (cpt, n)) :
    v.Documented tok input ⟨input.take n, n⟩ ↔ ∃ c, input.take n = String.utf8EncodeChar c := by
  constructor
  · intro h
    generalize hres : (⟨input.take n, n⟩ : NormalizationResult) = res at h
    rcases h with (huser | ⟨_, hlongest, _, _⟩ | ⟨_, _, hc⟩) | -
    · exact (hnouser _ huser).elim
    · exact (hnomap _ hlongest).elim
    · exact ⟨_, (NormalizationResult.mk.inj hres).1⟩
    · obtain ⟨htext, rfl⟩ := NormalizationResult.mk.inj hres
      have hlen : (input.take 1).length = 3 := congrArg List.length htext
      rw [List.length_take] at hlen
      omega
  · rintro ⟨c, hc⟩
    have hstart : String.utf8EncodeChar c <+: input := hc ▸ List.take_prefix n input
    have hn := fromUtf8_of_encodeChar hstart
    rw [hcpt, Option.some.injEq, Prod.mk.injEq] at hn
    rw [hc, hn.2]
    exact .found (.character hnouser hnomap hstart)

/-- A position that the trie takes nothing of. -/
theorem agrees_of_not_startsToken (hnone : ∀ p, p <+: input → p ≠ [] → ¬ v.StartsToken p)
    (htrie : tok.userDefinedTokenMatcher.getLongestPrefix input = 0) (hinput : input ≠ []) :
    (∃ res, tok.normalizePrefix input = .ok res ∧ v.Documented tok input res) ↔
      v.Agrees tok input := by
  have hnostart (p : Text) : ¬ Longest v.StartsToken input p := fun hp =>
    hnone p hp.start hp.ne_nil hp.holds
  have hnouser (p : Text) : ¬ Longest (· ∈ v.userDefinedTokens) input p := fun hp =>
    hnone p hp.start hp.ne_nil ⟨p, hp.holds, List.prefix_refl p⟩
  have hagrees : v.Agrees tok input ↔ tok.Stays input ∧
      (∀ p value, Longest (fun q => ∃ value, tok.Maps value q) input p → tok.Maps value p →
        ∃ text, tok.prefixReplacement value = .ok text) ∧
      ((∀ p, ¬ Longest (fun q => ∃ value, tok.Maps value q) input p) →
        ∀ cpt n, unicodeCptFromUtf8 input = some (cpt, n) →
          ∃ c, input.take n = String.utf8EncodeChar c) :=
    ⟨fun h => ⟨h.stays hnostart, h.replaced hnostart, h.decoded hnostart⟩,
      fun ⟨hstays, hreplaced, hdecoded⟩ => ⟨fun p hp => (hnostart p hp).elim, fun _ => hstays,
        fun _ => hreplaced, fun _ => hdecoded⟩⟩
  obtain ⟨hok, herror⟩ := longestPrefix_spec tok input
  rw [hagrees, normalizePrefix, if_neg hinput, htrie]
  dsimp only
  rw [if_neg (Nat.lt_irrefl 0)]
  by_cases hstays : tok.Stays input
  · obtain ⟨length, value, hcharsmap, hcase⟩ := hok hstays
    rw [hcharsmap, Except.ok_bind_eq]
    dsimp only
    rcases hcase with ⟨rfl, hnomap⟩ | ⟨p, rfl, hp, hvalue⟩
    · rw [if_neg (Nat.lt_irrefl 0)]
      rcases hcpt : unicodeCptFromUtf8 input with _ | ⟨cpt, n⟩
      · refine iff_of_true ⟨_, rfl, .invalid hnouser hnomap fun c hc => ?_⟩
          ⟨hstays, fun p _ hp _ => (hnomap p hp).elim, fun _ cpt n h => nomatch h⟩
        cases hcpt.symm.trans (fromUtf8_of_encodeChar hc)
      · have hdocumented := documented_decoded (v := v) hnouser hnomap hcpt
        refine ⟨fun ⟨res, hres, h⟩ => ?_, fun ⟨_, _, h⟩ => ?_⟩
        · cases hres
          refine ⟨hstays, fun p _ hp _ => (hnomap p hp).elim, fun _ cpt' n' h' => ?_⟩
          cases h'
          exact hdocumented.1 h
        · exact ⟨_, rfl, hdocumented.2 (h hnomap cpt n rfl)⟩
    · rw [if_pos (List.length_pos_iff.2 hp.ne_nil)]
      rcases htext : tok.prefixReplacement value with e | text
      · refine iff_of_false (fun ⟨_, hres, _⟩ => nomatch hres) fun ⟨_, hreplaced, _⟩ => ?_
        obtain ⟨text, htext'⟩ := hreplaced p value hp hvalue
        cases htext.symm.trans htext'
      · refine iff_of_true ⟨_, rfl, .found (.charsmap hnouser hp hvalue htext)⟩
          ⟨hstays, fun q value' hq hvalue' => ?_, fun hnomap => (hnomap p hp).elim⟩
        obtain rfl := hp.unique hq
        rw [hvalue'.unique hvalue]
        exact ⟨text, htext⟩
  · obtain ⟨e, he⟩ := herror hstays
    rw [he]
    exact iff_of_false (fun ⟨_, hres, _⟩ => nomatch hres) fun h => hstays h.1

/-- At one position the normalization is as documented exactly where the two agree. -/
theorem agrees_iff (h : v.tokenizer = .ok tok) (hinput : input ≠ []) :
    (∃ res, tok.normalizePrefix input = .ok res ∧ v.Documented tok input res) ↔
      v.Agrees tok input := by
  generalize hn : tok.userDefinedTokenMatcher.getLongestPrefix input = n
  obtain ⟨hpos, hzero⟩ := longest_startsToken h hn
  rcases Nat.eq_zero_or_pos n with rfl | hlt
  · exact agrees_of_not_startsToken (hzero rfl) hn hinput
  · obtain ⟨hlen, hp⟩ := hpos hlt
    have hcode : tok.normalizePrefix input = .ok ⟨input.take n, (input.take n).length⟩ := by
      rw [normalizePrefix, if_neg hinput, hn, hlen]
      exact if_pos hlt
    rw [← agrees_of_startsToken hp, hcode]
    simp

end Position

/-! ## Every position -/

/-- The positions that steps lead to, as what is left of the text there. -/
inductive Reaches (step : Text → NormalizationResult → Prop) (text : Text) : Text → Prop
  | start : Reaches step text text
  | next {input : Text} {res : NormalizationResult} (h : Reaches step text input)
    (hinput : input ≠ []) (hres : step input res) :
    Reaches step text (input.drop res.consumedInput)

/-- The results of steps to the end of the text. -/
inductive Steps (step : Text → NormalizationResult → Prop) :
    Text → List NormalizationResult → Prop
  | nil : Steps step [] []
  | cons {input : Text} {res : NormalizationResult} {results : List NormalizationResult}
    (hinput : input ≠ []) (hres : step input res)
    (h : Steps step (input.drop res.consumedInput) results) : Steps step input (res :: results)

/-- The text that results are put together to. -/
def render (v : UgmVocab) (results : List NormalizationResult) : Text :=
  let st := (results.flatMap (·.normalized)).foldl v.normalizeByte {}
  if v.shallAppendSpace then st.normalized ++ v.space else st.normalized

/-- At each position that `normalize` comes to the result is the documented one, and no byte of a
valid text is replaced; so the text is normalized to what the documented results are put together
to. -/
structure NormalizesAsDocumented (v : UgmVocab) (tok : LlmTokenizerUgm) (text : Text) : Prop where
  step : ∀ input, Reaches (fun input res => tok.normalizePrefix input = .ok res) text input →
    input ≠ [] → ∃ res, tok.normalizePrefix input = .ok res ∧ v.Documented tok input res ∧
      ((∃ s, text = Utf8.encode s) → v.Matches tok input res)
  result : ∃ results, Steps (v.Documented tok) text results ∧
    v.normalize tok text = .ok (v.render results)

/-- The condition on a text: at each position that the documented normalization comes to, the trie
and the charsmap agree with it, and something matches there if the text is valid. -/
def AgreesThroughout (v : UgmVocab) (tok : LlmTokenizerUgm) (text : Text) : Prop :=
  ∀ input, Reaches (v.Documented tok) text input → input ≠ [] → v.Agrees tok input ∧
    ((∃ s, text = Utf8.encode s) → ∃ res, v.Matches tok input res)

section Run

variable {v : UgmVocab} {tok : LlmTokenizerUgm} {text input rest : Text}
  {res res' : NormalizationResult} {step step' : Text → NormalizationResult → Prop}

theorem Documented.unique (h : v.Documented tok input res) (h' : v.Documented tok input res') :
    res = res' := by
  rcases h with (hp | ⟨huser, hp, hvalue, htext⟩ | ⟨huser, hmap, hc⟩) | ⟨huser, hmap, hchar⟩
  · rcases h' with (hq | ⟨huser, -⟩ | ⟨huser, -⟩) | ⟨huser, -⟩
    · rw [hp.unique hq]
    all_goals exact (huser _ hp).elim
  · rcases h' with (hq | ⟨-, hq, hvalue', htext'⟩ | ⟨-, hmap, -⟩) | ⟨-, hmap, -⟩
    · exact (huser _ hq).elim
    · obtain rfl := hp.unique hq
      obtain rfl := hvalue.unique hvalue'
      rw [Except.ok.inj (htext.symm.trans htext')]
    all_goals exact (hmap _ hp).elim
  · rcases h' with (hq | ⟨-, hq, -⟩ | ⟨-, -, hc'⟩) | ⟨-, -, hchar⟩
    · exact (huser _ hq).elim
    · exact (hmap _ hq).elim
    · have heq := (fromUtf8_of_encodeChar hc).symm.trans (fromUtf8_of_encodeChar hc')
      rw [Option.some.injEq, Prod.mk.injEq] at heq
      rw [Char.ext heq.1]
    · exact (hchar _ hc).elim
  · rcases h' with (hq | ⟨-, hq, -⟩ | ⟨-, -, hc'⟩) | -
    · exact (huser _ hq).elim
    · exact (hmap _ hq).elim
    · exact (hchar _ hc').elim
    · rfl

theorem Documented.consumed (h : v.Documented tok input res) : 0 < res.consumedInput := by
  rcases h with (hp | ⟨-, hp, -⟩ | hc) | -
  · exact List.length_pos_iff.2 hp.ne_nil
  · exact List.length_pos_iff.2 hp.ne_nil
  · exact List.length_pos_iff.2 String.utf8EncodeChar_ne_nil
  · exact Nat.one_pos

theorem Reaches.head (hinput : input ≠ []) (hres : step input res)
    (h : Reaches step (input.drop res.consumedInput) rest) : Reaches step input rest := by
  induction h with
  | start => exact .next .start hinput hres
  | next h hne hstep ih => exact ih.next hne hstep

theorem Reaches.imp (hstep : ∀ input, Reaches step text input → input ≠ [] →
      ∀ res, step input res → step' input res) (h : Reaches step text input) :
    Reaches step' text input := by
  induction h with
  | start => exact .start
  | next h hne hres ih => exact ih.next hne (hstep _ h hne _ hres)

/-- The loop takes the documented steps. -/
theorem normalizeLoop_spec (h : v.tokenizer = .ok tok) : ∀ (fuel : Nat) (input : Text)
    (st : Normalized), (∀ rest, Reaches (v.Documented tok) input rest → rest ≠ [] →
      v.Agrees tok rest) → input.length ≤ fuel →
    ∃ results, Steps (v.Documented tok) input results ∧ v.normalizeLoop tok fuel input st =
      .ok ((results.flatMap (·.normalized)).foldl v.normalizeByte st)
  | _, [], st, _, _ => by
    refine ⟨[], .nil, ?_⟩
    rw [normalizeLoop]
    rfl
  | fuel + 1, c :: input, st, hagrees, hfuel => by
    have hne : c :: input ≠ [] := List.cons_ne_nil c input
    obtain ⟨res, hres, hdoc⟩ := (agrees_iff h hne).2 (hagrees _ .start hne)
    have hconsumed := hdoc.consumed
    obtain ⟨results, hsteps, hloop⟩ := normalizeLoop_spec h fuel
      ((c :: input).drop res.consumedInput) (res.normalized.foldl v.normalizeByte st)
      (fun rest hrest => hagrees rest (hrest.head hne hdoc)) (by
        rw [List.length_drop]
        omega)
    refine ⟨res :: results, .cons hne hdoc hsteps, ?_⟩
    rw [normalizeLoop, hres, Except.ok_bind_eq, hloop, List.flatMap_cons, List.foldl_append]
    exact hne

/-- A text is normalized as documented exactly where the trie and the charsmap agree with the
documentation at each position, and something matches at each position of a valid text. -/
theorem normalizesAsDocumented_iff (h : v.tokenizer = .ok tok) (text : Text) :
    v.NormalizesAsDocumented tok text ↔ v.AgreesThroughout tok text := by
  constructor
  · rintro ⟨hstep, -⟩ input hreach hinput
    have hreach' : Reaches (fun input res => tok.normalizePrefix input = .ok res) text input := by
      induction hreach with
      | start => exact .start
      | next h hne hres ih =>
        obtain ⟨res', hcode, hdoc, -⟩ := hstep _ (ih hne) hne
        exact (ih hne).next hne (hres.unique hdoc ▸ hcode)
    obtain ⟨res, hcode, hdoc, hvalid⟩ := hstep input hreach' hinput
    exact ⟨(agrees_iff h hinput).1 ⟨res, hcode, hdoc⟩, fun htext => ⟨res, hvalid htext⟩⟩
  · intro hagrees
    have hstep (input : Text) (hreach : Reaches (v.Documented tok) text input)
        (hinput : input ≠ []) := (agrees_iff h hinput).2 (hagrees input hreach hinput).1
    obtain ⟨results, hsteps, hloop⟩ := normalizeLoop_spec h _ _ {}
      (fun input hreach hinput => (hagrees input hreach hinput).1) (Nat.le_refl text.length)
    refine ⟨fun input hreach hinput => ?_, results, hsteps, ?_⟩
    · have hreach' : Reaches (v.Documented tok) text input := by
        induction hreach with
        | start => exact .start
        | next _ hne hres ih =>
          obtain ⟨res', hcode, hdoc⟩ := hstep _ (ih hne) hne
          exact (ih hne).next hne (Except.ok.inj (hcode.symm.trans hres) ▸ hdoc)
      obtain ⟨res, hcode, hdoc⟩ := hstep input hreach' hinput
      refine ⟨res, hcode, hdoc, fun htext => ?_⟩
      obtain ⟨res', hmatch⟩ := (hagrees input hreach' hinput).2 htext
      rwa [hdoc.unique (.found hmatch)]
    · rw [normalize, hloop, Except.ok_bind_eq]
      rfl

/-- A vocabulary with the user-defined token `é!`, and no charsmap. -/
def accentVocab : UgmVocab where
  idToToken := [{ text := [0xC3, 0xA9, 0x21], attr := { userDefined := true } }]

def accentTokenizer : LlmTokenizerUgm where
  precompiledCharsmap := []
  userDefinedTokenMatcher := NaiveTrie.empty.insert [0xC3, 0xA9, 0x21] 0

theorem accentVocab_tokenizer : accentVocab.tokenizer = .ok accentTokenizer := rfl

theorem normalizesAsDocumented_iff_accent :
    accentVocab.NormalizesAsDocumented accentTokenizer [0x61] ↔
      accentVocab.AgreesThroughout accentTokenizer [0x61] :=
  normalizesAsDocumented_iff accentVocab_tokenizer [0x61]

/-- Of `è` the first byte is taken for the start of `é!`, and the second one is replaced. -/
theorem not_normalizesAsDocumented :
    ¬ accentVocab.NormalizesAsDocumented accentTokenizer (String.utf8EncodeChar 'è') ∧
      accentVocab.normalize accentTokenizer (String.utf8EncodeChar 'è') =
        .ok [0xC3, 0xEF, 0xBF, 0xBD] := by
  refine ⟨fun h => ?_, by decide⟩
  obtain ⟨res, hcode, -, hmatch⟩ := h.step _ .start (by decide)
  have htaken : accentTokenizer.normalizePrefix (String.utf8EncodeChar 'è') = .ok ⟨[0xC3], 1⟩ := by
    decide
  obtain rfl := Except.ok.inj (htaken.symm.trans hcode)
  generalize hres : (⟨[0xC3], 1⟩ : NormalizationResult) = res at hmatch
  rcases hmatch ⟨['è'], rfl⟩ with hp | ⟨-, hp, -⟩ | ⟨-, -, hc⟩
  · have hmem := hp.holds
    rw [← (NormalizationResult.mk.inj hres).1] at hmem
    revert hmem
    decide
  · obtain ⟨value, hpos, -⟩ := hp.holds
    exact absurd hpos (Nat.lt_irrefl 0)
  · have hread := fromUtf8_of_encodeChar hc
    have hlen : unicodeCptFromUtf8 (String.utf8EncodeChar 'è') = some (0xE8, 2) := by decide
    rw [hlen, ← (NormalizationResult.mk.inj hres).2, Option.some.injEq, Prod.mk.injEq] at hread
    cases hread.2

/-! ## Whole characters -/

/-- Neither a user-defined token nor a text of the charsmap ends within a character. -/
structure WholeCharacters (v : UgmVocab) (tok : LlmTokenizerUgm) : Prop where
  userDefined : ∀ text ∈ v.userDefinedTokens, ∃ s, text = Utf8.encode s
  charsmap : ∀ text value, tok.Maps value text → ∃ s, text = Utf8.encode s

theorem encode_prefix : ∀ {t s : List Char}, Utf8.encode t <+: Utf8.encode s → t <+: s
  | [], _, _ => List.nil_prefix
  | c :: t, [], h => by
    rw [Utf8.encode_nil, List.prefix_nil, Utf8.encode_cons, List.append_eq_nil_iff] at h
    exact (String.utf8EncodeChar_ne_nil h.1).elim
  | c :: t, d :: s, h => by
    rw [Utf8.encode_cons, Utf8.encode_cons] at h
    obtain rfl := encodeChar_start ((List.prefix_append _ _).trans h)
    exact List.cons_prefix_cons.2 ⟨rfl, encode_prefix ((List.prefix_append_right_inj _).1 h)⟩

/-- The documented steps through a valid text are between its characters. -/
theorem Reaches.encode (hwhole : v.WholeCharacters tok) {s : List Char}
    (h : Reaches (v.Documented tok) (Utf8.encode s) input) : ∃ t, input = Utf8.encode t := by
  have hdrop {t u : List Char} {p : Text} (hp : p = Utf8.encode u) (hstart : p <+: Utf8.encode t) :
      ∃ t', (Utf8.encode t).drop p.length = Utf8.encode t' := by
    subst hp
    obtain ⟨t', rfl⟩ := encode_prefix hstart
    exact ⟨t', by rw [Utf8.encode_append, List.drop_left]⟩
  induction h with
  | start => exact ⟨s, rfl⟩
  | next h hne hres ih =>
    obtain ⟨t, rfl⟩ := ih
    rcases hres with (hp | ⟨-, hp, hvalue, -⟩ | ⟨-, -, hc⟩) | ⟨-, -, hnochar⟩
    · obtain ⟨u, hu⟩ := hwhole.userDefined _ hp.holds
      exact hdrop hu hp.start
    · obtain ⟨u, hu⟩ := hwhole.charsmap _ _ hvalue
      exact hdrop hu hp.start
    · exact hdrop (u := [_]) (List.append_nil _).symm hc
    · obtain ⟨c, t, rfl⟩ := List.exists_cons_of_ne_nil (fun h => hne (h ▸ rfl) : t ≠ [])
      exact (hnochar c (List.prefix_append _ _)).elim

/-- Then something matches at each position of a valid text. -/
theorem agreesThroughout_of_whole (h : v.tokenizer = .ok tok) (hwhole : v.WholeCharacters tok)
    (hagrees : ∀ input, Reaches (v.Documented tok) text input → input ≠ [] → v.Agrees tok input) :
    v.AgreesThroughout tok text := by
  refine fun input hreach hinput => ⟨hagrees input hreach hinput, ?_⟩
  rintro ⟨s, rfl⟩
  obtain ⟨res, -, hmatch | ⟨-, -, hnochar⟩⟩ := (agrees_iff h hinput).2 (hagrees input hreach hinput)
  · exact ⟨res, hmatch⟩
  · obtain ⟨t, rfl⟩ := hreach.encode hwhole
    obtain ⟨c, t, rfl⟩ := List.exists_cons_of_ne_nil (fun h => hinput (h ▸ rfl) : t ≠ [])
    exact (hnochar c (List.prefix_append _ _)).elim

end Run

end UgmVocab

end LamaServer

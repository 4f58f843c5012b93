import LamaServer.Lib.Segments
import LamaServer.Proofs.Unicode
import LamaServer.Tokenizer
import Mathlib.Data.List.FinRange
import Mathlib.Data.List.Infix
import Mathlib.Data.List.Sort

/-!
# The symbols of a word

The symbols that have a text are a chain: each is linked to the one before it and the one after it,
and their texts are next to each other in the word. A merge takes one of them out of the chain.
Every pair in the queue was next to each other when it was added, so it still is where both symbols
are left; and where the pair is not outdated, what is joined is the text that was known then.
-/

namespace LamaServer

open Relation Segments

namespace TokenizerSession

/-- The link to the first symbol of a chain. -/
def firstOf : List Nat → Int
  | [] => -1
  | i :: _ => i

/-- The symbols of `chain` are linked, from `prev` on, and have a text each, one after the other
from `start` to `stop`. -/
def LinkedFrom (symbols : List LlmSymbol) (stop : Nat) : Int → Nat → List Nat → Prop
  | _, start, [] => start = stop
  | prev, start, i :: chain => ∃ n, 0 < n ∧
    symbols[i]? = some ⟨prev, firstOf chain, start, n⟩ ∧ LinkedFrom symbols stop i (start + n) chain

section Linked

variable {symbols symbols' : List LlmSymbol} {stop start l r i n m : Nat} {prev next : Int}
  {chain pre post : List Nat} {word : Text}

theorem LinkedFrom.congr (hsame : ∀ i ∈ chain, symbols'[i]? = symbols[i]?)
    (h : LinkedFrom symbols stop prev start chain) : LinkedFrom symbols' stop prev start chain := by
  induction chain generalizing prev start with
  | nil => exact h
  | cons i chain ih =>
    obtain ⟨n, hn, hi, hchain⟩ := h
    obtain ⟨hsame_i, hsame⟩ := List.forall_mem_cons.1 hsame
    exact ⟨n, hn, hsame_i.trans hi, ih hsame hchain⟩

theorem LinkedFrom.start_le : ∀ {chain : List Nat} {prev : Int} {start : Nat},
    LinkedFrom symbols stop prev start chain → start ≤ stop
  | [], _, _, h => Nat.le_of_eq h
  | _ :: _, _, _, ⟨_, _, _, hchain⟩ => (Nat.le_add_right _ _).trans hchain.start_le

/-- A symbol of the chain, with its neighbours. -/
theorem LinkedFrom.at : ∀ {pre : List Nat} {prev : Int} {start : Nat},
    LinkedFrom symbols stop prev start (pre ++ i :: post) →
    ∃ s, symbols[i]? = some s ∧ s.prev = (pre.getLast?).elim prev (↑) ∧ s.next = firstOf post ∧
      0 < s.n ∧ s.text + s.n ≤ stop
  | [], _, _, ⟨n, hn, hi, hpost⟩ => ⟨_, hi, rfl, rfl, hn, hpost.start_le⟩
  | j :: pre, prev, start, ⟨n, _, _, hchain⟩ => by
    obtain ⟨s, hi, hprev, hs⟩ := hchain.at
    refine ⟨s, hi, ?_, hs⟩
    rw [hprev, List.getLast?_cons]
    rcases pre.getLast? with _ | k <;> rfl

/-- Two neighbours of the chain. -/
theorem LinkedFrom.pair : ∀ {pre : List Nat} {prev : Int} {start : Nat},
    LinkedFrom symbols stop prev start (pre ++ l :: r :: post) →
    ∃ p t n m, symbols[l]? = some ⟨p, r, t, n⟩ ∧ symbols[r]? = some ⟨l, firstOf post, t + n, m⟩ ∧
      0 < n ∧ 0 < m ∧ t + n + m ≤ stop
  | [], prev, start, ⟨n, hn, hl, m, hm, hr, hpost⟩ =>
    ⟨prev, start, n, m, hl, hr, hn, hm, hpost.start_le⟩
  | _ :: _, _, _, ⟨_, _, _, hchain⟩ => hchain.pair

/-- The texts of the chain are the word. -/
theorem LinkedFrom.flatten : ∀ {chain : List Nat} {prev : Int} {start : Nat},
    LinkedFrom symbols word.length prev start chain →
    (chain.map (textAt word symbols)).flatten = word.drop start
  | [], _, start, h => by
    rw [show start = word.length from h]
    simp
  | i :: chain, prev, start, ⟨n, _, hi, hchain⟩ => by
    rw [List.map_cons, List.flatten_cons, hchain.flatten, textAt, hi]
    simp only [Option.elim_some, symbolText]
    rw [← List.drop_drop, List.take_append_drop]

/-! ## Merging -/

/-- What a merge does to each symbol. -/
theorem getElem?_merge {sl sr : LlmSymbol} (hl : symbols[l]? = some sl)
    (hr : symbols[r]? = some sr) (hlr : l ≠ r) :
    (merge symbols l r)[i]? = (symbols[i]?).map fun s =>
      ⟨if sr.next = i then l else s.prev, if i = l then sr.next else s.next, s.text,
        if i = l then sl.n + sr.n else if i = r then 0 else s.n⟩ := by
  have hset : ((symbols.set l { sl with n := sl.n + sr.n, next := sr.next }).set r
      { sr with n := 0 })[i]? = (symbols[i]?).map fun s =>
        ⟨s.prev, if i = l then sr.next else s.next, s.text,
          if i = l then sl.n + sr.n else if i = r then 0 else s.n⟩ := by
    have hllt := (List.getElem?_eq_some_iff.1 hl).1
    have hrlt := (List.getElem?_eq_some_iff.1 hr).1
    by_cases hir : i = r
    · subst hir
      rw [List.getElem?_set_self (by rwa [List.length_set]), hr]
      simp [Ne.symm hlr]
    · rw [List.getElem?_set_ne (Ne.symm hir)]
      by_cases hil : i = l
      · subst hil
        rw [List.getElem?_set_self hllt, hl]
        simp
      · rw [List.getElem?_set_ne (Ne.symm hil)]
        simp [hil, hir]
  simp only [merge, hl, hr]
  rw [apply_ite (·[i]?), List.getElem?_modify, hset]
  have hiff : sr.next ≥ 0 → (sr.next.toNat = i ↔ sr.next = i) := by omega
  have hneg : ¬ sr.next ≥ 0 → sr.next ≠ i := by omega
  by_cases hge : sr.next ≥ 0
  · rw [if_pos hge]
    simp only [hiff hge, Option.map_eq_map, Option.map_map]
    congr 1
    funext s
    by_cases hnext : sr.next = i <;> simp [hnext]
  · rw [if_neg hge]
    simp only [if_neg (hneg hge)]

theorem firstOf_ne (h : i ∉ chain) : firstOf chain ≠ i := by
  rcases chain with _ | ⟨j, chain⟩
  · exact fun h => by cases h
  · exact fun hji => h (List.mem_cons.2 (.inl (Int.ofNat_inj.1 hji.symm)))

theorem firstOf_append_cons (pre post post' : List Nat) :
    firstOf (pre ++ i :: post) = firstOf (pre ++ i :: post') := by
  rcases pre with _ | ⟨j, pre⟩ <;> rfl

/-- The right symbol is taken out of the chain. -/
theorem LinkedFrom.merge {pre : List Nat} (hnodup : (pre ++ l :: r :: post).Nodup)
    (h : LinkedFrom symbols stop prev start (pre ++ l :: r :: post)) :
    LinkedFrom (merge symbols l r) stop prev start (pre ++ l :: post) := by
  obtain ⟨p, t, n, m, hl, hr, hn, hm, -⟩ := h.pair
  have hlr : l ≠ r := by
    rintro rfl
    exact (List.nodup_cons.1 (List.nodup_append.1 hnodup).2.1).1 List.mem_cons_self
  have hsame : ∀ i, i ∉ post → i ≠ l → i ≠ r →
      (TokenizerSession.merge symbols l r)[i]? = symbols[i]? := by
    intro i hi hil hir
    rw [getElem?_merge hl hr hlr]
    simp only [if_neg (firstOf_ne hi), if_neg hil, if_neg hir]
    exact Option.map_id_apply
  induction pre generalizing prev start with
  | nil =>
    obtain ⟨n, hn, hl', m, hm, hr', hpost⟩ := h
    cases hl.symm.trans hl'
    cases hr.symm.trans hr'
    simp only [List.nil_append, List.nodup_cons, List.mem_cons, not_or] at hnodup
    obtain ⟨⟨-, hlpost⟩, hrpost, hpostnd⟩ := hnodup
    refine ⟨n + m, by omega, ?_, ?_⟩
    · rw [getElem?_merge hl hr hlr, hl]
      simp [firstOf_ne hlpost]
    · rw [← Nat.add_assoc]
      rcases post with _ | ⟨q, post⟩
      · exact hpost
      · obtain ⟨k, hk, hq, hrest⟩ := hpost
        simp only [List.mem_cons, not_or, List.nodup_cons] at hlpost hrpost hpostnd
        refine ⟨k, hk, ?_, hrest.congr fun i hi => ?_⟩
        · rw [getElem?_merge hl hr hlr, hq]
          simp [firstOf, Ne.symm hlpost.1, Ne.symm hrpost.1]
        · have hiq : i ≠ q := fun h => hpostnd.1 (h ▸ hi)
          have hil : i ≠ l := fun h => hlpost.2 (h ▸ hi)
          have hir : i ≠ r := fun h => hrpost.2 (h ▸ hi)
          rw [getElem?_merge hl hr hlr]
          simp only [firstOf, Int.ofNat_inj, Ne.symm hiq, hil, hir, if_false]
          exact Option.map_id_apply
  | cons j pre ih =>
    obtain ⟨k, hk, hj, hchain⟩ := h
    rw [List.cons_append, List.nodup_cons] at hnodup
    obtain ⟨hjmem, hnodup⟩ := hnodup
    simp only [List.mem_append, List.mem_cons, not_or] at hjmem
    obtain ⟨-, hjl, hjr, hjpost⟩ := hjmem
    refine ⟨k, hk, ?_, ih hnodup hchain⟩
    exact (hsame j hjpost hjl hjr).trans (hj.trans (by
      simp only [List.append_eq, firstOf_append_cons pre post (r :: post)]))

/-- The texts after a merge. -/
theorem textAt_merge (word : Text) (i : Nat) {pre : List Nat} (hlr : l ≠ r)
    (h : LinkedFrom symbols stop prev start (pre ++ l :: r :: post)) :
    textAt word (merge symbols l r) i =
      if i = l then textAt word symbols l ++ textAt word symbols r
      else if i = r then [] else textAt word symbols i := by
  obtain ⟨p, t, n, m, hl, hr, -⟩ := h.pair
  have hget := getElem?_merge (i := i) hl hr hlr
  rw [textAt, hget]
  by_cases hil : i = l
  · rw [if_pos hil, hil, textAt, textAt, hl, hr]
    simp only [Option.map_some, Option.elim_some, symbolText]
    rw [if_pos trivial, List.take_add, List.drop_drop]
  · rw [if_neg hil]
    by_cases hir : i = r
    · rw [if_pos hir, hir, hr]
      simp [symbolText, Ne.symm hlr]
    · rw [if_neg hir, textAt]
      rcases symbols[i]? with _ | s
      · rfl
      · simp [symbolText, hil, hir]

end Linked

/-! ## The queue -/

theorem popTop_eq_none {β : Type} {less : β → β → Bool} {queue : List β} :
    popTop less queue = none ↔ queue = [] := by
  rcases queue with _ | ⟨b, queue⟩
  · simp [popTop]
  · rw [popTop]
    rcases popTop less queue with _ | ⟨top, rest⟩ <;> simp

/-- What is popped is taken out. -/
theorem popTop_perm {β : Type} {less : β → β → Bool} {top : β} :
    ∀ {queue rest : List β}, popTop less queue = some (top, rest) → queue.Perm (top :: rest)
  | [], _, h => by cases h
  | b :: queue, rest, h => by
    rw [popTop] at h
    rcases hpop : popTop less queue with _ | ⟨top', rest'⟩ <;> rw [hpop] at h
    · cases h
      rw [popTop_eq_none.1 hpop]
    · have hperm := popTop_perm hpop
      simp only [Option.some.injEq] at h
      split_ifs at h <;> cases h
      · exact (hperm.cons b).trans (.swap _ _ _)
      · exact .refl _

variable {κ : Type}

/-- A word whose symbols with a text are those of `chain`. -/
structure Chained (word : Text) (symbols : List LlmSymbol) (chain : List Nat) : Prop where
  linked : LinkedFrom symbols word.length (-1) 0 chain
  sorted : chain.Pairwise (· < ·)
  removed : ∀ i ∉ chain, ∀ s, symbols[i]? = some s → s.n = 0

/-- A pair that is or was in the chain, and whose text was known. -/
structure Queued (Known : Text → Prop) (word : Text) (symbols : List LlmSymbol) (chain : List Nat)
    (bigram : Bigram κ) : Prop where
  neighbours : bigram.left ∈ chain → bigram.right ∈ chain → [bigram.left, bigram.right] <:+: chain
  known : Known bigram.text
  text : ∀ s, symbols[bigram.left]? = some s → bigram.text <+: word.drop s.text

/-- What holds of a session from one merge to the next. -/
structure Invariant (Known : Text → Prop) (word : Text) (chain : List Nat)
    (st : TokenizerSession κ) : Prop where
  chained : Chained word st.symbols chain
  queued : ∀ bigram ∈ st.workQueue, Queued Known word st.symbols chain bigram
  known : ∀ bigram ∈ st.revMerge, Known bigram.text

/-- What the runs below need of a rule on a word: the keys are found, those of known texts only,
and a bigram is outdated where the length of its text is not that of the texts it has now. -/
structure Sound (rule : BigramRule κ) (Known : Text → Prop) (word : Text) : Prop where
  key_ok : ∀ l r, l ++ r <:+: word → ∃ k, rule.key l r = .ok k
  known : ∀ l r k, rule.key l r = .ok (some k) → Known (l ++ r)
  outdated : ∀ l r bigram, ¬ rule.outdated l r bigram → (l ++ r).length = bigram.text.length

section Queue

variable {Known : Text → Prop} {word : Text} {symbols : List LlmSymbol} {chain pre post : List Nat}
  {st st' : TokenizerSession κ} {rule : BigramRule κ} {l r i n : Nat} {bigram : Bigram κ}

theorem Chained.nodup (h : Chained word symbols chain) : chain.Nodup :=
  h.sorted.imp Nat.ne_of_lt

theorem Chained.textAt_ne_nil (h : Chained word symbols chain) :
    textAt word symbols i ≠ [] ↔ i ∈ chain := by
  constructor
  · intro hne
    by_contra hi
    refine hne ?_
    rw [textAt]
    rcases hs : symbols[i]? with _ | s
    · rfl
    · simp [symbolText, h.removed i hi s hs]
  · intro hi
    obtain ⟨pre, post, rfl⟩ := List.append_of_mem hi
    obtain ⟨s, hs, -, -, hn, hle⟩ := h.linked.at
    rw [textAt, hs, Option.elim_some, symbolText]
    intro hnil
    have := congrArg List.length hnil
    simp only [List.length_take, List.length_drop, List.length_nil] at this
    omega

/-- The chain is in the order of the array. -/
theorem Chained.map_filter (h : Chained word symbols chain) :
    (symbols.filter (·.n > 0)).map (symbolText word) = chain.map (textAt word symbols) := by
  have hchain : ((List.finRange symbols.length).filter fun i => symbols[i].n > 0).map Fin.val =
      chain := by
    refine List.Pairwise.eq_of_mem_iff (r := (· < ·)) ?_ h.sorted fun i => ?_
    · exact List.pairwise_map.2 ((List.pairwise_lt_finRange _).filter _)
    · rw [List.mem_map]
      constructor
      · rintro ⟨k, hk, rfl⟩
        by_contra hi
        have hn := h.removed k hi symbols[k] (List.getElem?_eq_getElem k.isLt)
        simp only [List.mem_filter, hn] at hk
        simp at hk
      · intro hi
        obtain ⟨pre, post, rfl⟩ := List.append_of_mem hi
        obtain ⟨s, hs, -, -, hn, -⟩ := h.linked.at
        obtain ⟨hlt, rfl⟩ := List.getElem?_eq_some_iff.1 hs
        exact ⟨⟨i, hlt⟩, by simpa using hn, rfl⟩
  conv_lhs => rw [← List.map_getElem_finRange symbols]
  rw [List.filter_map, List.map_map, ← hchain, List.map_map]
  refine List.map_congr_left fun k _ => ?_
  simp [textAt]

/-- The texts of two neighbours are next to each other in the word. -/
theorem Chained.append_start (h : Chained word symbols (pre ++ l :: r :: post)) :
    ∃ s, symbols[l]? = some s ∧
      textAt word symbols l ++ textAt word symbols r <+: word.drop s.text := by
  obtain ⟨p, t, n, m, hl, hr, -⟩ := h.linked.pair
  refine ⟨_, hl, ?_⟩
  rw [textAt, textAt, hl, hr]
  simp only [Option.elim_some, symbolText]
  rw [← List.drop_drop, ← List.take_add]
  exact List.take_prefix _ _

theorem Chained.merge (h : Chained word symbols (pre ++ l :: r :: post)) :
    Chained word (merge symbols l r) (pre ++ l :: post) := by
  obtain ⟨p, t, n, m, hl, hr, -⟩ := h.linked.pair
  have hsub : (pre ++ l :: post).Sublist (pre ++ l :: r :: post) :=
    .append_left (.cons_cons l (List.sublist_cons_self r post)) pre
  have hlr : l ≠ r := by
    rintro rfl
    exact (List.nodup_cons.1 (List.nodup_append.1 h.nodup).2.1).1 List.mem_cons_self
  refine ⟨h.linked.merge h.nodup, h.sorted.sublist hsub, fun i hi s hs => ?_⟩
  rw [getElem?_merge hl hr hlr, Option.map_eq_some_iff] at hs
  obtain ⟨s', hs', rfl⟩ := hs
  simp only [List.mem_append, List.mem_cons, not_or] at hi
  obtain ⟨hpre, hil, hpost⟩ := hi
  dsimp only
  rw [if_neg hil]
  split_ifs with hir
  · rfl
  · exact h.removed i (by simp [hpre, hil, hir, hpost]) s' hs'

/-- The texts of the chain, with two neighbours joined. -/
theorem Chained.map_textAt_merge (h : Chained word symbols (pre ++ l :: r :: post)) :
    (pre ++ l :: post).map (textAt word (TokenizerSession.merge symbols l r)) =
      pre.map (textAt word symbols) ++ (textAt word symbols l ++ textAt word symbols r) ::
        post.map (textAt word symbols) := by
  have hnodup := h.nodup
  simp only [List.nodup_append, List.nodup_cons, List.mem_cons, not_or] at hnodup
  obtain ⟨-, ⟨⟨hlr, hlpost⟩, hrpost, -⟩, hpre⟩ := hnodup
  have htext := fun i => textAt_merge word i hlr h.linked
  rw [List.map_append, List.map_cons, htext l, if_pos rfl]
  congr 1
  · refine List.map_congr_left fun i hi => ?_
    rw [htext i, if_neg (hpre i hi l (.inl rfl)), if_neg (hpre i hi r (.inr (.inl rfl)))]
  · congr 1
    refine List.map_congr_left fun i hi => ?_
    rw [htext i, if_neg fun h : i = l => hlpost (h ▸ hi), if_neg fun h : i = r => hrpost (h ▸ hi)]

theorem infix_erase {a b : Nat} (h : [a, b] <:+: chain) (ha : a ≠ r) (hb : b ≠ r) :
    [a, b] <:+: chain.erase r := by
  obtain ⟨s, t, rfl⟩ := h
  rw [List.append_assoc]
  by_cases hr : r ∈ s
  · rw [List.erase_append_left _ hr]
    exact ⟨s.erase r, t, List.append_assoc _ _ _⟩
  · refine ⟨s, t.erase r, ?_⟩
    rw [List.erase_append_right _ hr]
    simp [ha, hb]

/-- Neighbours that are left by a merge stay neighbours. -/
theorem Queued.merge (h : Chained word symbols (pre ++ l :: r :: post))
    (hq : Queued Known word symbols (pre ++ l :: r :: post) bigram) :
    Queued Known word (TokenizerSession.merge symbols l r) (pre ++ l :: post) bigram := by
  obtain ⟨p, t, n, m, hl, hr, -⟩ := h.linked.pair
  have hnodup := h.nodup
  have hr_notin : r ∉ pre ++ l :: post := by
    simp only [List.nodup_append, List.nodup_cons, List.mem_cons, not_or] at hnodup
    simp only [List.mem_append, List.mem_cons, not_or]
    exact ⟨fun hmem => hnodup.2.2 r hmem r (.inr (.inl rfl)) rfl,
      Ne.symm hnodup.2.1.1.1, hnodup.2.1.2.1⟩
  have herase : (pre ++ l :: r :: post).erase r = pre ++ l :: post := by
    simp only [List.mem_append, List.mem_cons, not_or] at hr_notin
    rw [List.erase_append_right _ hr_notin.1]
    simp [Ne.symm hr_notin.2.1]
  have hsub : ∀ i ∈ pre ++ l :: post, i ∈ pre ++ l :: r :: post := fun i hi => by
    rw [← herase] at hi
    exact List.mem_of_mem_erase hi
  refine ⟨fun hleft hright => ?_, hq.known, fun s hs => ?_⟩
  · rw [← herase]
    exact infix_erase (hq.neighbours (hsub _ hleft) (hsub _ hright))
      (fun h => hr_notin (h ▸ hleft)) fun h => hr_notin (h ▸ hright)
  · have hlr : l ≠ r := fun h => hr_notin (by simp [h])
    rw [getElem?_merge hl hr hlr, Option.map_eq_some_iff] at hs
    obtain ⟨s', hs', rfl⟩ := hs
    exact hq.text s' hs'

theorem addBigram_none {left right : Int} (h : left = -1 ∨ right = -1) :
    addBigram rule word left right st = .ok st := by
  rw [addBigram, if_pos h]

theorem addBigram_spec (hsound : Sound rule Known word) (h : Invariant Known word chain st)
    (hadj : [l, r] <:+: chain) :
    ∃ st', addBigram rule word l r st = .ok st' ∧ st'.symbols = st.symbols ∧
      Invariant Known word chain st' ∧ st'.workQueue.length ≤ st.workQueue.length + 1 := by
  obtain ⟨s, hs, hstart⟩ : ∃ s, st.symbols[l]? = some s ∧
      textAt word st.symbols l ++ textAt word st.symbols r <+: word.drop s.text := by
    obtain ⟨pre, post, hchain⟩ := hadj
    refine Chained.append_start (?_ : Chained word st.symbols (pre ++ l :: r :: post))
    rw [← hchain] at h
    simpa using h.chained
  obtain ⟨k, hk⟩ := hsound.key_ok _ _ (hstart.isInfix.trans (List.drop_suffix _ _).isInfix)
  have hne : ¬ ((l : Int) = -1 ∨ (r : Int) = -1) := by omega
  rw [addBigram, if_neg hne, Int.toNat_natCast, Int.toNat_natCast]
  dsimp only
  rw [hk, Except.ok_bind_eq]
  rcases k with _ | k
  · exact ⟨st, rfl, rfl, h, Nat.le_succ _⟩
  · have hknown := hsound.known _ _ _ hk
    refine ⟨_, rfl, rfl, ⟨h.chained, ?_, ?_⟩, Nat.le_refl _⟩
    · refine List.forall_mem_cons.2 ⟨⟨fun _ _ => hadj, hknown, fun s' hs' => ?_⟩, h.queued⟩
      cases hs.symm.trans hs'
      exact hstart
    · exact List.forall_mem_cons.2 ⟨hknown, h.known⟩

/-- After a merge the pairs of the symbol with its neighbours are added. -/
theorem addNeighbours_spec (hsound : Sound rule Known word)
    (h : Invariant Known word (pre ++ l :: post) st) :
    ∃ st' st'', addBigram rule word ((st.symbols[l]?).elim (-1) (·.prev)) l st = .ok st' ∧
      addBigram rule word l ((st'.symbols[l]?).elim (-1) (·.next)) st' = .ok st'' ∧
      st''.symbols = st.symbols ∧ Invariant Known word (pre ++ l :: post) st'' ∧
      st''.workQueue.length ≤ st.workQueue.length + 2 := by
  obtain ⟨s, hs, hprev, hnext, -⟩ := h.chained.linked.at
  obtain ⟨st', hst', hsymbols, h', hlen⟩ : ∃ st', addBigram rule word s.prev l st = .ok st' ∧
      st'.symbols = st.symbols ∧ Invariant Known word (pre ++ l :: post) st' ∧
      st'.workQueue.length ≤ st.workQueue.length + 1 := by
    rcases List.eq_nil_or_concat pre with rfl | ⟨pre, p, rfl⟩
    · exact ⟨st, addBigram_none (.inl hprev), rfl, h, Nat.le_succ _⟩
    · rw [List.concat_eq_append, List.getLast?_concat] at hprev
      rw [hprev]
      exact addBigram_spec hsound h ⟨pre, post, by simp⟩
  obtain ⟨st'', hst'', hsymbols', h'', hlen'⟩ : ∃ st'',
      addBigram rule word l s.next st' = .ok st'' ∧
      st''.symbols = st'.symbols ∧ Invariant Known word (pre ++ l :: post) st'' ∧
      st''.workQueue.length ≤ st'.workQueue.length + 1 := by
    rcases post with _ | ⟨q, post⟩
    · exact ⟨st', addBigram_none (.inr hnext), rfl, h', Nat.le_succ _⟩
    · rw [hnext]
      exact addBigram_spec hsound h' ⟨pre, post, by simp⟩
  refine ⟨st', st'', ?_, ?_, hsymbols'.trans hsymbols, h'', by omega⟩
  · rw [hs]
    exact hst'
  · rw [hsymbols, hs]
    exact hst''

/-- What is popped and not outdated is a pair of neighbours with the text they have now, and they
are joined. -/
theorem Invariant.popped (hsound : Sound rule Known word) (h : Invariant Known word chain st)
    {queue : List (Bigram κ)} (hpop : popTop rule.less st.workQueue = some (bigram, queue))
    (hleft : textAt word st.symbols bigram.left ≠ [])
    (hright : textAt word st.symbols bigram.right ≠ [])
    (hnew : ¬ rule.outdated (textAt word st.symbols bigram.left)
      (textAt word st.symbols bigram.right) bigram) :
    ∃ pre post, chain = pre ++ bigram.left :: bigram.right :: post ∧
      textAt word st.symbols bigram.left ++ textAt word st.symbols bigram.right = bigram.text ∧
      Invariant Known word (pre ++ bigram.left :: post)
        { st with symbols := merge st.symbols bigram.left bigram.right, workQueue := queue } := by
  have hperm := popTop_perm hpop
  have hbigram := h.queued bigram (hperm.mem_iff.2 List.mem_cons_self)
  -- both symbols are left, so they are neighbours
  obtain ⟨pre, post, hchain⟩ := hbigram.neighbours (h.chained.textAt_ne_nil.1 hleft)
    (h.chained.textAt_ne_nil.1 hright)
  obtain rfl : chain = pre ++ bigram.left :: bigram.right :: post := by simp [← hchain]
  obtain ⟨s, hs, hstart⟩ := h.chained.append_start
  have htext := (List.prefix_of_prefix_length_le hstart (hbigram.text s hs)
    (Nat.le_of_eq (hsound.outdated _ _ _ hnew))).eq_of_length (hsound.outdated _ _ _ hnew)
  exact ⟨pre, post, rfl, htext, h.chained.merge, fun b hb =>
    (h.queued b (hperm.mem_iff.2 (List.mem_cons_of_mem _ hb))).merge h.chained, h.known⟩

/-- The loop ends, and on its way neighbours are joined to known texts. -/
theorem run_spec (hsound : Sound rule Known word) {fuel : Nat} (h : Invariant Known word chain st)
    (hfuel : st.workQueue.length + 2 * chain.length < fuel) :
    ∃ st' chain', run rule word fuel st = .ok st' ∧ Invariant Known word chain' st' ∧
      firstOf chain' = firstOf chain ∧
      ReflTransGen (Join Known) (chain.map (textAt word st.symbols))
        (chain'.map (textAt word st'.symbols)) := by
  induction fuel generalizing chain st with
  | zero => omega
  | succ fuel ih =>
    rw [run]
    rcases hpop : popTop rule.less st.workQueue with _ | ⟨bigram, queue⟩
    · exact ⟨st, chain, rfl, h, rfl, .refl⟩
    have hperm := popTop_perm hpop
    have hlen : st.workQueue.length = queue.length + 1 := by simpa using hperm.length_eq
    have h' : Invariant Known word chain { st with workQueue := queue } :=
      ⟨h.chained, fun b hb => h.queued b (hperm.mem_iff.2 (List.mem_cons_of_mem _ hb)), h.known⟩
    dsimp only
    split_ifs with hold
    · exact ih h' (by dsimp only; omega)
    simp only [not_or] at hold
    obtain ⟨hleft, hright, hnew⟩ := hold
    obtain ⟨pre, post, rfl, htext, hmerged⟩ := h.popped hsound hpop hleft hright hnew
    have hknown := (h.queued bigram (hperm.mem_iff.2 List.mem_cons_self)).known
    obtain ⟨st', st'', hst', hst'', hsymbols, h'', hlen'⟩ := addNeighbours_spec hsound hmerged
    simp only [hst', hst'', Except.ok_bind_eq]
    dsimp only at hsymbols hlen'
    obtain ⟨st₃, chain₃, hrun, h₃, hfirst, hjoins⟩ := ih h'' (by
      simp only [List.length_append, List.length_cons] at hfuel ⊢
      omega)
    refine ⟨st₃, chain₃, hrun, h₃, hfirst.trans (firstOf_append_cons _ _ _),
      ReflTransGen.head ?_ hjoins⟩
    rw [hsymbols, h.chained.map_textAt_merge, List.map_append, List.map_cons, List.map_cons]
    exact .intro _ _ _ _ (htext ▸ hknown)

theorem infix_range (h : i + 1 < n) : [i, i + 1] <:+: List.range n := by
  refine ⟨List.range i, List.range' (i + 2) (n - (i + 2)), ?_⟩
  rw [List.range_eq_range', List.range_eq_range', show [i, i + 1] = List.range' i 2 from rfl]
  have hfst := List.range'_append_1 (s := 0) (m := i) (n := 2)
  have hsnd := List.range'_append_1 (s := 0) (m := i + 2) (n := n - (i + 2))
  rw [Nat.zero_add] at hfst hsnd
  rw [hfst, hsnd, Nat.add_sub_cancel' h]

/-- The pairs of neighbours, from the first symbol on. -/
theorem seed_spec (hsound : Sound rule Known word) (hchain : chain = List.range symbols.length)
    (h : Chained word symbols chain) : ∀ {is : List Nat} {st : TokenizerSession κ},
    (∀ i ∈ is, i + 1 < symbols.length) → Invariant Known word chain st →
    st.symbols = symbols → ∃ st', is.foldlM (fun st (i : Nat) =>
        addBigram rule word i (i + 1 : Nat) st) st = .ok st' ∧ st'.symbols = symbols ∧
      Invariant Known word chain st' ∧ st'.workQueue.length ≤ st.workQueue.length + is.length
  | [], st, _, hinv, hsymbols => ⟨st, rfl, hsymbols, hinv, Nat.le_refl _⟩
  | i :: is, st, his, hinv, hsymbols => by
    obtain ⟨hi, his⟩ := List.forall_mem_cons.1 his
    have hadj : [i, i + 1] <:+: chain := hchain ▸ infix_range hi
    obtain ⟨st', hst', hsymbols', hinv', hlen⟩ := addBigram_spec hsound hinv hadj
    obtain ⟨st'', hst'', hsymbols'', hinv'', hlen'⟩ :=
      seed_spec hsound hchain h his hinv' (hsymbols'.trans hsymbols)
    refine ⟨st'', ?_, hsymbols'', hinv'', ?_⟩
    · rw [List.foldlM_cons, hst', Except.ok_bind_eq, hst'']
    · rw [List.length_cons]
      omega

theorem tokenizeSymbols_spec (hsound : Sound rule Known word)
    (h : Chained word symbols (List.range symbols.length)) :
    ∃ st chain, tokenizeSymbols rule word symbols = .ok st ∧ Invariant Known word chain st ∧
      firstOf chain = firstOf (List.range symbols.length) ∧
      ReflTransGen (Join Known) (symbols.map (symbolText word))
        (chain.map (textAt word st.symbols)) := by
  have hinv : Invariant Known word (List.range symbols.length)
      ({ symbols := symbols } : TokenizerSession κ) :=
    ⟨h, List.forall_mem_nil _, List.forall_mem_nil _⟩
  obtain ⟨st, hst, hsymbols, hinv, hlen⟩ := seed_spec hsound rfl h
    (fun i (hi : i ∈ List.range (symbols.length - 1)) => by rw [List.mem_range] at hi; omega) hinv
    rfl
  obtain ⟨st', chain, hrun, hinv', hfirst, hjoins⟩ := run_spec hsound hinv
    (show st.workQueue.length + 2 * (List.range symbols.length).length < 3 * symbols.length + 1 by
      simp only [List.length_nil, List.length_range] at hlen ⊢
      omega)
  refine ⟨st', chain, ?_, hinv', hfirst, ?_⟩
  · rw [tokenizeSymbols, hst, Except.ok_bind_eq, hrun]
  · convert hjoins using 1
    rw [hsymbols]
    refine List.ext_getElem (by simp) fun i hi hi' => ?_
    simp only [List.length_map] at hi
    simp [textAt, hi]

end Queue

/-! ## The characters of a word -/

section Split

variable {word rest piece : Text} {pieces : List Text} {index offset : Nat}

theorem unicodeLenUtf8_eq (c : UInt8) : unicodeLenUtf8 c = if c.toNat < 0xC0 then 1
    else if c.toNat < 0xE0 then 2 else if c.toNat < 0xF0 then 3 else 4 := by
  have h : ∀ n < 256, unicodeLenUtf8 (UInt8.ofNat n) = if n < 0xC0 then 1
      else if n < 0xE0 then 2 else if n < 0xF0 then 3 else 4 := by
    decide +kernel
  simpa using h c.toNat c.toNat_lt

theorem splitSymbols_eq_nil : splitSymbols index offset rest = [] ↔ rest = [] := by
  rcases rest with _ | ⟨c, rest⟩
  · simp [splitSymbols]
  · rw [splitSymbols]
    simp

/-- The characters are linked, and take up what there is of the word. -/
theorem linkedFrom_splitSymbols (rest : Text) :
    ∀ (pre : List LlmSymbol) {index : Nat} (offset : Nat), pre.length = index →
      LinkedFrom (pre ++ splitSymbols index offset rest) (offset + rest.length) (index - 1) offset
        (List.range' index (splitSymbols index offset rest).length) := by
  induction hlen : rest.length using Nat.strong_induction_on generalizing rest with
  | h len ih =>
    intro pre index offset hpre
    rcases rest with _ | ⟨c, rest⟩
    · rw [splitSymbols, ← hlen]
      rfl
    have hpos : 0 < unicodeLenUtf8 c := by
      rw [unicodeLenUtf8_eq]
      split_ifs <;> omega
    set n := min (unicodeLenUtf8 c) (rest.length + 1) with hn
    have hdrop : (rest.drop (n - 1)).length = rest.length - (n - 1) := List.length_drop
    have hih := ih (rest.drop (n - 1)).length (by rw [← hlen, hdrop, List.length_cons]; omega)
      (rest.drop (n - 1)) rfl (pre ++ [⟨index - 1,
        if rest.drop (n - 1) = [] then -1 else index + 1, offset, n⟩]) (offset + n)
      (List.length_append.trans (congrArg (· + 1) hpre))
    rw [splitSymbols, ← hn, List.length_cons, List.range'_succ]
    refine ⟨n, by omega, ?_, ?_⟩
    · rw [List.getElem?_append_right (Nat.le_of_eq hpre), hpre, Nat.sub_self,
        List.getElem?_cons_zero]
      congr 2
      split_ifs with hnil
      · rw [hnil, splitSymbols]
        rfl
      · obtain ⟨k, hk⟩ := Nat.exists_eq_succ_of_ne_zero
          (fun h => hnil (splitSymbols_eq_nil.1 (List.length_eq_zero_iff.1 h)) :
            (splitSymbols (index + 1) (offset + n) (rest.drop (n - 1))).length ≠ 0)
        rw [hk, List.range'_succ]
        rfl
    · rw [List.append_assoc, List.singleton_append] at hih
      convert hih using 1
      · rw [← hlen, hdrop, List.length_cons]
        omega
      · omega

theorem chained_splitSymbols (word : Text) :
    Chained word (splitSymbols 0 0 word) (List.range (splitSymbols 0 0 word).length) := by
  refine ⟨?_, List.pairwise_lt_range, fun i hi s hs => ?_⟩
  · have h := linkedFrom_splitSymbols word [] 0 List.length_nil
    rw [List.nil_append, Nat.zero_add, ← List.range_eq_range'] at h
    exact h
  · rw [List.mem_range] at hi
    exact absurd (List.getElem?_eq_some_iff.1 hs).1 hi

/-- A character, by the length that its first byte says. -/
def IsUnit : Text → Prop
  | [] => False
  | c :: rest => unicodeLenUtf8 c = rest.length + 1

theorem isUnit_of_decodes {n : Nat} : ∀ {piece : Text}, Decodes piece n → IsUnit piece
  | [c], h => by
    rw [IsUnit, unicodeLenUtf8_eq, if_pos (by rw [Decodes] at h; omega)]
    rfl
  | [c, c1], h => by
    obtain ⟨hlo, hhi, -⟩ := h
    rw [IsUnit, unicodeLenUtf8_eq, if_neg (by omega), if_pos (by omega)]
    rfl
  | [c, c1, c2], h => by
    obtain ⟨hlo, hhi, -⟩ := h
    rw [IsUnit, unicodeLenUtf8_eq, if_neg (by omega), if_neg (by omega), if_pos (by omega)]
    rfl
  | [c, c1, c2, c3], h => by
    obtain ⟨hlo, -⟩ := h
    rw [IsUnit, unicodeLenUtf8_eq, if_neg (by omega), if_neg (by omega), if_neg (by omega)]
    rfl

theorem isUnit_utf8Of {cpt : UInt32} (h : Encodable cpt) : IsUnit (utf8Of cpt) :=
  isUnit_of_decodes (decodes_of_toUtf8 (toUtf8_of_encodable h)).1

/-- The symbols are the characters that a word is made of. -/
theorem map_splitSymbols : ∀ (pieces : List Text) {index offset : Nat},
    (∀ piece ∈ pieces, IsUnit piece) → word.drop offset = pieces.flatten →
    (splitSymbols index offset pieces.flatten).map (symbolText word) = pieces
  | [], _, _, _, _ => by
    rw [List.flatten_nil, splitSymbols]
    rfl
  | [] :: _, _, _, h, _ => (h [] List.mem_cons_self).elim
  | (c :: piece) :: pieces, index, offset, h, hword => by
    obtain ⟨hunit, h⟩ := List.forall_mem_cons.1 h
    rw [List.flatten_cons] at hword ⊢
    have hn : min (unicodeLenUtf8 c) ((piece ++ pieces.flatten).length + 1) = piece.length + 1 := by
      rw [hunit, List.length_append]
      omega
    have hdrop : word.drop (offset + (piece.length + 1)) = pieces.flatten := by
      rw [← List.drop_drop, hword, List.cons_append, List.drop_succ_cons, List.drop_left]
    rw [List.cons_append, splitSymbols, hn]
    rw [Nat.add_sub_cancel, List.drop_left, List.map_cons, map_splitSymbols pieces h hdrop,
      symbolText]
    dsimp only
    rw [hword, List.cons_append, List.take_succ_cons, List.take_left]

end Split

end TokenizerSession

end LamaServer

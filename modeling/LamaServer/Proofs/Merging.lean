import LamaServer.Lib.BestPair
import LamaServer.Proofs.Spm
import LamaServer.Proofs.Bpe
import Mathlib.Algebra.Order.Ring.Unbundled.Rat
import Mathlib.Data.Prod.Lex
import Mathlib.Order.OrderDual

/-!
# The queue finds the best pair

A symbol starts where it always has, so two neighbours that have been neighbours before have the
text and the key that they had then if their length together has not changed. So a bigram that is
not outdated has the key of its pair, each pair of neighbours with a key has its bigram in the
queue, and what is popped and joined is the best pair of the symbols that are left.
-/

namespace LamaServer

open Relation Segments

namespace TokenizerSession

variable {κ ρ : Type} [LinearOrder ρ]

/-- The keys of a rule as ranks, the least of which is the best, and the order of the queue by rank
and place. -/
structure Ranks (rule : BigramRule κ) (rank : κ → ρ) (key : Text → Text → WithTop ρ)
    (word : Text) : Prop where
  key_eq : ∀ l r, l ++ r <:+: word → ∃ k, rule.key l r = .ok k ∧
    key l r = k.elim ⊤ fun k => (rank k : WithTop ρ)
  less_iff : ∀ b c, rule.less b c ↔ toLex (rank c.key, c.left) < toLex (rank b.key, b.left)
  outdated : ∀ l r bigram, ¬ rule.outdated l r bigram → (l ++ r).length = bigram.text.length
  fresh : ∀ l r bigram, l ++ r = bigram.text → ¬ rule.outdated l r bigram

/-- A bigram has the key of the texts that it was made of, and each pair of `pairs` is in the
queue if it has a key. -/
structure Ranked (rule : BigramRule κ) (word : Text) (symbols : List LlmSymbol)
    (pairs : Nat → Nat → Prop) (queue : List (Bigram κ)) : Prop where
  keyed : ∀ b ∈ queue, ∀ s t, symbols[b.left]? = some s → symbols[b.right]? = some t →
    rule.key (b.text.take (t.text - s.text)) (b.text.drop (t.text - s.text)) = .ok (some b.key)
  covered : ∀ l r k, pairs l r →
    rule.key (textAt word symbols l) (textAt word symbols r) = .ok (some k) →
    ⟨l, r, k, textAt word symbols l ++ textAt word symbols r⟩ ∈ queue

section Queue

variable {rule : BigramRule κ} {rank : κ → ρ} {key : Text → Text → WithTop ρ} {word : Text}
  {symbols : List LlmSymbol} {chain pre post : List Nat} {pairs pairs' : Nat → Nat → Prop}
  {queue rest : List (Bigram κ)} {st st' : TokenizerSession κ} {l r a b : Nat} {bigram : Bigram κ}

theorem Ranks.sound (h : Ranks rule rank key word) : Sound rule (fun _ => True) word where
  key_ok l r hword := by
    obtain ⟨k, hk, -⟩ := h.key_eq l r hword
    exact ⟨k, hk⟩
  known _ _ _ _ := trivial
  outdated := h.outdated

/-- What is popped is the first one in the order. -/
theorem Ranks.popTop_le (h : Ranks rule rank key word) {top : Bigram κ} :
    ∀ {queue rest : List (Bigram κ)}, popTop rule.less queue = some (top, rest) →
      ∀ b ∈ queue, toLex (rank top.key, top.left) ≤ toLex (rank b.key, b.left)
  | [], _, hpop => by cases hpop
  | c :: queue, rest, hpop => by
    rw [popTop] at hpop
    rcases hqueue : popTop rule.less queue with _ | ⟨top', rest'⟩ <;> rw [hqueue] at hpop
    · obtain rfl := popTop_eq_none.1 hqueue
      cases hpop
      exact fun b hb => by rw [List.mem_singleton.1 hb]
    · have hle := h.popTop_le hqueue
      simp only [Option.some.injEq, h.less_iff] at hpop
      split_ifs at hpop with hless
      · cases hpop
        exact List.forall_mem_cons.2 ⟨hless.le, hle⟩
      · cases hpop
        exact List.forall_mem_cons.2 ⟨le_refl _, fun b hb => (not_lt.1 hless).trans (hle b hb)⟩

theorem Ranked.mono (h : Ranked rule word symbols pairs queue)
    (hpairs : ∀ l r, pairs' l r → pairs l r) : Ranked rule word symbols pairs' queue :=
  ⟨h.keyed, fun l r k hlr => h.covered l r k (hpairs l r hlr)⟩

theorem LinkedFrom.textAt_length {start : Nat} {prev : Int} {s t : LlmSymbol}
    (h : LinkedFrom symbols word.length prev start (pre ++ l :: r :: post))
    (hs : symbols[l]? = some s) (ht : symbols[r]? = some t) :
    (textAt word symbols l).length = t.text - s.text := by
  obtain ⟨p, start, n, m, hl, hr, -, -, hle⟩ := h.pair
  cases hs.symm.trans hl
  cases ht.symm.trans hr
  rw [textAt, hl, Option.elim_some, symbolText, List.length_take, List.length_drop]
  dsimp only
  omega

theorem addBigram_symbols {left right : Int} (h : addBigram rule word left right st = .ok st') :
    st'.symbols = st.symbols := by
  rw [addBigram] at h
  split_ifs at h with hnone
  · cases h
    rfl
  dsimp only at h
  rcases hkey : rule.key (textAt word st.symbols left.toNat)
    (textAt word st.symbols right.toNat) with e | (_ | k) <;> rw [hkey] at h <;> cases h <;> rfl

/-- The pair is covered when it has been added. -/
theorem Ranked.add (h : Ranked rule word st.symbols pairs st.workQueue)
    (hchained : Chained word st.symbols (pre ++ l :: r :: post))
    (hadd : addBigram rule word l r st = .ok st') :
    Ranked rule word st'.symbols (fun a b => pairs a b ∨ a = l ∧ b = r) st'.workQueue := by
  have hne : ¬ ((l : Int) = -1 ∨ (r : Int) = -1) := by omega
  rw [addBigram, if_neg hne, Int.toNat_natCast, Int.toNat_natCast] at hadd
  dsimp only at hadd
  rcases hkey : rule.key (textAt word st.symbols l) (textAt word st.symbols r) with e | k <;>
    rw [hkey] at hadd
  · cases hadd
  rcases k with _ | k
  · cases hadd
    refine ⟨h.keyed, fun a b k hab hk => ?_⟩
    rcases hab with hab | ⟨rfl, rfl⟩
    · exact h.covered a b k hab hk
    · cases hkey.symm.trans hk
  · cases hadd
    refine ⟨List.forall_mem_cons.2 ⟨fun s t hs ht => ?_, h.keyed⟩, fun a b k' hab hk => ?_⟩
    · dsimp only at hs ht ⊢
      rw [← hchained.linked.textAt_length hs ht, List.take_left, List.drop_left, hkey]
    · rcases hab with hab | ⟨rfl, rfl⟩
      · exact List.mem_cons_of_mem _ (h.covered a b k' hab hk)
      · cases hkey.symm.trans hk
        exact List.mem_cons_self

/-! ## Pairs after a merge -/

/-- The neighbours in a chain, by whether `l` is one of them. -/
theorem infix_pair_cases (hnodup : (pre ++ l :: post).Nodup) (h : [a, b] <:+: pre ++ l :: post) :
    (a ≠ l ∧ b ≠ l) ∨ (b = l ∧ pre.getLast? = some a) ∨ (a = l ∧ post.head? = some b) := by
  induction pre with
  | nil =>
    obtain ⟨hl, -⟩ := List.nodup_cons.1 hnodup
    rcases List.infix_cons_iff.1 h with hab | hab
    · obtain ⟨rfl, hb⟩ := List.cons_prefix_cons.1 hab
      obtain ⟨post, rfl⟩ := hb
      exact .inr (.inr ⟨rfl, rfl⟩)
    · have hsub := hab.subset
      simp only [List.cons_subset] at hsub
      exact .inl ⟨fun h => hl (h ▸ hsub.1), fun h => hl (h ▸ hsub.2.1)⟩
  | cons c pre ih =>
    obtain ⟨hc, hnodup⟩ := List.nodup_cons.1 hnodup
    rcases List.infix_cons_iff.1 h with hab | hab
    · obtain ⟨rfl, hb⟩ := List.cons_prefix_cons.1 hab
      rcases pre with _ | ⟨d, pre⟩
      · obtain ⟨rfl, -⟩ := List.cons_prefix_cons.1 hb
        exact .inr (.inl ⟨rfl, rfl⟩)
      · obtain ⟨rfl, -⟩ := List.cons_prefix_cons.1 hb
        have hbl : b ≠ l := fun h => by simp [h] at hnodup
        exact .inl ⟨fun h => by simp [h] at hc, hbl⟩
    · rcases ih hnodup hab with hne | ⟨rfl, hlast⟩ | hhead
      · exact .inl hne
      · refine .inr (.inl ⟨rfl, ?_⟩)
        rw [List.getLast?_cons, hlast]
        rfl
      · exact .inr (.inr hhead)

/-- Neighbours with `l` between the two lists that they may be in. -/
theorem infix_of_ne (ha : a ≠ l) (hb : b ≠ l) (h : [a, b] <:+: pre ++ l :: post) :
    [a, b] <:+: pre ∨ [a, b] <:+: post := by
  induction pre with
  | nil =>
    rcases List.infix_cons_iff.1 h with hab | hab
    · exact absurd (List.cons_prefix_cons.1 hab).1 ha
    · exact .inr hab
  | cons c pre ih =>
    rcases List.infix_cons_iff.1 h with hab | hab
    · obtain ⟨rfl, hb'⟩ := List.cons_prefix_cons.1 hab
      rcases pre with _ | ⟨d, pre⟩
      · exact absurd (List.cons_prefix_cons.1 hb').1 hb
      · obtain ⟨rfl, -⟩ := List.cons_prefix_cons.1 hb'
        exact .inl ⟨[], pre, rfl⟩
    · exact (ih hab).imp_left List.infix_cons

theorem infix_pair_map {f : Nat → Text} {t u : Text} (h : [t, u] <:+: chain.map f) :
    ∃ a b, [a, b] <:+: chain ∧ f a = t ∧ f b = u := by
  obtain ⟨ab, hab, htu⟩ := List.infix_map_iff.1 h
  obtain ⟨a, ab, rfl, rfl, hu⟩ := List.map_eq_cons_iff.1 htu.symm
  obtain ⟨b, ab, rfl, rfl, hnil⟩ := List.map_eq_cons_iff.1 hu
  obtain rfl := List.map_eq_nil_iff.1 hnil
  exact ⟨a, b, hab, rfl, rfl⟩

/-! ## The run -/

/-- Of the pairs that a merge leaves as they were, none is lost. -/
theorem Ranked.merge (hchained : Chained word symbols (pre ++ l :: r :: post))
    (h : Ranked rule word symbols (fun a b => [a, b] <:+: pre ++ l :: r :: post) queue)
    (hrest : ∀ b ∈ rest, b ∈ queue) (hkept : ∀ b ∈ queue, b.left ≠ l → b ∈ rest) :
    Ranked rule word (TokenizerSession.merge symbols l r)
      (fun a b => [a, b] <:+: pre ++ l :: post ∧ a ≠ l ∧ b ≠ l) rest := by
  obtain ⟨p, t, n, m, hl, hr, -⟩ := hchained.linked.pair
  have hnodup := hchained.nodup
  simp only [List.nodup_append, List.nodup_cons, List.mem_cons, not_or] at hnodup
  obtain ⟨-, ⟨⟨hlr, hlpost⟩, hrpost, -⟩, hpre⟩ := hnodup
  have hget {i : Nat} {s : LlmSymbol}
      (hs : (TokenizerSession.merge symbols l r)[i]? = some s) :
      ∃ s', symbols[i]? = some s' ∧ s'.text = s.text := by
    rw [getElem?_merge hl hr hlr, Option.map_eq_some_iff] at hs
    obtain ⟨s', hs', rfl⟩ := hs
    exact ⟨s', hs', rfl⟩
  refine ⟨fun b hb s t hs ht => ?_, fun a b k ⟨hab, ha, hb⟩ hk => ?_⟩
  · obtain ⟨s', hs', hs⟩ := hget hs
    obtain ⟨t', ht', ht⟩ := hget ht
    rw [← hs, ← ht]
    exact h.keyed b (hrest b hb) s' t' hs' ht'
  · have hpair := infix_of_ne ha hb hab
    have hner : a ≠ r ∧ b ≠ r := by
      rcases hpair with hpair | hpair
      · have hsub := hpair.subset
        simp only [List.cons_subset] at hsub
        exact ⟨hpre a hsub.1 r (.inr (.inl rfl)), hpre b hsub.2.1 r (.inr (.inl rfl))⟩
      · have hsub := hpair.subset
        simp only [List.cons_subset] at hsub
        exact ⟨fun h => hrpost (h ▸ hsub.1), fun h => hrpost (h ▸ hsub.2.1)⟩
    have hold : [a, b] <:+: pre ++ l :: r :: post := by
      rcases hpair with hpair | hpair
      · exact hpair.trans (List.prefix_append _ _).isInfix
      · exact hpair.trans ⟨pre ++ [l, r], [], by simp⟩
    have htext (i : Nat) (hil : i ≠ l) (hir : i ≠ r) :
        textAt word (TokenizerSession.merge symbols l r) i = textAt word symbols i := by
      rw [textAt_merge word i hlr hchained.linked, if_neg hil, if_neg hir]
    rw [htext a ha hner.1, htext b hb hner.2] at hk ⊢
    exact hkept _ (h.covered a b k hold hk) ha

/-- The pairs of a symbol with its neighbours are the ones that were left out. -/
theorem Ranked.addBoth (hchained : Chained word st.symbols (pre ++ l :: post))
    (h : Ranked rule word st.symbols
      (fun a b => [a, b] <:+: pre ++ l :: post ∧ a ≠ l ∧ b ≠ l) st.workQueue)
    {st'' : TokenizerSession κ}
    (hprev : addBigram rule word ((st.symbols[l]?).elim (-1) (·.prev)) l st = .ok st')
    (hnext : addBigram rule word l ((st'.symbols[l]?).elim (-1) (·.next)) st' = .ok st'') :
    Ranked rule word st''.symbols (fun a b => [a, b] <:+: pre ++ l :: post) st''.workQueue := by
  obtain ⟨s, hs, hsprev, hsnext, -⟩ := hchained.linked.at
  have hsymbols := addBigram_symbols hprev
  have hchained' : Chained word st'.symbols (pre ++ l :: post) := hsymbols ▸ hchained
  rw [hsymbols, hs, Option.elim_some, hsnext] at hnext
  rw [hs, Option.elim_some, hsprev] at hprev
  have hleft : Ranked rule word st'.symbols (fun a b => [a, b] <:+: pre ++ l :: post ∧
      (a ≠ l ∧ b ≠ l ∨ b = l ∧ pre.getLast? = some a)) st'.workQueue := by
    rcases List.eq_nil_or_concat pre with rfl | ⟨pre, p, rfl⟩
    · cases (addBigram_none (.inl rfl)).symm.trans hprev
      exact h.mono fun a b ⟨hab, hcases⟩ => ⟨hab, hcases.resolve_right (by simp)⟩
    · simp only [List.concat_eq_append, List.append_assoc, List.singleton_append,
        List.getLast?_append, List.getLast?_singleton, Option.some_or, Option.elim_some]
        at hprev hchained h ⊢
      refine (h.add hchained hprev).mono fun a b ⟨hab, hcases⟩ => ?_
      exact hcases.imp (fun hne => ⟨hab, hne⟩) fun ⟨hb, ha⟩ => ⟨(Option.some.inj ha).symm, hb⟩
  rcases post with _ | ⟨q, post⟩
  · cases (addBigram_none (.inr rfl)).symm.trans hnext
    refine hleft.mono fun a b hab => ⟨hab, ?_⟩
    rcases infix_pair_cases hchained.nodup hab with hne | hlast | ⟨-, hhead⟩
    · exact .inl hne
    · exact .inr hlast
    · cases hhead
  · refine (hleft.add hchained' hnext).mono fun a b hab => ?_
    rcases infix_pair_cases hchained.nodup hab with hne | hlast | ⟨ha, hhead⟩
    · exact .inl ⟨hab, .inl hne⟩
    · exact .inl ⟨hab, .inr hlast⟩
    · exact .inr ⟨ha, (Option.some.inj hhead).symm⟩

/-- The rank of a pair of neighbours is that of its bigram. -/
theorem Ranked.key_cases (hr : Ranks rule rank key word) (hchained : Chained word symbols chain)
    (h : Ranked rule word symbols (fun a b => [a, b] <:+: chain) queue) (hab : [a, b] <:+: chain) :
    key (textAt word symbols a) (textAt word symbols b) = ⊤ ∨ ∃ c ∈ queue, c.left = a ∧
      key (textAt word symbols a) (textAt word symbols b) = rank c.key := by
  obtain ⟨pre, post, hchain⟩ := hab
  obtain rfl : chain = pre ++ a :: b :: post := by simp [← hchain]
  obtain ⟨s, -, hstart⟩ := hchained.append_start
  obtain ⟨k, hk, hkey⟩ := hr.key_eq _ _ (hstart.isInfix.trans (List.drop_suffix _ _).isInfix)
  rcases k with _ | k
  · exact .inl hkey
  · exact .inr ⟨_, h.covered a b k ⟨pre, post, by simp⟩ hk, rfl, hkey⟩

/-- A pair whose bigram is the first one in the order is the best pair. -/
theorem Ranked.isFirst (hr : Ranks rule rank key word)
    (hchained : Chained word symbols (pre ++ l :: r :: post))
    (h : Ranked rule word symbols (fun a b => [a, b] <:+: pre ++ l :: r :: post) queue) {x : ρ}
    (hkey : key (textAt word symbols l) (textAt word symbols r) = x)
    (hmin : ∀ b ∈ queue, toLex (x, l) ≤ toLex (rank b.key, b.left)) :
    BestPair.IsFirst key (pre.map (textAt word symbols)) (textAt word symbols l)
      (textAt word symbols r) (post.map (textAt word symbols)) := by
  have hsorted := hchained.sorted
  refine ⟨fun t u htu => ?_, fun t u htu => ?_⟩
  · rw [show pre.map (textAt word symbols) ++ [textAt word symbols l] =
      (pre ++ [l]).map (textAt word symbols) by simp] at htu
    obtain ⟨a, b, hab, rfl, rfl⟩ := infix_pair_map htu
    -- the pair ends at `l` at the latest, so it starts before `l`
    have hlt : a < l := by
      rw [show pre ++ l :: r :: post = (pre ++ [l]) ++ r :: post by simp,
        List.pairwise_append] at hsorted
      have hab' := (List.pairwise_pair.1 (hsorted.1.sublist hab.sublist))
      have hb : b ∈ pre ++ [l] := hab.subset (by simp)
      rcases List.mem_append.1 hb with hb | hb
      · exact hab'.trans ((List.pairwise_append.1 hsorted.1).2.2 b hb l (by simp))
      · exact List.mem_singleton.1 hb ▸ hab'
    rw [hkey]
    rcases h.key_cases hr hchained (hab.trans ⟨[], r :: post, by simp⟩) with
      htop | ⟨c, hc, rfl, hc'⟩
    · rw [htop]
      exact WithTop.coe_lt_top x
    · rw [hc', WithTop.coe_lt_coe]
      rcases Prod.Lex.toLex_le_toLex.1 (hmin c hc) with hlt' | ⟨-, hle⟩
      · exact hlt'
      · exact absurd hlt hle.not_gt
  · rw [show textAt word symbols r :: post.map (textAt word symbols) =
      (r :: post).map (textAt word symbols) from rfl] at htu
    obtain ⟨a, b, hab, rfl, rfl⟩ := infix_pair_map htu
    rw [hkey]
    rcases h.key_cases hr hchained (hab.trans ⟨pre ++ [l], [], by simp⟩) with
      htop | ⟨c, hc, -, hc'⟩
    · rw [htop]
      exact le_top
    · rw [hc', WithTop.coe_le_coe]
      rcases Prod.Lex.toLex_le_toLex.1 (hmin c hc) with hlt' | ⟨heq, -⟩
      · exact hlt'.le
      · exact heq.le

/-- A bigram that is not outdated has the rank that its pair has now. -/
theorem Ranked.rank_eq (hr : Ranks rule rank key word)
    (hchained : Chained word symbols (pre ++ bigram.left :: bigram.right :: post))
    (h : Ranked rule word symbols pairs queue) (hmem : bigram ∈ queue)
    (htext : textAt word symbols bigram.left ++ textAt word symbols bigram.right = bigram.text) :
    key (textAt word symbols bigram.left) (textAt word symbols bigram.right) = rank bigram.key := by
  have hkey : rule.key (textAt word symbols bigram.left) (textAt word symbols bigram.right) =
      .ok (some bigram.key) := by
    obtain ⟨p, t, n, m, hl, hr', -⟩ := hchained.linked.pair
    have hkeyed := h.keyed bigram hmem _ _ hl hr'
    rwa [← htext, ← hchained.linked.textAt_length hl hr', List.take_left, List.drop_left]
      at hkeyed
  obtain ⟨s, -, hstart⟩ := hchained.append_start
  obtain ⟨k, hk, hrank⟩ := hr.key_eq _ _ (hstart.isInfix.trans (List.drop_suffix _ _).isInfix)
  cases hk.symm.trans hkey
  exact hrank

/-- An outdated bigram is not that of a pair of neighbours, so it is not missed. -/
theorem Ranked.discard (hr : Ranks rule rank key word) (hchained : Chained word symbols chain)
    (h : Ranked rule word symbols (fun a b => [a, b] <:+: chain) queue)
    (hperm : queue.Perm (bigram :: rest))
    (hold : textAt word symbols bigram.left = [] ∨ textAt word symbols bigram.right = [] ∨
      rule.outdated (textAt word symbols bigram.left) (textAt word symbols bigram.right) bigram) :
    Ranked rule word symbols (fun a b => [a, b] <:+: chain) rest := by
  refine ⟨fun b hb => h.keyed b (hperm.mem_iff.2 (List.mem_cons_of_mem _ hb)),
    fun a b k hab hk => ?_⟩
  refine (List.mem_cons.1 (hperm.mem_iff.1 (h.covered a b k hab hk))).resolve_left ?_
  rintro rfl
  have hsub := hab.subset
  simp only [List.cons_subset] at hsub
  rcases hold with hnil | hnil | hold
  · exact (hchained.textAt_ne_nil.2 hsub.1) hnil
  · exact (hchained.textAt_ne_nil.2 hsub.2.1) hnil
  · exact hr.fresh _ _ _ rfl hold

/-- The loop joins the best pair in each round, and ends where no pair has a key. -/
theorem run_best {Known : Text → Prop} (hr : Ranks rule rank key word)
    (hsound : Sound rule Known word) {fuel : Nat} (h : Invariant Known word chain st)
    (hranked : Ranked rule word st.symbols (fun a b => [a, b] <:+: chain) st.workQueue)
    (hfuel : st.workQueue.length + 2 * chain.length < fuel) :
    ∃ st' chain', run rule word fuel st = .ok st' ∧ Invariant Known word chain' st' ∧
      firstOf chain' = firstOf chain ∧ ∀ n ≥ chain.length,
        chain'.map (textAt word st'.symbols) =
          BestPair.joinAll key (· ++ ·) n (chain.map (textAt word st.symbols)) := by
  induction fuel generalizing chain st with
  | zero => omega
  | succ fuel ih =>
    rw [run]
    rcases hpop : popTop rule.less st.workQueue with _ | ⟨bigram, queue⟩
    · rw [popTop_eq_none] at hpop
      refine ⟨st, chain, rfl, h, rfl, fun n _ => ?_⟩
      refine (BestPair.joinAll_of_top (BestPair.best_eq_top fun t u htu => ?_)).symm
      obtain ⟨a, b, hab, rfl, rfl⟩ := infix_pair_map htu
      rcases hranked.key_cases hr h.chained hab with htop | ⟨c, hc, -⟩
      · exact htop
      · rw [hpop] at hc
        cases hc
    have hperm := popTop_perm hpop
    have hlen : st.workQueue.length = queue.length + 1 := by simpa using hperm.length_eq
    have hrest : ∀ b ∈ queue, b ∈ st.workQueue := fun b hb =>
      hperm.mem_iff.2 (List.mem_cons_of_mem _ hb)
    have hkept : ∀ b ∈ st.workQueue, b ≠ bigram → b ∈ queue := fun b hb hne =>
      (List.mem_cons.1 (hperm.mem_iff.1 hb)).resolve_left hne
    dsimp only
    split_ifs with hold
    · exact ih ⟨h.chained, fun b hb => h.queued b (hrest b hb), h.known⟩
        (hranked.discard hr h.chained hperm hold) (by dsimp only; omega)
    simp only [not_or] at hold
    obtain ⟨hleft, hright, hnew⟩ := hold
    obtain ⟨pre, post, rfl, htext, hmerged⟩ := h.popped hsound hpop hleft hright hnew
    have hrank := hranked.rank_eq hr h.chained (hperm.mem_iff.2 List.mem_cons_self) htext
    have hfirst := hranked.isFirst hr h.chained hrank (hr.popTop_le hpop)
    obtain ⟨st', st'', hst', hst'', hsymbols, h'', hlen'⟩ := addNeighbours_spec hsound hmerged
    have hranked'' := (hranked.merge h.chained hrest fun b hb hne =>
      hkept b hb fun h => hne (h ▸ rfl)).addBoth hmerged.chained hst' hst''
    simp only [hst', hst'', Except.ok_bind_eq]
    dsimp only at hsymbols hlen'
    obtain ⟨st₃, chain₃, hrun, h₃, hfirst₃, hjoins⟩ := ih h'' hranked'' (by
      simp only [List.length_append, List.length_cons] at hfuel ⊢
      omega)
    refine ⟨st₃, chain₃, hrun, h₃, hfirst₃.trans (firstOf_append_cons _ _ _), fun n hn => ?_⟩
    simp only [List.length_append, List.length_cons] at hn
    obtain ⟨n, rfl⟩ := Nat.exists_eq_succ_of_ne_zero (n := n) (by omega)
    rw [hjoins n (by simp only [List.length_append, List.length_cons]; omega), hsymbols,
      h.chained.map_textAt_merge, List.map_append, List.map_cons, List.map_cons,
      hfirst.joinAll_eq (by rw [hrank]; exact WithTop.coe_ne_top)]

/-- The pairs that have been seeded. -/
theorem seed_ranked (h : Chained word symbols (List.range symbols.length)) : ∀ {is : List Nat}
    (pairs : Nat → Nat → Prop) {st : TokenizerSession κ}, (∀ i ∈ is, i + 1 < symbols.length) →
    st.symbols = symbols → Ranked rule word st.symbols pairs st.workQueue →
    is.foldlM (fun st (i : Nat) => addBigram rule word i (i + 1 : Nat) st) st = .ok st' →
    Ranked rule word st'.symbols (fun a b => pairs a b ∨ a ∈ is ∧ b = a + 1) st'.workQueue
  | [], _, _, _, _, hranked, hst => by
    cases hst
    exact hranked.mono fun a b hab => hab.resolve_right (by simp)
  | i :: is, pairs, st, his, hsymbols, hranked, hst => by
    obtain ⟨hi, his⟩ := List.forall_mem_cons.1 his
    rw [List.foldlM_cons] at hst
    rcases hadd : addBigram rule word i (i + 1 : Nat) st with e | st₁ <;> rw [hadd] at hst
    · cases hst
    obtain ⟨pre, post, hchain⟩ := infix_range hi
    have hchained : Chained word st.symbols (pre ++ i :: (i + 1) :: post) := by
      rw [hsymbols, show pre ++ i :: (i + 1) :: post = pre ++ [i, i + 1] ++ post by simp, hchain]
      exact h
    have hranked' := seed_ranked h _ his ((addBigram_symbols hadd).trans hsymbols)
      (hranked.add hchained hadd) hst
    refine hranked'.mono fun a b hab => ?_
    rcases hab with hab | ⟨ha, hb⟩
    · exact .inl (.inl hab)
    · rcases List.mem_cons.1 ha with rfl | ha
      · exact .inl (.inr ⟨rfl, hb⟩)
      · exact .inr ⟨ha, hb⟩

theorem eq_succ_of_infix_range {n : Nat} (h : [a, b] <:+: List.range n) :
    a ∈ List.range (n - 1) ∧ b = a + 1 := by
  obtain ⟨s, t, hst⟩ := h
  have hlen := congrArg List.length hst
  simp only [List.length_append, List.length_cons, List.length_nil, List.length_range] at hlen
  have ha : (List.range n)[s.length]? = some a := by
    rw [← hst]
    simp
  have hb : (List.range n)[s.length + 1]? = some b := by
    rw [← hst]
    simp
  rw [List.getElem?_range (by omega)] at ha hb
  cases ha
  cases hb
  exact ⟨List.mem_range.2 (by omega), rfl⟩

/-- A pair whose key is not found ends the seeding. -/
theorem seed_error {e : TokenizeError} (symbols : List LlmSymbol)
    (honly : ∀ l r e', rule.key l r = .error e' → e' = e) :
    ∀ {is : List Nat} {st : TokenizerSession κ}, st.symbols = symbols →
      (∃ i ∈ is, rule.key (textAt word symbols i) (textAt word symbols (i + 1)) = .error e) →
      is.foldlM (fun st (i : Nat) => addBigram rule word i (i + 1 : Nat) st) st = .error e
  | [], _, _, ⟨_, hi, _⟩ => by cases hi
  | i :: is, st, hsymbols, ⟨j, hj, hkey⟩ => by
    have hne : ¬ ((i : Int) = -1 ∨ ((i + 1 : Nat) : Int) = -1) := by omega
    rw [List.foldlM_cons]
    rcases hadd : addBigram rule word i (i + 1 : Nat) st with e' | st₁
    · rw [addBigram, if_neg hne, Int.toNat_natCast, Int.toNat_natCast] at hadd
      dsimp only at hadd
      rcases hkey' : rule.key (textAt word st.symbols i) (textAt word st.symbols (i + 1)) with
        e'' | (_ | k) <;> rw [hkey'] at hadd <;> cases hadd
      rw [honly _ _ _ hkey']
      rfl
    · have hsymbols' := (addBigram_symbols hadd).trans hsymbols
      rw [Except.ok_bind_eq]
      refine seed_error symbols honly hsymbols' ⟨j, (List.mem_cons.1 hj).resolve_left ?_, hkey⟩
      rintro rfl
      rw [addBigram, if_neg hne, Int.toNat_natCast, Int.toNat_natCast] at hadd
      dsimp only at hadd
      rw [hsymbols, hkey] at hadd
      cases hadd

theorem map_textAt_range : (List.range symbols.length).map (textAt word symbols) =
    symbols.map (symbolText word) := by
  refine List.ext_getElem (by simp) fun i hi hi' => ?_
  simp only [List.length_map] at hi'
  simp [textAt, hi']

theorem tokenizeSymbols_best {Known : Text → Prop} (hr : Ranks rule rank key word)
    (hsound : Sound rule Known word) (h : Chained word symbols (List.range symbols.length)) :
    ∃ st chain, tokenizeSymbols rule word symbols = .ok st ∧ Invariant Known word chain st ∧
      firstOf chain = firstOf (List.range symbols.length) ∧
      chain.map (textAt word st.symbols) =
        BestPair.joinAll key (· ++ ·) symbols.length (symbols.map (symbolText word)) := by
  have hinv : Invariant Known word (List.range symbols.length)
      ({ symbols := symbols } : TokenizerSession κ) :=
    ⟨h, List.forall_mem_nil _, List.forall_mem_nil _⟩
  have his : ∀ i ∈ List.range (symbols.length - 1), i + 1 < symbols.length := fun i hi => by
    rw [List.mem_range] at hi
    omega
  obtain ⟨st, hst, hsymbols, hinv, hlen⟩ := seed_spec hsound rfl h his hinv rfl
  have hranked := (seed_ranked h (fun _ _ => False) his rfl
    ⟨List.forall_mem_nil _, fun _ _ _ hab => hab.elim⟩ hst).mono
      fun a b hab => .inr (eq_succ_of_infix_range hab)
  obtain ⟨st', chain, hrun, hinv', hfirst, hjoins⟩ := run_best hr hsound hinv hranked
    (show st.workQueue.length + 2 * (List.range symbols.length).length < 3 * symbols.length + 1 by
      simp only [List.length_nil, List.length_range] at hlen ⊢
      omega)
  refine ⟨st', chain, ?_, hinv', hfirst, ?_⟩
  · rw [tokenizeSymbols, hst, Except.ok_bind_eq, hrun]
  · rw [hjoins symbols.length (by simp), hsymbols, map_textAt_range]

/-- The symbols are joined to these texts, in the order of the chain. -/
def MergesTo (rule : BigramRule κ) (word : Text) (symbols : List LlmSymbol) (texts : List Text) :
    Prop :=
  ∃ st chain, tokenizeSymbols rule word symbols = .ok st ∧ Chained word st.symbols chain ∧
    firstOf chain = firstOf (List.range symbols.length) ∧
    chain.map (textAt word st.symbols) = texts

theorem mergesTo_best (hr : Ranks rule rank key word)
    (h : Chained word symbols (List.range symbols.length)) :
    MergesTo rule word symbols
      (BestPair.joinAll key (· ++ ·) symbols.length (symbols.map (symbolText word))) := by
  obtain ⟨st, chain, hst, hinv, hfirst, hmap⟩ := tokenizeSymbols_best hr hr.sound h
  exact ⟨st, chain, hst, hinv.chained, hfirst, hmap⟩

/-- A symbol alone has no pair. -/
theorem mergesTo_short (h : Chained word symbols (List.range symbols.length))
    (hlen : symbols.length ≤ 1) : MergesTo rule word symbols
      (BestPair.joinAll key (· ++ ·) symbols.length (symbols.map (symbolText word))) := by
  refine ⟨{ symbols := symbols }, List.range symbols.length, ?_, h, rfl, ?_⟩
  · rw [tokenizeSymbols, Nat.sub_eq_zero_of_le hlen]
    rfl
  · rw [BestPair.joinAll_of_top (BestPair.best_eq_top fun a b hab => ?_), map_textAt_range]
    have := hab.length_le
    simp only [List.length_cons, List.length_nil, List.length_map] at this
    omega

end Queue

end TokenizerSession

/-! ## The two tokenizers -/

open TokenizerSession

namespace VocabImpl

variable (v : VocabImpl)

/-- A pair of the merge table is the better the further up it stands. -/
def bpeRank (left right : Text) : WithTop Nat :=
  (v.bpeMerges.findIdx? (· = (left, right))).elim ⊤ (↑)

/-- A pair that makes a token is the better the higher the score of the token is. -/
def spmRank (left right : Text) : WithTop ℚᵒᵈ :=
  (v.idToToken.find? (·.text = left ++ right)).elim ⊤ fun data =>
    ((OrderDual.toDual data.score : ℚᵒᵈ) : WithTop ℚᵒᵈ)

section Best

variable {v : VocabImpl} {word : Text} {symbols : List LlmSymbol}

theorem spmRule_ranks : Ranks v.spmRule OrderDual.toDual v.spmRank word where
  key_eq l r _ := by
    simp only [spmRule, spmRank]
    obtain ⟨hnull, hnone⟩ | ⟨id, data, hid, hdata, htext⟩ := v.textToToken_cases (l ++ r)
    · rw [if_pos hnull, List.find?_eq_none.2 fun data hdata => by simpa using hnone data hdata]
      exact ⟨none, rfl, rfl⟩
    · have hlt := (List.getElem?_eq_some_iff.1 hdata).1
      have hfind : v.idToToken.find? (·.text = l ++ r) = some data := by
        obtain ⟨data', hdata'⟩ := Option.isSome_iff_exists.1 (List.find?_isSome.2
          ⟨data, List.mem_of_getElem? hdata, decide_eq_true htext⟩ :
            (v.idToToken.find? (·.text = l ++ r)).isSome)
        have htext' : data'.text = l ++ r := by simpa using List.find?_some hdata'
        rw [hdata', List.inj_on_of_nodup_map v.text_nodup (List.mem_of_find?_eq_some hdata')
          (List.mem_of_getElem? hdata) (htext'.trans htext.symm)]
      have hne : (id : Int) ≠ tokenNull := by
        rw [tokenNull]
        omega
      rw [hid, if_neg hne, if_neg (by rw [Int.toNat_natCast]; omega), getTokenData,
        if_pos (Int.natCast_nonneg id), Int.toNat_natCast, hdata, hfind]
      exact ⟨some data.score, rfl, rfl⟩
  less_iff b c := by
    simp only [spmRule, Prod.Lex.toLex_lt_toLex, Bool.or_eq_true, Bool.and_eq_true,
      decide_eq_true_eq, OrderDual.toDual_lt_toDual, OrderDual.toDual_inj, gt_iff_lt,
      eq_comm (a := c.key)]
  outdated l r bigram h := by
    simpa [spmRule] using h
  fresh l r bigram h := by
    simp [spmRule, ← h]

theorem bpeRule_ranks (hspace : ascii ' ' ∉ word) (hnewline : ascii '\n' ∉ word) :
    Ranks v.bpeRule id v.bpeRank word where
  key_eq l r hlr := by
    have hnotin (c : UInt8) (hc : c ∉ word) : c ∉ l ∧ c ∉ r := by
      rw [← not_or, ← List.mem_append]
      exact fun h => hc (hlr.subset h)
    refine ⟨_, if_neg (by simp [hnotin _ hspace, hnotin _ hnewline]), ?_⟩
    rw [bpeRank]
    rfl
  less_iff b c := by
    simp only [bpeRule, Prod.Lex.toLex_lt_toLex, Bool.or_eq_true, Bool.and_eq_true,
      decide_eq_true_eq, id_eq, gt_iff_lt, eq_comm (a := c.key)]
  outdated l r bigram h := by
    simp only [bpeRule, decide_eq_true_eq, ne_eq, not_not] at h
    rw [h]
  fresh l r bigram h := by
    simp [bpeRule, h]

/-- A text with a space or a newline is not looked up. -/
theorem findBpeRank_error {l r : Text} {e : TokenizeError} : v.findBpeRank l r = .error e ↔
    e = .abort ∧ (ascii ' ' ∈ l ∨ ascii '\n' ∈ l ∨ ascii ' ' ∈ r ∨ ascii '\n' ∈ r) := by
  rw [findBpeRank]
  split_ifs with h
  · simp [h, eq_comm]
  · simp [h]

/-- Every symbol has a neighbour, if there are two. -/
theorem bpe_abort (h : Chained word symbols (List.range symbols.length))
    (hlen : 1 < symbols.length) (hword : ascii ' ' ∈ word ∨ ascii '\n' ∈ word) :
    tokenizeSymbols v.bpeRule word symbols = .error .abort := by
  have hflatten := h.linked.flatten
  rw [List.drop_zero] at hflatten
  obtain ⟨i, hi, hmem⟩ : ∃ i < symbols.length, ascii ' ' ∈ textAt word symbols i ∨
      ascii '\n' ∈ textAt word symbols i := by
    rw [← hflatten] at hword
    simp only [List.mem_flatten, List.mem_map, List.mem_range, exists_exists_and_eq_and] at hword
    rcases hword with ⟨i, hi, hmem⟩ | ⟨i, hi, hmem⟩
    · exact ⟨i, hi, .inl hmem⟩
    · exact ⟨i, hi, .inr hmem⟩
  rw [tokenizeSymbols, seed_error (e := .abort) symbols
    (fun l r e' he => (findBpeRank_error.1 he).1) rfl]
  · rfl
  · by_cases hlast : i + 1 < symbols.length
    · refine ⟨i, List.mem_range.2 (by omega), findBpeRank_error.2 ⟨rfl, ?_⟩⟩
      exact hmem.elim .inl fun h => .inr (.inl h)
    · refine ⟨i - 1, List.mem_range.2 (by omega), findBpeRank_error.2 ⟨rfl, ?_⟩⟩
      rw [Nat.sub_add_cancel (by omega)]
      exact .inr (.inr hmem)

/-- Each tokenizer joins the best pair of neighbours, the first one of the best, until there is none
with a key. BPE does not look up what has a space or a newline in it. -/
theorem tokenizeSymbols_mergesTo (v : VocabImpl) {word : Text} {symbols : List LlmSymbol}
    (h : Chained word symbols (List.range symbols.length)) :
    MergesTo v.spmRule word symbols (BestPair.joinAll v.spmRank (· ++ ·) symbols.length
      (symbols.map (symbolText word))) ∧
    if 1 < symbols.length ∧ (ascii ' ' ∈ word ∨ ascii '\n' ∈ word) then
      tokenizeSymbols v.bpeRule word symbols = .error .abort
    else MergesTo v.bpeRule word symbols (BestPair.joinAll v.bpeRank (· ++ ·) symbols.length
      (symbols.map (symbolText word))) := by
  refine ⟨mergesTo_best spmRule_ranks h, ?_⟩
  split_ifs with hword
  · exact bpe_abort h hword.1 hword.2
  · by_cases hlen : 1 < symbols.length
    · have hfree := not_or.1 fun hmem => hword ⟨hlen, hmem⟩
      exact mergesTo_best (bpeRule_ranks hfree.1 hfree.2) h
    · exact mergesTo_short h (Nat.le_of_not_lt hlen)

/-- A vocabulary that joins two `a`. -/
def doubleVocab : VocabImpl where
  type := .bpe
  idToToken := []
  bpeMerges := [([97], [97])]
  text_ne_nil := List.forall_mem_nil _
  text_nodup := List.nodup_nil

/-- Of `aaa`, the first two are joined. -/
theorem tokenizeSymbols_mergesTo_double : MergesTo doubleVocab.bpeRule [97, 97, 97]
    (splitSymbols 0 0 [97, 97, 97]) [[97, 97], [97]] := by
  have hsplit : splitSymbols 0 0 [97, 97, 97] = [⟨-1, 1, 0, 1⟩, ⟨0, 2, 1, 1⟩, ⟨1, -1, 2, 1⟩] := by
    simp [splitSymbols, unicodeLenUtf8]
  have h := (tokenizeSymbols_mergesTo doubleVocab (chained_splitSymbols [97, 97, 97])).2
  rw [hsplit] at h ⊢
  exact h

/-! ## The sessions -/

end Best

end VocabImpl

end LamaServer

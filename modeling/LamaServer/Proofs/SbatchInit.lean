import LamaServer.Sbatch
import Mathlib.Data.List.Lex
import Mathlib.Data.Prod.Lex

/-!
# The sequences of a batch

The comparisons that `llama_sbatch` sorts by are strict weak orders. So the tokens with one list of
sequences stand together when they are grouped, by position, and each list has one group.
-/

namespace LamaServer

open OrderDual (toDual)

variable {ι : Type} {b : LlamaBatch ι} {f : Nat → List Int}

/-! ## The comparisons -/

/-- Longer lists of sequences go first, then the order of lists. -/
def seqKey (l : List Int) : Natᵒᵈ ×ₗ List Int := toLex (toDual l.length, l)

theorem seqKey_injective : Function.Injective seqKey := fun _ _ h =>
  congrArg (fun k => (ofLex k).2) h

theorem idsLess_some {r : Bool} : ∀ {xs ys : List Int}, xs.length = ys.length →
    idsLess xs ys = some r → (r = true ↔ xs < ys) ∧ xs ≠ ys
  | [], [], _, h => by simp [idsLess] at h
  | x :: xs, y :: ys, hlen, h => by
    rw [idsLess] at h
    split_ifs at h with hxy
    · rw [← Option.some.inj h, List.cons_lt_cons_iff]
      simp [hxy]
    · rw [not_not] at hxy
      subst hxy
      obtain ⟨hlt, hne⟩ := idsLess_some (by simpa using hlen) h
      rw [List.cons_lt_cons_iff]
      simp [hlt, hne]

theorem idsLess_none : ∀ {xs ys : List Int}, xs.length = ys.length → idsLess xs ys = none → xs = ys
  | [], [], _, _ => rfl
  | x :: xs, y :: ys, hlen, h => by
    rw [idsLess] at h
    split_ifs at h with hxy
    rw [not_not.1 hxy, idsLess_none (by simpa using hlen) h]

/-- The list of sequences of a token as the comparison sees it. -/
def LlamaBatch.ids (b : LlamaBatch ι) (i : Nat) : List Int := (b.seqIds.map (· i)).getD []

def LlamaBatch.place (b : LlamaBatch ι) (i : Nat) : Int := (b.pos.map (· i)).getD i

def LlamaBatch.tokenKey (b : LlamaBatch ι) (i : Nat) : Natᵒᵈ ×ₗ List Int ×ₗ Int :=
  toLex (toDual (b.nSeqId i), toLex (b.ids i, b.place i))

theorem LlamaBatch.posLess_iff (i j : Nat) : b.posLess i j ↔ b.place i < b.place j := by
  rw [posLess, place, place]
  cases b.pos <;> simp

theorem LlamaBatch.tokenLess_iff (i j : Nat) : b.tokenLess i j ↔ b.tokenKey i < b.tokenKey j := by
  rw [tokenKey, tokenKey, Prod.Lex.toLex_lt_toLex, tokenLess]
  by_cases hn : b.nSeqId i = b.nSeqId j
  · rw [if_pos hn, hn, Prod.Lex.toLex_lt_toLex]
    rcases hs : b.seqIds with _ | f
    · simp [ids, hs, posLess_iff]
    · simp only [nSeqId, hs] at hn
      rcases hl : idsLess (f i) (f j) with _ | r
      · have heq := idsLess_none hn hl
        simp only [ids, hs, hl, Option.bind_some, Option.map_some, Option.getD_some, posLess_iff]
        simp [heq]
      · obtain ⟨hlt, hne⟩ := idsLess_some hn hl
        simp [ids, hs, hl, hlt, hne]
  · rw [if_neg hn]
    simp [hn, OrderDual.toDual_lt_toDual]

theorem LlamaBatch.tokenLess_strictWeak (b : LlamaBatch ι) : StrictWeak b.tokenLess :=
  .of_key b.tokenKey tokenLess_iff

theorem SbatchSeq.less_iff (s t : SbatchSeq) :
    s.less t ↔ s.seqId.length < t.seqId.length ∨
      s.seqId.length = t.seqId.length ∧ t.length < s.length := by
  rw [less]
  split_ifs with h <;> simp [h]

theorem SbatchSeq.less_strictWeak : StrictWeak SbatchSeq.less :=
  .of_key (fun s : SbatchSeq => toLex (s.seqId.length, toDual s.length)) fun s t => by
    rw [less_iff, Prod.Lex.toLex_lt_toLex, OrderDual.toDual_lt_toDual]

/-! ## Groups -/

/-- The batch indices of a sequence. -/
def SbatchSeq.rows (ids : List Nat) (s : SbatchSeq) : List Nat := (ids.drop s.offset).take s.length

/-- The first `i` ids are grouped by their sequences, in the order of the keys. -/
structure Grouped (f : Nat → List Int) (ids : List Nat) (i : Nat) (seq : List SbatchSeq) :
    Prop where
  flat : seq.flatMap (·.rows ids) = ids.take i
  fits : ∀ s ∈ seq, 0 < s.length ∧ s.offset + s.length ≤ i
  owns : ∀ s ∈ seq, ∀ id ∈ s.rows ids, f id = s.seqId
  last : ∀ s, seq.getLast? = some s → s.offset + s.length = i
  keys : seq.Pairwise fun s t => seqKey s.seqId < seqKey t.seqId

variable {ids : List Nat} {seq : List SbatchSeq} {i bi : Nat} {s : SbatchSeq}

theorem take_succ_of_getElem? {l : List Nat} (h : l[i]? = some bi) :
    l.take (i + 1) = l.take i ++ [bi] := by
  rw [List.take_add_one, h]
  rfl

theorem Grouped.extend (h : Grouped f ids i (seq ++ [s])) (hi : ids[i]? = some bi)
    (hf : f bi = s.seqId) :
    Grouped f ids (i + 1) (seq ++ [{ s with length := s.length + 1 }]) := by
  have hend := h.last s (by simp)
  have hrows : SbatchSeq.rows ids { s with length := s.length + 1 } = s.rows ids ++ [bi] := by
    refine take_succ_of_getElem? ?_
    rw [List.getElem?_drop, hend, hi]
  obtain ⟨hflat, hfits, howns, -, hkeys⟩ := h
  simp only [List.flatMap_append, List.flatMap_singleton, List.mem_append, List.mem_singleton,
    List.pairwise_append] at hflat hfits howns hkeys ⊢
  refine ⟨?_, ?_, ?_, fun t ht => ?_, ?_⟩
  · rw [List.flatMap_append, List.flatMap_singleton, hrows, ← List.append_assoc, hflat,
      take_succ_of_getElem? hi]
  · intro t ht
    rcases List.mem_append.1 ht with ht | ht
    · exact ⟨(hfits t (.inl ht)).1, (hfits t (.inl ht)).2.trans (Nat.le_succ i)⟩
    · rw [List.mem_singleton.1 ht]
      exact ⟨Nat.succ_pos _, by simp only; omega⟩
  · intro t ht id hid
    rcases List.mem_append.1 ht with ht | ht
    · exact howns t (.inl ht) id hid
    · rw [List.mem_singleton.1 ht] at hid ⊢
      rw [hrows] at hid
      rcases List.mem_append.1 hid with hid | hid
      · exact howns s (.inr rfl) id hid
      · rw [List.mem_singleton.1 hid, hf]
  · simp only [List.getLast?_append, List.getLast?_singleton, Option.some_or,
      Option.some.injEq] at ht
    rw [← ht]
    simp only
    omega
  · rw [List.pairwise_append]
    exact ⟨hkeys.1, List.pairwise_singleton _ _, fun t ht t' ht' => by
      rw [List.mem_singleton.1 ht']
      exact hkeys.2.2 t ht s rfl⟩

theorem Grouped.new (h : Grouped f ids i seq) (hi : ids[i]? = some bi)
    (hkey : ∀ s ∈ seq, seqKey s.seqId < seqKey (f bi)) :
    Grouped f ids (i + 1) (seq ++ [{ seqId := f bi, offset := i, length := 1 }]) := by
  have hrows : SbatchSeq.rows ids { seqId := f bi, offset := i, length := 1 } = [bi] := by
    rw [SbatchSeq.rows, take_succ_of_getElem? (i := 0) (by rw [List.getElem?_drop]; exact hi)]
    rfl
  refine ⟨?_, fun t ht => ?_, fun t ht id hid => ?_, fun t ht => ?_, ?_⟩
  · rw [List.flatMap_append, List.flatMap_singleton, hrows, h.flat, take_succ_of_getElem? hi]
  · rcases List.mem_append.1 ht with ht | ht
    · exact ⟨(h.fits t ht).1, (h.fits t ht).2.trans (Nat.le_succ i)⟩
    · rw [List.mem_singleton.1 ht]
      exact ⟨Nat.one_pos, le_rfl⟩
  · rcases List.mem_append.1 ht with ht | ht
    · exact h.owns t ht id hid
    · rw [List.mem_singleton.1 ht] at hid ⊢
      rw [hrows] at hid
      rw [List.mem_singleton.1 hid]
  · simp only [List.getLast?_append, List.getLast?_singleton, Option.some_or,
      Option.some.injEq] at ht
    rw [← ht]
  · rw [List.pairwise_append]
    exact ⟨h.keys, List.pairwise_singleton _ _, fun t ht t' ht' => by
      rw [List.mem_singleton.1 ht']
      exact hkey t ht⟩

/-- A token that is not of the last sequence has a later key than all of them. -/
theorem Grouped.lt_key (h : Grouped f ids i (seq ++ [s])) (hi : ids[i]? = some bi)
    (hsorted : ids.Pairwise fun a a' => seqKey (f a) ≤ seqKey (f a')) (hf : f bi ≠ s.seqId) :
    ∀ t ∈ seq ++ [s], seqKey t.seqId < seqKey (f bi) := by
  have hs : seqKey s.seqId < seqKey (f bi) := by
    obtain ⟨hpos, hle⟩ := h.fits s (by simp)
    obtain ⟨hilt, hget⟩ := List.getElem?_eq_some_iff.1 hi
    have hmem : ids[s.offset] ∈ s.rows ids := by
      rw [SbatchSeq.rows, List.mem_take_iff_getElem]
      exact ⟨0, by simp only [List.length_drop]; omega, by simp⟩
    have hle := List.pairwise_iff_getElem.1 hsorted s.offset i (by omega) hilt (by omega)
    rw [hget, h.owns s (by simp) _ hmem] at hle
    exact lt_of_le_of_ne hle fun heq => hf (seqKey_injective heq).symm
  intro t ht
  rcases List.mem_append.1 ht with ht | ht
  · refine lt_trans ?_ hs
    exact (List.pairwise_append.1 h.keys).2.2 t ht s (by simp)
  · rw [List.mem_singleton.1 ht]
    exact hs

theorem Grouped.initSeq (hsorted : ids.Pairwise fun a a' => seqKey (f a) ≤ seqKey (f a')) :
    ∀ {rest : List Nat} {i : Nat} {seq : List SbatchSeq}, ids.drop i = rest → i ≤ ids.length →
      Grouped f ids i seq → Grouped f ids ids.length (initSeq f rest i seq)
  | [], i, seq, hrest, hle, h => by
    obtain rfl := le_antisymm hle (List.drop_eq_nil_iff.1 hrest)
    exact h
  | bi :: rest, i, seq, hrest, hle, h => by
    have hi : ids[i]? = some bi := by
      rw [← List.head?_drop, hrest]
      rfl
    have hlt : i < ids.length := (List.getElem?_eq_some_iff.1 hi).1
    have hnext : ids.drop (i + 1) = rest := by
      rw [← List.drop_drop, hrest]
      rfl
    rw [LamaServer.initSeq]
    rcases List.eq_nil_or_concat seq with rfl | ⟨seq, s, rfl⟩
    · exact Grouped.initSeq hsorted hnext hlt (h.new hi (by simp))
    · simp only [List.concat_eq_append, List.getLast?_concat, List.dropLast_concat] at h ⊢
      split_ifs with hf
      · exact Grouped.initSeq hsorted hnext hlt (h.extend hi hf)
      · exact Grouped.initSeq hsorted hnext hlt (h.new hi (h.lt_key hi hsorted hf))

/-! ## The sorted batch -/

section Sorted

variable {p : Nat → Int} (hf : b.seqIds = some f) (hp : b.pos = some p)

include hf

/-- The ids are sorted by the lists of sequences. -/
theorem LlamaBatch.sorted_seqKey (S : StdSort) (l : List Nat) :
    (S.sort b.tokenLess l).Pairwise fun a a' => seqKey (f a) ≤ seqKey (f a') := by
  refine (S.sorted l b.tokenLess_strictWeak).imp fun {a a'} h => ?_
  rw [tokenLess_iff, not_lt, tokenKey, tokenKey, Prod.Lex.toLex_le_toLex] at h
  rw [seqKey, seqKey, Prod.Lex.toLex_le_toLex]
  simp only [nSeqId, ids, hf, Option.map_some, Option.getD_some, Prod.Lex.toLex_le_toLex] at h
  rcases h with h | ⟨hlen, h | ⟨hids, -⟩⟩
  · exact .inl h
  · exact .inr ⟨hlen, h.le⟩
  · exact .inr ⟨hlen, hids.le⟩

include hp

/-- Tokens with one list of sequences are sorted by position. -/
theorem LlamaBatch.sorted_pos (S : StdSort) (l : List Nat) :
    (S.sort b.tokenLess l).Pairwise fun a a' => f a = f a' → p a ≤ p a' := by
  refine (S.sorted l b.tokenLess_strictWeak).imp fun {a a'} h heq => ?_
  rw [tokenLess_iff, not_lt, tokenKey, tokenKey, Prod.Lex.toLex_le_toLex] at h
  simp only [nSeqId, ids, place, hf, hp, Option.map_some, Option.getD_some,
    Prod.Lex.toLex_le_toLex, heq, lt_irrefl, true_and, false_or] at h
  exact h

end Sorted

theorem Grouped.start : Grouped f ids 0 [] where
  flat := rfl
  fits := by simp
  owns := by simp
  last := by simp
  keys := .nil

end LamaServer

import Mathlib.Algebra.BigOperators.Group.List.Basic
import Mathlib.Algebra.BigOperators.Ring.List
import Mathlib.Data.List.Basic
import Mathlib.Tactic.Ring
import LamaServer.Samplers

/-!
# Logit biases in any order

A token at its own index gets all of its biases, a token that is searched for only the first.
-/

namespace LamaServer

variable {curP curP' : List LlamaTokenData} {logitBias : List LlamaLogitBias} {token : Token}

/-- The logits of a token together. -/
def totalLogit (curP : List LlamaTokenData) (token : Token) : ℚ :=
  ((curP.filter (·.id = token)).map (·.logit)).sum

/-- What the sampler adds to a token. -/
def addedBias (logitBias : List LlamaLogitBias) (curP : List LlamaTokenData) (token : Token) : ℚ :=
  totalLogit (logitBiasApply logitBias curP) token - totalLogit curP token

/-- The biases that name a token. -/
def biasesOf (logitBias : List LlamaLogitBias) (token : Token) : List ℚ :=
  (logitBias.filter (·.token = token)).map (·.bias)

/-! ## The total of a token -/

@[simp] theorem totalLogit_nil : totalLogit [] token = 0 := rfl

theorem totalLogit_cons (c : LlamaTokenData) : totalLogit (c :: curP) token =
    (if c.id = token then c.logit else 0) + totalLogit curP token := by
  unfold totalLogit
  rw [List.filter_cons]
  split_ifs <;> simp_all

theorem biasesOf_cons (lb : LlamaLogitBias) : biasesOf (lb :: logitBias) token =
    if lb.token = token then lb.bias :: biasesOf logitBias token else biasesOf logitBias token := by
  unfold biasesOf
  rw [List.filter_cons]
  split_ifs <;> simp_all

/-- A bias on one candidate. -/
theorem totalLogit_modify (lb : LlamaLogitBias) : ∀ {i : ℕ} {curP : List LlamaTokenData},
    (curP[i]?).any (·.id = lb.token) → totalLogit (curP.modify i (·.addBias lb)) token =
      totalLogit curP token + if lb.token = token then lb.bias else 0
  | _, [], h => by simp at h
  | 0, c :: curP, h => by
    have hid : c.id = lb.token := by simpa using h
    rw [List.modify_zero_cons, totalLogit_cons, totalLogit_cons]
    simp only [LlamaTokenData.addBias, hid]
    split_ifs <;> ring
  | i + 1, c :: curP, h => by
    rw [List.modify_succ_cons, totalLogit_cons, totalLogit_cons,
      totalLogit_modify lb (by simpa using h), add_assoc]

/-! ## The two loops -/

theorem notShuffled_congr (h : curP'.map (·.id) = curP.map (·.id)) :
    NotShuffled curP' token ↔ NotShuffled curP token := by
  have hid (l : List LlamaTokenData) : (l[token.toNat]?).any (·.id = token) =
      ((l.map (·.id))[token.toNat]?).any (· = token) := by
    rw [List.getElem?_map, Option.any_map]
  rw [NotShuffled, NotShuffled, hid, hid, h]

theorem map_id_modify (lb : LlamaLogitBias) (i : ℕ) :
    (curP.modify i (·.addBias lb)).map (·.id) = curP.map (·.id) := by
  refine List.ext_getElem? fun j => ?_
  rw [List.getElem?_map, List.getElem?_map, List.getElem?_modify]
  split_ifs with h
  · rw [Option.map_eq_map, Option.map_map]
    rfl
  · rw [Option.map_eq_map, Option.map_id']

/-- The first loop gives a token at its own index all of its biases, and leaves the biases of the
others. -/
theorem updateNotShuffled_spec : ∀ (logitBias : List LlamaLogitBias) (curP : List LlamaTokenData),
    (updateNotShuffled curP logitBias).1.map (·.id) = curP.map (·.id) ∧
      (∀ token, totalLogit (updateNotShuffled curP logitBias).1 token = totalLogit curP token +
        if NotShuffled curP token then (biasesOf logitBias token).sum else 0) ∧
      (updateNotShuffled curP logitBias).2 =
        logitBias.filter fun lb => ¬ NotShuffled curP lb.token
  | [], curP => by simp [updateNotShuffled, biasesOf]
  | lb :: logitBias, curP => by
    unfold updateNotShuffled
    by_cases h : NotShuffled curP lb.token
    · have hids := @map_id_modify curP lb lb.token.toNat
      obtain ⟨hmap, htotal, hsearch⟩ :=
        updateNotShuffled_spec logitBias (curP.modify lb.token.toNat (·.addBias lb))
      simp only [notShuffled_congr hids] at htotal hsearch
      rw [if_pos h]
      refine ⟨hmap.trans hids, fun token => ?_, ?_⟩
      · rw [htotal, totalLogit_modify lb h.2, biasesOf_cons]
        by_cases htoken : lb.token = token
        · subst htoken
          rw [if_pos rfl, if_pos h, if_pos h, if_pos rfl, List.sum_cons, add_assoc]
        · rw [if_neg htoken, if_neg htoken, add_zero]
      · rw [hsearch, List.filter_cons_of_neg (by simpa using h)]
    · obtain ⟨hmap, htotal, hsearch⟩ := updateNotShuffled_spec logitBias curP
      rw [if_neg h]
      refine ⟨hmap, fun token => ?_, ?_⟩
      · rw [htotal, biasesOf_cons]
        by_cases htoken : lb.token = token
        · subst htoken
          rw [if_neg h, if_neg h]
        · rw [if_neg htoken]
      · rw [List.filter_cons_of_pos (by simpa using h), ← hsearch]

/-- How many candidates have the token. -/
def occurrences (curP : List LlamaTokenData) (token : Token) : ℕ :=
  (curP.map (·.id)).count token

theorem searchBias_eq (toSearch : List LlamaLogitBias) (c : LlamaTokenData) :
    (searchBias toSearch c).id = c.id ∧
      (searchBias toSearch c).logit = c.logit + (biasesOf toSearch c.id).head?.getD 0 := by
  have hfind : (biasesOf toSearch c.id).head? =
      (toSearch.find? fun lb => c.id = lb.token).map (·.bias) := by
    rw [biasesOf, List.head?_map, List.head?_filter]
    simp only [eq_comm]
  unfold searchBias
  rw [hfind]
  split
  · rename_i lb h
    rw [h]
    exact ⟨rfl, rfl⟩
  · rename_i h
    rw [h]
    exact ⟨rfl, (add_zero _).symm⟩

/-- The search gives each candidate with the token the first of its biases. -/
theorem totalLogit_search (toSearch : List LlamaLogitBias) : ∀ curP : List LlamaTokenData,
    totalLogit (curP.map (searchBias toSearch)) token =
      totalLogit curP token + occurrences curP token * (biasesOf toSearch token).head?.getD 0
  | [] => by simp [occurrences]
  | c :: curP => by
    obtain ⟨hid, hlogit⟩ := searchBias_eq toSearch c
    rw [List.map_cons, totalLogit_cons, totalLogit_cons, totalLogit_search toSearch curP, hid,
      hlogit, occurrences, occurrences, List.map_cons]
    by_cases h : c.id = token
    · subst h
      rw [List.count_cons_self]
      push_cast
      rw [if_pos rfl, if_pos rfl]
      ring
    · rw [if_neg h, if_neg h, List.count_cons_of_ne h]
      ring

/-- The sampler is its two loops, also where one of them is left out. -/
theorem logitBiasApply_eq : logitBiasApply logitBias curP =
    (updateNotShuffled curP logitBias).1.map (searchBias (updateNotShuffled curP logitBias).2) := by
  have hsearch : searchBias [] = id := rfl
  unfold logitBiasApply
  split_ifs with hempty
  · subst hempty
    exact (List.map_id curP).symm
  · dsimp only
    split_ifs with h
    · rw [h, hsearch, List.map_id]
    · rfl

/-- The biases of a token that are left to the search: all of them or none. -/
theorem biasesOf_filter (logitBias : List LlamaLogitBias) (P : Token → Prop) [DecidablePred P] :
    biasesOf (logitBias.filter fun lb => ¬ P lb.token) token =
      if P token then [] else biasesOf logitBias token := by
  induction logitBias with
  | nil => simp [biasesOf]
  | cons lb logitBias ih =>
    rw [List.filter_cons, biasesOf_cons]
    by_cases htoken : lb.token = token
    · subst htoken
      by_cases h : P lb.token
      · simpa [h] using ih
      · simpa [h, biasesOf_cons] using ih
    · by_cases h : P lb.token
      · simpa [h, htoken] using ih
      · simpa [h, htoken, biasesOf_cons] using ih

/-- A token gets the sum of its biases at its own index, and elsewhere the first of them for each
candidate that has it. -/
theorem addedBias_eq : addedBias logitBias curP token =
    if NotShuffled curP token then (biasesOf logitBias token).sum
    else occurrences curP token * (biasesOf logitBias token).head?.getD 0 := by
  obtain ⟨hmap, htotal, hsearch⟩ := updateNotShuffled_spec logitBias curP
  rw [addedBias, logitBiasApply_eq, totalLogit_search, htotal, hsearch, occurrences, hmap,
    biasesOf_filter, ← occurrences]
  split_ifs
  · simp
  · ring

/-! ## Orders of the candidates -/

/-- The sampler adds the same to each token in any order of the candidates. -/
def OrderFree (logitBias : List LlamaLogitBias) (curP : List LlamaTokenData) : Prop :=
  ∀ curP', curP'.Perm curP → ∀ token,
    addedBias logitBias curP' token = addedBias logitBias curP token

/-- For each token that stands at its own index in some orders and not in others, the sum of its
biases is the first of them for each candidate that has it. -/
def SearchSuffices (logitBias : List LlamaLogitBias) (curP : List LlamaTokenData) : Prop :=
  ∀ c ∈ curP, 0 ≤ c.id → c.id.toNat < curP.length → (∃ c' ∈ curP, c'.id ≠ c.id) →
    (biasesOf logitBias c.id).sum =
      occurrences curP c.id * (biasesOf logitBias c.id).head?.getD 0

theorem exists_perm_getElem? {α : Type*} {l : List α} {a : α} {i : ℕ} (ha : a ∈ l)
    (hi : i < l.length) : ∃ l' : List α, l'.Perm l ∧ l'[i]? = some a := by
  obtain ⟨s, t, rfl⟩ := List.append_of_mem ha
  have hle : i ≤ (s ++ t).length := by
    simp only [List.length_append, List.length_cons] at hi ⊢
    omega
  refine ⟨(s ++ t).insertIdx i a, ?_, ?_⟩
  · exact (List.perm_insertIdx a (s ++ t) hle).trans List.perm_middle.symm
  · rw [List.getElem?_insertIdx_self, if_pos hle]

theorem occurrences_perm (h : curP'.Perm curP) :
    occurrences curP' token = occurrences curP token :=
  (h.map _).count_eq token

/-- A token is at its own index in one order and not in another one. -/
theorem SearchSuffices.of_mixed {l l' : List LlamaTokenData} (h : SearchSuffices logitBias curP)
    (hl : l.Perm curP) (hl' : l'.Perm curP) (htoken : NotShuffled l token)
    (htoken' : ¬ NotShuffled l' token) : (biasesOf logitBias token).sum =
      occurrences l' token * (biasesOf logitBias token).head?.getD 0 := by
  obtain ⟨hpos, hown⟩ := htoken
  obtain ⟨c, hc, hid⟩ := (Option.any_eq_true _ _).1 hown
  have hlt : token.toNat < l'.length := by
    rw [hl'.length_eq, ← hl.length_eq]
    exact (List.getElem?_eq_some_iff.1 hc).1
  have hid : c.id = token := by simpa using hid
  subst hid
  rw [occurrences_perm hl']
  refine h c (hl.subset (List.mem_of_getElem? hc)) hpos (hl'.length_eq ▸ hlt)
    ⟨l'[c.id.toNat], hl'.subset (List.getElem_mem hlt), fun hother => htoken' ⟨hpos, ?_⟩⟩
  rw [List.getElem?_eq_getElem hlt]
  simpa using hother

end LamaServer

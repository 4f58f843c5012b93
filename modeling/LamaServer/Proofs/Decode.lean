import LamaServer.Proofs.Outputs

/-!
# What can be read after a decode

Sorting moves the rows and the ids of the outputs by one permutation. After it the `i`-th output of
the batch has the `i`-th row, and `output_ids` is the inverse of that order.
-/

namespace LamaServer

variable {P : OutputParams} {ι α : Type}

/-! ## The output mappings -/

section Mappings

variable {F : Nat → Nat} {n : Nat} {ids : List Int}

theorem mapOutputs_succ (F : Nat → Nat) (n : Nat) (ids : List Int) :
    mapOutputs F (n + 1) ids = (mapOutputs F n ids).set (F n) n := by
  simp [mapOutputs, List.range_succ]

theorem mapOutputs_other {t : Nat} (h : ∀ i < n, F i ≠ t) :
    (mapOutputs F n ids)[t]? = ids[t]? := by
  induction n with
  | zero => rfl
  | succ n ih =>
    rw [mapOutputs_succ, List.getElem?_set_ne (h n (by omega)), ih fun i hi => h i (by omega)]

theorem mapOutputs_index (hinj : ∀ i j, i < j → j < n → F i < F j)
    (hlt : ∀ i < n, F i < ids.length) {i : Nat} (hi : i < n) :
    (mapOutputs F n ids)[F i]? = some (i : Int) := by
  induction n with
  | zero => omega
  | succ n ih =>
    rw [mapOutputs_succ]
    rcases Nat.lt_succ_iff_lt_or_eq.1 hi with hi' | rfl
    · rw [List.getElem?_set_ne (hinj i n hi' (by omega)).ne',
        ih (fun a c hac hc => hinj a c hac (by omega)) (fun a ha => hlt a (by omega)) hi']
    · rw [List.getElem?_set_self]
      rw [length_mapOutputs]
      exact hlt i hi

end Mappings

/-! ## Sorting the outputs -/

/-- The outputs have the order of `outs`; `Q` is what holds of a token and its row. -/
structure OutputState.Ordered (st : OutputState P α) (outs : List Nat)
    (Q : ∀ κ, Nat → (Fin (P.width κ) → α) → Prop) : Prop where
  nOutputs : st.nOutputs = outs.length
  rows : ∀ κ, P.extracts κ → ∀ i id, outs[i]? = some id →
    ∃ buf, st.buf κ = some buf ∧ Q κ id (buf i)
  index : ∀ i id : Nat, outs[i]? = some id → st.outputIds[id]? = some (i : Int)
  other : (∀ κ, st.buf κ = none) ∨
    ∀ (id : Nat) j, id ∉ outs → st.outputIds[id]? = some j → j = -1

section Finish

open SelectionSort

variable {st st' : OutputState P α} {outIds outs : List Nat} {τ : Equiv.Perm Nat}
  {Q : ∀ κ, Nat → (Fin (P.width κ) → α) → Prop}

/-- Sorted ids are in the order of the batch. -/
theorem map_range_eq (hperm : outIds.Perm outs) (hsorted : outs.Pairwise (· < ·))
    (hτ : Below outs.length τ)
    (hkey : SortedTo ((outIds.getD · 0) ∘ τ) outs.length outs.length) :
    (List.range outs.length).map ((outIds.getD · 0) ∘ τ) = outs := by
  have hall : ((List.range outs.length).map ((outIds.getD · 0) ∘ τ)).Perm outs := by
    rw [← List.map_map]
    refine (hτ.map_range.map _).trans ?_
    rw [← hperm.length_eq, map_getD_range]
    exact hperm
  refine List.Perm.eq_of_pairwise (fun _ _ _ _ => Nat.le_antisymm) ?_ (hsorted.imp Nat.le_of_lt) hall
  rw [List.pairwise_map]
  refine List.pairwise_lt_range.imp_of_mem fun {i j} hi hj hij => ?_
  exact hkey i j hij (List.mem_range.1 hi) (List.mem_range.1 hj)

/-- Moving the rows and the ids by one permutation. -/
theorem OutputState.Ordered.of_perm (hτ : Below outs.length τ)
    (hmap : (List.range outs.length).map ((outIds.getD · 0) ∘ τ) = outs)
    (hlen : outIds.length = outs.length) (hsorted : outs.Pairwise (· < ·))
    (hrows : ∀ κ, P.extracts κ → ∀ j id, outIds[j]? = some id →
      ∃ buf, st.buf κ = some buf ∧ Q κ id (buf j))
    (hn : st'.nOutputs = outs.length)
    (hbuf : ∀ κ, P.extracts κ → ∀ buf, st.buf κ = some buf →
      ∃ buf', st'.buf κ = some buf' ∧ ∀ i < outs.length, buf' i = buf (τ i))
    {ids : List Int} (hlt : ∀ id ∈ outs, id < ids.length)
    (hids : st'.outputIds = mapOutputs ((outIds.getD · 0) ∘ τ) outs.length ids)
    (hother : (∀ κ, st'.buf κ = none) ∨ ∀ j ∈ ids, j = -1) : st'.Ordered outs Q := by
  generalize hF : (outIds.getD · 0) ∘ τ = F at hmap hids
  have hget : ∀ i id, outs[i]? = some id → i < outs.length ∧ F i = id := fun i id hi => by
    have hlt := (List.getElem?_eq_some_iff.1 hi).1
    rw [← hmap, List.getElem?_map, List.getElem?_range hlt] at hi
    exact ⟨hlt, Option.some.inj hi⟩
  have hmem : ∀ i < outs.length, F i ∈ outs := fun i hi => by
    rw [← hmap]
    exact List.mem_map.2 ⟨i, List.mem_range.2 hi, rfl⟩
  have hinj : ∀ i j, i < j → j < outs.length → F i < F j := fun i j hij hj => by
    rw [← hmap, List.pairwise_map] at hsorted
    have := List.pairwise_iff_getElem.1 hsorted i j (by simpa using hij.trans hj) (by simpa) hij
    simpa using this
  refine ⟨hn, fun κ hκ i id hi => ?_, fun i id hi => ?_, hother.imp_right fun hneg id j hid hj => ?_⟩
  · obtain ⟨hi', rfl⟩ := hget i id hi
    have hτi : τ i < outIds.length := hlen ▸ hτ.lt hi'
    obtain ⟨buf, hb, hq⟩ := hrows κ hκ (τ i) (F i) (by
      rw [← hF, Function.comp_apply, List.getD_eq_getElem?_getD, List.getElem?_eq_getElem hτi]
      rfl)
    obtain ⟨buf', hb', hmove⟩ := hbuf κ hκ buf hb
    exact ⟨buf', hb', hmove i hi' ▸ hq⟩
  · obtain ⟨hi', rfl⟩ := hget i id hi
    rw [hids]
    exact mapOutputs_index hinj (fun a ha => hlt _ (hmem a ha)) hi'
  · have hne : ∀ i < outs.length, F i ≠ id := fun i hi heq => hid (heq ▸ hmem i hi)
    rw [hids, mapOutputs_other hne] at hj
    exact hneg j (List.mem_of_getElem? hj)

/-- The outputs of the sorting after the permutation `τ`. -/
structure OutputOrder.Acts (st : OutputState P α) (ids : Nat → Nat) (τ : Equiv.Perm Nat)
    (o : OutputOrder P α) : Prop where
  ids : o.ids = ids ∘ τ
  buf : ∀ κ, o.buf κ = if 0 < st.size κ then (st.buf κ).map (· ∘ τ) else st.buf κ

theorem OutputOrder.Acts.swap {ids : Nat → Nat} {o : OutputOrder P α} (h : o.Acts st ids τ)
    (i j : Nat) : (o.swap st.size i j).Acts st ids (τ * Equiv.swap i j) where
  ids := by
    rw [OutputOrder.swap, h.ids]
    rfl
  buf κ := by
    simp only [OutputOrder.swap, h.buf]
    split_ifs
    · rw [Option.map_map]
      rfl
    · rfl

/-- The sort moves the outputs by one permutation. -/
theorem OutputState.sort_acts (st : OutputState P α) (ids : Nat → Nat) {n : Nat} (hn : 0 < n) :
    ∃ τ, Below n τ ∧
      (sort OutputOrder.ids (OutputOrder.swap st.size) n (n - 1) 0 ⟨ids, st.buf⟩).Acts st ids τ ∧
      SortedTo (ids ∘ τ) n n := by
  have hone : (⟨ids, st.buf⟩ : OutputOrder P α).Acts st ids 1 :=
    ⟨rfl, fun κ => by split_ifs <;> simp⟩
  obtain ⟨τ, hτ, hacts, hkey⟩ := sort_spec OutputOrder.ids (OutputOrder.swap st.size)
    (OutputOrder.Acts st ids) (fun _ _ h => h.ids) (fun _ _ i j _ _ h => h.swap i j) (n := n)
    (r := n - 1) (i := 0) (by omega) (fun _ _ => rfl) hone fun a c _ ha => by omega
  exact ⟨τ, hτ, hacts, hacts.ids ▸ hkey⟩

theorem OutputState.finish_ordered (hperm : outIds.Perm outs) (hsorted : outs.Pairwise (· < ·))
    (hlt : ∀ id ∈ outs, id < st.outputIds.length)
    (hfresh : (∀ κ, st.buf κ = none) ∨ ∀ j ∈ st.outputIds, j = -1)
    (hsize : ∀ κ, P.extracts κ → outs.length * P.width κ ≤ st.size κ)
    (hrows : ∀ κ, P.extracts κ → ∀ j id, outIds[j]? = some id →
      ∃ buf, st.buf κ = some buf ∧ Q κ id (buf j)) :
    ∃ st', st.finish outIds outs.length = some st' ∧ st'.Ordered outs Q ∧
      ∀ κ, (st'.buf κ).isSome = (st.buf κ).isSome := by
  have hlen := hperm.length_eq
  rw [finish, if_neg (not_not.2 hlen)]
  dsimp only
  split_ifs with hid
  · -- the outputs already have the order of the batch
    have hone : Below outs.length (1 : Equiv.Perm Nat) := fun _ _ => rfl
    refine ⟨_, rfl, .of_perm hone (map_range_eq hperm hsorted hone ?_) hlen hsorted hrows rfl
      (fun κ _ buf hb => ⟨buf, hb, fun _ _ => rfl⟩) hlt rfl hfresh, fun _ => rfl⟩
    intro a c hac ha hc
    simp only [Function.comp_apply, Equiv.Perm.coe_one, id_eq, hid a ha, hid c hc]
    exact hac.le
  · have hpos : 0 < outs.length := by
      push Not at hid
      obtain ⟨i, hi, -⟩ := hid
      omega
    obtain ⟨τ, hτ, hacts, hkey⟩ := st.sort_acts (outIds.getD · 0) hpos
    have hlt' : ∀ id ∈ outs, id < (st.outputIds.map fun _ => (-1 : Int)).length := by
      simpa using hlt
    refine ⟨_, rfl, .of_perm hτ (map_range_eq hperm hsorted hτ hkey) hlen hsorted hrows rfl
      (fun κ hκ buf hb => ?_) hlt' (congrArg (mapOutputs · _ _) hacts.ids) (.inr fun j hj => ?_),
      fun κ => ?_⟩
    · dsimp only
      rw [hacts.buf, hb]
      split_ifs with hpos'
      · exact ⟨_, rfl, fun i _ => rfl⟩
      · -- rows without entries
        refine ⟨buf, rfl, fun i _ => funext fun x => ?_⟩
        have hzero : outs.length * P.width κ = 0 := by
          have := hsize κ hκ
          omega
        rcases Nat.mul_eq_zero.1 hzero with h0 | h0
        · omega
        · exact absurd x.isLt (by omega)
    · obtain ⟨_, -, rfl⟩ := List.mem_map.1 hj
      rfl
    · dsimp only
      rw [hacts.buf]
      split_ifs <;> simp

end Finish

/-! ## Reading the outputs -/

/-- The token of an index: those with an output by their place in the batch, and from the end by
their place among the outputs. -/
def outputToken (outs : List Nat) (i : Int) : Option Nat :=
  if i < 0 then if 0 ≤ outs.length + i then outs[(outs.length + i).toNat]? else none
  else if i.toNat ∈ outs then some i.toNat else none

/-- What is read is the row of the token; without one the index is rejected. -/
def Gives {β : Type} (Q : Nat → β → Prop) : Option Nat → Except String β → Prop
  | some id, .ok v => Q id v
  | none, .error _ => True
  | _, _ => False

theorem Gives.mono {β : Type} {Q Q' : Nat → β → Prop} {t : Option Nat} {r : Except String β}
    (h : Gives Q t r) (hQ : ∀ id v, Q id v → Q' id v) : Gives Q' t r := by
  rcases t with _ | id <;> rcases r with e | v
  · trivial
  · exact h
  · exact h
  · exact hQ id v h

theorem OutputState.Ordered.ith {st : OutputState P α} {outs : List Nat}
    {Q : ∀ κ, Nat → (Fin (P.width κ) → α) → Prop} (h : st.Ordered outs Q) {κ : OutputKind}
    (hκ : P.extracts κ) (missing : String) (i : Int) :
    Gives (Q κ) (outputToken outs i) (st.ith κ missing i) := by
  rw [OutputState.ith, outputToken]
  rcases hb : st.buf κ with _ | buf
  · -- no buffer, so no outputs
    have hnil : outs = [] := by
      refine List.eq_nil_iff_forall_not_mem.2 fun id hid => ?_
      obtain ⟨i, hi⟩ := List.mem_iff_getElem?.1 hid
      obtain ⟨buf, hb', -⟩ := h.rows κ hκ i id hi
      rw [hb] at hb'
      cases hb'
    have hneg : i < 0 → ¬ 0 ≤ ((0 : Nat) : Int) + i := by omega
    by_cases hi : i < 0 <;> simp [hnil, hi, Gives]
  · have hread : ∀ j id : Nat, outs[j]? = some id → Q κ id (buf j) ∧ j < outs.length := by
      intro j id hj
      obtain ⟨buf', hb', hq⟩ := h.rows κ hκ j id hj
      obtain rfl := Option.some.inj (hb.symm.trans hb')
      exact ⟨hq, (List.getElem?_eq_some_iff.1 hj).1⟩
    have hother := h.other.resolve_left fun hnone => by
      rw [hnone κ] at hb
      cases hb
    dsimp only
    rw [h.nOutputs]
    by_cases hi : i < 0
    · simp only [hi, if_true]
      by_cases hj : 0 ≤ (outs.length : Int) + i
      · have hlt : ((outs.length : Int) + i).toNat < outs.length := by omega
        have hget := List.getElem?_eq_getElem hlt
        rw [if_pos hj, hget, if_neg (by omega)]
        dsimp only
        rw [if_neg (by omega), if_neg (by omega)]
        exact (hread _ _ hget).1
      · rw [if_neg hj, if_pos (by omega)]
        trivial
    · simp only [hi, if_false]
      by_cases hmem : i.toNat ∈ outs
      · obtain ⟨j, hj⟩ := List.mem_iff_getElem?.1 hmem
        obtain ⟨hq, hlt⟩ := hread j _ hj
        rw [if_pos hmem, h.index j _ hj]
        dsimp only
        rw [if_neg (by omega), if_neg (by omega)]
        exact hq
      · rw [if_neg hmem]
        rcases hid : st.outputIds[i.toNat]? with _ | j
        · trivial
        · obtain rfl := hother _ j hmem hid
          trivial

/-! ## The decode -/

/-- The tokens with logits requested, in the order of the batch. Pooled embeddings take all. -/
def LlamaBatch.outputs (b : LlamaBatch ι) (embdPooled : Bool) : List Nat :=
  (List.range b.nTokens).filter fun i =>
    embdPooled || match b.logits with
      | some logits => logits i ≠ 0
      | none => i = b.nTokens - 1

section Decode

variable {S : StdSort} {env : OutputEnv P ι α} {inp b : LlamaBatch ι} {st st' : OutputState P α}
  {N : Nat}

/-- The outputs that are counted are those requested. -/
theorem LlamaBatch.alloc_outputs {p0 : Int} (h : inp.alloc p0 = some b) (embdPooled : Bool) :
    b.countOutputs embdPooled = (inp.outputs embdPooled).length ∧
      (List.range b.nTokens).filter
        (b.requested (b.countOutputs embdPooled = b.nTokens)) = inp.outputs embdPooled := by
  unfold alloc at h
  split_ifs at h
  obtain rfl := Option.some.inj h
  generalize hl : (inp.logits.getD fun i => if i = inp.nTokens - 1 then 1 else 0) = logits
  have hout : inp.outputs embdPooled =
      (List.range inp.nTokens).filter fun i => embdPooled || logits i ≠ 0 := by
    rw [outputs, ← hl]
    refine List.filter_congr fun i _ => ?_
    rcases inp.logits with _ | l
    · by_cases hi : i = inp.nTokens - 1 <;> simp [hi]
    · rfl
  have hcount : countOutputs { inp with
      pos := some (inp.pos.getD fun i => i + p0)
      seqIds := some (inp.seqIds.getD fun _ => [0])
      logits := some logits } embdPooled = (inp.outputs embdPooled).length := by
    rw [countOutputs, hout]
    cases embdPooled <;> simp [List.countP_eq_length_filter]
  refine ⟨hcount, ?_⟩
  rw [hcount]
  by_cases hN : (inp.outputs embdPooled).length = inp.nTokens
  · -- all tokens are outputs
    have hall : inp.outputs embdPooled = List.range inp.nTokens :=
      List.filter_sublist.eq_of_length (by rw [List.length_range]; exact hN)
    rw [hN, hall, decide_eq_true rfl]
    exact List.filter_eq_self.2 fun id _ => requested_all _ id
  · have hpooled : embdPooled = false := by
      by_contra htrue
      rw [Bool.not_eq_false] at htrue
      rw [hout, htrue] at hN
      simp at hN
    rw [decide_eq_false hN, hout, hpooled]
    refine List.filter_congr fun i _ => ?_
    simp [requested, outputFlag]

theorem OutputState.reserve_length (st : OutputState P α) (env : OutputEnv P ι α) (N : Nat) :
    (st.reserve env N).1.outputIds.length = P.nBatch := by
  have hids : (if st.outputIds = [] then List.replicate P.nBatch 0 else st.outputIds).length =
      P.nBatch := by
    split_ifs with h
    · exact List.length_replicate ..
    · exact st.sized.resolve_left h
  rw [reserve]
  rcases env.memory with _ | rows
  · exact hids
  · rw [List.length_map]
    exact hids

/-- What a reservation that is large enough gives. -/
theorem OutputState.reserve_spec (st : OutputState P α) (env : OutputEnv P ι α)
    (h : ¬ (st.reserve env N).2 < N) :
    (∀ κ, P.has κ → N * P.width κ ≤ (st.reserve env N).1.size κ) ∧
    (0 < N → ∀ κ, P.has κ → ((st.reserve env N).1.buf κ).isSome) ∧
    ((∀ κ, (st.reserve env N).1.buf κ = none) ∨
      ∀ j ∈ (st.reserve env N).1.outputIds, j = -1) ∧
    ∀ κ, ¬ P.has κ → (st.reserve env N).1.buf κ = none := by
  have hsize : ∀ κ, P.has κ → N * P.width κ ≤
      if P.has κ then P.width κ * max N P.nSeqMax else 0 := fun κ hκ => by
    rw [if_pos hκ, Nat.mul_comm]
    exact Nat.mul_le_mul_left _ (le_max_left ..)
  revert h
  rw [reserve]
  rcases env.memory with _ | rows
  · intro h
    exact ⟨hsize, fun hpos => absurd hpos h, .inl fun _ => rfl, fun _ _ => rfl⟩
  · intro _
    refine ⟨hsize, fun _ κ hκ => by simp [hκ], .inr fun j hj => ?_, fun κ hκ => by simp [hκ]⟩
    obtain ⟨_, -, rfl⟩ := List.mem_map.1 hj
    rfl

/-- A batch that the splits cannot take is not computed. -/
theorem OutputState.loop_blocked (hmode : P.mode ≠ .simple) {nTokensAll : Nat} :
    ∀ {fuel k prev : Nat} {sb sb' : Sbatch ι} {st : OutputState P α} {code : Int}, sb.Blocked →
      loop env nTokensAll N fuel k prev sb st = some (sb', st', code) → code ≠ 0
  | 0, _, _, _, _, _, _, _, hrun => by cases hrun
  | fuel + 1, k, prev, sb, sb', st, code, h, hrun => by
    rw [loop, if_neg h.nTokens_pos.ne'] at hrun
    rcases hsplit : sb.split P.mode P.nUbatch with _ | ⟨sb₁, u⟩
    · simp [hsplit] at hrun
    · have h₁ := h.split hmode hsplit
      simp only [hsplit] at hrun
      generalize (if N = nTokensAll then u.nTokens
        else (List.range u.nTokens).countP fun r => u.output.getD r 0 ≠ 0) = n at hrun
      by_cases hfound : env.found k
      · rcases hstatus : env.status k with _ | _ | _ | _ <;>
          simp only [hfound, hstatus, Bool.not_true, Bool.false_eq_true, if_false] at hrun
        case success =>
          split_ifs at hrun
          exact loop_blocked hmode h₁ hrun
        all_goals
          obtain ⟨-, -, rfl⟩ := hrun
          decide
      · simp only [hfound, Bool.not_false, if_true] at hrun
        obtain ⟨-, -, rfl⟩ := hrun
        decide

theorem LlamaBatch.alloc_some {p0 : Int} (h : inp.alloc p0 = some b) :
    b.nTokens = inp.nTokens ∧ b.input = inp.input ∧ ∃ f p, b.seqIds = some f ∧ b.pos = some p := by
  unfold alloc at h
  split_ifs at h
  obtain rfl := Option.some.inj h
  exact ⟨rfl, rfl, _, _, rfl, rfl⟩

/-- The memory splits the batch, or tokens of no sequence block it. -/
theorem LlamaBatch.exists_splits {f : Nat → List Int} {p : Nat → Int} {sb : Sbatch ι}
    {logitsAll : Bool} (hf : b.seqIds = some f) (hp : b.pos = some p)
    (hsb : b.sbatch S (!P.recurrent) logitsAll = some sb) :
    (∃ I, Sbatch.Splits b logitsAll P.mode P.nUbatch I ∧ I sb []) ∨
      P.mode ≠ .simple ∧ sb.Blocked ∧ ∃ i < b.nTokens, f i = [] := by
  rcases hrec : P.recurrent with _ | _
  · have hmode : P.mode = .simple := by simp [OutputParams.mode, hrec]
    obtain ⟨sb', hsb', h⟩ := LlamaBatch.sbatch_simple S b logitsAll
    rw [hrec] at hsb
    obtain rfl := Option.some.inj (hsb'.symm.trans hsb)
    exact .inl ⟨_, hmode ▸ Sbatch.Simple.splits P.nUbatch_pos, h⟩
  · have hmode : P.mode ≠ .simple := by
      simp only [OutputParams.mode, hrec, if_true]
      split_ifs <;> simp
    rw [hrec] at hsb
    by_cases hnamed : ∀ i < b.nTokens, f i ≠ []
    · obtain ⟨sb', hsb', h⟩ := LlamaBatch.Sequenced.sbatch ⟨hf, hp, hnamed⟩ S logitsAll
      obtain rfl := Option.some.inj (hsb'.symm.trans hsb)
      exact .inl ⟨_, Sbatch.Left.splits hf hp hmode P.nUbatch_pos, h⟩
    · push Not at hnamed
      obtain ⟨id, hid, hnone⟩ := hnamed
      obtain ⟨sb', hsb', h⟩ := LlamaBatch.sbatch_blocked hf hid hnone S logitsAll
      obtain rfl := Option.some.inj (hsb'.symm.trans hsb)
      exact .inr ⟨hmode, h, id, hid, hnone⟩

/-- The ubatches of a batch, what is in them, and what can be read after their decode. -/
structure Decoded (S : StdSort) (env : OutputEnv P ι α) (inp : LlamaBatch ι)
    (st : OutputState P α) (us : List (SplitUbatch ι)) (rows : List (List Nat)) : Prop where
  split : ∃ b sb sb', inp.alloc env.pos0 = some b ∧
    b.sbatch S (!P.recurrent) (b.countOutputs P.embdPooled = b.nTokens) = some sb ∧
    sb.splitAll (fun _ => (P.mode, P.nUbatch)) us.length 0 = some (sb', us) ∧ sb'.nTokens = 0 ∧
    List.Forall₂ (b.Holds (b.countOutputs P.embdPooled = b.nTokens)) us rows
  once : rows.flatten.Perm (List.range inp.nTokens)
  logits : P.extracts .logits → ∀ i,
    Gives (fun id v => P.fillsOutIds → RowOf env us rows .logits id v)
      (outputToken (inp.outputs P.embdPooled) i) (st.getLogitsIth i)
  embd : P.extracts .embd → ∀ i,
    Gives (RowOf env us rows .embd) (outputToken (inp.outputs P.embdPooled) i)
      (st.getEmbeddingsIth i)
  noLogits : ¬ P.has .logits → ∀ i, st.getLogitsIth i = .error "no logits"
  noEmbd : ¬ P.has .embd → ∀ i, st.getEmbeddingsIth i = .error "no embeddings"

theorem LlamaBatch.outputs_sorted (b : LlamaBatch ι) (embdPooled : Bool) :
    (b.outputs embdPooled).Pairwise (· < ·) := List.pairwise_lt_range.filter _

theorem LlamaBatch.lt_of_mem_outputs {embdPooled : Bool} {id : Nat}
    (h : id ∈ b.outputs embdPooled) : id < b.nTokens := List.mem_range.1 (List.mem_filter.1 h).1

section Run

variable {I : Sbatch ι → List Nat → Prop} {sb : Sbatch ι}

/-- When all tokens are computed, the outputs are put in the order of the batch. -/
theorem Progress.finish {sb' : Sbatch ι} {st₁ : OutputState P α} {k prev : Nat}
    {us : List (SplitUbatch ι)} {rows : List (List Nat)} (halloc : inp.alloc env.pos0 = some b)
    (hbatch : b.nTokens ≤ P.nBatch) (hN : b.countOutputs P.embdPooled = N)
    (hI : Sbatch.Splits b (N = b.nTokens) P.mode P.nUbatch I)
    (hres : ¬ (st.reserve env N).2 < N)
    (h : Progress env b (N = b.nTokens) I sb (st.reserve env N).1 k prev sb' st₁ us rows)
    (hdone : sb'.nTokens = 0) :
    ∃ st', st₁.finish sb'.outIds N = some st' ∧
      st'.Ordered (inp.outputs P.embdPooled)
        (fun κ id v => P.fillsOutIds → RowOf env us rows κ id v) ∧
      ∀ κ, ¬ P.has κ → st'.buf κ = none := by
  obtain ⟨hcount, houts⟩ := LlamaBatch.alloc_outputs halloc P.embdPooled
  rw [hN] at hcount houts
  have hnb := (LlamaBatch.alloc_some halloc).1
  obtain ⟨hsize, -, hfresh, hnone⟩ := st.reserve_spec env hres
  have hbuf : ∀ κ, st₁.buf κ = none ↔ (st.reserve env N).1.buf κ = none := fun κ => by
    rw [← Option.not_isSome_iff_eq_none, h.isSome κ, Option.not_isSome_iff_eq_none]
  have hout := hI.out _ _ h.left
  have houtperm : sb'.outIds.Perm (inp.outputs P.embdPooled) := by
    rw [hout, ← houts]
    exact (hI.perm h.left hdone).filter _
  have hlt : ∀ id ∈ inp.outputs P.embdPooled, id < st₁.outputIds.length := fun id hid => by
    rw [h.outputIds, st.reserve_length]
    have := LlamaBatch.lt_of_mem_outputs hid
    omega
  have hfresh' : (∀ κ, st₁.buf κ = none) ∨ ∀ j ∈ st₁.outputIds, j = -1 := by
    rw [h.outputIds]
    exact hfresh.imp_left fun hall κ => (hbuf κ).2 (hall κ)
  have hsize' : ∀ κ, P.extracts κ →
      (inp.outputs P.embdPooled).length * P.width κ ≤ st₁.size κ := fun κ hκ => by
    rw [h.size, ← hcount]
    exact hsize κ (OutputParams.has_of_extracts hκ)
  have hrows : ∀ κ, P.extracts κ → ∀ j id, sb'.outIds[j]? = some id →
      ∃ buf, st₁.buf κ = some buf ∧ (P.fillsOutIds → RowOf env us rows κ id (buf j)) :=
    fun κ hκ j id hj => h.rows κ hκ j id (by rwa [← hout])
  obtain ⟨st', hfin, hord, hkeep⟩ := OutputState.finish_ordered
    (Q := fun κ id v => P.fillsOutIds → RowOf env us rows κ id v) houtperm (inp.outputs_sorted _)
    hlt hfresh' hsize' hrows
  refine ⟨st', by rw [hcount]; exact hfin, hord, fun κ hκ => ?_⟩
  rw [← Option.not_isSome_iff_eq_none, hkeep κ, Option.not_isSome_iff_eq_none]
  exact (hbuf κ).2 (hnone κ hκ)

/-- The loop, and what follows it where it succeeds. -/
theorem OutputState.decode_run (halloc : inp.alloc env.pos0 = some b) (hbatch : b.nTokens ≤ P.nBatch)
    (hN : b.countOutputs P.embdPooled = N)
    (hsb : b.sbatch S (!P.recurrent) (N = b.nTokens) = some sb)
    (hI : Sbatch.Splits b (N = b.nTokens) P.mode P.nUbatch I) (h0 : I sb [])
    (hres : ¬ (st.reserve env N).2 < N) :
    ∃ sb' st₁ code,
      loop env b.nTokens N (b.nTokens + 1) 0 0 sb (st.reserve env N).1 = some (sb', st₁, code) ∧
      (code = 0 → ∃ st' us rows, st₁.finish sb'.outIds N = some st' ∧
        Decoded S env inp st' us rows) ∧
      ((∀ k, env.found k ∧ env.status k = .success) → code = 0) := by
  obtain ⟨hcount, houts⟩ := LlamaBatch.alloc_outputs halloc P.embdPooled
  rw [hN] at hcount houts
  obtain ⟨hsize, hbuf, -, -⟩ := st.reserve_spec env hres
  have hfuel : sb.nTokens < b.nTokens + 1 := by
    have := hI.count h0
    rw [List.length_nil] at this
    omega
  obtain ⟨sb', st₁, code, hrun, hcode, hsucc⟩ := loop_spec hI (by rw [houts, hcount]) rfl hbuf
    hsize (Progress.start h0 (st.reserve env N).1) hfuel
  refine ⟨sb', st₁, code, hrun, fun hzero => ?_, hsucc⟩
  obtain ⟨k, prev, us, rows, hprog, hdone⟩ := hcode hzero
  obtain ⟨st', hfin, hord, hnone⟩ := hprog.finish halloc hbatch hN hI hres hdone
  have hsplit := hprog.run 0
  rw [← hprog.steps] at hsplit
  refine ⟨st', us, rows, hfin, ⟨b, sb, sb', halloc, ?_, ?_, hdone, ?_⟩, ?_,
    fun hκ i => hord.ith hκ _ i, fun hκ i => (hord.ith hκ _ i).mono fun id v hv => hv ?_,
    fun hκ i => ?_, fun hκ i => ?_⟩
  · rw [hN]
    exact hsb
  · simpa [Sbatch.splitAll] using hsplit
  · rw [hN]
    exact hprog.holds
  · rw [← (LlamaBatch.alloc_some halloc).1]
    exact hI.perm hprog.left hdone
  · simp only [OutputParams.extracts, Bool.and_eq_true] at hκ
    simp [OutputParams.fillsOutIds, hκ.2]
  · simp [getLogitsIth, ith, hnone _ hκ]
  · simp [getEmbeddingsIth, ith, hnone _ hκ]

end Run

/-- Two entries a row, and two tokens a ubatch. -/
def pairParams (recurrent : Bool) : OutputParams where
  nVocab := 2
  nEmbd := 2
  nBatch := 4
  nUbatch := 2
  nSeqMax := 1
  embeddings := false
  poolNone := true
  archT5 := false
  hasLogits := true
  causalAttn := true
  causalModel := true
  recurrent := recurrent
  nUbatch_pos := by decide

/-- A graph whose rows tell their token. -/
def pairEnv (recurrent : Bool) : OutputEnv (pairParams recurrent) Nat Nat where
  valid _ := true
  pos0 := 0
  memory := some fun _ _ _ => 0
  found _ := true
  status _ := .success
  graph _ _ u r x := 10 * u.input.getD r 0 + x
  stale _ := []

/-- The sequence of the second token is computed first. -/
def secondFirst : LlamaBatch Nat where
  nTokens := 2
  input i := i
  seqIds := some fun i => if i = 0 then [1] else [0]
  logits := some fun _ => 1

/-- What would hold if tokens were counted from the end too. -/
def OutputLaw : Prop :=
  ∀ (P : OutputParams) (S : StdSort) (env : OutputEnv P Nat Nat) (inp : LlamaBatch Nat)
    (st st' : OutputState P Nat), st.decode S env inp = some (st', 0) → P.extracts .logits →
    P.fillsOutIds →
      ∃ us rows, rows.flatten.Perm (List.range inp.nTokens) ∧
        ∀ id < inp.nTokens, ∀ i : Int, i = id ∨ i = id - inp.nTokens →
          Gives (RowOf env us rows .logits)
            (if id ∈ inp.outputs P.embdPooled then some id else none) (st'.getLogitsIth i)

/-- The decode succeeds where the memory and the graphs do. -/
theorem OutputState.decode_succeeds (S : StdSort) (env : OutputEnv P ι α) (inp : LlamaBatch ι)
    (st : OutputState P α) (hpos : 0 < inp.nTokens)
    (hnamed : ∀ f, inp.seqIds = some f → ∀ i < inp.nTokens, f i ≠ [])
    (hvalid : ∀ i < inp.nTokens, env.valid (inp.input i)) (hbatch : inp.nTokens ≤ P.nBatch)
    (hcausal : P.causalAttn ∨ inp.nTokens ≤ P.nUbatch) (hmem : env.memory.isSome)
    (hok : ∀ k, env.found k ∧ env.status k = .success) :
    ∃ st', st.decode S env inp = some (st', 0) := by
  obtain ⟨b, halloc⟩ : ∃ b, inp.alloc env.pos0 = some b := by
    rw [LlamaBatch.alloc, if_neg hpos.ne']
    exact ⟨_, rfl⟩
  obtain ⟨hn, hinput, -⟩ := LlamaBatch.alloc_some halloc
  obtain ⟨f, p, hfp⟩ := LlamaBatch.alloc_sequenced halloc hnamed
  generalize hN : b.countOutputs P.embdPooled = N
  obtain ⟨sb, hsb⟩ : ∃ sb, b.sbatch S (!P.recurrent) (N = b.nTokens) = some sb := by
    cases P.recurrent
    · exact ⟨_, rfl⟩
    · exact (hfp.sbatch S _).imp fun _ h => h.1
  have hres : ¬ (st.reserve env N).2 < N := by
    obtain ⟨rows, hrows⟩ := Option.isSome_iff_exists.1 hmem
    rw [reserve, hrows]
    exact not_lt.2 (le_max_left ..)
  rcases LlamaBatch.exists_splits hfp.seqIds hfp.pos hsb with ⟨I, hI, h0⟩ | ⟨-, -, i, hi, hnone⟩
  · obtain ⟨sb', st₁, code, hrun, hcode, hsucc⟩ :=
      decode_run halloc (hn ▸ hbatch) hN hsb hI h0 hres
    obtain ⟨st', us, rows, hfin, -⟩ := hcode (hsucc hok)
    refine ⟨st', ?_⟩
    rw [decode, if_neg hpos.ne', halloc]
    dsimp only
    rw [if_neg (not_not.2 (by rwa [hn, hinput])), if_neg (not_not.2 (by rwa [hn])),
      if_neg (not_not.2 (by rwa [hn])), hN]
    simp only [hsb, hrun]
    rw [if_neg hres, if_neg (not_not.2 (hsucc hok)), hfin]
    rfl
  · exact absurd hnone (hfp.named i hi)

end Decode

end LamaServer

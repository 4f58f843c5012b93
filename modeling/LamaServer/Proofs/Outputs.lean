import LamaServer.Outputs
import LamaServer.Proofs.SplitAll

/-!
# Outputs are attached to the right tokens

The loop leaves the rows of the requested tokens in the order of their computation, `out_ids` tells
which tokens they are of, and sorting moves both by one permutation.
-/

namespace LamaServer

variable {P : OutputParams} {ι α : Type} {b : LlamaBatch ι} {env : OutputEnv P ι α}
  {logitsAll : Bool}

/-! ## The rows of a ubatch -/

theorem map_getD_range (row : List Nat) : (List.range row.length).map (row.getD · 0) = row := by
  refine List.ext_getElem (by simp) fun i hi hi' => ?_
  simp [List.getD_eq_getElem?_getD, List.getElem?_eq_getElem hi']

/-- The indices of the entries with `q`, in order. -/
theorem map_getD_filter (row : List Nat) (q : Nat → Bool) {p : Nat → Bool}
    (h : ∀ r id, row[r]? = some id → p r = q id) :
    ((List.range row.length).filter p).map (row.getD · 0) = row.filter q := by
  conv_rhs => rw [← map_getD_range row, List.filter_map]
  refine congrArg _ (List.filter_congr fun r hr => ?_)
  have hr : r < row.length := List.mem_range.1 hr
  have hget : row[r]? = some row[r] := List.getElem?_eq_getElem hr
  rw [Function.comp_apply, List.getD_eq_getElem?_getD, hget, h r _ hget]
  rfl

section Ubatch

variable {u : SplitUbatch ι} {row : List Nat}

theorem LlamaBatch.Holds.flag (h : b.Holds logitsAll u row) (r id : Nat) (hr : row[r]? = some id) :
    decide (u.output.getD r 0 ≠ 0) = b.requested logitsAll id := by
  rw [h.output, List.getD_eq_getElem?_getD, List.getElem?_map, hr]
  rfl

theorem LlamaBatch.Holds.count (h : b.Holds logitsAll u row) :
    ((List.range u.nTokens).countP fun r => u.output.getD r 0 ≠ 0) =
      (row.filter (b.requested logitsAll)).length := by
  rw [h.nTokens, List.countP_eq_length_filter, ← map_getD_filter row _ h.flag, List.length_map]

/-- The graph gives the rows of the requested tokens, in order. -/
theorem LlamaBatch.Holds.graphOutIds (h : b.Holds logitsAll u row) (hfill : P.fillsOutIds)
    (env : OutputEnv P ι α) (k : Nat) :
    (graphOutIds env k u (row.filter (b.requested logitsAll)).length).map (row.getD · 0) =
      row.filter (b.requested logitsAll) := by
  rw [LamaServer.graphOutIds, if_pos hfill, h.nTokens]
  split_ifs with hall
  · rw [map_getD_range, List.length_filter_eq_length_iff.1 hall |> List.filter_eq_self.2]
  · exact map_getD_filter row _ h.flag

theorem LlamaBatch.Holds.graphOutIds_lt (h : b.Holds logitsAll u row) (hfill : P.fillsOutIds)
    {env : OutputEnv P ι α} {k n r : Nat} (hr : r ∈ LamaServer.graphOutIds env k u n) :
    r < row.length := by
  rw [LamaServer.graphOutIds, if_pos hfill, h.nTokens] at hr
  split_ifs at hr
  · exact List.mem_range.1 hr
  · exact List.mem_range.1 (List.mem_filter.1 hr).1

theorem LlamaBatch.Holds.exists_row (h : b.Holds logitsAll u row) (hfill : P.fillsOutIds)
    (env : OutputEnv P ι α) (k : Nat) {j id : Nat}
    (hj : (row.filter (b.requested logitsAll))[j]? = some id) :
    row[(LamaServer.graphOutIds env k u (row.filter (b.requested logitsAll)).length).getD j 0]? =
      some id := by
  rw [← h.graphOutIds hfill env k, List.getElem?_map, Option.map_eq_some_iff] at hj
  obtain ⟨r, hr, rfl⟩ := hj
  have hlt := h.graphOutIds_lt hfill (List.mem_of_getElem? hr)
  rw [List.getD_eq_getElem?_getD, hr, Option.getD_some, List.getD_eq_getElem?_getD,
    List.getElem?_eq_getElem hlt, Option.getD_some]

end Ubatch

/-! ## The loop -/

/-- The row `v` is what the graph gives for the token `id`. -/
def RowOf (env : OutputEnv P ι α) (us : List (SplitUbatch ι)) (rows : List (List Nat))
    (κ : OutputKind) (id : Nat) (v : Fin (P.width κ) → α) : Prop :=
  ∃ k u row r, us[k]? = some u ∧ rows[k]? = some row ∧ row[r]? = some id ∧ v = env.graph κ k u r

theorem RowOf.append {us : List (SplitUbatch ι)} {rows : List (List Nat)} {κ : OutputKind}
    {id : Nat} {v : Fin (P.width κ) → α} (h : RowOf env us rows κ id v) (u : SplitUbatch ι)
    (row : List Nat) : RowOf env (us ++ [u]) (rows ++ [row]) κ id v := by
  obtain ⟨k, u', row', r, hu, hrow, hr, rfl⟩ := h
  refine ⟨k, u', row', r, ?_, ?_, hr, rfl⟩
  · rw [List.getElem?_append_left (List.getElem?_eq_some_iff.1 hu).1, hu]
  · rw [List.getElem?_append_left (List.getElem?_eq_some_iff.1 hrow).1, hrow]

/-- What holds before the `k`-th round: the first `prev` rows of the buffers are those of the
requested tokens in the ubatches so far. -/
structure Progress (env : OutputEnv P ι α) (b : LlamaBatch ι) (logitsAll : Bool)
    (I : Sbatch ι → List Nat → Prop) (sb₀ : Sbatch ι) (st₀ : OutputState P α) (k prev : Nat)
    (sb : Sbatch ι) (st : OutputState P α) (us : List (SplitUbatch ι)) (rows : List (List Nat)) :
    Prop where
  steps : us.length = k
  run : ∀ r, sb₀.splitAll (fun _ => (P.mode, P.nUbatch)) (k + r) 0 =
    (sb.splitAll (fun _ => (P.mode, P.nUbatch)) r k).map fun q => (q.1, us ++ q.2)
  holds : List.Forall₂ (b.Holds logitsAll) us rows
  left : I sb rows.flatten
  prev : prev = (rows.flatten.filter (b.requested logitsAll)).length
  size : st.size = st₀.size
  outputIds : st.outputIds = st₀.outputIds
  isSome : ∀ κ, (st.buf κ).isSome = (st₀.buf κ).isSome
  rows : ∀ κ, P.extracts κ → ∀ j id,
    (rows.flatten.filter (b.requested logitsAll))[j]? = some id →
      ∃ buf, st.buf κ = some buf ∧ (P.fillsOutIds → RowOf env us rows κ id (buf j))

section Loop

variable {I : Sbatch ι → List Nat → Prop} {sb₀ sb : Sbatch ι} {st₀ st : OutputState P α}
  {k prev N : Nat} {us : List (SplitUbatch ι)} {rows : List (List Nat)}

theorem Progress.start (h : I sb []) (st : OutputState P α) :
    Progress env b logitsAll I sb st 0 0 sb st [] [] where
  steps := rfl
  run r := by simp
  holds := .nil
  left := h
  prev := rfl
  size := rfl
  outputIds := rfl
  isSome _ := rfl
  rows _ _ j id hj := by simp at hj

theorem OutputState.extract_buf {κ : OutputKind} {buf : Nat → Fin (P.width κ) → α}
    (hκ : P.extracts κ) (hb : st.buf κ = some buf) (n : Nat) (u : SplitUbatch ι) :
    (st.extract env k prev n u).buf κ =
      some (copyRows prev n (fun j => env.graph κ k u ((graphOutIds env k u n).getD j 0)) buf) := by
  rw [extract]
  simp only [hκ, hb, if_true, Option.map_some]

theorem OutputState.extract_isSome (κ : OutputKind) (n : Nat) (u : SplitUbatch ι) :
    ((st.extract env k prev n u).buf κ).isSome = (st.buf κ).isSome := by
  rw [extract]
  dsimp only
  split_ifs <;> simp

/-- The rows of one more ubatch. -/
theorem Progress.step (h : Progress env b logitsAll I sb₀ st₀ k prev sb st us rows)
    (hn : 0 < sb.nTokens) {r : Sbatch ι × SplitUbatch ι} {row : List Nat}
    (hsplit : sb.split P.mode P.nUbatch = some r)
    (hstep : SplitStep b logitsAll I P.nUbatch rows.flatten r row) {n : Nat}
    (hrow : n = (row.filter (b.requested logitsAll)).length)
    (hbuf : 0 < n → ∀ κ, P.extracts κ → (st.buf κ).isSome) :
    Progress env b logitsAll I sb₀ st₀ (k + 1) (prev + n) r.1
      ({ st with nOutputs := n }.extract env k prev n r.2) (us ++ [r.2]) (rows ++ [row]) where
  steps := by rw [List.length_append, h.steps]; rfl
  run m := by
    have hrun := h.run (m + 1)
    rw [show k + 1 + m = k + (m + 1) by omega, hrun, Sbatch.splitAll, if_neg hn.ne', hsplit]
    simp [Option.map_map, Function.comp_def]
  holds := List.rel_append h.holds (.cons hstep.holds .nil)
  left := by simpa using hstep.left
  prev := by simp [h.prev, hrow]
  size := h.size
  outputIds := h.outputIds
  isSome κ := (OutputState.extract_isSome κ n r.2).trans (h.isSome κ)
  rows κ hκ j id hj := by
    have hlen : rows.length = k := by rw [← h.holds.length_eq, h.steps]
    rw [List.flatten_append, List.filter_append] at hj
    by_cases hlt : j < prev
    · rw [List.getElem?_append_left (h.prev ▸ hlt)] at hj
      obtain ⟨buf, hb, hof⟩ := h.rows κ hκ j id hj
      refine ⟨_, OutputState.extract_buf hκ hb n r.2, ?_⟩
      rw [copyRows, if_neg (by omega)]
      exact fun hfill => (hof hfill).append r.2 row
    · rw [List.getElem?_append_right (h.prev ▸ not_lt.1 hlt), ← h.prev] at hj
      simp only [List.flatten_cons, List.flatten_nil, List.append_nil] at hj
      have hjn : j - prev < n := hrow ▸ (List.getElem?_eq_some_iff.1 hj).1
      obtain ⟨buf, hb⟩ := Option.isSome_iff_exists.1 (hbuf (by omega) κ hκ)
      refine ⟨_, OutputState.extract_buf hκ hb n r.2, fun hfill => ⟨k, r.2, row,
        (graphOutIds env k r.2 n).getD (j - prev) 0, ?_, ?_, ?_, ?_⟩⟩
      · rw [List.getElem?_append_right h.steps.le, h.steps, Nat.sub_self]
        rfl
      · rw [List.getElem?_append_right hlen.le, hlen, Nat.sub_self]
        rfl
      · rw [hrow]
        exact hstep.holds.exists_row hfill env k hj
      · rw [copyRows, if_pos (by omega)]

theorem OutputParams.has_of_extracts {κ : OutputKind} (h : P.extracts κ) : P.has κ := by
  cases κ <;> simp_all [extracts, has]

theorem LlamaBatch.requested_all (b : LlamaBatch ι) (id : Nat) : b.requested true id := by
  simp [requested, outputFlag]

/-- The outputs counted in a ubatch. -/
theorem LlamaBatch.Holds.count_eq {u : SplitUbatch ι} {row : List Nat}
    (h : b.Holds logitsAll u row) (hall : logitsAll = decide (N = b.nTokens)) :
    (if N = b.nTokens then u.nTokens
      else (List.range u.nTokens).countP fun r => u.output.getD r 0 ≠ 0) =
      (row.filter (b.requested logitsAll)).length := by
  split_ifs with hN
  · rw [decide_eq_true hN] at hall
    subst hall
    rw [List.filter_eq_self.2 fun id _ => b.requested_all id, h.nTokens]
  · exact h.count

theorem Progress.isSome_of_pos (h : Progress env b logitsAll I sb₀ st₀ k prev sb st us rows)
    (hbuf : 0 < N → ∀ κ, P.has κ → (st₀.buf κ).isSome) (hN : 0 < N) (κ : OutputKind)
    (hκ : P.extracts κ) : (st.buf κ).isSome := by
  rw [h.isSome κ]
  exact hbuf hN κ (OutputParams.has_of_extracts hκ)

/-- The assertions of the extraction hold. -/
theorem Progress.extractable (h : Progress env b logitsAll I sb₀ st₀ k prev sb st us rows)
    (hsize : ∀ κ, P.has κ → N * P.width κ ≤ st₀.size κ) {n : Nat} (hle : prev + n ≤ N)
    {κ : OutputKind} (hκ : P.extracts κ) (hbuf : (st.buf κ).isSome) :
    ({ st with nOutputs := n } : OutputState P α).extractable N prev n κ = true := by
  have hsz : (prev + n) * P.width κ ≤ st.size κ := by
    rw [h.size]
    exact (Nat.mul_le_mul_right _ hle).trans (hsize κ (OutputParams.has_of_extracts hκ))
  simp [OutputState.extractable, hbuf, hle, hsz]

/-- The loop ends, and where it succeeds all tokens are computed. -/
theorem loop_spec (hI : Sbatch.Splits b logitsAll P.mode P.nUbatch I)
    (hN : N = ((List.range b.nTokens).filter (b.requested logitsAll)).length)
    (hall : logitsAll = decide (N = b.nTokens))
    (hbuf : 0 < N → ∀ κ, P.has κ → (st₀.buf κ).isSome)
    (hsize : ∀ κ, P.has κ → N * P.width κ ≤ st₀.size κ) :
    ∀ {fuel k prev : Nat} {sb : Sbatch ι} {st : OutputState P α} {us : List (SplitUbatch ι)}
      {rows : List (List Nat)}, Progress env b logitsAll I sb₀ st₀ k prev sb st us rows →
      sb.nTokens < fuel →
      ∃ sb' st' code,
        OutputState.loop env b.nTokens N fuel k prev sb st = some (sb', st', code) ∧
        (code = 0 → ∃ k' prev' us' rows',
          Progress env b logitsAll I sb₀ st₀ k' prev' sb' st' us' rows' ∧ sb'.nTokens = 0) ∧
        ((∀ k, env.found k ∧ env.status k = .success) → code = 0)
  | fuel + 1, k, prev, sb, st, us, rows, h, hfuel => by
    by_cases hn : sb.nTokens = 0
    · refine ⟨sb, st, 0, ?_, fun _ => ⟨k, prev, us, rows, h, hn⟩, fun _ => rfl⟩
      rw [OutputState.loop, if_pos hn]
    · obtain ⟨⟨sb', u⟩, row, hsplit, hss⟩ := hI.step sb rows.flatten h.left (Nat.pos_of_ne_zero hn)
      have hnew := hss.holds.count_eq (N := N) hall
      generalize hndef : (if N = b.nTokens then u.nTokens
        else (List.range u.nTokens).countP fun r => u.output.getD r 0 ≠ 0) = n at hnew
      have hle : prev + n ≤ N := by
        have := hI.length_filter_le hss.left
        rwa [← hN, List.filter_append, List.length_append, ← h.prev, ← hnew] at this
      have hsome : 0 < n → ∀ κ, P.extracts κ → (st.buf κ).isSome := fun h0 =>
        h.isSome_of_pos hbuf (by omega)
      have hnext := h.step (Nat.pos_of_ne_zero hn) hsplit hss hnew hsome
      have hok : [OutputKind.logits, .embd].any (fun κ => P.extracts κ && 0 < n &&
          !({ st with nOutputs := n } : OutputState P α).extractable N prev n κ) = false := by
        refine List.any_eq_false.2 fun κ _ hκ => ?_
        simp only [Bool.and_eq_true, decide_eq_true_eq, Bool.not_eq_true'] at hκ
        obtain ⟨⟨hext, h0⟩, hbad⟩ := hκ
        exact absurd ((h.extractable hsize hle hext (hsome h0 κ hext)).symm.trans hbad) (by simp)
      have hc := hI.count h.left
      have hc' : _ + sb'.nTokens = b.nTokens := hI.count hss.left
      have hpos := hss.pos
      rw [List.length_append] at hc'
      obtain ⟨sb'', st'', code, hrun, hcode, hsucc⟩ := loop_spec hI hN hall hbuf hsize
        hnext (show sb'.nTokens < fuel by omega)
      rw [OutputState.loop, if_neg hn, hsplit]
      simp only [hndef]
      by_cases hfound : env.found k
      · rcases hstatus : env.status k with _ | _ | _ | _
        · simp only [hfound, hok, Bool.not_true, Bool.false_eq_true, if_false]
          exact ⟨sb'', st'', code, hrun, hcode, hsucc⟩
        all_goals
          simp only [hfound, Bool.not_true, Bool.false_eq_true, if_false]
          refine ⟨_, _, _, rfl, fun h0 => absurd h0 (by decide), fun hs => ?_⟩
          rw [(hs k).2] at hstatus
          cases hstatus
      · simp only [hfound, Bool.not_false, if_true]
        exact ⟨_, _, _, rfl, fun h0 => absurd h0 (by decide), fun hs => absurd (hs k).1 hfound⟩

end Loop

end LamaServer

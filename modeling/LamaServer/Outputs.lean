import LamaServer.KvCache
import LamaServer.Lib.SelectionSort
import LamaServer.Sbatch

/-!
# The outputs of a decode

How `llama_context::decode` collects the rows that the graphs of the ubatches give, puts them in
the order of the batch, and what `get_logits_ith` and `get_embeddings_ith` return then. The memory
is a parameter: whether it finds a slot for an ubatch, and what the graph computes. The pooled
embeddings of sequences, which go to `embd_seq`, are left out.
-/

namespace LamaServer

/-- The two buffers of rows. -/
inductive OutputKind
  | logits
  | embd
  deriving DecidableEq

/-- What the model and the context parameters fix. -/
structure OutputParams where
  nVocab : Nat
  nEmbd : Nat
  nBatch : Nat
  nUbatch : Nat
  nSeqMax : Nat
  embeddings : Bool
  /-- `pooling_type` is `LLAMA_POOLING_TYPE_NONE` -/
  poolNone : Bool
  archT5 : Bool
  /-- the graph computes logits -/
  hasLogits : Bool
  /-- of the context -/
  causalAttn : Bool
  /-- `causal_attn` of the model -/
  causalModel : Bool
  /-- the memory is a `llama_kv_cache_recurrent`, not a `llama_kv_cache_unified` -/
  recurrent : Bool
  nUbatch_pos : 0 < nUbatch

variable {P : OutputParams} {ι α : Type}

def OutputParams.width (P : OutputParams) : OutputKind → Nat
  | .logits => P.nVocab
  | .embd => P.nEmbd

/-- `has_logits` and `has_embd`. -/
def OutputParams.has (P : OutputParams) : OutputKind → Bool
  | .logits => !P.embeddings || P.archT5
  | .embd => P.embeddings && P.poolNone || P.archT5

/-- The rows that `decode` takes from the graph. -/
def OutputParams.extracts (P : OutputParams) : OutputKind → Bool
  | .logits => !P.embeddings && P.hasLogits
  | .embd => P.embeddings && P.poolNone

/-- Whether `out_ids` is filled. -/
def OutputParams.fillsOutIds (P : OutputParams) : Bool := P.causalModel || P.poolNone

def OutputParams.embdPooled (P : OutputParams) : Bool := P.embeddings && !P.poolNone

/-- The split of `ubatch_next`. -/
def OutputParams.mode (P : OutputParams) : SplitMode :=
  if P.recurrent then if P.embdPooled then .seq else .equal else .simple

/-- The output buffers of `llama_context`; `outputIds` is empty or has `n_batch` entries. -/
structure OutputState (P : OutputParams) (α : Type) where
  buf : ∀ κ, Option (Nat → Fin (P.width κ) → α) := fun _ => none
  /-- `logits_size` and `embd_size` -/
  size : OutputKind → Nat := fun _ => 0
  outputIds : List Int := []
  nOutputs : Nat := 0
  sized : outputIds = [] ∨ outputIds.length = P.nBatch := by simp

/-- What `decode` meets: the contents of the output buffer, if it can be allocated, and for the
`k`-th ubatch whether a slot is found, the status of the graph, the rows of its tokens, and what
`out_ids` holds if it is not filled. -/
structure OutputEnv (P : OutputParams) (ι α : Type) where
  valid : ι → Bool
  pos0 : Int
  memory : Option (∀ κ, Nat → Fin (P.width κ) → α)
  found : Nat → Bool
  status : Nat → GgmlStatus
  graph : ∀ κ, Nat → SplitUbatch ι → Nat → Fin (P.width κ) → α
  stale : Nat → List Nat

/-- `output_reserve`, with the number of outputs reserved. -/
def OutputState.reserve (st : OutputState P α) (env : OutputEnv P ι α) (nOutputs : Nat) :
    OutputState P α × Nat :=
  let nOutputsMax := max nOutputs P.nSeqMax
  let size κ := if P.has κ then P.width κ * nOutputsMax else 0
  let ids := if st.outputIds = [] then List.replicate P.nBatch 0 else st.outputIds
  have hids : ids.length = P.nBatch := by
    dsimp only [ids]
    split_ifs with h
    · exact List.length_replicate ..
    · exact st.sized.resolve_left h
  match env.memory with
  | none => ({ st with buf := fun _ => none, size, outputIds := ids, sized := .inr hids }, 0)
  | some rows =>
    ({ buf := fun κ => if P.has κ then some (rows κ) else none
       size
       outputIds := ids.map fun _ => -1
       nOutputs := 0
       sized := .inr (by rw [List.length_map, hids]) }, nOutputsMax)

/-- The tokens of an ubatch whose rows the graph gives, `set_input` of `llm_graph_input_out_ids`. -/
def graphOutIds (env : OutputEnv P ι α) (k : Nat) (u : SplitUbatch ι) (nOutputs : Nat) : List Nat :=
  if P.fillsOutIds then
    if nOutputs = u.nTokens then List.range u.nTokens
    else (List.range u.nTokens).filter fun r => u.output.getD r 0 ≠ 0
  else env.stale k

/-- Copies the first `n` rows of the graph to the rows from `prev` on. -/
def copyRows {β : Type} (prev n : Nat) (rows : Nat → β) (buf : Nat → β) : Nat → β := fun j =>
  if prev ≤ j ∧ j < prev + n then rows (j - prev) else buf j

/-- Whether the assertions of an extraction hold. -/
def OutputState.extractable (st : OutputState P α) (nOutputsAll prev n : Nat) (κ : OutputKind) :
    Bool :=
  (st.buf κ).isSome && prev + n ≤ nOutputsAll && (prev + n) * P.width κ ≤ st.size κ

/-- Copies the rows that the graph of the `k`-th ubatch gives behind the first `prev` ones. -/
def OutputState.extract (st : OutputState P α) (env : OutputEnv P ι α) (k prev n : Nat)
    (u : SplitUbatch ι) : OutputState P α :=
  { st with
    buf := fun κ =>
      if P.extracts κ then
        (st.buf κ).map (copyRows prev n fun j => env.graph κ k u ((graphOutIds env k u n).getD j 0))
      else st.buf κ }

/-- The loop over the ubatches. The first argument bounds the rounds, `k` counts them. -/
def OutputState.loop (env : OutputEnv P ι α) (nTokensAll nOutputsAll : Nat) :
    Nat → Nat → Nat → Sbatch ι → OutputState P α → Option (Sbatch ι × OutputState P α × Int)
  | 0, _, _, _, _ => none
  | fuel + 1, k, prev, sb, st =>
    if sb.nTokens = 0 then some (sb, st, 0)
    else
      match sb.split P.mode P.nUbatch with
      | none => none
      | some (sb, u) =>
        let n :=
          if nOutputsAll = nTokensAll then u.nTokens
          else (List.range u.nTokens).countP fun r => u.output.getD r 0 ≠ 0
        let st := { st with nOutputs := n }
        if !env.found k then some (sb, st, 1)
        else
          match env.status k with
          | .aborted => some (sb, st, 2)
          | .allocFailed => some (sb, st, -2)
          | .failed => some (sb, st, -3)
          | .success =>
            if [OutputKind.logits, .embd].any fun κ =>
                P.extracts κ && 0 < n && !st.extractable nOutputsAll prev n κ then none
            else loop env nTokensAll nOutputsAll fuel (k + 1) (prev + n) sb (st.extract env k prev n u)

/-- The batch indices of the outputs and their rows, while they are sorted. -/
structure OutputOrder (P : OutputParams) (α : Type) where
  ids : Nat → Nat
  buf : ∀ κ, Option (Nat → Fin (P.width κ) → α)

/-- Swaps two outputs, in the buffers that have a size. -/
def OutputOrder.swap (size : OutputKind → Nat) (i j : Nat) (o : OutputOrder P α) :
    OutputOrder P α where
  ids := SelectionSort.swapAt i j o.ids
  buf κ := if 0 < size κ then (o.buf κ).map (SelectionSort.swapAt i j) else o.buf κ

/-- `output_ids[out_ids[i]] = i` for the first `n` outputs. -/
def mapOutputs (outIds : Nat → Nat) (n : Nat) (ids : List Int) : List Int :=
  (List.range n).foldl (fun ids i => ids.set (outIds i) i) ids

theorem length_mapOutputs (outIds : Nat → Nat) (n : Nat) (ids : List Int) :
    (mapOutputs outIds n ids).length = ids.length := by
  rw [mapOutputs]
  induction n with
  | zero => rfl
  | succ n ih => simpa [List.range_succ] using ih

/-- Sets the output mappings, and makes the outputs have the order of the batch. -/
def OutputState.finish (st : OutputState P α) (outIds : List Nat) (nOutputsAll : Nat) :
    Option (OutputState P α) :=
  if outIds.length ≠ nOutputsAll then none
  else
    let ids i := outIds.getD i 0
    if ∀ i < nOutputsAll, ids i = i then
      some
        { st with
          nOutputs := nOutputsAll
          outputIds := mapOutputs ids nOutputsAll st.outputIds
          sized := by
            rw [← List.length_eq_zero_iff, length_mapOutputs, List.length_eq_zero_iff]
            exact st.sized }
    else
      let o := SelectionSort.sort OutputOrder.ids (OutputOrder.swap st.size) nOutputsAll
        (nOutputsAll - 1) 0 { ids, buf := st.buf }
      some
        { buf := o.buf
          size := st.size
          nOutputs := nOutputsAll
          outputIds := mapOutputs o.ids nOutputsAll (st.outputIds.map fun _ => -1)
          sized := by
            rw [← List.length_eq_zero_iff, length_mapOutputs, List.length_map,
              List.length_eq_zero_iff]
            exact st.sized }

/-- The outputs of the batch, as they are counted. -/
def LlamaBatch.countOutputs (b : LlamaBatch ι) (embdPooled : Bool) : Nat :=
  if embdPooled then b.nTokens
  else
    match b.logits with
    | some logits => (List.range b.nTokens).countP fun i => logits i ≠ 0
    -- keep last output only
    | none => 1

/-- `llama_context::decode`, with what it returns. `none` where it throws or an assertion fails. -/
def OutputState.decode (S : StdSort) (env : OutputEnv P ι α) (inpBatch : LlamaBatch ι)
    (st : OutputState P α) : Option (OutputState P α × Int) :=
  if inpBatch.nTokens = 0 then some (st, -1)
  else
    match inpBatch.alloc env.pos0 with
    | none => none
    | some b =>
      if ¬ ∀ i < b.nTokens, env.valid (b.input i) then none
      else if ¬ b.nTokens ≤ P.nBatch then none
      else if ¬ (P.causalAttn ∨ b.nTokens ≤ P.nUbatch) then none
      else
        let nOutputsAll := b.countOutputs P.embdPooled
        match b.sbatch S (!P.recurrent) (nOutputsAll = b.nTokens) with
        | none => none
        | some sb =>
          let r := st.reserve env nOutputsAll
          if r.2 < nOutputsAll then some (r.1, -2)
          else
            match OutputState.loop env b.nTokens nOutputsAll (b.nTokens + 1) 0 0 sb r.1 with
            | none => none
            | some (sb, st, code) =>
              if code ≠ 0 then some (st, code)
              else (st.finish sb.outIds nOutputsAll).map fun st => (st, 0)

/-! ## Reading the outputs -/

/-- The index of a row and its checks, which `get_logits_ith` and `get_embeddings_ith` share. -/
def OutputState.ith (st : OutputState P α) (κ : OutputKind) (missing : String) (i : Int) :
    Except String (Fin (P.width κ) → α) :=
  match st.buf κ with
  | none => .error missing
  | some rows =>
    let j : Except String Int :=
      if i < 0 then
        let j := st.nOutputs + i
        if j < 0 then .error s!"negative index out of range [0, {st.nOutputs})" else .ok j
      else
        match st.outputIds[i.toNat]? with
        | none => .error s!"out of range [0, {st.outputIds.length})"
        | some j => .ok j
    match j with
    | .error e => .error e
    | .ok j =>
      if j < 0 then .error s!"batch.logits[{i}] != true"
      else if st.nOutputs ≤ j then
        .error s!"corrupt output buffer (j={j}, n_outputs={st.nOutputs})"
      else .ok (rows j.toNat)

def OutputState.getLogitsIth (st : OutputState P α) (i : Int) :
    Except String (Fin (P.width .logits) → α) :=
  st.ith .logits "no logits" i

def OutputState.getEmbeddingsIth (st : OutputState P α) (i : Int) :
    Except String (Fin (P.width .embd) → α) :=
  st.ith .embd "no embeddings" i

end LamaServer

import Mathlib.Algebra.Ring.Nat
import LamaServer.Lib.StdSort
import Mathlib.Data.List.DropRight
import Mathlib.Data.List.Range

/-!
# Splitting a batch

`llama_batch_allocr` and `llama_sbatch`. An array that the caller leaves out is `none`. `token` and
`embd`, of which a batch has one, are its `input`; `n_seq_id` and `seq_id` are one list for each
token. A view of an array of the caller and a copy of its entries are the same list. The result is
`none` where an assertion fails or a null pointer is read.
-/

namespace LamaServer

variable {ι : Type}

structure LlamaBatch (ι : Type) where
  nTokens : Nat
  input : Nat → ι
  pos : Option (Nat → Int) := none
  seqIds : Option (Nat → List Int) := none
  logits : Option (Nat → Int) := none

/-- `llama_batch_allocr`. -/
def LlamaBatch.alloc (b : LlamaBatch ι) (p0 : Int) : Option (LlamaBatch ι) :=
  if b.nTokens = 0 then none
  else some
    { b with
      pos := some (b.pos.getD fun i => i + p0)
      seqIds := some (b.seqIds.getD fun _ => [0])
      logits := some (b.logits.getD fun i => if i = b.nTokens - 1 then 1 else 0) }

/-- `llama_sbatch_seq`; `n_seq_id` is the length of `seqId`. -/
structure SbatchSeq where
  seqId : List Int
  offset : Nat
  length : Nat
  deriving DecidableEq

/-- `llama_ubatch`. -/
structure SplitUbatch (ι : Type) where
  equalSeqs : Bool := true
  nTokens : Nat := 0
  nSeqTokens : Nat := 0
  nSeqs : Nat := 0
  input : List ι := []
  pos : Option (List Int) := some []
  nSeqId : List Nat := []
  seqId : List (List Int) := []
  output : List Int := []

/-- `llama_sbatch`. -/
structure Sbatch (ι : Type) where
  batch : LlamaBatch ι
  nTokens : Nat
  logitsAll : Bool
  ids : List Nat
  outIds : List Nat := []
  seq : List SbatchSeq

/-! ## The constructor -/

/-- Smaller ids go first, at the first place where two lists differ. -/
def idsLess : List Int → List Int → Option Bool
  | x :: xs, y :: ys => if x ≠ y then some (x < y) else idsLess xs ys
  | _, _ => none

def LlamaBatch.nSeqId (b : LlamaBatch ι) (i : Nat) : Nat :=
  match b.seqIds with
  | some f => (f i).length
  | none => 1

/-- Without positions the tokens are sorted by id. -/
def LlamaBatch.posLess (b : LlamaBatch ι) (i j : Nat) : Bool :=
  match b.pos with
  | some pos => pos i < pos j
  | none => i < j

/-- Sorts by the sequences, then by position; shared prompts go first. -/
def LlamaBatch.tokenLess (b : LlamaBatch ι) (i j : Nat) : Bool :=
  if b.nSeqId i = b.nSeqId j then
    match b.seqIds.bind fun f => idsLess (f i) (f j) with
    | some less => less
    | none => b.posLess i j
  else b.nSeqId j < b.nSeqId i

/-- Keeps shared prompts at the end, then sorts by length, descending. -/
def SbatchSeq.less (s t : SbatchSeq) : Bool :=
  if s.seqId.length = t.seqId.length then t.length < s.length
  else s.seqId.length < t.seqId.length

/-- The loop over the sorted ids; `i` is the index of the first one left. -/
def initSeq (f : Nat → List Int) : List Nat → Nat → List SbatchSeq → List SbatchSeq
  | [], _, seq => seq
  | bi :: ids, i, seq =>
    match seq.getLast? with
    | some last =>
      if f bi = last.seqId then
        initSeq f ids (i + 1) (seq.dropLast ++ [{ last with length := last.length + 1 }])
      else initSeq f ids (i + 1) (seq ++ [{ seqId := f bi, offset := i, length := 1 }])
    | none => initSeq f ids (i + 1) (seq ++ [{ seqId := f bi, offset := i, length := 1 }])

/-- `llama_sbatch::llama_sbatch`. -/
def LlamaBatch.sbatch (S : StdSort) (b : LlamaBatch ι) (simpleSplit logitsAll : Bool) :
    Option (Sbatch ι) :=
  if simpleSplit then
    some
      { batch := b, nTokens := b.nTokens, logitsAll, ids := List.range b.nTokens
        seq := [{ seqId := [], offset := 0, length := b.nTokens }] }
  else
    let ids := S.sort b.tokenLess (List.range b.nTokens)
    match b.seqIds with
    | some f =>
      some
        { batch := b, nTokens := b.nTokens, logitsAll, ids
          seq := S.sort SbatchSeq.less (initSeq f ids 0 []) }
    | none =>
      if b.nTokens = 0 then some { batch := b, nTokens := 0, logitsAll, ids, seq := [] } else none

/-! ## Adding a sequence to a ubatch -/

/-- The batch indices of the first tokens of a sequence. -/
def Sbatch.head (sb : Sbatch ι) (s : SbatchSeq) (length : Nat) : List Nat :=
  (sb.ids.drop s.offset).take length

/-- Copies the tokens of a sequence to the end of a ubatch. -/
def SplitUbatch.addEqual (u : SplitUbatch ι) (b : LlamaBatch ι) (s : SbatchSeq) (rows : List Nat)
    (pos : Nat → Int) : SplitUbatch ι :=
  { u with
    input := u.input ++ rows.map b.input
    pos := u.pos.map (· ++ rows.map pos)
    nSeqId := u.nSeqId ++ [s.seqId.length]
    seqId := u.seqId ++ [s.seqId] }

/-- Views the arrays of the caller. -/
def SplitUbatch.addSimple (u : SplitUbatch ι) (b : LlamaBatch ι) (s : SbatchSeq) (length : Nat) :
    SplitUbatch ι :=
  let rows := List.range' s.offset length
  { u with
    input := rows.map b.input
    pos := b.pos.map rows.map
    nSeqId := match b.seqIds with
      | some f => rows.map fun i => (f i).length
      | none => u.nSeqId ++ List.replicate length 1
    seqId := match b.seqIds with
      | some f => rows.map f
      | none => u.seqId }

/-- The output flags of the ubatch and the batch indices of the outputs. -/
def Sbatch.addOutput (sb : Sbatch ι) (u : SplitUbatch ι) (s : SbatchSeq) (length : Nat) :
    List Int × List Nat :=
  let rows := sb.head s length
  if sb.logitsAll then (u.output ++ List.replicate length 1, sb.outIds ++ rows)
  else
    match sb.batch.logits with
    | some logits =>
      if u.equalSeqs then
        (u.output ++ rows.map logits, sb.outIds ++ rows.filter fun id => logits id ≠ 0)
      else
        let window := List.range' s.offset length
        (window.map logits, sb.outIds ++ window.filter fun id => logits id ≠ 0)
    | none =>
      -- only get last output
      (u.output ++ rows.map fun id => if id = sb.ids.length - 1 then 1 else 0,
        sb.outIds ++ rows.filter fun id => id = sb.ids.length - 1)

/-- The ubatch with the data of the first tokens of a sequence. -/
def Sbatch.copySeq (sb : Sbatch ι) (u : SplitUbatch ι) (s : SbatchSeq) (length : Nat) :
    Option (SplitUbatch ι) :=
  if u.equalSeqs then sb.batch.pos.map (u.addEqual sb.batch s (sb.head s length))
  else some (u.addSimple sb.batch s length)

/-- `add_seq_to_ubatch`, for the sequence at index `i`. -/
def Sbatch.addSeqToUbatch (sb : Sbatch ι) (u : SplitUbatch ι) (i length : Nat) :
    Option (Sbatch ι × SplitUbatch ι) :=
  match sb.seq[i]? with
  | none => none
  | some s =>
    if ¬ length ≤ s.length then none
    else if ¬ (s.seqId.length = 0 ∨ u.nSeqs = 0 ∨ length = u.nTokens / u.nSeqs) then none
    else if ¬ (s.seqId.length ≠ 0 ↔ u.equalSeqs) then none
    else
      match sb.copySeq u s length with
      | none => none
      | some v =>
        let out := sb.addOutput u s length
        let w : SplitUbatch ι :=
          { v with
            output := out.1
            nSeqTokens :=
              if u.nTokens = 0 ∧ u.nSeqs = 0 then if u.equalSeqs then length else 1
              else u.nSeqTokens
            nTokens := u.nTokens + length
            nSeqs := u.nSeqs + if u.equalSeqs then 1 else length }
        if w.nTokens ≠ w.nSeqTokens * w.nSeqs then none
        else some
          ({ sb with
              nTokens := sb.nTokens - length
              outIds := out.2
              seq := sb.seq.set i
                { s with offset := s.offset + length, length := s.length - length } }, w)

/-! ## The splits -/

/-- `reserve_ubatch`: clears empty sequences. -/
def Sbatch.reserve (sb : Sbatch ι) : Sbatch ι :=
  { sb with seq := sb.seq.rdropWhile fun s => s.length = 0 }

def Sbatch.splitSimple (sb : Sbatch ι) (nUbatch : Nat) : Option (Sbatch ι × SplitUbatch ι) :=
  let n := if sb.nTokens < nUbatch then sb.nTokens else nUbatch
  let sb := sb.reserve
  let u : SplitUbatch ι := { equalSeqs := false }
  match sb.seq with
  | [] => some (sb, u)
  | s :: rest =>
    if ¬ (rest = [] ∧ s.seqId.length = 0) then none
    else sb.addSeqToUbatch u 0 (if s.length < n then s.length else n)

/-- The loop of `split_equal` over the sequences below `i`, from the last one on. -/
def Sbatch.equalLoop (n : Nat) :
    Nat → Nat → Nat → Sbatch ι → SplitUbatch ι → Option (Sbatch ι × SplitUbatch ι)
  | 0, _, _, sb, u => some (sb, u)
  | i + 1, length, k, sb, u =>
    match sb.seq[i]? with
    | none => none
    | some s =>
      if ¬ 0 < s.length then none
      else
        let length := if length = 0 then if s.length < n then s.length else n else length
        match sb.addSeqToUbatch u i length with
        | none => none
        | some (sb, u) =>
          let k := k + length
          -- shared prompts are computed in their own ubatch
          if 1 < s.seqId.length then some (sb, u)
          else if n < length + k then some (sb, u)
          else equalLoop n i length k sb u

def Sbatch.splitEqual (sb : Sbatch ι) (nUbatch : Nat) : Option (Sbatch ι × SplitUbatch ι) :=
  let n := if sb.nTokens < nUbatch then sb.nTokens else nUbatch
  let sb := sb.reserve
  match sb.seq with
  | [] => some (sb, {})
  | s :: _ =>
    if ¬ 0 < s.seqId.length then none else sb.equalLoop n sb.seq.length 0 0 {}

def Sbatch.splitSeq (sb : Sbatch ι) (nUbatch : Nat) : Option (Sbatch ι × SplitUbatch ι) :=
  let n := if sb.nTokens < nUbatch then sb.nTokens else nUbatch
  let sb := sb.reserve
  match sb.seq.getLast? with
  | none => some (sb, {})
  | some s =>
    if ¬ 0 < s.seqId.length then none
    else sb.addSeqToUbatch {} (sb.seq.length - 1) (if s.length < n then s.length else n)

inductive SplitMode
  | simple
  | equal
  | seq
  deriving DecidableEq

def Sbatch.split (sb : Sbatch ι) (mode : SplitMode) (nUbatch : Nat) :
    Option (Sbatch ι × SplitUbatch ι) :=
  match mode with
  | .simple => sb.splitSimple nUbatch
  | .equal => sb.splitEqual nUbatch
  | .seq => sb.splitSeq nUbatch

/-- Splits until no tokens are left, the `k`-th time by `calls k`. The first argument bounds the
calls. -/
def Sbatch.splitAll (calls : Nat → SplitMode × Nat) :
    Nat → Nat → Sbatch ι → Option (Sbatch ι × List (SplitUbatch ι))
  | 0, _, sb => some (sb, [])
  | r + 1, k, sb =>
    if sb.nTokens = 0 then some (sb, [])
    else
      match sb.split (calls k).1 (calls k).2 with
      | none => none
      | some (sb, u) => (splitAll calls r (k + 1) sb).map fun p => (p.1, u :: p.2)

end LamaServer

import LamaServer.Lib.Format
import LamaServer.Lib.Index
import Mathlib.Data.Finset.Basic

/-!
# The unified KV cache

`llama_kv_cache_unified`: the cells, the operations on sequences, the search for a slot, the
deferred shift and defragmentation, and `llama_context::decode` over them. The tensors are kept in
rows: `k il i` is the row of cell `i` in layer `il`, `v il j i` its `j`-th piece, which is the whole
row unless V is transposed. The cells past `size` do not exist and stay empty. A ghost field `rot`
records the position that the K row of a cell is rotated to. What `kv_cache.n`, the padding and the
outputs of a batch are for is left out.
-/

namespace LamaServer

open Index (firstBelow)

/-- `std::numeric_limits<llama_pos>::max()`. -/
def posMax : Int := 2 ^ 31 - 1

/-- What the model and the context parameters fix. -/
structure KvParams where
  nLayer : Nat
  vTrans : Bool
  /-- `k_l[il]->type` -/
  kType : Fin nLayer → Int
  /-- `ggml_row_size(k_l[il]->type, n_embd_k_gqa)` -/
  kSizeRow : Fin nLayer → Nat
  vType : Fin nLayer → Int
  vSizeRow : Fin nLayer → Nat
  /-- `ggml_type_size(v_l[il]->type)` -/
  vSizeEl : Fin nLayer → Nat
  nEmbdVGqa : Fin nLayer → Nat
  /-- the K-shift of a row by a number of positions; nothing where the model has no RoPE -/
  ropeShift : ∀ il, Int → Format.Block (kSizeRow il) → Format.Block (kSizeRow il)
  /-- `max_moves` of `defrag_prepare` -/
  maxMoves : Nat
  nLayer_lt : nLayer < 256 ^ 4
  kType_valid : ∀ il, (Format.signed 4).Valid (kType il)
  kSizeRow_lt : ∀ il, kSizeRow il < 256 ^ 8
  vType_valid : ∀ il, (Format.signed 4).Valid (vType il)
  vSizeRow_lt : ∀ il, vSizeRow il < 256 ^ 8
  vSizeEl_lt : ∀ il, vSizeEl il < 256 ^ 4
  nEmbdVGqa_lt : ∀ il, nEmbdVGqa il < 256 ^ 4

/-- The pieces the V row of a cell is in. -/
def KvParams.vRows (m : KvParams) (il : Fin m.nLayer) : Nat :=
  if m.vTrans then m.nEmbdVGqa il else 1

def KvParams.vPiece (m : KvParams) (il : Fin m.nLayer) : Nat :=
  if m.vTrans then m.vSizeEl il else m.vSizeRow il

/-- `llama_ubatch`: `nSeqs` rows of `nSeqTokens` tokens each. -/
structure Ubatch where
  nSeqs : Nat
  nSeqTokens : Nat
  pos : Nat → Int
  seqId : Nat → List Int

def Ubatch.nTokens (ub : Ubatch) : Nat := ub.nSeqs * ub.nSeqTokens

/-- `llama_kv_cache_unified::kv_cell`. -/
structure KvCell where
  pos : Int := -1
  delta : Int := 0
  seqId : Finset Int := ∅
  deriving DecidableEq

structure KvCache (m : KvParams) (size : Nat) where
  size_lt : size < 2 ^ 32
  head : Nat := 0
  /-- a `uint32_t`, read modulo `2 ^ 32` -/
  used : Int := 0
  cells : Nat → KvCell := fun _ => {}
  hasShift : Bool := false
  doDefrag : Bool := false
  /-- `pending.ranges` -/
  pending : List (Nat × Nat) := []
  k : ∀ il, Nat → Format.Block (m.kSizeRow il) := fun _ _ => Format.zeros _
  v : ∀ il, Fin (m.vRows il) → Nat → Format.Block (m.vPiece il) := fun _ _ _ => Format.zeros _
  /-- ghost: the position the K row of a cell is rotated to -/
  rot : Nat → Int := fun _ => 0

variable {m : KvParams} {size : Nat}

/-- What the body of a loop does to a cell, whether it takes one off `used`, and whether it makes
the cell a candidate for `new_head`. -/
structure Touched where
  cell : KvCell
  unused : Bool := false
  freed : Bool := false

/-- A loop over all cells, with `new_head`. -/
def KvCache.sweep (c : KvCache m size) (body : Nat → KvCell → Touched) : KvCache m size × Nat :=
  ({ c with
      cells := fun i => (body i (c.cells i)).cell
      used := c.used - Nat.count (fun i => (body i (c.cells i)).unused) size },
    firstBelow size fun i => (body i (c.cells i)).freed)

/-- Sets the head to a freed slot, so that searching can start there. -/
def KvCache.lowerHead (r : KvCache m size × Nat) : KvCache m size :=
  { r.1 with head := if r.2 ≠ size ∧ r.2 < r.1.head then r.2 else r.1.head }

def KvCache.clear (c : KvCache m size) : KvCache m size :=
  { c with
    cells := fun i => { c.cells i with pos := -1, seqId := ∅ }
    head := 0
    used := 0
    k := fun _ _ => Format.zeros _
    v := fun _ _ _ => Format.zeros _ }

/-- The bounds of a range as the operations on sequences take them. -/
def rangeStart (p0 : Int) : Int := if p0 < 0 then 0 else p0

def rangeEnd (p1 : Int) : Int := if p1 < 0 then posMax else p1

def KvCell.inRange (cell : KvCell) (p0 p1 : Int) : Prop :=
  rangeStart p0 ≤ cell.pos ∧ cell.pos < rangeEnd p1

instance (cell : KvCell) (p0 p1 : Int) : Decidable (cell.inRange p0 p1) :=
  inferInstanceAs (Decidable (_ ∧ _))

/-- The sequences a cell keeps when one is removed, or all. -/
def KvCell.without (seqId : Int) (cell : KvCell) : Finset Int :=
  if seqId < 0 then ∅ else cell.seqId.erase seqId

def KvCell.rm (seqId p0 p1 : Int) (cell : KvCell) : Touched :=
  if cell.inRange p0 p1 ∧ (seqId < 0 ∨ seqId ∈ cell.seqId) then
    if cell.without seqId = ∅ then
      { cell := { cell with pos := -1, seqId := ∅ }, unused := 0 ≤ cell.pos, freed := true }
    else { cell := { cell with seqId := cell.without seqId } }
  else { cell }

def KvCache.seqRm (c : KvCache m size) (seqId p0 p1 : Int) : KvCache m size :=
  lowerHead (c.sweep fun _ => KvCell.rm seqId p0 p1)

def KvCell.hit (seqId p0 p1 : Int) (cell : KvCell) : Prop :=
  seqId ∈ cell.seqId ∧ cell.inRange p0 p1

instance (seqId p0 p1 : Int) (cell : KvCell) : Decidable (cell.hit seqId p0 p1) :=
  inferInstanceAs (Decidable (_ ∧ _))

def KvCell.cp (src dst p0 p1 : Int) (cell : KvCell) : KvCell :=
  if cell.hit src p0 p1 then { cell with seqId := insert dst cell.seqId } else cell

def KvCache.seqCp (c : KvCache m size) (src dst p0 p1 : Int) : KvCache m size :=
  if src = dst then c else
    { c with
      head := 0
      cells := fun i => (c.cells i).cp src dst p0 p1 }

def KvCell.keep (seqId : Int) (cell : KvCell) : Touched :=
  if seqId ∈ cell.seqId then { cell := { cell with seqId := {seqId} } }
  else { cell := { cell with pos := -1, seqId := ∅ }, unused := 0 ≤ cell.pos, freed := true }

def KvCache.seqKeep (c : KvCache m size) (seqId : Int) : KvCache m size :=
  lowerHead (c.sweep fun _ => KvCell.keep seqId)

/-- Whether a loop that shifts the cells it hits hits one. -/
def KvCache.hits (c : KvCache m size) (seqId p0 p1 : Int) : Bool :=
  (List.range size).any fun i => (c.cells i).hit seqId p0 p1

def KvCell.add (seqId p0 p1 delta : Int) (cell : KvCell) : Touched :=
  if cell.hit seqId p0 p1 then
    if cell.pos + delta < 0 then
      { cell := { pos := -1, delta := cell.delta + delta, seqId := ∅ }
        unused := cell.seqId ≠ ∅
        freed := true }
    else { cell := { cell with pos := cell.pos + delta, delta := cell.delta + delta } }
  else { cell }

def KvCache.seqAdd (c : KvCache m size) (seqId p0 p1 delta : Int) : KvCache m size :=
  if delta = 0 ∨ rangeStart p0 = rangeEnd p1 then c else
    let r := c.sweep fun _ => KvCell.add seqId p0 p1 delta
    { r.1 with
      hasShift := c.hasShift || c.hits seqId p0 p1
      head := if r.2 ≠ size then r.2 else 0 }

def KvCell.div (seqId p0 p1 d : Int) (cell : KvCell) : KvCell :=
  if cell.hit seqId p0 p1 then
    { cell with pos := cell.pos.tdiv d, delta := cell.delta + (cell.pos.tdiv d - cell.pos) }
  else cell

def KvCache.seqDiv (c : KvCache m size) (seqId p0 p1 d : Int) : KvCache m size :=
  if d = 1 ∨ rangeStart p0 = rangeEnd p1 then c else
    { c with
      hasShift := c.hasShift || c.hits seqId p0 p1
      cells := fun i => (c.cells i).div seqId p0 p1 d }

/-- The part of `restore` for one range. -/
def KvCache.restoreRange (c : KvCache m size) (range : Nat × Nat) : KvCache m size :=
  (c.sweep fun i cell =>
    if range.1 ≤ i ∧ i < range.2 then
      { cell := { cell with pos := -1, seqId := ∅ }, unused := 0 ≤ cell.pos }
    else { cell }).1

/-- The ranges stay in `pending`. -/
def KvCache.restore (c : KvCache m size) : KvCache m size :=
  if c.pending = [] then c else
    lowerHead (c.pending.foldl restoreRange c, c.pending.foldl (fun h r => min h r.1) size)

def KvCache.commit (c : KvCache m size) : KvCache m size := { c with pending := [] }

/-! ## Defragmentation -/

/-- `cell_max`, for the first `n` cells. -/
def cellMax (cells : Nat → KvCell) : Nat → Nat
  | 0 => 0
  | i + 1 => if 0 ≤ (cells i).pos ∧ (cells i).seqId ≠ ∅ then i + 1 else cellMax cells i

/-- What `defrag_prepare` changes. An index that is not moved has `ids i = i` or `ids i = nKv`. -/
structure Defrag where
  cells : Nat → KvCell
  ids : Nat → Nat
  head : Nat
  nMoves : Nat := 0

/-- A cell that is empty, or moved or fixed already. -/
def Defrag.skips (s : Defrag) (nKv i : Nat) : Prop := (s.cells i).seqId = ∅ ∨ s.ids i ≠ nKv

instance (s : Defrag) (nKv i : Nat) : Decidable (s.skips nKv i) :=
  inferInstanceAs (Decidable (_ ∨ _))

/-- Starting from the end, finds `nh` cells to move, and the first of them. -/
def Defrag.findTail (s : Defrag) (nKv i0 nh : Nat) : Nat → Nat → Nat × Nat
  | 0, nf => (nf, 0)
  | i + 1, nf =>
    if i + 1 ≤ i0 then (nf, i + 1)
    else if s.skips nKv (i + 1) then s.findTail nKv i0 nh i nf
    else if nf + 1 = nh then (nf + 1, i + 1)
    else s.findTail nKv i0 nh i (nf + 1)

/-- Moves the meta data of cell `i1` to cell `dst`. -/
def Defrag.move (s : Defrag) (nUsed i1 dst : Nat) (cont : Bool) : Defrag where
  cells := Function.update (Function.update s.cells dst (s.cells i1)) i1 {}
  ids := Function.update s.ids i1 dst
  head := nUsed
  nMoves := if cont then s.nMoves else s.nMoves + 1

/-- Goes back over the last cells and moves `nh` of them to the hole at `i0`; whether it has to
stop at `max_moves`. The first argument counts the cells from `i1` on. -/
def Defrag.fill (nKv nUsed maxMoves i0 nh : Nat) :
    Nat → Nat → Nat → Bool → Defrag → Defrag × Bool
  | 0, _, _, _, s => (s, false)
  | r + 1, i1, nf, cont, s =>
    if s.skips nKv i1 then
      if s.nMoves = maxMoves then (s, true)
      else fill nKv nUsed maxMoves i0 nh r (i1 + 1) nf false s
    else if nf + 1 = nh then (s.move nUsed i1 (i0 + nf) cont, false)
    else fill nKv nUsed maxMoves i0 nh r (i1 + 1) (nf + 1) true (s.move nUsed i1 (i0 + nf) cont)

/-- The loop over the cells below `nUsed`; `none` where the assertion on `nf` fails. The first
argument bounds the rounds. -/
def Defrag.loop (nKv nUsed maxMoves : Nat) : Nat → Nat → Defrag → Option Defrag
  | 0, _, s => some s
  | r + 1, i0, s =>
    if nUsed ≤ i0 then some s
    else if (s.cells i0).seqId ≠ ∅ then
      loop nKv nUsed maxMoves r (i0 + 1) { s with ids := Function.update s.ids i0 i0 }
    else
      let nh := firstBelow (nUsed - i0) fun j => (s.cells (i0 + j)).seqId ≠ ∅
      let tail := s.findTail nKv i0 nh (nKv - 1) 0
      if tail.1 ≠ nh then none
      else
        let filled := Defrag.fill nKv nUsed maxMoves i0 nh (nKv - tail.2) tail.2 0 false s
        if filled.2 ∨ filled.1.nMoves = maxMoves then some filled.1
        else loop nKv nUsed maxMoves r (i0 + nh) filled.1

/-- `used` as the `uint32_t` it is. -/
def KvCache.nUsed (c : KvCache m size) : Nat := (c.used % 2 ^ 32).toNat

/-- `defrag_prepare`. -/
def KvCache.defragPrepare (c : KvCache m size) : Option Defrag :=
  let nKv := cellMax c.cells size
  Defrag.loop nKv c.nUsed m.maxMoves c.nUsed 0
    { cells := c.cells, ids := fun _ => nKv, head := c.head }

/-- `build_graph_defrag`: copies the rows of the moved cells, which only go to lower indices. -/
def moveRows {α : Type} (nKv : Nat) (ids : Nat → Nat) (rows : Nat → α) : Nat → α :=
  (List.range nKv).foldl
    (fun rows i => if ids i = i ∨ ids i = nKv then rows
      else Function.update rows (ids i) (rows i)) rows

/-! ## Updates, slots and decoding -/

/-- The first part of `update`: the K-shift. -/
def KvCache.applyShift (c : KvCache m size) : KvCache m size :=
  if c.hasShift then
    { c with
      k := fun il i => m.ropeShift il (c.cells i).delta (c.k il i)
      rot := fun i => c.rot i + (c.cells i).delta
      hasShift := false
      cells := fun i => { c.cells i with delta := 0 } }
  else c

/-- The second part of `update`. -/
def KvCache.applyDefrag (c : KvCache m size) : Option (KvCache m size) :=
  if c.doDefrag then
    c.defragPrepare.map fun s =>
      let nKv := cellMax c.cells size
      let c' := { c with cells := s.cells, head := s.head, doDefrag := false }
      if s.nMoves = 0 then c' else
        { c' with
          k := fun il => moveRows nKv s.ids (c.k il)
          v := fun il j => moveRows nKv s.ids (c.v il j)
          rot := moveRows nKv s.ids c.rot }
  else some c

def KvCache.update (c : KvCache m size) : Option (KvCache m size) := c.applyShift.applyDefrag

/-- The loop of `find_slot`: the head it ends with, and whether the `n` cells from there are free.
The first argument bounds the rounds. -/
def searchSlot (cells : Nat → KvCell) (size n : Nat) : Nat → Nat → Nat → Nat × Bool
  | 0, head, _ => (head, false)
  | r + 1, head, nTested =>
    if size < head + n then searchSlot cells size n r 0 (nTested + (size - head))
    else match (List.range n).find? fun i => 0 ≤ (cells (head + i)).pos with
      | none => (head, true)
      | some i =>
        if size ≤ nTested + (i + 1) then (head + (i + 1), false)
        else searchSlot cells size n r (head + (i + 1)) (nTested + (i + 1))

/-- Gives the cells from `head` on to the tokens of a batch. -/
def KvCache.place (c : KvCache m size) (ub : Ubatch) (head : Nat) : KvCache m size :=
  { c with
    head := head
    cells := fun i =>
      let cell := c.cells i
      if head ≤ i ∧ i < head + ub.nTokens then
        { cell with
          pos := ub.pos (i - head)
          seqId := cell.seqId ∪ (ub.seqId ((i - head) / ub.nSeqTokens)).toFinset }
      else cell
    used := c.used + ub.nTokens
    pending := c.pending ++ [(head, head + ub.nTokens)] }

def KvCache.findSlot (c : KvCache m size) (ub : Ubatch) : KvCache m size × Bool :=
  let head := if (c.used + 2 * ub.nTokens) % 2 ^ 32 < c.head then 0 else c.head
  if size < ub.nTokens then ({ c with head := head }, false)
  else
    let found := searchSlot c.cells size ub.nTokens (2 * size + 2) head 0
    if found.2 then (c.place ub found.1, true) else ({ c with head := found.1 }, false)

inductive GgmlStatus where
  | success | allocFailed | failed | aborted
  deriving DecidableEq

/-- A ubatch and what computing its graph gives: the K and V rows of its tokens. -/
structure Compute (m : KvParams) where
  ubatch : Ubatch
  status : GgmlStatus
  k : ∀ il, Nat → Format.Block (m.kSizeRow il)
  v : ∀ il, Fin (m.vRows il) → Nat → Format.Block (m.vPiece il)

/-- The graph writes the rows of the tokens to the slot, K rotated to the positions of its cells. -/
def KvCache.writeRows (c : KvCache m size) (g : Compute m) : KvCache m size :=
  let inSlot (i : Nat) : Prop := c.head ≤ i ∧ i < c.head + g.ubatch.nTokens
  { c with
    k := fun il i => if inSlot i then g.k il (i - c.head) else c.k il i
    v := fun il j i => if inSlot i then g.v il j (i - c.head) else c.v il j i
    rot := fun i => if inSlot i then (c.cells i).pos else c.rot i }

/-- The loop of `decode` over the ubatches, and what `decode` returns. -/
def KvCache.decodeLoop (c : KvCache m size) : List (Compute m) → KvCache m size × Int
  | [] => (c, 0)
  | g :: gs =>
    let r := c.findSlot g.ubatch
    if r.2 then
      match g.status with
      | .success => (r.1.writeRows g).decodeLoop gs
      | .aborted => (r.1, 2)
      | .allocFailed => (r.1, -2)
      | .failed => (r.1, -3)
    else (r.1, 1)

/-- A call of `llama_context::decode`: the checks it makes before `kv_self_update`, the ubatches
that the batch is split into, and whether the fragmentation is over the threshold afterwards. -/
structure DecodeCall (m : KvParams) where
  tokensValid : Bool
  outputReserved : Bool
  computes : List (Compute m)
  fragmented : Bool

/-- `llama_context::decode` under its guard; an invalid token is thrown, the other results are
returned. `none` where `update` aborts. -/
def KvCache.decode (c : KvCache m size) (call : DecodeCall m) :
    Option (KvCache m size × Except String Int) :=
  if !call.tokensValid then some (c.restore, .error "invalid token")
  else if !call.outputReserved then some (c.restore, .ok (-2))
  else c.update.map fun c =>
    let r := c.decodeLoop call.computes
    if r.2 = 0 then
      let c := r.1.commit
      ({ c with doDefrag := c.doDefrag || call.fragmented }.restore, .ok 0)
    else (r.1.restore, .ok r.2)

end LamaServer

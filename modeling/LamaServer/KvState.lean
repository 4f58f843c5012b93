import LamaServer.Hex
import LamaServer.KvCache
import LamaServer.Lib.Except
import Mathlib.Data.Finset.Sort

/-!
# Saving and loading the unified KV cache

`state_write` and `state_read`, for one sequence or, with the id `-1`, for the whole cache. The
writer lists the cells it takes and writes their meta data and then their rows, layer by layer; the
ranges it batches the copies by are not kept. A read past the end of the stream throws, a check that
fails makes `state_read` clean up and throw, and a failed assertion aborts. The ghost positions of
the K rows travel beside the bytes.
-/

namespace LamaServer

open Format

def u32 : Format Nat := unsigned 4
def i32 : Format Int := signed 4
def u64 : Format Nat := unsigned 8

variable {m : KvParams} {size : Nat}

/-! ## Writing -/

/-- The cells `state_write` takes. -/
def KvCache.written (c : KvCache m size) (seqId : Int) : List Nat :=
  (List.range size).filter fun i =>
    (seqId = -1 ∧ (c.cells i).seqId ≠ ∅) ∨ seqId ∈ (c.cells i).seqId

/-- `state_write_meta`. -/
def KvCache.stateWriteMeta (c : KvCache m size) (seqId : Int) (ids : List Nat) : Bytes :=
  ids.flatMap fun i =>
    let seqIds := if seqId = -1 then (c.cells i).seqId.sort (· ≤ ·) else []
    i32.write (c.cells i).pos ++ u32.write seqIds.length ++ seqIds.flatMap i32.write

def KvCache.writeKeys (c : KvCache m size) (ids : List Nat) (il : Fin m.nLayer) : Bytes :=
  i32.write (m.kType il) ++ u64.write (m.kSizeRow il) ++ ids.flatMap fun i => (c.k il i).1

/-- What stands before the values of a layer. -/
def writeValueHeader (m : KvParams) (il : Fin m.nLayer) : Bytes :=
  if !m.vTrans then i32.write (m.vType il) ++ u64.write (m.vSizeRow il)
  else i32.write (m.vType il) ++ u32.write (m.vSizeEl il) ++ u32.write (m.nEmbdVGqa il)

/-- The values of a layer; where V is transposed each of its rows is written for all cells. -/
def KvCache.writeValues (c : KvCache m size) (ids : List Nat) (il : Fin m.nLayer) : Bytes :=
  writeValueHeader m il ++
    (List.finRange (m.vRows il)).flatMap fun j => ids.flatMap fun i => (c.v il j i).1

/-- `state_write_data`. -/
def KvCache.stateWriteData (c : KvCache m size) (ids : List Nat) : Bytes :=
  u32.write m.vTrans.toNat ++ u32.write m.nLayer ++
    (List.finRange m.nLayer).flatMap (c.writeKeys ids) ++
    (List.finRange m.nLayer).flatMap (c.writeValues ids)

def KvCache.stateWrite (c : KvCache m size) (seqId : Int) : Bytes :=
  let ids := c.written seqId
  u32.write ids.length ++ c.stateWriteMeta seqId ids ++ c.stateWriteData ids

/-! ## Reading -/

/-- Why a read stops: the stream is too short, or a check fails. -/
inductive ReadError where
  | short | refused
  deriving DecidableEq

/-- `io.read_to`, `io.read`. -/
def readTo {α : Type} (f : Format α) (bs : Bytes) : Except ReadError (α × Bytes) :=
  .ofOption .short (f.read bs)

/-- Reads a value and checks that it is the one of the cache. -/
def expect {α : Type} [DecidableEq α] (f : Format α) (a : α) (bs : Bytes) :
    Except ReadError Bytes := do
  let r ← readTo f bs
  if r.1 ≠ a then .error .refused else .ok r.2

/-- The loop of `state_read_meta` for one sequence: the positions of its cells, which must not name
sequences. -/
def readPositions : Nat → Bytes → Except ReadError (List Int × Bytes)
  | 0, bs => .ok ([], bs)
  | n + 1, bs => do
    let r ← readTo i32 bs
    let bs ← expect u32 0 r.2
    let rs ← readPositions n bs
    .ok (r.1 :: rs.1, rs.2)

/-- The sequences of a cell, added to those read before. -/
def readSeqIds : Nat → Finset Int → Bytes → Finset Int × Except ReadError Bytes
  | 0, ids, bs => (ids, .ok bs)
  | n + 1, ids, bs =>
    match readTo i32 bs with
    | .error e => (ids, .error e)
    | .ok (seqId, bs) =>
      if seqId < 0 then (ids, .error .refused) else readSeqIds n (insert seqId ids) bs

/-- The loop of `state_read_meta` for the whole cache: the cells that were filled, the last one
perhaps in part. -/
def readCells : Nat → Bytes → List (Int × Finset Int) × Except ReadError Bytes
  | 0, bs => ([], .ok bs)
  | n + 1, bs =>
    match readTo i32 bs with
    | .error e => ([], .error e)
    | .ok (pos, bs) =>
      match readTo u32 bs with
      | .error e => ([], .error e)
      | .ok (nSeqId, bs) =>
        match readSeqIds nSeqId ∅ bs with
        | (ids, .error e) => ([(pos, ids)], .error e)
        | (ids, .ok bs) =>
          let rs := readCells n bs
          ((pos, ids) :: rs.1, rs.2)

/-- The cache as a read leaves it, and the rest of the stream. -/
abbrev Loading (m : KvParams) (size : Nat) := KvCache m size × Except ReadError Bytes

def Loading.bind (r : Loading m size) (f : KvCache m size → Bytes → Loading m size) :
    Loading m size :=
  match r with
  | (c, .ok bs) => f c bs
  | (c, .error e) => (c, .error e)

/-- A loop of a read. -/
def readEach {ι : Type} (f : ι → KvCache m size → Bytes → Loading m size) :
    List ι → KvCache m size → Bytes → Loading m size
  | [], c, bs => (c, .ok bs)
  | a :: as, c, bs => Loading.bind (f a c bs) (readEach f as)

/-- The batch `state_read_meta` asks a slot for. -/
def loadUbatch (dest : Int) (positions : List Int) : Ubatch where
  nSeqs := 1
  nSeqTokens := positions.length
  pos i := positions.getD i 0
  seqId _ := [dest]

/-- The assertions after a slot was found. -/
def KvCache.slotChecks (c : KvCache m size) (dest : Int) (positions : List Int) : Prop :=
  let last := c.cells (c.head + positions.length - 1)
  c.head + positions.length ≤ size ∧
    positions.head? = some (c.cells c.head).pos ∧ positions.getLast? = some last.pos ∧
    dest ∈ (c.cells c.head).seqId ∧ dest ∈ last.seqId

instance (c : KvCache m size) (dest : Int) (positions : List Int) :
    Decidable (c.slotChecks dest positions) :=
  inferInstanceAs (Decidable (_ ∧ _))

/-- `state_read_meta` with a sequence; `none` where an assertion fails. -/
def KvCache.readMetaSeq (c : KvCache m size) (dest : Int) (count : Nat) (bs : Bytes) :
    Option (Loading m size) :=
  let c := c.seqRm dest (-1) (-1)
  match readPositions count bs with
  | .error e => some (c, .error e)
  | .ok (positions, bs) =>
    let r := c.findSlot (loadUbatch dest positions)
    if r.2 then
      let c := r.1.commit
      if c.slotChecks dest positions then some (c, .ok bs) else none
    else some (r.1, .error .refused)

/-- A cell of a whole cache that is read. -/
def KvCell.filled (cell : KvCell) : Option (Int × Finset Int) → KvCell
  | some (pos, ids) => { cell with pos := pos, seqId := ids }
  | none => cell

def KvCache.fillCells (c : KvCache m size) (cells : List (Int × Finset Int)) : KvCache m size :=
  { c with cells := fun i => (c.cells i).filled cells[i]? }

/-- `state_read_meta` for the whole cache. -/
def KvCache.readMetaAll (c : KvCache m size) (count : Nat) (bs : Bytes) : Loading m size :=
  if size < count then (c, .error .refused)
  else
    let r := readCells count bs
    let c := c.clear.fillCells r.1
    match r.2 with
    | .error e => (c, .error e)
    | .ok bs => ({ c with head := 0, used := count }, .ok bs)

/-- `ggml_backend_tensor_set` of the rows from a cell on. -/
def setRows {α : Type} (head : Nat) (rows : List α) (old : Nat → α) : Nat → α :=
  fun i => if head ≤ i then rows.getD (i - head) (old i) else old i

def readKeyHeader (m : KvParams) (il : Fin m.nLayer) (bs : Bytes) : Except ReadError Bytes := do
  let bs ← expect i32 (m.kType il) bs
  expect u64 (m.kSizeRow il) bs

def KvCache.readKeys (count : Nat) (il : Fin m.nLayer) (c : KvCache m size) (bs : Bytes) :
    Loading m size :=
  match readKeyHeader m il bs >>= readTo (many (block (m.kSizeRow il)) count) with
  | .error e => (c, .error e)
  | .ok (rows, bs) =>
    ({ c with k := Function.update c.k il (setRows c.head rows (c.k il)) }, .ok bs)

def readValueHeader (m : KvParams) (il : Fin m.nLayer) (bs : Bytes) : Except ReadError Bytes := do
  let bs ← expect i32 (m.vType il) bs
  if !m.vTrans then expect u64 (m.vSizeRow il) bs
  else
    let bs ← expect u32 (m.vSizeEl il) bs
    expect u32 (m.nEmbdVGqa il) bs

def KvCache.readValueRow (count : Nat) (il : Fin m.nLayer) (j : Fin (m.vRows il))
    (c : KvCache m size) (bs : Bytes) : Loading m size :=
  match readTo (many (block (m.vPiece il)) count) bs with
  | .error e => (c, .error e)
  | .ok (rows, bs) =>
    ({ c with
        v := Function.update c.v il
          (Function.update (c.v il) j (setRows c.head rows (c.v il j))) }, .ok bs)

def KvCache.readValues (count : Nat) (il : Fin m.nLayer) (c : KvCache m size) (bs : Bytes) :
    Loading m size :=
  match readValueHeader m il bs with
  | .error e => (c, .error e)
  | .ok bs => readEach (KvCache.readValueRow count il) (List.finRange (m.vRows il)) c bs

/-- The first checks of `state_read_data`. -/
def readDataHeader (m : KvParams) (size count : Nat) (bs : Bytes) : Except ReadError Bytes := do
  let vTrans ← readTo u32 bs
  let nLayer ← readTo u32 vTrans.2
  if nLayer.1 ≠ m.nLayer then .error .refused
  else if size < count then .error .refused
  else if m.vTrans ≠ decide (vTrans.1 ≠ 0) then .error .refused
  else .ok nLayer.2

/-- `state_read_data`. When all K rows are in place they have the rotations of the saved ones. -/
def KvCache.stateReadData (c : KvCache m size) (count : Nat) (rots : List Int) (bs : Bytes) :
    Loading m size :=
  Loading.bind (c, readDataHeader m size count bs) fun c bs =>
    Loading.bind (readEach (KvCache.readKeys count) (List.finRange m.nLayer) c bs) fun c bs =>
      readEach (KvCache.readValues count) (List.finRange m.nLayer)
        { c with rot := setRows c.head (rots.take count) c.rot } bs

/-- What a call of `state_read` comes to. `failed` covers the exceptions, which
`state_seq_set_data` catches. -/
inductive Loaded (m : KvParams) (size : Nat) where
  | loaded (c : KvCache m size) (rest : Bytes)
  | failed (c : KvCache m size)
  | aborted

/-- The end of `state_read`: a refused stream is cleaned up after, an exception of the stream goes
through. -/
def finishRead (seqId : Int) : Loading m size → Loaded m size
  | (c, .ok bs) => .loaded c bs
  | (c, .error .short) => .failed c
  | (c, .error .refused) => .failed (if seqId = -1 then c.clear else c.seqRm seqId (-1) (-1))

def KvCache.stateRead (c : KvCache m size) (seqId : Int) (bs : Bytes) (rots : List Int) :
    Loaded m size :=
  match readTo u32 bs with
  | .error _ => .failed c
  | .ok (count, bs) =>
    let placed := if seqId = -1 then some (c.readMetaAll count bs) else c.readMetaSeq seqId count bs
    match placed with
    | none => .aborted
    | some r => finishRead seqId (r.bind fun c bs => c.stateReadData count rots bs)

end LamaServer

import LamaServer.KvState

/-!
# The recurrent KV cache

`llama_kv_cache_recurrent`: a cell keeps the state of the sequences it belongs to, and
`cells[s].tail` is the cell that keeps the state of sequence `s`. `src` is the row that the state of
a cell is in until the next graph copies it to the row of the cell. The cells past `size` do not
exist. The rows themselves, the warnings and the writing of a state are left out.
-/

namespace LamaServer

open Index (firstBelow)
open Format (many block)

/-- `llama_kv_cache_recurrent::kv_cell`. -/
structure RecurrentCell where
  pos : Int := -1
  src : Int := -1
  tail : Int := -1
  seqId : Finset Int := ∅
  deriving DecidableEq

structure RecurrentCache (size : Nat) where
  size_pos : 0 < size
  size_lt : size < 2 ^ 31
  head : Nat := 0
  /-- a `uint32_t`, read modulo `2 ^ 32` -/
  used : Int := 0
  n : Nat := 0
  cells : Nat → RecurrentCell := fun _ => {}
  /-- `pending.ranges` -/
  pending : List (Nat × Nat) := []

variable {size : Nat}

namespace RecurrentCell

/-- The cell of no sequence; which cell keeps the state of its number stays. -/
def emptied (cell : RecurrentCell) : RecurrentCell :=
  { cell with pos := -1, src := -1, seqId := ∅ }

/-- Takes a sequence off a cell, which is emptied if it was the last one. -/
def left (seqId : Int) (cell : RecurrentCell) : RecurrentCell :=
  if cell.seqId.erase seqId = ∅ then cell.emptied
  else { cell with seqId := cell.seqId.erase seqId }

end RecurrentCell

namespace RecurrentCache

def modify (c : RecurrentCache size) (i : Nat) (f : RecurrentCell → RecurrentCell) :
    RecurrentCache size :=
  { c with cells := Function.update c.cells i (f (c.cells i)) }

/-- The tail of a sequence. -/
def tail (c : RecurrentCache size) (seqId : Int) : Int := (c.cells seqId.toNat).tail

def setTail (c : RecurrentCache size) (seqId tail : Int) : RecurrentCache size :=
  c.modify seqId.toNat fun cell => { cell with tail := tail }

def clear (c : RecurrentCache size) : RecurrentCache size :=
  { c with cells := fun _ => {}, head := 0, used := 0 }

end RecurrentCache

/-! ## The operations on sequences -/

/-- What the body of a loop does to a cell, whether it takes one off `used`, and whether it makes
the cell a candidate for `new_head`. -/
structure RecurrentTouched where
  cell : RecurrentCell
  unused : Bool := false
  freed : Bool := false

namespace RecurrentCache

/-- A loop over all cells; the head is set to a freed slot, so that searching can start there. -/
def sweep (c : RecurrentCache size) (body : Nat → RecurrentCell → RecurrentTouched) :
    RecurrentCache size :=
  let newHead := firstBelow size fun i => (body i (c.cells i)).freed
  { c with
    cells := fun i => (body i (c.cells i)).cell
    used := c.used - Nat.count (fun i => (body i (c.cells i)).unused) size
    head := if newHead ≠ size ∧ newHead < c.head then newHead else c.head }

end RecurrentCache

def RecurrentCell.rm (seqId p0 p1 : Int) (cell : RecurrentCell) : RecurrentTouched :=
  if p0 ≤ cell.pos ∧ cell.pos < p1 ∧ (seqId < 0 ∨ seqId ∈ cell.seqId) then
    if seqId < 0 ∨ cell.seqId.erase seqId = ∅ then
      { cell := cell.emptied, unused := 0 ≤ cell.pos, freed := true }
    else { cell := { cell with seqId := cell.seqId.erase seqId } }
  else { cell }

namespace RecurrentCache

/-- The checks of `seq_rm`, and the tail that it invalidates; `none` where it returns false. -/
def rmTail (c : RecurrentCache size) (seqId p0 p1 : Int) : Option (RecurrentCache size) :=
  if size ≤ seqId then none
  else if 0 ≤ seqId then
    let cell := c.cells (c.tail seqId).toNat
    if 0 ≤ c.tail seqId then
      if (0 < p0 ∧ p0 ≤ cell.pos) ∨ (0 < p1 ∧ p1 ≤ cell.pos) then none
      else some (if p0 ≤ cell.pos ∧ cell.pos < p1 then c.setTail seqId (-1) else c)
    else some c
  else if p0 ≠ p1 ∧ (p0 ≠ 0 ∨ p1 ≠ posMax) then none
  else some c

def seqRm (c : RecurrentCache size) (seqId p0 p1 : Int) : RecurrentCache size × Bool :=
  match c.rmTail seqId (rangeStart p0) (rangeEnd p1) with
  | none => (c, false)
  | some c => (c.sweep fun _ => RecurrentCell.rm seqId (rangeStart p0) (rangeEnd p1), true)

/-- Takes a sequence off the cell that keeps its state, as `seq_cp` and `find_slot` do. -/
def leave (c : RecurrentCache size) (seqId : Int) : RecurrentCache size :=
  if 0 ≤ c.tail seqId then
    let i := (c.tail seqId).toNat
    let c' := (c.modify i (·.left seqId)).setTail seqId (-1)
    if (c.cells i).seqId.erase seqId = ∅ then { c' with used := c'.used - 1 } else c'
  else c

/-- `seq_cp`; the positions are not looked at. -/
def seqCp (c : RecurrentCache size) (src dst : Int) : RecurrentCache size :=
  if src = dst then c
  else if (0 ≤ dst ∧ dst < size) ∧ 0 ≤ src ∧ src < size then
    let c := c.leave dst
    if 0 ≤ c.tail src then
      (c.modify (c.tail src).toNat fun cell =>
        { cell with seqId := insert dst cell.seqId }).setTail dst (c.tail src)
    else c
  else c

end RecurrentCache

def RecurrentCell.keep (seqId : Int) (i : Nat) (cell : RecurrentCell) : RecurrentTouched :=
  let cell : RecurrentCell := { cell with tail := if (i : Int) ≠ seqId then -1 else cell.tail }
  if seqId ∈ cell.seqId then { cell := { cell with seqId := {seqId} } }
  else { cell := cell.emptied, unused := 0 ≤ cell.pos, freed := true }

namespace RecurrentCache

def seqKeep (c : RecurrentCache size) (seqId : Int) : RecurrentCache size :=
  c.sweep fun i => RecurrentCell.keep seqId i

/-- Changes the position of the cell of a sequence, if it is in the range. -/
def moveSeq (c : RecurrentCache size) (seqId p0 p1 : Int) (f : Int → Int) : RecurrentCache size :=
  let cell := c.cells (c.tail seqId).toNat
  if (0 ≤ seqId ∧ seqId < size) ∧ 0 ≤ c.tail seqId ∧ seqId ∈ cell.seqId ∧
      rangeStart p0 ≤ cell.pos ∧ cell.pos < rangeEnd p1 then
    c.modify (c.tail seqId).toNat fun cell => { cell with pos := f cell.pos }
  else c

def seqAdd (c : RecurrentCache size) (seqId p0 p1 delta : Int) : RecurrentCache size :=
  if delta = 0 ∨ rangeStart p0 = rangeEnd p1 then c else c.moveSeq seqId p0 p1 (· + delta)

def seqDiv (c : RecurrentCache size) (seqId p0 p1 d : Int) : RecurrentCache size :=
  if d = 1 ∨ rangeStart p0 = rangeEnd p1 then c else c.moveSeq seqId p0 p1 (·.tdiv d)

def restore (c : RecurrentCache size) : RecurrentCache size :=
  if c.pending = [] then c else (c.seqRm (-1) (-1) (-1)).1

def commit (c : RecurrentCache size) : RecurrentCache size := { c with pending := [] }

end RecurrentCache

/-! ## Finding a slot -/

/-- The sequences of the rows of a ubatch, each with its place in its row. -/
def Ubatch.rowIds (ub : Ubatch) : List (Int × Nat) :=
  (List.range ub.nSeqs).flatMap fun s => (ub.seqId s).zipIdx

/-- `ubatch.seq_id[s][0]`. -/
def Ubatch.firstId (ub : Ubatch) (s : Nat) : Int := (ub.seqId s).headD 0

namespace RecurrentCache

/-- Clears cells from sequences that become shared; whether everything fits. -/
def clearShared (c : RecurrentCache size) : List (Int × Nat) → RecurrentCache size × Bool
  | [] => (c, true)
  | (seqId, j) :: ids =>
    if seqId < 0 ∨ size ≤ seqId then (c, false)
    else clearShared (if 0 < j then c.leave seqId else c) ids

/-- `tails_verif`: the last cell that lists a sequence. -/
def tailVerif (c : RecurrentCache size) (seqId : Int) : Int :=
  match (List.range size).reverse.find? fun i => seqId ∈ (c.cells i).seqId with
  | some i => i
  | none => -1

/-- No check of the tails in `find_slot` reports a duplicate or a wrong tail. -/
def TailsVerified (c : RecurrentCache size) : Prop :=
  (∀ i < size, ∀ j < size, ∀ t ∈ (c.cells i).seqId, t ∈ (c.cells j).seqId → i = j) ∧
    ∀ s < size, c.tailVerif s = (c.cells s).tail

/-- The loop that finds the next empty cell; the first argument counts its rounds. -/
def nextEmpty (c : RecurrentCache size) : Nat → Nat → Nat
  | 0, next => next
  | r + 1, next =>
    let next := if size ≤ next then next - size else next
    if (c.cells next).seqId = ∅ then next else nextEmpty c r (next + 1)

/-- The variables of the loop that finds usable cells. -/
structure Taking (size : Nat) where
  cache : RecurrentCache size
  next : Nat
  min : Nat
  max : Nat

/-- Gives the empty cell `next` to a sequence, with a copy of its state. -/
def giveCell (c : RecurrentCache size) (seqId : Int) (next : Nat) : RecurrentCache size :=
  let tail := (c.tail seqId).toNat
  let copied :=
    if 0 ≤ c.tail seqId then
      (c.modify next fun cell =>
        { cell with
          pos := (c.cells tail).pos
          src := (c.cells tail).src
          seqId := insert seqId cell.seqId }).modify tail fun cell =>
        { cell with seqId := cell.seqId.erase seqId }
    else c
  copied.setTail seqId next

/-- The body of the loop that finds usable cells; `none` where an assertion fails, or where a row
has no sequence. -/
def takeCell (ub : Ubatch) (st : Taking size) (s : Nat) : Option (Taking size) :=
  match ub.seqId s with
  | [] => none
  | seqId :: _ =>
    let c := st.cache
    let cell := c.cells (c.tail seqId).toNat
    if 0 ≤ c.tail seqId ∧ seqId ∉ cell.seqId then none
    else
      let taken :=
        if 0 ≤ c.tail seqId ∧ cell.seqId.card = 1 then some (c, st.next)
        else if st.next < size ∧ (c.cells st.next).seqId = ∅ then
          let c := c.giveCell seqId st.next
          some (c, if s + 1 < ub.nSeqs then c.nextEmpty size (st.next + 1) else st.next)
        else none
      taken.map fun (c, next) =>
        { cache := c
          next := next
          min := Nat.min st.min (c.tail seqId).toNat
          max := Nat.max st.max (c.tail seqId).toNat }

/-- The body of the loop that gathers: swaps two cells but for their tails, and sets the tails of
the sequences that they list. -/
def gatherRow (ub : Ubatch) (min : Nat) (c : RecurrentCache size) (s : Nat) : RecurrentCache size :=
  let dst := s + min
  let src := (c.tail (ub.firstId s)).toNat
  if dst = src then c
  else
    let content (i : Nat) : RecurrentCell :=
      if i = dst then c.cells src else if i = src then c.cells dst else c.cells i
    { c with
      cells := fun i =>
        { content i with
          tail :=
            if (i : Int) ∈ (content dst).seqId then dst
            else if (i : Int) ∈ (content src).seqId then src
            else (c.cells i).tail } }

/-- The body of the loop that updates the positions. -/
def placeRow (ub : Ubatch) (min : Nat) (c : RecurrentCache size) (s : Nat) : RecurrentCache size :=
  let cellId := s + min
  { c with
    cells := fun i =>
      let cell := c.cells i
      let tail : Int := if (i : Int) ∈ ub.seqId s then cellId else cell.tail
      if i = cellId then
        { cell with
          pos := ub.pos (ub.nSeqTokens * s + ub.nSeqTokens - 1)
          seqId := (ub.seqId s).toFinset
          tail := tail }
      else { cell with tail := tail } }

/-- The loop that finds usable cells. -/
def takeCells (c : RecurrentCache size) (ub : Ubatch) : Option (Taking size) :=
  (List.range ub.nSeqs).foldlM (takeCell ub)
    { cache := c, next := c.nextEmpty size c.head, min := size - 1, max := 0 }

/-- `find_slot`; `none` where it aborts. -/
def findSlot (c : RecurrentCache size) (ub : Ubatch) : Option (RecurrentCache size × Bool) :=
  let entered :=
    { c with head := if (c.used + 2 * ub.nTokens) % 2 ^ 32 < c.head then 0 else c.head }.clearShared
      ub.rowIds
  if entered.2 then
    (entered.1.takeCells ub).map fun st =>
      let c := (List.range ub.nSeqs).foldl (gatherRow ub st.min) st.cache
      let c := (List.range ub.nSeqs).foldl (placeRow ub st.min) c
      let n := (((st.max : Int) - st.min + 1) % 2 ^ 32).toNat
      ({ c with
          head := st.min
          n := n
          used := Nat.count (fun i => (c.cells i).seqId ≠ ∅) size },
        ub.nSeqs ≤ n)
  else some entered

/-- The inputs of a graph: `s_copy` leaves each state of the slot in the row of its cell, so that
`s_mask` finds nothing to clear. -/
def setInputs (c : RecurrentCache size) : RecurrentCache size :=
  { c with
    cells := fun i =>
      if c.head ≤ i ∧ i < c.head + c.n then { c.cells i with src := i } else c.cells i }

end RecurrentCache

/-! ## Loading -/

/-- The cache as a read leaves it, and the rest of the stream. -/
abbrev RecurrentLoading (size : Nat) := RecurrentCache size × Except ReadError Bytes

namespace RecurrentCache

/-- "make sure the recurrent states will keep their restored state" -/
def keepRestored (c : RecurrentCache size) (count : Nat) : RecurrentCache size :=
  { c with
    cells := fun i =>
      if c.head ≤ i ∧ i < c.head + count then { c.cells i with src := i } else c.cells i }

/-- The assertions after a slot was found. -/
def slotChecks (c : RecurrentCache size) (dest : Int) (positions : List Int) : Prop :=
  let last := c.cells (c.head + positions.length - 1)
  c.head + positions.length ≤ size ∧
    positions.head? = some (c.cells c.head).pos ∧ positions.getLast? = some last.pos ∧
    dest ∈ (c.cells c.head).seqId ∧ dest ∈ last.seqId

instance (c : RecurrentCache size) (dest : Int) (positions : List Int) :
    Decidable (c.slotChecks dest positions) :=
  inferInstanceAs (Decidable (_ ∧ _))

/-- `state_read_meta` with a sequence; `none` where an assertion fails. -/
def readMetaSeq (c : RecurrentCache size) (dest : Int) (count : Nat) (bs : Bytes) :
    Option (RecurrentLoading size) :=
  let c := (c.seqRm dest (-1) (-1)).1
  match readPositions count bs with
  | .error e => some (c, .error e)
  | .ok (positions, bs) =>
    match c.findSlot (loadUbatch dest positions) with
    | none => none
    | some (c, false) => some (c, .error .refused)
    | some (c, true) =>
      if c.commit.slotChecks dest positions then some (c.commit.keepRestored count, .ok bs)
      else none

/-- The sequences of the cell `i`, each with its tail. -/
def readCellIds (i : Nat) : Nat → RecurrentCache size → Bytes → RecurrentLoading size
  | 0, c, bs => (c, .ok bs)
  | n + 1, c, bs =>
    match readTo i32 bs with
    | .error e => (c, .error e)
    | .ok (seqId, bs) =>
      if seqId < 0 then (c, .error .refused)
      else
        let c := c.modify i fun cell => { cell with seqId := insert seqId cell.seqId }
        if c.tail seqId ≠ -1 then (c, .error .refused)
        else readCellIds i n (c.setTail seqId i) bs

/-- The loop of `state_read_meta` over the cells from `i` on. -/
def readCellsFrom : Nat → Nat → RecurrentCache size → Bytes → RecurrentLoading size
  | 0, _, c, bs => (c, .ok bs)
  | n + 1, i, c, bs =>
    match readTo i32 bs with
    | .error e => (c, .error e)
    | .ok (pos, bs) =>
      match readTo u32 bs with
      | .error e => (c, .error e)
      | .ok (nSeqId, bs) =>
        match readCellIds i nSeqId (c.modify i fun cell => { cell with pos := pos }) bs with
        | (c, .error e) => (c, .error e)
        | (c, .ok bs) => readCellsFrom n (i + 1) c bs

/-- `state_read_meta` for the whole cache. -/
def readMetaAll (c : RecurrentCache size) (count : Nat) (bs : Bytes) : RecurrentLoading size :=
  if size < count then (c, .error .refused)
  else
    match readCellsFrom count 0 c.clear bs with
    | (c, .error e) => (c, .error e)
    | (c, .ok bs) => ({ c with head := 0, used := count }.keepRestored count, .ok bs)

end RecurrentCache

/-- `state_read_data`, which changes no cell. -/
def readRecurrentData (m : KvParams) (size count : Nat) (bs : Bytes) :
    Except ReadError Bytes := do
  let vTrans ← readTo u32 bs
  let nLayer ← readTo u32 vTrans.2
  if nLayer.1 ≠ m.nLayer then .error .refused
  else if size < count then .error .refused
  else if vTrans.1 ≠ 0 then .error .refused
  else
    let bs ← (List.finRange m.nLayer).foldlM (fun bs il => do
      let bs ← readKeyHeader m il bs
      let r ← readTo (many (block (m.kSizeRow il)) count) bs
      .ok r.2) nLayer.2
    (List.finRange m.nLayer).foldlM (fun bs il => do
      let bs ← expect i32 (m.vType il) bs
      let bs ← expect u64 (m.vSizeRow il) bs
      let r ← readTo (many (block (m.vSizeRow il)) count) bs
      .ok r.2) bs

namespace RecurrentCache

/-- `state_read`: the cache that it leaves, unless it aborts. -/
def stateRead (m : KvParams) (c : RecurrentCache size) (seqId : Int) (bs : Bytes) :
    Option (RecurrentCache size) :=
  match readTo u32 bs with
  | .error _ => some c
  | .ok (count, bs) =>
    let placed := if seqId = -1 then some (c.readMetaAll count bs) else c.readMetaSeq seqId count bs
    placed.map fun r =>
      match r.2 >>= readRecurrentData m size count with
      | .error .refused => if seqId = -1 then r.1.clear else (r.1.seqRm seqId (-1) (-1)).1
      | _ => r.1

/-! ## Decoding -/

/-- The loop of `decode` over the ubatches, each with the status of its graph, and what `decode`
returns; `none` where `find_slot` aborts. -/
def decodeLoop (c : RecurrentCache size) :
    List (Ubatch × GgmlStatus) → Option (RecurrentCache size × Int)
  | [] => some (c, 0)
  | (ub, status) :: gs =>
    match c.findSlot ub with
    | none => none
    | some (c, false) => some (c, 1)
    | some (c, true) =>
      match status with
      | .success => c.setInputs.decodeLoop gs
      | .aborted => some (c.setInputs, 2)
      | .allocFailed => some (c.setInputs, -2)
      | .failed => some (c.setInputs, -3)

end RecurrentCache

/-- A call of `llama_context::decode` on a recurrent cache. -/
structure RecurrentCall where
  tokensValid : Bool
  outputReserved : Bool
  ubatches : List (Ubatch × GgmlStatus)

/-- `llama_context::decode` under its guard; an invalid token is thrown, the other results are
returned. `update` and the scheduling of a defragmentation do nothing. -/
def RecurrentCache.decode (c : RecurrentCache size) (call : RecurrentCall) :
    Option (RecurrentCache size × Except String Int) :=
  if !call.tokensValid then some (c.restore, .error "invalid token")
  else if !call.outputReserved then some (c.restore, .ok (-2))
  else (c.decodeLoop call.ubatches).map fun r =>
    if r.2 = 0 then (r.1.commit.restore, .ok 0) else (r.1.restore, .ok r.2)

end LamaServer

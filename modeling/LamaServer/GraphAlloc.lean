import LamaServer.Lib.FreeList
import Mathlib.Data.List.FinRange
import Mathlib.Logic.Function.Basic

/-!
# The graph allocator

`ggml-alloc.c`. The memory of a compute graph is planned before it exists: the plan runs through the
nodes in order, gives each tensor a place in a buffer, and takes the place back behind its last
reader. Sizes are natural numbers, since no tensor comes within an alignment of 2^64 bytes, and the
table of the tensors is a function, where the source ends when its table is full.
-/

namespace LamaServer

open FreeList

/-- `enum ggml_op`: those that may work in place, and the others by their number. -/
inductive GgmlOp where
  | none
  | scale | diagMaskZero | diagMaskInf | add | add1 | sub | mul | div | sqr | sqrt | log | unary
  | rope | ropeBack | siluBack | rmsNorm | rmsNormBack | softMax | softMaxBack
  | other (op : ℕ)
deriving DecidableEq, Repr

def opCanInplace : GgmlOp → Bool
  | .none | .other _ => false
  | _ => true

/-- `type`, `ne` and `nb` of a tensor, and with them what a buffer type needs for it. -/
structure TensorLayout where
  type : ℕ
  ne : Fin 4 → ℕ
  nb : Fin 4 → ℕ

/-- `GGML_MAX_SRC` -/
abbrev ggmlMaxSrc : ℕ := 10

theorem neZero_ggmlMaxSrc : NeZero ggmlMaxSrc := ⟨by decide⟩

/-- `struct ggml_tensor`, with pointers to tensors as elements of `V`. -/
structure AllocTensor (V : Type) where
  op : GgmlOp
  layout : TensorLayout
  src : Fin ggmlMaxSrc → Option V
  viewSrc : Option V := none
  data : Option ℕ := none
  /-- `GGML_TENSOR_FLAG_INPUT` -/
  input : Bool := false
  /-- `GGML_TENSOR_FLAG_OUTPUT` -/
  output : Bool := false

/-- `struct ggml_cgraph` -/
structure ComputeGraph (V : Type) where
  tensor : V → AllocTensor V
  nodes : List V
  leafs : List V

/-- What `ggml_gallocr_new_n` is given, and what the buffer types do. -/
structure BufferTypes (Buft : Type) where
  bufts : ℕ → Buft
  nBuffers : ℕ
  /-- `ggml_backend_buft_get_alignment` -/
  alignment : Buft → ℕ
  /-- `ggml_backend_buft_get_alloc_size` -/
  allocSize : Buft → TensorLayout → ℕ
  /-- `ggml_backend_buft_alloc_buffer`: the size of the buffer, unless there is none. -/
  allocBuffer : Buft → (size : ℕ) → Option {n : ℕ // size ≤ n}

/-- `SIZE_MAX` -/
def sizeMax : ℕ := 2 ^ 64 - 1

/-- `MAX_FREE_BLOCKS` -/
def maxFreeBlocks : ℕ := 256

/-- `aligned_offset(NULL, offset, alignment)` -/
def alignedOffset (offset alignment : ℕ) : ℕ :=
  offset + (alignment - offset % alignment) % alignment

/-! ## The dynamic allocator -/

/-- `struct ggml_dyn_tallocr` -/
structure DynTallocr where
  freeBlocks : List Block
  maxSize : ℕ

namespace DynTallocr

variable (alloc : DynTallocr)

/-- `ggml_dyn_tallocr_reset` -/
def reset : DynTallocr := ⟨[⟨0, sizeMax / 2⟩], 0⟩

/-- The best fitting free block from block `i` on, and its size. -/
def bestFit (size : ℕ) : List Block → ℕ → Option ℕ × ℕ → Option ℕ × ℕ
  | [], _, best => best
  | block :: blocks, i, best =>
    bestFit size blocks (i + 1)
      (if size ≤ block.size ∧ block.size ≤ best.2 then (some i, block.size) else best)

/-- The block that `size` bytes are taken from. The last one is the last resort. -/
def findBlock (size : ℕ) : Option ℕ :=
  match (bestFit size alloc.freeBlocks.dropLast 0 (none, sizeMax)).1 with
  | some i => some i
  | none =>
    match alloc.freeBlocks.getLast? with
    | some block => if size ≤ block.size then some (alloc.freeBlocks.length - 1) else none
    | none => none

/-- `ggml_dyn_tallocr_alloc` -/
def allocate (alignment size : ℕ) : Option (ℕ × DynTallocr) := do
  let size := alignedOffset size alignment
  let i ← alloc.findBlock size
  let block ← alloc.freeBlocks[i]?
  let left : Block := ⟨block.offset + size, block.size - size⟩
  let blocks :=
    if left.size = 0 then alloc.freeBlocks.eraseIdx i else alloc.freeBlocks.set i left
  some (block.offset, ⟨blocks, max alloc.maxSize (block.offset + size)⟩)

/-- The free blocks with `size` bytes at `offset` merged into one of them, from behind `before`
on. -/
def mergeBlock (offset size : ℕ) : (before blocks : List Block) → Option (List Block)
  | _, [] => none
  | before, block :: rest =>
    if block.offset + block.size = offset then
      let block : Block := ⟨block.offset, block.size + size⟩
      match rest with
      | [] => some (before ++ [block])
      | next :: rest =>
        if block.offset + block.size = next.offset then
          some (before ++ ⟨block.offset, block.size + next.size⟩ :: rest)
        else some (before ++ block :: next :: rest)
    else if offset + size = block.offset then
      let block : Block := ⟨offset, block.size + size⟩
      match before.getLast? with
      | none => some (before ++ block :: rest)
      | some previous =>
        if previous.offset + previous.size = block.offset then
          some (before.dropLast ++ ⟨previous.offset, previous.size + block.size⟩ :: rest)
        else some (before ++ block :: rest)
    else mergeBlock offset size (before ++ [block]) rest

/-- `ggml_dyn_tallocr_free_tensor` -/
def freeTensor (alignment offset size : ℕ) : Option DynTallocr :=
  let size := alignedOffset size alignment
  match mergeBlock offset size [] alloc.freeBlocks with
  | some blocks => some { alloc with freeBlocks := blocks }
  | none =>
    if alloc.freeBlocks.length < maxFreeBlocks then
      some { alloc with
        freeBlocks := alloc.freeBlocks.takeWhile (·.offset < offset) ++
          ⟨offset, size⟩ :: alloc.freeBlocks.dropWhile (·.offset < offset) }
    else none

end DynTallocr

/-! ## The plan -/

/-- `struct hash_node` -/
structure HashNode where
  nChildren : ℤ := 0
  nViews : ℤ := 0
  bufferId : ℕ := 0
  /-- offset within the buffer -/
  offset : ℕ := 0
  allocated : Bool := false

/-- `hash_values` and `buf_tallocs`: buffers of one type share their allocator. -/
structure AllocPlan (V Buft : Type) where
  hash : V → HashNode
  tallocs : Buft → DynTallocr

section Plan

variable {V Buft : Type} [DecidableEq V] [DecidableEq Buft] (B : BufferTypes Buft)
  (c : ComputeGraph V)

namespace ComputeGraph

def isView (t : V) : Bool := (c.tensor t).viewSrc.isSome

/-- The sources of a node, in order. -/
def srcs (node : V) : List V := (List.finRange ggmlMaxSrc).filterMap (c.tensor node).src

def sameLayout (a b : V) : Bool :=
  (c.tensor a).layout.type == (c.tensor b).layout.type &&
    (List.finRange 4).all fun i =>
      (c.tensor a).layout.ne i == (c.tensor b).layout.ne i &&
        (c.tensor a).layout.nb i == (c.tensor b).layout.nb i

/-- What a buffer type needs for a tensor. -/
def allocSize (buft : Buft) (t : V) : ℕ := B.allocSize buft (c.tensor t).layout

end ComputeGraph

namespace AllocPlan

variable (g : AllocPlan V Buft)

def setNode (t : V) (hn : HashNode) : AllocPlan V Buft :=
  { g with hash := Function.update g.hash t hn }

def setTalloc (buft : Buft) (alloc : DynTallocr) : AllocPlan V Buft :=
  { g with tallocs := Function.update g.tallocs buft alloc }

def isOwn (t : V) : Bool := (g.hash t).allocated

def isAllocated (t : V) : Bool := (c.tensor t).data.isSome || (g.hash t).allocated

/-- `node` in the place of `parent`, which is not freed any more. -/
def takePlace (node parent : V) : AllocPlan V Buft :=
  let p := g.hash parent
  let g := g.setNode node
    { g.hash node with bufferId := p.bufferId, offset := p.offset }
  g.setNode parent { g.hash parent with allocated := false }

/-- The first of the parents whose place `node` can take is the one whose place it takes. -/
def reuseParent (node : V) : List V → Option (AllocPlan V Buft)
  | [] => none
  | parent :: parents =>
    let p := g.hash parent
    let outputs := (c.tensor parent).output ||
      ((c.tensor parent).viewSrc.map fun v => (c.tensor v).output).getD false
    if g.isOwn parent ∧ ¬ outputs ∧ c.sameLayout node parent ∧ p.nChildren = 1 ∧ p.nViews = 0 then
      match (c.tensor parent).viewSrc with
      | some viewSrc =>
        let v := g.hash viewSrc
        if v.nViews = 1 ∧ v.nChildren = 0 ∧ (c.tensor viewSrc).data = (c.tensor parent).data then
          let g := g.takePlace node parent
          some (g.setNode viewSrc { g.hash viewSrc with allocated := false })
        else reuseParent node parents
      | none => some (g.takePlace node parent)
    else reuseParent node parents

/-- A place of its own for `node`. -/
def newPlace (node : V) (bufferId : ℕ) : Option (AllocPlan V Buft) := do
  let buft := B.bufts bufferId
  let size := c.allocSize B buft node
  let (offset, alloc) ← (g.tallocs buft).allocate (B.alignment buft) size
  let g := g.setTalloc buft alloc
  some (g.setNode node { g.hash node with bufferId := bufferId, offset := offset })

/-- `ggml_gallocr_allocate_node` -/
def allocateNode (node : V) (bufferId : ℤ) : Option (AllocPlan V Buft) :=
  if bufferId < 0 then none
  else if ¬ g.isAllocated c node ∧ ¬ c.isView node then
    let g := g.setNode node { g.hash node with allocated := true }
    if opCanInplace (c.tensor node).op then
      match g.reuseParent c node (c.srcs node) with
      | some g => some g
      | none => g.newPlace B c node bufferId.toNat
    else g.newPlace B c node bufferId.toNat
  else some g

/-- `ggml_gallocr_free_node`: graph outputs are never freed. -/
def freeNode (node : V) : Option (AllocPlan V Buft) :=
  if (c.tensor node).output then some g
  else do
    let hn := g.hash node
    let buft := B.bufts hn.bufferId
    let size := c.allocSize B buft node
    let alloc ← (g.tallocs buft).freeTensor (B.alignment buft) hn.offset size
    some ((g.setTalloc buft alloc).setNode node { hn with allocated := false })

/-- `get_node_buffer_id` -/
def getNodeBufferId (ids : Option (ℕ → ℤ)) (i : ℕ) : ℤ := (ids.map (· i)).getD 0

/-- The leafs come first. -/
def allocLeafs (ids : Option (ℕ → ℤ)) :
    AllocPlan V Buft → List V → ℕ → Option (AllocPlan V Buft)
  | g, [], _ => some g
  | g, leaf :: leafs, i => do
    let g ← g.allocateNode B c leaf (getNodeBufferId ids i)
    allocLeafs ids g leafs (i + 1)

def allocateInput (t : V) (bufferId : ℤ) : Option (AllocPlan V Buft) :=
  if (c.tensor t).input then g.allocateNode B c t bufferId else some g

/-- A source of a node is counted, and allocated when it is an explicit input. -/
def countSrc (bufferId : ℤ) (g : AllocPlan V Buft) (src : V) : Option (AllocPlan V Buft) :=
  let g := g.setNode src { g.hash src with nChildren := (g.hash src).nChildren + 1 }
  g.allocateInput B c src bufferId

/-- A node that is a view is counted, unless it is there for its dependencies only. -/
def countView (node : V) : AllocPlan V Buft :=
  match (c.tensor node).viewSrc with
  | some v =>
    if (c.tensor node).op ≠ .none then
      g.setNode v { g.hash v with nViews := (g.hash v).nViews + 1 }
    else g
  | none => g

/-- The children and the views are counted, and the inputs allocated. -/
def countNodes (ids : Option (ℕ → ℤ)) :
    AllocPlan V Buft → List V → ℕ → Option (AllocPlan V Buft)
  | g, [], _ => some g
  | g, node :: nodes, i => do
    let bufferId := getNodeBufferId ids i
    let g ← (g.countView c node).allocateInput B c node bufferId
    let g ← (c.srcs node).foldlM (countSrc B c bufferId) g
    countNodes ids g nodes (i + 1)

/-- What becomes of a parent behind one of its readers. -/
def updateParent (g : AllocPlan V Buft) (parent : V) : Option (AllocPlan V Buft) :=
  let g := g.setNode parent { g.hash parent with nChildren := (g.hash parent).nChildren - 1 }
  let p := g.hash parent
  if p.nChildren = 0 ∧ p.nViews = 0 then
    match (c.tensor parent).viewSrc with
    | some viewSrc =>
      let g := g.setNode viewSrc { g.hash viewSrc with nViews := (g.hash viewSrc).nViews - 1 }
      let v := g.hash viewSrc
      if v.nViews = 0 ∧ v.nChildren = 0 ∧ v.allocated then g.freeNode B c viewSrc else some g
    | none => if p.allocated then g.freeNode B c parent else some g
  else some g

/-- One node of the graph: its parents and itself are allocated, then it lets its parents go. -/
def planNode (bufferId : ℤ) (g : AllocPlan V Buft) (node : V) : Option (AllocPlan V Buft) := do
  let g ← (c.srcs node).foldlM (fun g parent => g.allocateNode B c parent bufferId) g
  let g ← g.allocateNode B c node bufferId
  (c.srcs node).foldlM (updateParent B c) g

def planNodes (ids : Option (ℕ → ℤ)) :
    AllocPlan V Buft → List V → ℕ → Option (AllocPlan V Buft)
  | g, [], _ => some g
  | g, node :: nodes, i => do
    let g ← planNode B c (getNodeBufferId ids i) g node
    planNodes ids g nodes (i + 1)

/-- Nothing is allocated, and the allocators are reset. -/
def start : AllocPlan V Buft := ⟨fun _ => {}, fun _ => DynTallocr.reset⟩

/-- `ggml_gallocr_alloc_graph_impl` -/
def allocGraphImpl (nodeIds leafIds : Option (ℕ → ℤ)) : Option (AllocPlan V Buft) := do
  let g ← allocLeafs B c leafIds start c.leafs 0
  let g ← countNodes B c nodeIds g c.nodes 0
  planNodes B c nodeIds g c.nodes 0

end AllocPlan

/-! ## Reservations -/

/-- `struct tensor_alloc` -/
structure TensorAlloc where
  bufferId : ℤ
  offset : ℕ
  sizeMax : ℕ
deriving DecidableEq, Repr

/-- What is pre-allocated, unused, or a view has no place in the buffers. -/
def TensorAlloc.unused : TensorAlloc := ⟨-1, LamaServer.sizeMax, 0⟩

/-- `struct node_alloc` -/
structure NodeAlloc where
  dst : TensorAlloc
  src : Fin ggmlMaxSrc → TensorAlloc

/-- `struct ggml_gallocr`, behind a reservation: what is planned for the slots of a graph, and the
sizes of the buffers. -/
structure Galloc where
  nodeAllocs : List NodeAlloc
  leafAllocs : List TensorAlloc
  buffers : ℕ → Option ℕ

namespace ComputeGraph

/-- Neither a view nor allocated by others. -/
def isOwn (t : V) : Bool := (c.tensor t).viewSrc.isNone && (c.tensor t).data.isNone

end ComputeGraph

namespace AllocPlan

variable (g : AllocPlan V Buft)

def tensorAlloc (t : V) : TensorAlloc :=
  if c.isOwn t then
    let hn := g.hash t
    ⟨hn.bufferId, hn.offset, c.allocSize B (B.bufts hn.bufferId) t⟩
  else .unused

def nodeAlloc (node : V) : NodeAlloc where
  dst := g.tensorAlloc B c node
  src j := (((c.tensor node).src j).map (g.tensorAlloc B c)).getD .unused

/-- A buffer type that is used more than once has one buffer. -/
def sharedBuffer (buffers : ℕ → Option ℕ) (i : ℕ) : ℕ → Option ℕ :=
  match (List.range i).find? fun j => B.bufts j = B.bufts i with
  | some j => Function.update buffers i (buffers j)
  | none => buffers

/-- The buffers grow to what the plan needs; `false` when one cannot be had. -/
def reserveBuffers : (ℕ → Option ℕ) → List ℕ → (ℕ → Option ℕ) × Bool
  | buffers, [] => (buffers, true)
  | buffers, i :: is =>
    let buffers := sharedBuffer B buffers i
    let curSize := (buffers i).getD 0
    let newSize := (g.tallocs (B.bufts i)).maxSize
    if curSize < newSize ∨ buffers i = none then
      match B.allocBuffer (B.bufts i) newSize with
      | some n => reserveBuffers (Function.update buffers i (some n.1)) is
      | none => (Function.update buffers i none, false)
    else reserveBuffers buffers is

end AllocPlan

namespace Galloc

variable (g : Galloc)

/-- `ggml_gallocr_reserve_n` -/
def reserveN (nodeIds leafIds : Option (ℕ → ℤ)) : Option (Galloc × Bool) := do
  let plan ← AllocPlan.allocGraphImpl B c nodeIds leafIds
  let (buffers, ok) := plan.reserveBuffers B g.buffers (List.range B.nBuffers)
  some (⟨c.nodes.map (plan.nodeAlloc B c), c.leafs.map (plan.tensorAlloc B c), buffers⟩, ok)

/-- `ggml_gallocr_reserve` -/
def reserve : Option (Galloc × Bool) := g.reserveN B c none none

/-- The slots of a graph, in the order in which they are filled. -/
def slots : List (V × TensorAlloc) :=
  c.leafs.zip g.leafAllocs ++ (c.nodes.zip g.nodeAllocs).flatMap fun n =>
    ((List.finRange ggmlMaxSrc).filterMap fun j =>
      ((c.tensor n.1).src j).map fun s => (s, n.2.src j)) ++ [(n.1, n.2.dst)]

/-- A tensor has the place of its first slot. -/
def place (t : V) : Option TensorAlloc :=
  ((g.slots c).find? fun s => s.1 = t).map Prod.snd

/-- `ggml_gallocr_node_needs_realloc`, which tells that it does not. -/
def nodeNeedsRealloc (t : V) (talloc : TensorAlloc) : Bool :=
  if c.isOwn t then
    if talloc.bufferId < 0 then false
    else decide (c.allocSize B (B.bufts talloc.bufferId.toNat) t ≤ talloc.sizeMax)
  else true

/-- `ggml_gallocr_needs_realloc` -/
def needsRealloc : Bool :=
  if g.nodeAllocs.length ≠ c.nodes.length then true
  else if g.leafAllocs.length ≠ c.leafs.length then true
  else (c.nodes.zip g.nodeAllocs).any fun n =>
    !nodeNeedsRealloc B c n.1 n.2.dst || (List.finRange ggmlMaxSrc).any fun j =>
      match (c.tensor n.1).src j with
      | some s => !nodeNeedsRealloc B c s (n.2.src j)
      | none => false

/-- `ggml_gallocr_init_tensor`, behind `place`, the tensors that it has initialized: the backend
ends the process when the tensor does not lie in the buffer. -/
def initTensor (place : V → Option TensorAlloc) (slot : V × TensorAlloc) :
    Option (V → Option TensorAlloc) :=
  if c.isOwn slot.1 ∧ place slot.1 = none then
    if slot.2.bufferId < 0 then none
    else do
      let size ← g.buffers slot.2.bufferId.toNat
      let buft := B.bufts slot.2.bufferId.toNat
      if slot.2.offset + c.allocSize B buft slot.1 ≤ size then
        some (Function.update place slot.1 (some slot.2))
      else none
  else some place

/-- `ggml_gallocr_alloc_graph`: the allocator and the places of the tensors, unless it returns
`false`. -/
def allocGraph : Option (Galloc × Option (V → Option TensorAlloc)) := do
  let (g, ok) ←
    if g.needsRealloc B c then
      if B.nBuffers = 1 then g.reserve B c else some (g, false)
    else some (g, true)
  if ok then do
    let place ← (g.slots c).foldlM (g.initTensor B c) fun _ => none
    some (g, some place)
  else some (g, none)

end Galloc

end Plan

end LamaServer

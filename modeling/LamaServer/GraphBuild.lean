import LamaServer.GraphAlloc
import LamaServer.Lib.Except
import LamaServer.Lib.Probing

/-!
# Building a compute graph

The graph of a tensor is collected from its sources, each tensor once: the set of the tensors that
were visited is a hash table with open addressing, at whose places the gradients of a graph are
kept. Tensors are elements of `T`. The memory of a graph is not modelled, but for what the keys of
a fresh table happen to be; a size fits an `int`.
-/

namespace LamaServer

/-! ## The set of the visited tensors -/

/-- `ggml_bitset_t *` -/
abbrev GgmlBitset := ℕ → BitVec 32

namespace GgmlBitset

/-- `ggml_bitset_get` -/
def get (bitset : GgmlBitset) (i : ℕ) : Bool :=
  bitset (i >>> 5) &&& (1#32 <<< (i &&& 31)) ≠ 0

/-- `ggml_bitset_set` -/
def set (bitset : GgmlBitset) (i : ℕ) : GgmlBitset :=
  Function.update bitset (i >>> 5) (bitset (i >>> 5) ||| (1#32 <<< (i &&& 31)))

end GgmlBitset

/-- `struct ggml_hash_set`; a key is defined where it is used. -/
structure GgmlHashSet (T : Type) where
  size : ℕ
  used : GgmlBitset
  keys : ℕ → T

/-- What a graph aborts with, and the recursion of a visit being cut off. -/
inductive GraphAbort
  | hashFull | leafsFull | nodesFull | notLast | assertion | tooDeep
deriving DecidableEq, Repr

/-- `ggml_hash`, of a pointer -/
def ggmlHash (p : ℕ) : ℕ := p >>> 4

namespace GgmlHashSet

variable {T : Type} [DecidableEq T] (hashSet : GgmlHashSet T) (address : T → ℕ)

/-- `ggml_hash_set_reset` -/
def reset : GgmlHashSet T := { hashSet with used := fun _ => 0 }

/-- `ggml_hash_find`, with `none` for `GGML_HASHSET_FULL` -/
def find (key : T) : Option ℕ :=
  let h := ggmlHash (address key) % hashSet.size
  Probing.probe hashSet.size h (fun i => !(hashSet.used.get i && hashSet.keys i ≠ key))
    hashSet.size h

/-- `ggml_hash_contains` -/
def contains (key : T) : Bool :=
  match hashSet.find address key with
  | none => false
  | some i => hashSet.used.get i

/-- `ggml_hash_insert`, with `none` for `GGML_HASHSET_ALREADY_EXISTS` -/
def insert (key : T) : Except GraphAbort (Option (GgmlHashSet T)) :=
  match hashSet.find address key with
  | none => .error .hashFull
  | some i =>
    if hashSet.used.get i then .ok none
    else .ok (some
      { hashSet with
        used := hashSet.used.set i
        keys := Function.update hashSet.keys i key })

end GgmlHashSet

/-- next primes after powers of two -/
def hashPrimes : List ℕ :=
  [2, 3, 5, 11, 17, 37, 67, 131, 257, 521, 1031,
    2053, 4099, 8209, 16411, 32771, 65537, 131101,
    262147, 524309, 1048583, 2097169, 4194319, 8388617,
    16777259, 33554467, 67108879, 134217757, 268435459,
    536870923, 1073741827, 2147483659]

/-- The binary search of `ggml_hash_size` between `l` and `r`; the first argument bounds the
rounds. -/
def searchPrime (minSz : ℕ) : ℕ → ℕ → ℕ → ℕ
  | 0, l, _ => l
  | n + 1, l, r =>
    if l < r then
      let m := (l + r) / 2
      if hashPrimes.getD m 0 < minSz then searchPrime minSz n (m + 1) r
      else searchPrime minSz n l m
    else l

/-- `ggml_hash_size` -/
def ggmlHashSize (minSz : ℕ) : ℕ :=
  let l := searchPrime minSz hashPrimes.length 0 hashPrimes.length
  if l < hashPrimes.length then hashPrimes.getD l 0 else minSz ||| 1

/-! ## Graphs -/

/-- The fields of the tensors that a graph is built from. -/
structure GgmlTensors (T : Type) where
  address : T → ℕ
  op : T → GgmlOp
  /-- `GGML_TENSOR_FLAG_PARAM` -/
  param : T → Bool
  src : T → Fin ggmlMaxSrc → Option T

inductive GgmlEvalOrder
  | leftToRight | rightToLeft | count
deriving DecidableEq, Repr

/-- `struct ggml_cgraph`, with the gradients that it may have no room for -/
structure GgmlCgraph (T : Type) where
  size : ℕ
  nodes : List T
  leafs : List T
  grads : Option (ℕ → Option T)
  gradAccs : Option (ℕ → Option T)
  visitedHashSet : GgmlHashSet T
  order : GgmlEvalOrder

variable {T : Type} [DecidableEq T]

namespace GgmlCgraph

/-- `ggml_new_graph_custom`, where the keys of the table are what the memory holds -/
def newCustom (size : ℕ) (grads : Bool) (keys : ℕ → T) : GgmlCgraph T where
  size := size
  nodes := []
  leafs := []
  grads := if grads then some fun _ => none else none
  gradAccs := if grads then some fun _ => none else none
  visitedHashSet := ⟨ggmlHashSize (size * 2), fun _ => 0, keys⟩
  order := .leftToRight

/-- `ggml_graph_clear` -/
def clear (cgraph : GgmlCgraph T) : GgmlCgraph T :=
  { cgraph with
    leafs := []
    nodes := []
    visitedHashSet := cgraph.visitedHashSet.reset }

end GgmlCgraph

/-- A graph that is being built, and the names of the tensors. -/
structure GraphBuilding (T : Type) where
  cgraph : GgmlCgraph T
  name : T → String

namespace GgmlTensors

variable (tensors : GgmlTensors T)

/-- The sources of a tensor in the order that a graph visits them in. -/
def sources (order : GgmlEvalOrder) (node : T) : List T :=
  (List.finRange ggmlMaxSrc).filterMap fun i =>
    tensors.src node (if order = .rightToLeft then i.rev else i)

/-- "reached a leaf node, not part of the gradient graph (e.g. a constant)" -/
def isLeaf (node : T) : Bool := tensors.op node = .none ∧ ¬ tensors.param node

/-- The end of `ggml_visit_parents`, which adds the node. -/
def addNode (b : GraphBuilding T) (node : T) : Except GraphAbort (GraphBuilding T) :=
  if tensors.isLeaf node then
    if b.cgraph.leafs.length < b.cgraph.size then
      .ok
        { cgraph := { b.cgraph with leafs := b.cgraph.leafs ++ [node] }
          name :=
            if b.name node = "" then
              Function.update b.name node s!"leaf_{b.cgraph.leafs.length}"
            else b.name }
    else .error .leafsFull
  else if b.cgraph.nodes.length < b.cgraph.size then
    .ok
      { cgraph := { b.cgraph with nodes := b.cgraph.nodes ++ [node] }
        name :=
          if b.name node = "" then
            Function.update b.name node s!"node_{b.cgraph.nodes.length}"
          else b.name }
  else .error .nodesFull

/-- `ggml_visit_parents`; the first argument bounds the depth of the recursion. -/
def visitParents : ℕ → GraphBuilding T → T → Except GraphAbort (GraphBuilding T)
  | 0, _, _ => .error .tooDeep
  | n + 1, b, node => do
    match ← b.cgraph.visitedHashSet.insert tensors.address node with
    | none => .ok b
    | some visited =>
      let b ← (tensors.sources b.cgraph.order node).foldlM (visitParents n)
        { b with cgraph := { b.cgraph with visitedHashSet := visited } }
      tensors.addNode b node

/-- `ggml_build_forward_impl`; a recursion deeper than the table has places never occurs. -/
def buildForwardImpl (b : GraphBuilding T) (tensor : T) (expand : Bool) :
    Except GraphAbort (GraphBuilding T) := do
  let b := if expand then b else { b with cgraph := b.cgraph.clear }
  let n0 := b.cgraph.nodes.length
  let b ← tensors.visitParents (b.cgraph.visitedHashSet.size + 1) b tensor
  if n0 < b.cgraph.nodes.length ∧ b.cgraph.nodes.getLast? ≠ some tensor then .error .notLast
  else .ok b

/-- `ggml_build_forward_expand` -/
def buildForwardExpand (b : GraphBuilding T) (tensor : T) : Except GraphAbort (GraphBuilding T) :=
  tensors.buildForwardImpl b tensor true

end GgmlTensors

/-! ## Gradients and copies -/

namespace GgmlCgraph

variable (cgraph : GgmlCgraph T) (address : T → ℕ)

/-- An entry of a table of gradients, at the place of a node in the set of the visited tensors. -/
def getGradIn (grads : Option (ℕ → Option T)) (node : T) : Option T :=
  match cgraph.visitedHashSet.find address node with
  | none => none
  | some igrad =>
    if cgraph.visitedHashSet.used.get igrad then grads.bind fun grads => grads igrad else none

/-- `ggml_graph_get_grad` -/
def getGrad (node : T) : Option T := cgraph.getGradIn address cgraph.grads node

/-- `ggml_graph_get_grad_acc` -/
def getGradAcc (node : T) : Option T := cgraph.getGradIn address cgraph.gradAccs node

/-- The place of a node that has to be in the set. -/
def gradPlace (node : T) : Except GraphAbort ℕ :=
  match cgraph.visitedHashSet.find address node with
  | none => .error .assertion
  | some igrad =>
    if cgraph.visitedHashSet.used.get igrad then .ok igrad else .error .assertion

/-- The body of the loop of `ggml_graph_cpy` that copies the gradients. -/
def cpyGrad (src : GgmlCgraph T) (srcGrads srcAccs : ℕ → Option T) (dst : GgmlCgraph T)
    (node : T) : Except GraphAbort (GgmlCgraph T) := do
  let igradSrc ← src.gradPlace address node
  let igradDst ← dst.gradPlace address node
  .ok
    { dst with
      grads := dst.grads.map fun grads => Function.update grads igradDst (srcGrads igradSrc)
      gradAccs := dst.gradAccs.map fun accs => Function.update accs igradDst (srcAccs igradSrc) }

/-- The body of the loop of `ggml_graph_cpy` over the keys in use. -/
def cpyKey (src : GgmlCgraph T) (visited : GgmlHashSet T) (i : ℕ) :
    Except GraphAbort (GgmlHashSet T) :=
  if src.visitedHashSet.used.get i then do
    let inserted ← visited.insert address (src.visitedHashSet.keys i)
    .ok (inserted.getD visited)
  else .ok visited

/-- `ggml_graph_cpy` -/
def cpy (src dst : GgmlCgraph T) : Except GraphAbort (GgmlCgraph T) := do
  if dst.size < src.leafs.length ∨ dst.size < src.nodes.length ∨
      dst.visitedHashSet.size < src.visitedHashSet.size then .error .assertion
  else
    let visited ← (List.range src.visitedHashSet.size).foldlM (src.cpyKey address)
      dst.visitedHashSet
    let dst : GgmlCgraph T :=
      { dst with
        nodes := src.nodes
        leafs := src.leafs
        order := src.order
        visitedHashSet := visited
        grads := dst.grads.map fun _ _ => none
        gradAccs := if dst.grads.isSome then dst.gradAccs.map fun _ _ => none else dst.gradAccs }
    match src.grads with
    | none => .ok dst
    | some srcGrads =>
      if dst.grads.isSome ∧ dst.gradAccs.isSome then
        src.nodes.foldlM (src.cpyGrad address srcGrads (src.gradAccs.getD fun _ => none)) dst
      else .error .assertion

/-- `ggml_graph_dup` -/
def dup (keys : ℕ → T) (forceGrads : Bool) : Except GraphAbort (GgmlCgraph T) :=
  cgraph.cpy address (newCustom cgraph.size (cgraph.grads.isSome || forceGrads) keys)

end GgmlCgraph

end LamaServer

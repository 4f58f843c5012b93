import LamaServer.Gguf
import LamaServer.Lib.PointerGraph

/-!
# Graphs sent to an RPC server

A client flattens a computation graph into a message, in which the tensors name each other by their
addresses, and the server builds a graph from it again. The tensors of the client are a finite type
and their pointers its elements; a pointer of the server is the place of the tensor among those it
has made. The context they are made in has room for all tensors of the message and is left out, and
so is `extra`, which no side sends.
-/

namespace LamaServer

open Format PointerGraph

abbrev TensorName := { s : List UInt8 // s.length < ggmlMaxName ∧ 0 ∉ s }

/-- A `ggml_tensor`, by what its pointers to tensors and to buffers are. -/
structure GgmlNode (P B : Type) where
  type : GgmlType
  buffer : Option B
  ne : Fin 4 → Int64
  nb : Fin 4 → UInt64
  op : UInt32
  opParams : Fin 16 → Int32
  flags : Int32
  src : Fin 10 → Option P
  viewSrc : Option P
  viewOffs : UInt64
  data : UInt64
  name : TensorName

namespace GgmlNode

variable {P B : Type}

/-- What a dimension behind the first adds to `ggml_nbytes`. -/
def dimBytes (t : GgmlNode P B) (i : Fin 4) : UInt64 := (t.ne i - 1).toUInt64 * t.nb i

/-- `ggml_nbytes`, in `size_t`. -/
def ggmlNbytes (t : GgmlNode P B) : UInt64 :=
  if ∃ i, t.ne i ≤ 0 then 0
  else
    let blckSize := UInt64.ofNat (ggmlBlckSize t.type)
    let row := if blckSize = 1 then UInt64.ofNat (ggmlTypeSize t.type) + t.dimBytes 0
      else (t.ne 0).toUInt64 * t.nb 0 / blckSize
    row + t.dimBytes 1 + t.dimBytes 2 + t.dimBytes 3

/-- What `ggml_nbytes` says without a limit to its numbers. -/
def extent (t : GgmlNode P B) : Nat :=
  let dim i := ((t.ne i).toInt - 1).toNat * (t.nb i).toNat
  if ∃ i, t.ne i ≤ 0 then 0
  else
    let row := if ggmlBlckSize t.type = 1 then ggmlTypeSize t.type + dim 0
      else (t.ne 0).toInt.toNat * (t.nb 0).toNat / ggmlBlckSize t.type
    row + dim 1 + dim 2 + dim 3

/-- The pointers of a tensor, in the order in which they are followed. -/
def pointers (t : GgmlNode P B) : List (Option P) := List.ofFn t.src ++ [t.viewSrc]

end GgmlNode

/-! ## The message -/

/-- `rpc_tensor`, packed. -/
structure RpcTensor where
  id : UInt64
  type : UInt32
  buffer : UInt64
  ne : Fin 4 → UInt32
  nb : Fin 4 → UInt32
  op : UInt32
  opParams : Fin 16 → Int32
  flags : Int32
  src : Fin 10 → UInt64
  viewSrc : UInt64
  viewOffs : UInt64
  data : UInt64
  name : Block ggmlMaxName
  padding : Block 4

/-- The bytes of an `rpc_tensor`, field by field. -/
def rpcTensor : Format RpcTensor :=
  (uint64.pair <| uint32.pair <| uint64.pair <| (uint32.vec 4).pair <| (uint32.vec 4).pair <|
    uint32.pair <| (int32.vec 16).pair <| int32.pair <| (uint64.vec 10).pair <| uint64.pair <|
    uint64.pair <| uint64.pair <| (block ggmlMaxName).pair <| block 4).imap
  (fun (id, type, buffer, ne, nb, op, opParams, flags, src, viewSrc, viewOffs, data, name,
      padding) => ⟨id, type, buffer, ne, nb, op, opParams, flags, src, viewSrc, viewOffs, data,
        name, padding⟩)
  (fun t => (t.id, t.type, t.buffer, t.ne, t.nb, t.op, t.opParams, t.flags, t.src, t.viewSrc,
    t.viewOffs, t.data, t.name, t.padding))
  (fun _ => rfl) (fun _ _ => rfl)

/-- `sizeof(rpc_tensor)` -/
def rpcTensorSize : Nat := 296

/-- The ids of the nodes, and the tensors. -/
def graphMessage : Format (List UInt64 × List RpcTensor) :=
  (counted 4 uint64).pair (counted 4 rpcTensor)

/-! ## The client -/

/-- `ggml_backend_rpc_buffer_context`: the buffer it stands for on the server. -/
structure RpcBuffer where
  remotePtr : UInt64
  deriving DecidableEq

/-- A `ggml_cgraph` over `n` tensors, each with an address. -/
structure Cgraph (n : Nat) where
  tensor : Fin n → GgmlNode (Fin n) RpcBuffer
  addr : Fin n → UInt64
  nodes : List (Fin n)
  addr_injective : Function.Injective addr
  addr_ne_zero : ∀ p, addr p ≠ 0
  blckSize_ne_zero : ∀ p, ggmlBlckSize (tensor p).type ≠ 0

/-- A name in its array, with zeros behind it. -/
def nameBytes (s : TensorName) : Block ggmlMaxName :=
  ⟨s.1 ++ List.replicate (ggmlMaxName - s.1.length) 0, by
    have h := s.2.1
    rw [List.length_append, List.length_replicate]
    omega⟩

namespace Cgraph

variable {n : Nat} (g : Cgraph n)

/-- The number a pointer is sent as. -/
def address : Option (Fin n) → UInt64
  | none => 0
  | some p => g.addr p

def serializeTensor (p : Fin n) : RpcTensor :=
  let tensor := g.tensor p
  { id := g.addr p
    type := UInt32.ofNat tensor.type
    buffer := match tensor.buffer with
      | some ctx => ctx.remotePtr
      | none => 0
    ne i := (tensor.ne i).toUInt64.toUInt32
    nb i := (tensor.nb i).toUInt32
    op := tensor.op
    opParams := tensor.opParams
    flags := tensor.flags
    src i := g.address (tensor.src i)
    viewSrc := g.address tensor.viewSrc
    viewOffs := tensor.viewOffs
    data := tensor.data
    name := nameBytes tensor.name
    padding := zeros 4 }

/-- What `add_tensor` follows. -/
def links (p : Fin n) : List (Fin n) := (g.tensor p).pointers.reduceOption

/-- `add_tensor` for each node: the tensors below the nodes, in the order they are sent in. -/
def addTensors : List (Fin n) := collectAll g.links g.nodes

/-- `serialize_graph`; the size of the message is an `int`. -/
def serializeGraph : Option (List UInt8) :=
  let tensors := g.addTensors.map g.serializeTensor
  let outputSize := 4 + g.nodes.length * 8 + 4 + tensors.length * rpcTensorSize
  if outputSize < 2 ^ 31 then some (graphMessage.write (g.nodes.map g.addr, tensors)) else none

end Cgraph

/-! ## The server -/

/-- A buffer of the backend. -/
structure ServerBuffer where
  ptr : UInt64
  base : UInt64
  size : UInt64
  ptr_ne_zero : ptr ≠ 0
  fits : base.toNat + size.toNat < 2 ^ 64

/-- `ggml_backend_buffer_get_base` -/
def ServerBuffer.getBase (b : ServerBuffer) : UInt64 := if b.size = 0 then 0 else b.base

/-- Why the process of the server ends: at an assertion or an arithmetic fault, or at a pointer that
is null or foreign. -/
inductive ServerFault where
  | abort | pointer
  deriving DecidableEq

abbrev ServerTensor := GgmlNode Nat ServerBuffer

/-- The buffers that were allocated and not freed, each with its own address. -/
structure RpcServer where
  buffers : List ServerBuffer
  nodup : (buffers.map (·.ptr)).Nodup

namespace RpcServer

variable (server : RpcServer)

def findBuffer (ptr : UInt64) : Option ServerBuffer := server.buffers.find? (·.ptr = ptr)

/-- The tensor is in its buffer, as `deserialize_tensor` asserts it. -/
def InBuffer (data size : UInt64) (b : ServerBuffer) : Prop :=
  data ≤ data + size ∧ b.getBase ≤ data ∧ data + size ≤ b.getBase + b.size

instance {data size : UInt64} {b : ServerBuffer} : Decidable (InBuffer data size b) :=
  inferInstanceAs (Decidable (_ ∧ _ ∧ _))

/-- `ggml_set_name` -/
def setName (name : Block ggmlMaxName) : TensorName :=
  ⟨(cString name.1).take (ggmlMaxName - 1), by
    rw [List.length_take]
    have hpos : 0 < ggmlMaxName := by decide
    omega, fun h => zero_notMem_cString name.1 (List.mem_of_mem_take h)⟩

/-- The tensor made of an `rpc_tensor`, without pointers to others. -/
def newTensor (type : GgmlType) (tensor : RpcTensor) : ServerTensor where
  type := type
  buffer := server.findBuffer tensor.buffer
  ne i := (tensor.ne i).toUInt64.toInt64
  nb i := (tensor.nb i).toUInt64
  op := tensor.op
  opParams := tensor.opParams
  flags := tensor.flags
  src _ := none
  viewSrc := none
  viewOffs := 0
  data := tensor.data
  name := setName tensor.name

/-- `ggml_new_tensor_4d` divides by the size of a block, which is 0 for a type that was removed. -/
def deserializeTensor (tensor : RpcTensor) : Except ServerFault (Option ServerTensor) :=
  if h : tensor.type.toNat < 39 then
    let result := server.newTensor ⟨tensor.type.toNat, h⟩ tensor
    if ggmlBlckSize result.type = 0 then .error .abort
    else if ∀ b ∈ result.buffer, InBuffer result.data result.ggmlNbytes b then .ok (some result)
    else .error .abort
  else .ok none

/-- `tensor_ptrs`: of the tensors with an id the last one. -/
def findTensor (tensors : List RpcTensor) (id : UInt64) : Option RpcTensor :=
  tensors.reverse.find? (·.id = id)

/-- What `create_node` makes for an id, before its pointers. -/
def makeNode (tensors : List RpcTensor) (id : UInt64) :
    Except ServerFault (Option (RpcTensor × ServerTensor)) :=
  match findTensor tensors id with
  | none => .ok none
  | some tensor => (server.deserializeTensor tensor).map (Option.map (tensor, ·))

/-- The ids an `rpc_tensor` names, where 0 is a null pointer. -/
def linkIds (tensor : RpcTensor) : List (Option UInt64) :=
  (List.ofFn tensor.src ++ [tensor.viewSrc]).map fun id => if id = 0 then none else some id

/-- The tensor with the pointers that it has got so far; `view_offs` is set behind them. -/
def linkNode (made : RpcTensor × ServerTensor) (ptrs : List (Option Nat)) : ServerTensor :=
  { made.2 with
    src i := ptrs.getD i none
    viewSrc := ptrs.getD 10 none
    viewOffs := if ptrs.length = 11 then made.1.viewOffs else 0 }

/-- `create_node`; `tensor_map` and the tensors made are the state. -/
def createNode (tensors : List RpcTensor) : Made UInt64 ServerTensor → UInt64 →
    Except ServerFault (Option Nat × Made UInt64 ServerTensor) :=
  build (server.makeNode tensors) (fun made => linkIds made.1) linkNode tensors.length

/-- The graph that `graph_compute` hands to the backend. -/
structure Graph where
  nodes : List (Option Nat)
  tensors : List ServerTensor

/-- The loop of `graph_compute`, which stops at a node that cannot be made. -/
def createNodes (tensors : List RpcTensor) : List UInt64 → List (Option Nat) →
    Made UInt64 ServerTensor → Except ServerFault (Option Graph)
  | [], nodes, made => .ok (some ⟨nodes, made.nodes⟩)
  | id :: ids, nodes, made => do
    let r ← server.createNode tensors made id
    if r.1 = none ∧ id ≠ 0 then .ok none else createNodes tensors ids (nodes ++ [r.1]) r.2

/-- `graph_compute`, up to the call of the backend. -/
def buildGraph (input : List UInt8) : Except ServerFault (Option Graph) :=
  match graphMessage.read input with
  | none => .ok none
  | some ((ids, tensors), _) => server.createNodes tensors ids [] .empty

end RpcServer

end LamaServer

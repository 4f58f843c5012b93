import LamaServer.Lib.Transition
import LamaServer.Rpc

/-!
# The requests of an RPC client

`rpc_serve_client` behind HELLO. A request is answered, with the memory that it has handed to the
backend; or it is refused, which ends the connection; or it ends the process. What the answers say
is left out, and so is the backend but for the buffers that it allocates.
-/

namespace LamaServer

open Format

/-- Memory that the backend is to read or to write. -/
structure Access where
  start : UInt64
  size : Nat

/-- `cache` are the files under `cache_dir`, by the hash that names them. -/
structure RpcState where
  server : RpcServer
  cache : Option (UInt64 → Option (List UInt8)) := none

/-- The state behind a request, and the memory it has handed to the backend; `none` when it was
refused. -/
abbrev Handled := Except ServerFault (Option (RpcState × List Access))

/-- `HASH_THRESHOLD` -/
def hashThreshold : Nat := 10 * 1024 * 1024

def fnvHash (data : List UInt8) : UInt64 :=
  data.foldl (fun hash b => (hash ^^^ b.toUInt64) * 0x100000001b3) 0xcbf29ce484222325

namespace RpcServer

variable (server : RpcServer)

/-- `buffers.insert` -/
def insert (b : ServerBuffer) : RpcServer :=
  if h : b.ptr ∈ server.buffers.map (·.ptr) then server
  else ⟨b :: server.buffers, List.nodup_cons.2 ⟨h, server.nodup⟩⟩

/-- `buffers.erase` -/
def erase (ptr : UInt64) : RpcServer where
  buffers := server.buffers.filter (·.ptr ≠ ptr)
  nodup := server.nodup.sublist (List.filter_sublist.map _)

end RpcServer

/-! ## Regions of a tensor -/

/-- The check of `set_tensor`, `set_tensor_hash` and `get_tensor`, which reads the buffer of the
tensor whether it has one or not. -/
def regionInBuffer (tensor : ServerTensor) (data offset : UInt64) (size : Nat) :
    Except ServerFault Bool :=
  match tensor.buffer with
  | none => .error .pointer
  | some b =>
    let p0 := b.getBase
    let p1 := p0 + b.size
    .ok (decide ¬ (data + offset < p0 ∨ p1 ≤ data + offset ∨ (p1 - data - offset).toNat < size))

/-- `ggml_backend_tensor_set` and `ggml_backend_tensor_get`. -/
def tensorAccess (tensor : ServerTensor) (offset : UInt64) (size : Nat) :
    Except ServerFault (List Access) :=
  if size = 0 then .ok []
  else if tensor.buffer.isSome ∧ tensor.data ≠ 0 ∧
      offset + UInt64.ofNat size ≤ tensor.ggmlNbytes then .ok [⟨tensor.data + offset, size⟩]
  else .error .abort

namespace RpcState

variable (s : RpcState)

/-- What the three requests do with a region of `size` bytes; `s'` is the state behind it. -/
def accessTensor (inTensor : RpcTensor) (offset : UInt64) (size : Nat) (s' : RpcState) :
    Handled := do
  match ← s.server.deserializeTensor inTensor with
  | none => .ok none
  | some tensor =>
    if ← regionInBuffer tensor inTensor.data offset size then
      let accesses ← tensorAccess tensor offset size
      .ok (some (s', accesses))
    else .ok none

/-- A large block of data is kept under its hash. -/
def save (data : List UInt8) : RpcState :=
  match s.cache with
  | none => s
  | some files =>
    if hashThreshold < data.length then
      { s with cache := some (Function.update files (fnvHash data) (some data)) }
    else s

/-- `set_tensor`: a tensor, an offset and the data behind them. -/
def setTensor (input : List UInt8) : Handled :=
  match (rpcTensor.pair uint64).read input with
  | none => .ok none
  | some ((inTensor, offset), data) => s.accessTensor inTensor offset data.length (s.save data)

/-- `get_cached_file` -/
def getCachedFile (hash : UInt64) : Option (List UInt8) := s.cache.bind (· hash)

def setTensorHash (inTensor : RpcTensor) (offset hash : UInt64) : Handled :=
  match s.getCachedFile hash with
  | none => .ok (some (s, []))
  | some cachedFile => s.accessTensor inTensor offset cachedFile.length s

def getTensor (inTensor : RpcTensor) (offset size : UInt64) : Handled :=
  s.accessTensor inTensor offset size.toNat s

/-- `copy_tensor`; a buffer without memory has no `cpy_tensor`. -/
def copyTensor (rpcSrc rpcDst : RpcTensor) : Handled := do
  match ← s.server.deserializeTensor rpcSrc, ← s.server.deserializeTensor rpcDst with
  | some src, some dst =>
    match dst.buffer with
    | none => .error .pointer
    | some dstBuffer =>
      let srcSize := src.ggmlNbytes
      if dstBuffer.getBase + dstBuffer.size < dst.data + srcSize then .ok none
      else if dstBuffer.size = 0 then .ok (some (s, []))
      else if src.buffer.isNone then .error .pointer
      else .ok (some (s, [⟨src.data, srcSize.toNat⟩, ⟨dst.data, srcSize.toNat⟩]))
  | _, _ => .ok none

/-- `graph_compute`; the backend reads every node, and the memory of the tensors. -/
def graphCompute (input : List UInt8) : Handled := do
  match ← s.server.buildGraph input with
  | none => .ok none
  | some graph =>
    if none ∈ graph.nodes then .error .pointer
    else .ok (some (s, graph.tensors.map fun t => ⟨t.data, t.extent⟩))

/-- `init_tensor` and `get_alloc_size`, which touch no memory of a tensor. -/
def inspectTensor (tensor : RpcTensor) : Handled := do
  match ← s.server.deserializeTensor tensor with
  | none => .ok none
  | some _ => .ok (some (s, []))

/-- `alloc_buffer`, with what the backend answers. -/
def allocBuffer (answer : Option ServerBuffer) : Handled :=
  match answer with
  | none => .ok (some (s, []))
  | some buffer => .ok (some ({ s with server := s.server.insert buffer }, []))

def freeBuffer (remotePtr : UInt64) : Handled :=
  match s.server.findBuffer remotePtr with
  | none => .ok none
  | some _ => .ok (some ({ s with server := s.server.erase remotePtr }, []))

def bufferClear (remotePtr : UInt64) : Handled :=
  match s.server.findBuffer remotePtr with
  | none => .ok none
  | some buffer => .ok (some (s, [⟨buffer.getBase, buffer.size.toNat⟩]))

def bufferGetBase (remotePtr : UInt64) : Handled :=
  match s.server.findBuffer remotePtr with
  | none => .ok none
  | some _ => .ok (some (s, []))

end RpcState

/-! ## Connections -/

/-- `rpc_cmd` -/
inductive RpcCmd where
  | allocBuffer | getAlignment | getMaxSize | bufferGetBase | freeBuffer | bufferClear | setTensor
  | setTensorHash | getTensor | copyTensor | graphCompute | getDeviceMemory | initTensor
  | getAllocSize | hello
  deriving DecidableEq

def RpcCmd.ofCode (cmd : UInt8) : Option RpcCmd :=
  [allocBuffer, getAlignment, getMaxSize, bufferGetBase, freeBuffer, bufferClear, setTensor,
    setTensorHash, getTensor, copyTensor, graphCompute, getDeviceMemory, initTensor, getAllocSize,
    hello][cmd.toNat]?

/-- `recv_msg` with a structure: a message of another size is refused. -/
def recvMsg {α : Type} (f : Format α) (input : List UInt8) (handle : α → Handled) : Handled :=
  match f.read input with
  | some (request, []) => handle request
  | _ => .ok none

/-- A message of a client, and what the backend answers when it is asked for a buffer. -/
structure RpcRequest where
  cmd : UInt8
  input : List UInt8
  answer : Option ServerBuffer := none

/-- One turn of the loop of `rpc_serve_client`. -/
def RpcState.serve (s : RpcState) (r : RpcRequest) : Handled :=
  match RpcCmd.ofCode r.cmd with
  | none | some .hello => .ok none
  | some .allocBuffer => recvMsg uint64 r.input fun _ => s.allocBuffer r.answer
  | some .getAlignment | some .getMaxSize | some .getDeviceMemory =>
    if r.input = [] then .ok (some (s, [])) else .ok none
  | some .bufferGetBase => recvMsg uint64 r.input s.bufferGetBase
  | some .freeBuffer => recvMsg uint64 r.input s.freeBuffer
  | some .bufferClear => recvMsg (uint64.pair (block 1)) r.input fun q => s.bufferClear q.1
  | some .setTensor => s.setTensor r.input
  | some .setTensorHash =>
    recvMsg (rpcTensor.pair (uint64.pair uint64)) r.input fun q => s.setTensorHash q.1 q.2.1 q.2.2
  | some .getTensor =>
    recvMsg (rpcTensor.pair (uint64.pair uint64)) r.input fun q => s.getTensor q.1 q.2.1 q.2.2
  | some .copyTensor => recvMsg (rpcTensor.pair rpcTensor) r.input fun q => s.copyTensor q.1 q.2
  | some .graphCompute => s.graphCompute r.input
  | some .initTensor | some .getAllocSize => recvMsg rpcTensor r.input s.inspectTensor

/-- How a connection stands. -/
inductive ConnStatus where
  | serving | closed | fault (f : ServerFault)
  deriving DecidableEq

/-- A connection, with the memory that the last request has handed to the backend. -/
structure RpcConn where
  state : RpcState
  accesses : List Access := []
  status : ConnStatus := .serving

def RpcConn.next (c : RpcConn) (r : RpcRequest) : RpcConn :=
  match c.state.serve r with
  | .ok (some (state, accesses)) => ⟨state, accesses, .serving⟩
  | .ok none => ⟨c.state, [], .closed⟩
  | .error f => ⟨c.state, [], .fault f⟩

/-- Requests are served until the connection or the process ends. -/
def RpcConn.Step (c : RpcConn) (r : RpcRequest) (c' : RpcConn) : Prop :=
  c.status = .serving ∧ c' = c.next r

/-- A connection behind HELLO has no buffers; files may be there from others. -/
def RpcConn.Start (c : RpcConn) : Prop :=
  c.state.server.buffers = [] ∧ c.accesses = [] ∧ c.status = .serving

end LamaServer

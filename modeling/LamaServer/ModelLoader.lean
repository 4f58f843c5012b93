import LamaServer.Mmap
import Mathlib.Data.UInt
import Mathlib.Logic.Function.Basic
import Mathlib.Data.List.Basic

/-!
# Loading the tensors of a model

`struct llama_model_loader` and what `llama_model::load_tensors` does with it: the weights of the
files are created as tensors of contexts, one context for each buffer type, and get their data. With
mapped files a context may have its tensors where the mapping has them; the others are copied from
it. The values of the data are not modelled, nor is locking memory. A read of a page that is not
mapped any more is a `segfault`.

Without mapped files the tensors can be read into a ring of staging buffers, from which a backend
copies them to its memory. The stream of the backend works in order, while the loader goes on; an
event is recorded in the stream behind each copy, and waited for before its buffer is used again.
-/

namespace LamaServer

/-- How loading ends early. -/
inductive LoaderStop
  | runtimeError (what : String)
  | assertion
  | abort (e : MmapAbort)
  | segfault
deriving DecidableEq, Repr

/-- A tensor in the header of a file. -/
structure FileTensor where
  name : String
  ne : List ℤ
  nbytes : UInt64
  /-- `gguf_get_tensor_offset` -/
  offset : UInt64
deriving DecidableEq, Repr

/-- A file of a model, with the keys of its header that say how the model is split. -/
structure ModelFile where
  fname : String
  size : UInt64
  dataOffset : UInt64
  tensors : List FileTensor
  splitNo : Option ℕ := none
  splitCount : Option ℕ := none
  splitTensorsCount : Option ℕ := none

/-- `llama_tensor_weight`, with what is read of its tensor. -/
structure TensorWeight where
  name : String
  idx : ℕ
  offs : UInt64
  ne : List ℤ
  nbytes : UInt64
deriving DecidableEq, Repr

/-- Where the data of a tensor is: nowhere yet, in a buffer of its own, or in the mapping of a file
from an offset on. -/
inductive TensorData
  | null
  | buffer
  | mapped (idx : ℕ) (offs : ℕ)
deriving DecidableEq, Repr

/-- A tensor of a context. -/
structure ModelTensor where
  name : String
  nbytes : UInt64
  data : TensorData := .null
deriving DecidableEq, Repr

/-- `struct llama_model_loader`; `munmaps` lists the calls for each mapping. -/
structure ModelLoader where
  files : List ModelFile
  weightsMap : List TensorWeight
  nTensors : ℕ
  useMmap : Bool
  checkTensors : Bool
  pageSize : ℕ
  nCreated : ℕ
  mappings : ℕ → LlamaMmap
  mmapsUsed : ℕ → ℕ × ℕ
  munmaps : ℕ → List Munmap
  sizeDone : UInt64
  sizeData : UInt64

/-- The constructor of `llama_tensor_weight`. -/
def TensorWeight.ofTensor (file : ModelFile) (idx : ℕ) (t : FileTensor) :
    Except LoaderStop TensorWeight := do
  let offs := file.dataOffset + t.offset
  if offs + t.nbytes < offs ∨ offs + t.nbytes > file.size then
    throw (.runtimeError ("tensor '" ++ t.name ++
      "' data is not within the file bounds, model is corrupted or incomplete"))
  return ⟨t.name, idx, offs, t.ne, t.nbytes⟩

namespace ModelLoader

/-- The loop that saves the tensors of a file. -/
def saveTensors (weights : List TensorWeight) (idx : ℕ) (file : ModelFile) :
    Except LoaderStop (List TensorWeight) :=
  file.tensors.foldlM (fun weights t => do
    if t.name ∈ weights.map (·.name) then
      throw (.runtimeError ("invalid model: tensor '" ++ t.name ++ "' is duplicated"))
    let weight ← TensorWeight.ofTensor file idx t
    return weights ++ [weight]) weights

/-- A file behind the main one must say which it is. -/
def checkSplitNo (idx : ℕ) (file : ModelFile) : Except LoaderStop Unit :=
  match file.splitNo with
  | none => throw (.runtimeError ("missing key split.no in GGUF split " ++ file.fname))
  | some n =>
    if n ≠ idx then
      throw (.runtimeError ("invalid split file idx: " ++ toString n ++ " (file: " ++ file.fname ++
        "), expected " ++ toString idx))
    else pure ()

/-- A loader of the weights of files, with nothing created. -/
def ofWeights (files : List ModelFile) (weights : List TensorWeight) (useMmap checkTensors : Bool)
    (pageSize : ℕ) : ModelLoader where
  files := files
  weightsMap := weights
  nTensors := weights.length
  useMmap := useMmap
  checkTensors := checkTensors
  pageSize := pageSize
  nCreated := 0
  mappings _ := ⟨0, []⟩
  mmapsUsed _ := (0, 0)
  munmaps _ := []
  sizeDone := 0
  sizeData := 0

/-- The constructor, where `splits` are the files of the other splits. -/
def ofFiles (main : ModelFile) (splits : List ModelFile) (useMmap checkTensors : Bool)
    (pageSize : ℕ) : Except LoaderStop ModelLoader := do
  let weights ← saveTensors [] 0 main
  let nSplit := main.splitCount.getD 0
  if nSplit ≤ 1 then
    return ofWeights [main] weights useMmap checkTensors pageSize
  match main.splitNo with
  | none => throw (.runtimeError "key not found in model: split.no")
  | some 0 => pure ()
  | some idx => throw (.runtimeError ("illegal split file idx: " ++ toString idx ++ " (file: " ++
      main.fname ++ "), model must be loaded with the first split"))
  if nSplit ≠ (splits.length + 1) % 2 ^ 16 then
    throw (.runtimeError ("invalid split count, given: " ++ toString (splits.length + 1) ++
      " splits, but expected " ++ toString nSplit))
  let splits := splits.take (nSplit - 1)
  let weights ← (splits.zipIdx 1).foldlM (fun weights (file, idx) => do
    checkSplitNo idx file
    saveTensors weights idx file) weights
  match main.splitTensorsCount with
  | none => throw (.runtimeError "key not found in model: split.tensors.count")
  | some n =>
    if n ≠ weights.length then
      throw (.runtimeError ("corrupted model: " ++ toString n ++ " tensors expected but " ++
        toString weights.length ++ " found"))
  return ofWeights (main :: splits) weights useMmap checkTensors pageSize

variable (ml : ModelLoader)

/-- `get_weight` -/
def getWeight (name : String) : Option TensorWeight :=
  ml.weightsMap.find? (·.name = name)

/-- `llama_format_tensor_shape`, of at least one dimension -/
def formatTensorShape (ne : List ℤ) : String :=
  ", ".intercalate (ne.map fun n => String.ofList (List.leftpad 5 ' ' (toString n).toList))

/-- `check_tensor_dims` -/
def checkTensorDims (name : String) (ne : List ℤ) (required : Bool) :
    Except LoaderStop (Option TensorWeight) :=
  match ml.getWeight name with
  | none =>
    if required then throw (.runtimeError ("check_tensor_dims: tensor '" ++ name ++ "' not found"))
    else pure none
  | some cur =>
    if (List.range 4).all fun i => ne.getD i 1 = cur.ne.getD i 1 then pure (some cur)
    else throw (.runtimeError ("check_tensor_dims: tensor '" ++ name ++
      "' has wrong shape; expected " ++ formatTensorShape ne ++ ", got " ++
      formatTensorShape cur.ne))

/-- `done_getting_tensors` -/
def doneGettingTensors : Except LoaderStop Unit :=
  if ml.nCreated ≠ ml.nTensors then
    throw (.runtimeError ("done_getting_tensors: wrong number of tensors; expected " ++
      toString ml.nTensors ++ ", got " ++ toString ml.nCreated))
  else pure ()

/-- The size of the file of an index. -/
def fileSize (idx : ℕ) : ℕ := (ml.files[idx]?.map (·.size.toNat)).getD 0

/-- `init_mappings`; an empty file is not mapped. -/
def initMappings : Except LoaderStop ModelLoader := do
  if ml.useMmap ∧ ∃ file ∈ ml.files, file.size = 0 then
    throw (.runtimeError "mmap failed: Invalid argument")
  let ml := if ml.useMmap then
    { ml with
      mappings := fun idx => LlamaMmap.ofFile (ml.fileSize idx)
      mmapsUsed := fun idx => (ml.fileSize idx, 0) }
    else ml
  return { ml with sizeData := ml.sizeData + (ml.weightsMap.map (·.nbytes)).sum }

/-- `get_mapping_range`, of the tensors of a context -/
def getMappingRange (idx : ℕ) (ctx : List ModelTensor) : ℕ × ℕ :=
  ctx.foldl (fun (first, last) tensor =>
    match ml.getWeight tensor.name with
    | none => (first, last)
    | some weight =>
      if weight.idx ≠ idx then (first, last)
      else (min first weight.offs.toNat, max last (weight.offs + tensor.nbytes).toNat))
    ((ml.mappings idx).size, 0)

end ModelLoader

/-! ## The contexts -/

/-- A tensor that the model asks for: `unused` tensors have no operation, and `buft` is the buffer
type that was selected. -/
structure TensorRequest (Buft : Type) where
  name : String
  ne : List ℤ
  notRequired : Bool := false
  duplicated : Bool := false
  unused : Bool := false
  buft : Option Buft

/-- The loader, and the contexts of the model. -/
structure LoadState (Buft : Type) where
  ml : ModelLoader
  ctx : Buft → List ModelTensor

namespace LoadState

variable {Buft : Type} [DecidableEq Buft] (s : LoadState Buft)

/-- `llama_model_loader::create_tensor` -/
def createTensor (buft : Buft) (r : TensorRequest Buft) : Except LoaderStop (LoadState Buft) := do
  match ← s.ml.checkTensorDims r.name r.ne !r.notRequired with
  | none => return s
  | some cur =>
    let ctx := Function.update s.ctx buft (s.ctx buft ++ [⟨cur.name, cur.nbytes, .null⟩])
    if r.duplicated then return ⟨{ s.ml with sizeData := s.ml.sizeData + cur.nbytes }, ctx⟩
    else return ⟨{ s.ml with nCreated := s.ml.nCreated + 1 }, ctx⟩

/-- `create_tensor` of `load_tensors` -/
def create (r : TensorRequest Buft) : Except LoaderStop (LoadState Buft) :=
  match s.ml.getWeight r.name with
  | none =>
    if r.notRequired then pure s
    else throw (.runtimeError ("missing tensor '" ++ r.name ++ "'"))
  | some weight =>
    if r.unused then
      pure { s with ml := { s.ml with
        sizeData := s.ml.sizeData - weight.nbytes
        nCreated := s.ml.nCreated + 1 } }
    else
      match r.buft with
      | none => throw (.runtimeError ("failed to find a compatible buffer type for tensor " ++
          r.name))
      | some buft =>
        if r.duplicated ∧ ∃ t ∈ s.ctx buft, t.name = r.name then pure s
        else s.createTensor buft r

end LoadState

/-! ## The data -/

/-- A buffer of a context: memory of the mapping, as offsets, or memory of its own. -/
inductive ModelBuffer
  | fromHostPtr (first last : ℕ)
  | own
deriving DecidableEq, Repr

namespace ModelLoader

variable (ml : ModelLoader)

/-- All bytes from `offs` on are mapped. -/
def Readable (idx offs n : ℕ) : Prop :=
  n = 0 ∨ ∃ frag ∈ (ml.mappings idx).mappedFragments, frag.1 ≤ offs ∧ offs + n ≤ frag.2

instance (idx offs n : ℕ) : Decidable (ml.Readable idx offs n) :=
  inferInstanceAs (Decidable (_ ∨ _))

/-- What `load_all_data` does with a tensor that has a weight. -/
def loadTensor (bufs : ℕ → Option ModelBuffer) (weight : TensorWeight) (cur : ModelTensor) :
    Except LoaderStop (ModelLoader × ModelTensor) := do
  let nSize := cur.nbytes
  let (ml, cur) ← show Except LoaderStop (ModelLoader × ModelTensor) from
    if ml.useMmap then
      match bufs weight.idx, cur.data with
      | none, .null => throw .assertion
      | some buf, .null =>
        -- `ggml_backend_tensor_alloc`, whose buffer must hold the data
        match buf with
        | .own => throw .assertion
        | .fromHostPtr first last =>
          if first ≤ weight.offs.toNat ∧ weight.offs.toNat + nSize.toNat ≤ last then
            let used := ml.mmapsUsed weight.idx
            let used := (min used.1 weight.offs.toNat, max used.2 (weight.offs + nSize).toNat)
            return ({ ml with mmapsUsed := Function.update ml.mmapsUsed weight.idx used },
              { cur with data := .mapped weight.idx weight.offs.toNat })
          else throw .assertion
      | _, _ =>
        -- `ggml_backend_tensor_set`, from the mapping
        if ml.Readable weight.idx weight.offs.toNat nSize.toNat then return (ml, cur)
        else throw .segfault
    else return (ml, cur)
  return ({ ml with sizeDone := ml.sizeDone + nSize }, cur)

/-- What is unmapped of a file when all data is loaded. -/
def unmapUnused (idx : ℕ) : Except LoaderStop ModelLoader :=
  let used := ml.mmapsUsed idx
  let ranges := (0, used.1) :: if used.2 ≠ 0 then [(used.2, (ml.mappings idx).size)] else []
  match (ml.mappings idx).unmapFragments ml.pageSize ranges with
  | .error e => throw (.abort e)
  | .ok (calls, mapping) =>
    return { ml with
      mappings := Function.update ml.mappings idx mapping
      munmaps := Function.update ml.munmaps idx (ml.munmaps idx ++ calls) }

/-- The final clean-up of `load_all_data`. -/
def cleanUp : Except LoaderStop ModelLoader :=
  (List.range ml.files.length).foldlM unmapUnused ml

/-- What the caller of `load_all_data` provides: the callback gets the bytes that are done and those
in all, and `validRowData` says if the data of a weight is valid. -/
structure LoadCallbacks where
  progress : Option (UInt64 × UInt64 → Bool)
  validRowData : TensorWeight → Bool

/-- The loop over the tensors of a context, which ends early when the callback says so. -/
def loadTensors (cb : LoadCallbacks) (bufs : ℕ → Option ModelBuffer) :
    ModelLoader → List ModelTensor → Except LoaderStop (Bool × ModelLoader × List ModelTensor)
  | ml, [] => pure (true, ml, [])
  | ml, cur :: rest =>
    match ml.getWeight cur.name with
    | none => do
      let (go, ml, rest) ← loadTensors cb bufs ml rest
      return (go, ml, cur :: rest)
    | some weight =>
      if cb.progress.all (· (ml.sizeDone, ml.sizeData)) then do
        let (ml, cur) ← ml.loadTensor bufs weight cur
        let (go, ml, rest) ← loadTensors cb bufs ml rest
        return (go, ml, cur :: rest)
      else pure (false, ml, cur :: rest)

/-- `load_all_data` -/
def loadAllData (cb : LoadCallbacks) (bufs : ℕ → Option ModelBuffer) (ctx : List ModelTensor) :
    Except LoaderStop (Bool × ModelLoader × List ModelTensor) := do
  if ml.sizeData = 0 then throw .assertion
  let (go, ml, ctx) ← loadTensors cb bufs ml ctx
  if go = false then return (false, ml, ctx)
  if ml.checkTensors = true ∧ ∃ cur ∈ ctx, ∃ weight ∈ ml.getWeight cur.name,
      cb.validRowData weight = false then
    throw (.runtimeError "found tensors with invalid data")
  if ml.sizeDone ≥ ml.sizeData then
    let ml ← if ml.useMmap then ml.cleanUp else pure ml
    return (cb.progress.all (· (ml.sizeData, ml.sizeData)), ml, ctx)
  return (true, ml, ctx)

end ModelLoader

namespace LoadState

variable {Buft : Type} [DecidableEq Buft] (s : LoadState Buft)

open ModelLoader (LoadCallbacks)

/-- The devices: whether tensors of a buffer type may be left in a mapping, and whether the memory
for a buffer can be had. -/
structure Devices (Buft : Type) where
  fromHostPtr : Buft → Bool
  allocates : Buft → Bool

/-- The buffers of a context, and the context with the memory that it has then. -/
def createBuffers (dev : Devices Buft) (buft : Buft) :
    Except LoaderStop ((ℕ → Option ModelBuffer) × LoadState Buft) :=
  if dev.allocates buft = false then
    throw (.runtimeError "unable to allocate buffer")
  else if s.ml.useMmap ∧ dev.fromHostPtr buft then
    pure (fun idx =>
      let (first, last) := s.ml.getMappingRange idx (s.ctx buft)
      if idx < s.ml.files.length ∧ first < last then some (.fromHostPtr first last) else none, s)
  else
    pure (fun idx => if idx < s.ml.files.length then some .own else none,
      ⟨s.ml, Function.update s.ctx buft ((s.ctx buft).map fun t => { t with data := .buffer })⟩)

/-- The buffers of all contexts with tensors. -/
def createAllBuffers (dev : Devices Buft) (ctxMap : List Buft) :
    Except LoaderStop (List (Buft × (ℕ → Option ModelBuffer)) × LoadState Buft) :=
  (ctxMap.filter fun buft => s.ctx buft ≠ []).foldlM (fun (ctxBufs, s) buft => do
    let (bufs, s) ← s.createBuffers dev buft
    let ctxBufs := ctxBufs ++ [(buft, bufs)]
    if ¬ ∃ b ∈ ctxBufs, ∃ idx < s.ml.files.length, (b.2 idx).isSome then
      throw (.runtimeError "failed to allocate buffer")
    return (ctxBufs, s)) ([], s)

/-- `load_all_data` of one context after the other -/
def loadContexts (cb : LoadCallbacks) :
    LoadState Buft → List (Buft × (ℕ → Option ModelBuffer)) →
      Except LoaderStop (Bool × LoadState Buft)
  | s, [] => pure (true, s)
  | s, (buft, bufs) :: rest => do
    let (go, ml, ctx) ← s.ml.loadAllData cb bufs (s.ctx buft)
    let s : LoadState Buft := ⟨ml, Function.update s.ctx buft ctx⟩
    if go then loadContexts cb s rest else return (false, s)

/-- `load_tensors`, where the model makes the requests in turn, and `ctxMap` lists the buffer types
in the order of the map of the contexts. -/
def loadTensors (ml : ModelLoader) (dev : Devices Buft) (cb : LoadCallbacks) (ctxMap : List Buft)
    (requests : List (TensorRequest Buft)) : Except LoaderStop (Bool × LoadState Buft) := do
  let s ← requests.foldlM create ⟨ml, fun _ => []⟩
  s.ml.doneGettingTensors
  let ml ← s.ml.initMappings
  let (ctxBufs, s) ← createAllBuffers ⟨ml, s.ctx⟩ dev ctxMap
  s.loadContexts cb ctxBufs

end LoadState

/-! ## Asynchronous uploads -/

/-- Where the data of a tensor is: the file, the offset, and the bytes. -/
structure UploadTensor where
  idx : ℕ
  offs : ℕ
  nbytes : ℕ
deriving DecidableEq, Repr

/-- The tensors of a context that is uploaded, and the files. -/
structure UploadJob (T B : Type) where
  nBuffers : ℕ
  bufferSize : ℕ
  nBuffers_pos : 0 < nBuffers
  bufferSize_pos : 0 < bufferSize
  tensor : T → UploadTensor
  files : ℕ → ℕ → B

/-- What is enqueued in the stream. -/
inductive UploadOp (T : Type)
  /-- `ggml_backend_tensor_set_async` from a staging buffer -/
  | tensorSet (cur : T) (buffer offset size : ℕ)
  /-- `ggml_backend_event_record` -/
  | eventRecord (event : ℕ)
deriving DecidableEq, Repr

/-- What the loader does next. -/
inductive UploadPhase
  | nextTensor
  /-- the condition of the loop over the chunks -/
  | loop
  | synchronize
  | readRaw
  | setAsync
  | record
  /-- `ggml_backend_event_synchronize` at the end, of each event in turn -/
  | finalSynchronize (event : ℕ)
  | finished
deriving DecidableEq, Repr

structure UploadState (T B : Type) where
  todo : List T
  phase : UploadPhase
  bytesRead : ℕ
  bufferIdx : ℕ
  /-- the position in the file of the tensor -/
  pos : ℕ
  hostPtrs : ℕ → ℕ → B
  stream : List (UploadOp T)
  data : T → ℕ → B

namespace UploadJob

variable {T B : Type} (job : UploadJob T B)

/-- The state in which the loop over the tensors starts. -/
def start (tensors : List T) (hostPtrs : ℕ → ℕ → B) (data : T → ℕ → B) : UploadState T B :=
  ⟨tensors, .nextTensor, 0, 0, 0, hostPtrs, [], data⟩

/-- The bytes that a tensor has in its file. -/
def src (cur : T) (x : ℕ) : B := job.files (job.tensor cur).idx ((job.tensor cur).offs + x)

/-- `read_iteration` -/
def readIteration (cur : T) (bytesRead : ℕ) : ℕ :=
  min job.bufferSize ((job.tensor cur).nbytes - bytesRead)

/-- A step of the loader; `none` where it waits, or is done. -/
def hostStep (s : UploadState T B) : Option (UploadState T B) :=
  match s.phase, s.todo with
  | .nextTensor, [] => some { s with phase := .finalSynchronize 0 }
  | .nextTensor, cur :: _ =>
    some { s with phase := .loop, bytesRead := 0, pos := (job.tensor cur).offs }
  | .loop, cur :: rest =>
    if s.bytesRead < (job.tensor cur).nbytes then some { s with phase := .synchronize }
    else some { s with phase := .nextTensor, todo := rest }
  | .synchronize, _ =>
    if s.stream.all fun op => match op with
      | .eventRecord event => event ≠ s.bufferIdx
      | _ => true
    then some { s with phase := .readRaw } else none
  | .readRaw, cur :: _ =>
    let n := job.readIteration cur s.bytesRead
    let buffer (j : ℕ) : B :=
      if j < n then job.files (job.tensor cur).idx (s.pos + j) else s.hostPtrs s.bufferIdx j
    some { s with
      phase := .setAsync
      hostPtrs := Function.update s.hostPtrs s.bufferIdx buffer
      pos := s.pos + n }
  | .setAsync, cur :: _ =>
    let op := UploadOp.tensorSet cur s.bufferIdx s.bytesRead (job.readIteration cur s.bytesRead)
    some { s with phase := .record, stream := s.stream ++ [op] }
  | .record, cur :: _ =>
    some { s with
      phase := .loop
      stream := s.stream ++ [.eventRecord s.bufferIdx]
      bytesRead := s.bytesRead + job.readIteration cur s.bytesRead
      bufferIdx := (s.bufferIdx + 1) % job.nBuffers }
  | .finalSynchronize event, _ =>
    if s.stream.all fun op => match op with
      | .eventRecord e => e ≠ event
      | _ => true
    then some { s with
      phase := if event + 1 < job.nBuffers then .finalSynchronize (event + 1) else .finished }
    else none
  | _, _ => none

/-- A step of the stream: it does what is enqueued first. -/
def streamStep [DecidableEq T] (s : UploadState T B) : Option (UploadState T B) :=
  match s.stream with
  | [] => none
  | .eventRecord _ :: rest => some { s with stream := rest }
  | .tensorSet cur buffer offset size :: rest =>
    let bytes (x : ℕ) : B :=
      if offset ≤ x ∧ x < offset + size then s.hostPtrs buffer (x - offset) else s.data cur x
    some { s with stream := rest, data := Function.update s.data cur bytes }

/-- A step of one of the two. -/
inductive Turn
  | loader
  | stream
deriving DecidableEq, Repr

def step [DecidableEq T] (s : UploadState T B) : Turn → Option (UploadState T B)
  | .loader => job.hostStep s
  | .stream => streamStep s

end UploadJob

end LamaServer

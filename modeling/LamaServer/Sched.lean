import Mathlib.Data.List.Basic
import Mathlib.Logic.Function.Basic

/-!
# The backend scheduler

`ggml_backend_sched_split_graph` gives each node of a graph a backend, in passes over the graph, and
cuts the graph into splits that run on one backend each; a source that the backend of a split cannot
read is replaced by a copy, which `ggml_backend_sched_compute_splits` fills before the split runs.
Tensors are elements of `T` and buffer types elements of `B`; a backend is its number, and `none` is
the number `-1`. The backends of the user are those a tensor has before the first pass.
-/

namespace LamaServer

/-- `GGML_SCHED_MAX_SPLIT_INPUTS`, which is `GGML_MAX_SRC` -/
abbrev maxSplitInputs : ℕ := 10

/-- The buffer of a tensor that is allocated already. -/
structure SchedBuffer (B : Type) where
  buft : B
  /-- `GGML_BACKEND_BUFFER_USAGE_WEIGHTS` -/
  weights : Bool
  isHost : Bool

/-- What the scheduler reads of a tensor. -/
structure SchedTensor (T B : Type) where
  /-- `ggml_is_view_op` -/
  isViewOp : Bool
  isRope : Bool
  viewSrc : Option T
  buffer : Option (SchedBuffer B)
  /-- `GGML_TENSOR_FLAG_INPUT` -/
  isInput : Bool
  /-- the sources that are not null -/
  src : List T

/-- A scheduler as `ggml_backend_sched_new` makes it. -/
structure Sched (T B : Type) where
  nBackends : ℕ
  nBackends_pos : 0 < nBackends
  nCopies : ℕ
  opOffload : Bool
  bufts : ℕ → B
  supportsBuft : ℕ → B → Bool
  supports_own : ∀ b < nBackends, supportsBuft b (bufts b)
  supportsOp : ℕ → T → Bool
  offloadOp : ℕ → T → Bool
  tensor : T → SchedTensor T B

/-- `hv_tensor_backend_ids` -/
abbrev BackendIds (T : Type) := T → Option ℕ

namespace Sched

variable {T B : Type} (sched : Sched T B)

/-! ## The backend of a tensor -/

/-- The buffer of the tensor, or of what it is a view of. -/
def bufferOf (t : T) : Option (SchedBuffer B) :=
  match (sched.tensor t).viewSrc with
  | some v => (sched.tensor v).buffer
  | none => (sched.tensor t).buffer

/-- `ggml_backend_sched_backend_from_buffer` -/
def backendFromBuffer (t op : T) : Option ℕ :=
  match sched.bufferOf t with
  | none => none
  | some buffer => (List.range sched.nBackends).find? fun i =>
      sched.supportsBuft i buffer.buft && sched.supportsOp i op

/-- The loop of `ggml_backend_sched_backend_id_from_cur` over the sources: the first weight. -/
def backendFromWeights (t : T) : Option ℕ :=
  match (sched.tensor t).src.find? fun src =>
      !(sched.tensor t).isRope && (sched.tensor src).buffer.any (·.weights) with
  | none => none
  | some src =>
    let srcBackendId := sched.backendFromBuffer src t
    let offload :=
      if sched.opOffload && srcBackendId = some (sched.nBackends - 1) &&
          (sched.tensor src).buffer.any (·.isHost) then
        (List.range (sched.nBackends - 1)).find? fun b =>
          sched.supportsOp b t && sched.offloadOp b t
      else none
    offload.or srcBackendId

/-- `ggml_backend_sched_backend_id_from_cur`; the outer `none` is where it aborts. -/
def backendIdFromCur (t : T) : Option (Option ℕ) :=
  match sched.backendFromBuffer t t with
  | some b => some (some b)
  | none =>
    match (sched.tensor t).viewSrc.bind (sched.backendFromBuffer · t) with
    | some b => some (some b)
    | none =>
      if (sched.tensor t).buffer.isSome ||
          ((sched.tensor t).viewSrc.bind fun v => (sched.tensor v).buffer).isSome then none
      else if (sched.tensor t).isInput then some (some (sched.nBackends - 1))
      else some (sched.backendFromWeights t)

/-- `ggml_backend_sched_buffer_supported` -/
def bufferSupported (ids : BackendIds T) (t : T) (backendId : ℕ) : Bool :=
  let buft :=
    match sched.bufferOf t with
    | some buffer => some buffer.buft
    | none => ((ids t).or ((sched.tensor t).viewSrc.bind ids)).map sched.bufts
  buft.any (sched.supportsBuft backendId)

/-! ## The passes that give the nodes their backends -/

variable [DecidableEq T]

/-- Gives a tensor without a backend its backend, as the passes do. -/
def assign (ids : BackendIds T) (t : T) (b : Option ℕ) : BackendIds T :=
  if ids t = none then Function.update ids t b else ids

/-- Pass 1: assign backends to ops with pre-allocated inputs. -/
def assignFromCur (ids : BackendIds T) (t : T) : Option (BackendIds T) :=
  if ids t = none then (sched.backendIdFromCur t).map (Function.update ids t) else some ids

/-- `ggml_backend_sched_set_if_supported` -/
def setIfSupported (ids : BackendIds T) (node : T) (curBackendId : ℕ) : BackendIds T :=
  if sched.supportsOp curBackendId node then Function.update ids node (some curBackendId) else ids

/-- Pass 2: assign the same backend to adjacent nodes; the loops differ in their direction and in
whether the last backend is expanded too. -/
def expandNode (skipLast : Bool) (st : Option ℕ × BackendIds T) (node : T) :
    Option ℕ × BackendIds T :=
  if (sched.tensor node).isViewOp then st
  else
    match st.2 node, st.1 with
    | some b, _ => (if skipLast && b = sched.nBackends - 1 then none else some b, st.2)
    | none, some cur => (some cur, sched.setIfSupported st.2 node cur)
    | none, none => st

def expand (skipLast : Bool) (ids : BackendIds T) (nodes : List T) : BackendIds T :=
  (nodes.foldl (sched.expandNode skipLast) (none, ids)).2

/-- The number of sources that backend `b` can read where they are. -/
def nSupported (ids : BackendIds T) (node : T) (b : ℕ) : ℕ :=
  ((sched.tensor node).src.filter fun src =>
    ((ids src).isSome || ((sched.tensor src).viewSrc.bind ids).isSome) &&
      sched.bufferSupported ids src b).length

/-- The backend with the most supported inputs, and how many these are. -/
def bestBackend (ids : BackendIds T) (node : T) : Option (ℕ × ℕ) :=
  (List.range sched.nBackends).foldl
    (fun best b =>
      if sched.supportsOp b node && best.all (·.2 < sched.nSupported ids node b) then
        some (b, sched.nSupported ids node b)
      else best) none

/-- The backend of higher priority that an assigned node is upgraded to. -/
def upgradeOf (ids : BackendIds T) (node : T) (cur : ℕ) [DecidableEq B] : Option ℕ :=
  (List.range cur).find? fun b =>
    sched.bufts b = sched.bufts cur && sched.supportsOp b node &&
      (sched.tensor node).src.all fun src => sched.bufferSupported ids src b

/-- Pass 3: upgrade nodes to higher prio backends with compatible buffer types. -/
def upgradeNode [DecidableEq B] (ids : BackendIds T) (node : T) : BackendIds T :=
  if (sched.tensor node).isViewOp then ids
  else
    match ids node with
    | none =>
      match sched.bestBackend ids node with
      | none => ids
      | some best => Function.update ids node (some best.1)
    | some cur =>
      match sched.upgradeOf ids node cur with
      | none => ids
      | some b => Function.update ids node (some b)

/-- The loop of pass 4 over the sources of a node. -/
def assignSrc (node : T) (ids : BackendIds T) (src : T) : BackendIds T :=
  assign ids src
    (match (sched.tensor src).viewSrc with
    | some v => ids v
    | none => ids node)

/-- Pass 4: assign backends to remaining src from dst and view_src. -/
def assignSrcs (ids : BackendIds T) (node : T) : BackendIds T :=
  let ids :=
    match (sched.tensor node).viewSrc with
    | some v => assign ids node (ids v)
    | none => ids
  (sched.tensor node).src.foldl (sched.assignSrc node) ids

/-- The first four passes; `none` where the first one aborts. -/
def assignBackends [DecidableEq B] (ids : BackendIds T) (leafs nodes : List T) :
    Option (BackendIds T) :=
  ((leafs ++ nodes).foldlM sched.assignFromCur ids).map fun ids =>
    let ids := sched.expand true ids nodes
    let ids := sched.expand true ids nodes.reverse
    let ids := sched.expand false ids nodes
    let ids := sched.expand false ids nodes.reverse
    nodes.foldl sched.assignSrcs (nodes.foldl sched.upgradeNode ids)

end Sched

/-! ## Splitting the graph -/

/-- A source of a node in a split: as it was, or the copy of a tensor for a backend. -/
inductive SplitSrc (T : Type)
  | tensor (t : T)
  | copy (t : T) (backendId : ℕ)
deriving DecidableEq, Repr

/-- `ggml_backend_sched_split` -/
structure SchedSplit (T : Type) where
  backendId : ℕ
  iStart : ℕ
  iEnd : ℕ
  inputs : List T
deriving DecidableEq, Repr

/-- The variables of pass 5. -/
structure Splitting (T : Type) where
  /-- the splits that have ended -/
  splits : List (SchedSplit T)
  /-- the current split -/
  backendId : ℕ
  iStart : ℕ
  inputs : List T
  /-- whether `tensor_copy` is set for a tensor and a backend -/
  copies : T → ℕ → Bool
  graphInputs : List T
  /-- the sources of the nodes that were visited -/
  srcs : List (List (SplitSrc T))

namespace Splitting

variable {T : Type} [DecidableEq T]

def setCopy (st : Splitting T) (t : T) (b : ℕ) : Splitting T :=
  { st with copies := Function.update st.copies t (Function.update (st.copies t) b true) }

/-- `split->i_end = i` -/
def endSplit (st : Splitting T) (i : ℕ) : List (SchedSplit T) :=
  st.splits ++ [⟨st.backendId, st.iStart, i, st.inputs⟩]

end Splitting

namespace Sched

variable {T B : Type} [DecidableEq T] (sched : Sched T B) (ids : BackendIds T)

/-- The source is on another backend, in a buffer that backend `b` does not support. -/
def needsCopy (src : T) (b : ℕ) : Bool :=
  ids src ≠ some b && !sched.bufferSupported ids src b

/-- `need_new_split` -/
def needNewSplit (st : Splitting T) (node : T) : Bool :=
  !st.inputs.isEmpty && (sched.tensor node).src.any fun src =>
    ((sched.tensor src).buffer.any (·.weights) && sched.needsCopy ids src st.backendId) ||
      (st.inputs.length = maxSplitInputs && sched.needsCopy ids src st.backendId &&
        !st.copies src st.backendId)

/-- The copies of an input of the graph, if the graphs are pipelined. -/
def addGraphInput (st : Splitting T) (src : T) (srcBackendId : ℕ) : Option (Splitting T) :=
  if (sched.tensor src).isInput && 1 < sched.nCopies && !st.copies src srcBackendId then
    if st.graphInputs.length < maxSplitInputs then
      some { st.setCopy src srcBackendId with graphInputs := st.graphInputs ++ [src] }
    else none
  else some st

/-- Finds inputs that are not on the same backend; `none` where an assertion fails. -/
def visitSrc (st : Splitting T × List (SplitSrc T)) (src : T) :
    Option (Splitting T × List (SplitSrc T)) :=
  match ids src with
  | none => none
  | some srcBackendId =>
    (sched.addGraphInput st.1 src srcBackendId).bind fun s =>
      if sched.needsCopy ids src s.backendId then
        if s.copies src s.backendId then some (s, st.2 ++ [.copy src s.backendId])
        else if s.inputs.length < maxSplitInputs then
          some ({ s.setCopy src s.backendId with inputs := s.inputs ++ [src] },
            st.2 ++ [.copy src s.backendId])
        else none
      else some (s, st.2 ++ [.tensor src])

/-- The body of pass 5 for the node `i`. -/
def splitNode (st : Splitting T) (i : ℕ) (node : T) : Option (Splitting T) :=
  if (sched.tensor node).isViewOp then
    some { st with srcs := st.srcs ++ [(sched.tensor node).src.map .tensor] }
  else
    match ids node with
    | none => none
    | some nodeBackendId =>
      let st :=
        if nodeBackendId ≠ st.backendId || sched.needNewSplit ids st node then
          { st with
            splits := st.endSplit i
            backendId := nodeBackendId
            iStart := i
            inputs := [] }
        else st
      ((sched.tensor node).src.foldlM (sched.visitSrc ids) (st, [])).map fun r =>
        { r.1 with srcs := r.1.srcs ++ [r.2] }

/-- The nodes from `i` on. -/
def splitNodes : ℕ → List T → Splitting T → Option (Splitting T)
  | _, [], st => some st
  | i, node :: nodes, st => (sched.splitNode ids st i node).bind (splitNodes (i + 1) nodes)

/-- The backend of the first split: that of the first node that is computed, if there is one, else
what is left there from before. -/
def firstBackend (nodes : List T) (stale : ℕ) : Option ℕ :=
  match nodes.find? fun node => !(sched.tensor node).isViewOp with
  | none => some stale
  | some node => ids node

/-- Pass 5: split graph, find tensors that need to be copied. The splits, and the sources that the
nodes have then. -/
def cutGraph (nodes : List T) (stale : ℕ) :
    Option (List (SchedSplit T) × List (List (SplitSrc T))) :=
  (sched.firstBackend ids nodes stale).bind fun b =>
    (sched.splitNodes ids 0 nodes ⟨[], b, 0, [], fun _ _ => false, [], []⟩).map fun st =>
      (st.endSplit nodes.length, st.srcs)

/-- `ggml_backend_sched_split_graph`, from the backends that the user has set -/
def splitGraph [DecidableEq B] (user : BackendIds T) (leafs nodes : List T) (stale : ℕ) :
    Option (List (SchedSplit T) × List (List (SplitSrc T))) :=
  (sched.assignBackends user leafs nodes).bind fun ids => sched.cutGraph ids nodes stale

end Sched

/-! ## Computing the splits -/

/-- What the nodes compute. A tensor is read from the storage of what it is a view of, and a node
writes its part of such a storage. -/
structure Kernels (T S V : Type) where
  read : T → S → V
  exec : T → List V → S → S

/-- The storages of the tensors, and the copies for the backends. -/
structure SchedMemory (T S V : Type) where
  storage : T → S
  copy : T → ℕ → V

namespace Sched

variable {T B S V : Type} [DecidableEq T] (sched : Sched T B) (kernels : Kernels T S V)

/-- The tensor whose storage a tensor is in. -/
def root (t : T) : T := ((sched.tensor t).viewSrc).getD t

def valueOf (storage : T → S) (t : T) : V := kernels.read t (storage (sched.root t))

/-- Computes a node that has these values in its sources; a view is not computed. -/
def compute (storage : T → S) (node : T) (values : List V) : T → S :=
  if (sched.tensor node).isViewOp then storage
  else
    Function.update storage (sched.root node)
      (kernels.exec node values (storage (sched.root node)))

/-- One backend computes the graph. -/
def computeGraph (storage : T → S) (nodes : List T) : T → S :=
  nodes.foldl
    (fun storage node =>
      sched.compute kernels storage node
        ((sched.tensor node).src.map (sched.valueOf kernels storage)))
    storage

def srcValue (m : SchedMemory T S V) : SplitSrc T → V
  | .tensor t => sched.valueOf kernels m.storage t
  | .copy t b => m.copy t b

/-- Copies the input tensor to the split backend. -/
def copyInput (backendId : ℕ) (m : SchedMemory T S V) (input : T) : SchedMemory T S V :=
  { m with
    copy := Function.update m.copy input
      (Function.update (m.copy input) backendId (sched.valueOf kernels m.storage input)) }

def computeNode (m : SchedMemory T S V) (node : T × List (SplitSrc T)) : SchedMemory T S V :=
  { m with
    storage := sched.compute kernels m.storage node.1 (node.2.map (sched.srcValue kernels m)) }

/-- The part of a list between two places. -/
def slice {α : Type} (l : List α) (iStart iEnd : ℕ) : List α := (l.take iEnd).drop iStart

def computeSplit (graph : List (T × List (SplitSrc T))) (m : SchedMemory T S V)
    (split : SchedSplit T) : SchedMemory T S V :=
  (slice graph split.iStart split.iEnd).foldl (sched.computeNode kernels)
    (split.inputs.foldl (sched.copyInput kernels split.backendId) m)

/-- `ggml_backend_sched_compute_splits`, where every backend computes what it is given -/
def computeSplits (graph : List (T × List (SplitSrc T))) (splits : List (SchedSplit T))
    (m : SchedMemory T S V) : SchedMemory T S V :=
  splits.foldl (sched.computeSplit kernels graph) m

end Sched

end LamaServer

import LamaServer.Lib.Barrier

/-!
# The threads of a graph computation

`ggml_graph_compute_thread`, which every thread of a pool runs on the same graph, and the loop over
the chunks of a matrix multiplication. What a thread computes at once is an *item*: its own part of
a phase of a node, or a chunk of a matrix multiplication. The threads take turns in any order, and
their atomic operations act at once. Without OpenMP; the counts fit an `int`.
-/

namespace LamaServer

open Barrier (Counters)

/-- What the computation of a node is for the threads. -/
inductive CpuNode
  /-- Phases in which each thread computes a part of its own, with a barrier between two of them. -/
  | parts (phases : ℕ)
  /-- `ggml_compute_forward_mul_mat`: each thread converts its part of `src1`; behind a barrier the
  chunks of the result are taken from a counter. -/
  | mulMat (nchunk : ℕ)
deriving DecidableEq, Repr

inductive CpuPhase
  | part
  /-- the conversion, behind which the first thread stores the first free chunk -/
  | convert
  | chunks (nchunk : ℕ)
deriving DecidableEq, Repr

def CpuNode.phases : CpuNode → List CpuPhase
  | .parts n => List.replicate n .part
  | .mulMat nchunk => [.convert, .chunks nchunk]

/-- What a phase consists of for `nth` threads. -/
def CpuPhase.items (nth : ℕ) : CpuPhase → ℕ
  | .part | .convert => nth
  | .chunks nchunk => nchunk

/-- Where a thread is in the graph, or where it goes from the barrier. -/
inductive CpuPos
  /-- the condition of the loop over the nodes -/
  | check (node : ℕ)
  | phase (node j : ℕ)
  | store (node j : ℕ)
  /-- the loop over the chunks, with `current_chunk` -/
  | chunk (node j currentChunk : ℕ)
  | fetch (node j : ℕ)
  | finished
deriving DecidableEq, Repr

structure CpuThread where
  pos : CpuPos := .check 0
  stage : Barrier.Stage := .out

/-- An item of a phase of a node. -/
structure CpuItem where
  node : ℕ
  j : ℕ
  item : ℕ
deriving DecidableEq, Repr

/-- `struct ggml_threadpool`, and what has been computed so far. -/
structure ThreadPool (nth : ℕ) where
  barrier : Counters
  currentChunk : ℕ := 0
  abort : Int := -1
  /-- `ec = GGML_STATUS_ABORTED` -/
  aborted : Bool := false
  threads : Fin nth → CpuThread := fun _ => {}
  computed : List CpuItem := []

variable {nth : ℕ}

namespace ThreadPool

/-- A pool when a graph is started. -/
def start (nth : ℕ) (passed : BitVec 32) (currentChunk : ℕ) : ThreadPool nth :=
  { barrier := ⟨0, passed⟩, currentChunk }

def setThread (p : ThreadPool nth) (i : Fin nth) (thread : CpuThread) : ThreadPool nth :=
  { p with threads := Function.update p.threads i thread }

/-- A thread goes on to a place in the graph. -/
def goto (p : ThreadPool nth) (i : Fin nth) (pos : CpuPos) : ThreadPool nth :=
  p.setThread i ⟨pos, .out⟩

/-- The beginning of `ggml_barrier`; a single thread passes it. -/
def enter (p : ThreadPool nth) (i : Fin nth) (next : CpuPos) : ThreadPool nth :=
  if nth = 1 then p.goto i next else p.setThread i ⟨next, .entered p.barrier.passed⟩

def compute (p : ThreadPool nth) (node j item : ℕ) : ThreadPool nth :=
  { p with computed := p.computed ++ [⟨node, j, item⟩] }

variable (nodes : List CpuNode)

/-- Behind the phase `j` of a node; between two phases there is a barrier. -/
def afterPhase (p : ThreadPool nth) (i : Fin nth) (node j : ℕ) : ThreadPool nth :=
  if j + 1 < (nodes.getD node (.parts 0)).phases.length then p.enter i (.phase node (j + 1))
  else p.goto i (.phase node (j + 1))

/-- Behind a node; `abort` is what the abort callback answers the first thread. -/
def afterNode (p : ThreadPool nth) (i : Fin nth) (node : ℕ) (abort : Bool) : ThreadPool nth :=
  let p := if i.val = 0 ∧ abort then { p with abort := node + 1, aborted := true } else p
  if node + 1 < nodes.length then p.enter i (.check (node + 1)) else p.goto i (.check (node + 1))

/-- The next step of a thread outside a barrier, unless it is finished. -/
def advance (p : ThreadPool nth) (i : Fin nth) (abort : Bool) : CpuPos → Option (ThreadPool nth)
  | .check node =>
    if node < nodes.length ∧ p.abort ≠ node then some (p.goto i (.phase node 0))
    else some (p.enter i .finished)
  | .phase node j =>
    match (nodes.getD node (.parts 0)).phases[j]? with
    | none => some (p.afterNode nodes i node abort)
    | some .part => some ((p.compute node j i).afterPhase nodes i node j)
    | some .convert =>
      let p := p.compute node j i
      if i.val = 0 then some (p.goto i (.store node j)) else some (p.afterPhase nodes i node j)
    | some (.chunks _) => some (p.goto i (.chunk node j i))
  | .store node j => some ({ p with currentChunk := nth }.afterPhase nodes i node j)
  | .chunk node j c =>
    match (nodes.getD node (.parts 0)).phases[j]? with
    | some (.chunks nchunk) =>
      if c < nchunk then
        let p := p.compute node j c
        if nchunk ≤ nth then some (p.afterPhase nodes i node j) else some (p.goto i (.fetch node j))
      else some (p.afterPhase nodes i node j)
    | _ => none
  | .fetch node j =>
    some ({ p with currentChunk := p.currentChunk + 1 }.goto i (.chunk node j p.currentChunk))
  | .finished => none

/-- The next step of a thread: in the barrier, or outside. -/
def step (p : ThreadPool nth) (i : Fin nth) (abort : Bool) : Option (ThreadPool nth) :=
  let thread := p.threads i
  if thread.stage = .out then p.advance nodes i abort thread.pos
  else (Barrier.step nth p.barrier thread.stage).map fun r =>
    { p with barrier := r.1 }.setThread i { thread with stage := r.2 }

end ThreadPool

end LamaServer

import LamaServer.KvCache
import LamaServer.Lib.BlockCopy
import Mathlib.Data.Multiset.Basic
import Mathlib.Data.Multiset.Range

/-!
# The graph of a defragmentation

`build_graph_defrag`: the cells that move to consecutive places are copied as one block, in the K
and in the V tensor of every layer.
-/

namespace LamaServer

open Index (firstBelow)

variable {m : KvParams} {size : Nat}

/-- The loop over `ids`: the blocks `[i, i + nm)` that go to `[id, id + nm)`. The first argument
bounds the rounds. -/
def copyGroups (nKv : Nat) (ids : Nat → Nat) : Nat → Nat → List BlockCopy
  | 0, _ => []
  | r + 1, i =>
    if nKv ≤ i then []
    else if ids i = i ∨ ids i = nKv then copyGroups nKv ids r (i + 1)
    else
      let nm := firstBelow (nKv - i) fun j => ids (i + j) ≠ ids i + j
      { src := i, dst := ids i, len := nm } :: copyGroups nKv ids r (i + nm)

/-- A `ggml_cpy` of the graph, in a K or a V tensor. -/
structure CopyNode (m : KvParams) where
  layer : Fin m.nLayer
  ofV : Bool
  copy : BlockCopy

def CopyNode.run (n : CopyNode m) (c : KvCache m size) : KvCache m size :=
  if n.ofV then { c with v := Function.update c.v n.layer fun j => n.copy.apply (c.v n.layer j) }
  else { c with k := Function.update c.k n.layer (n.copy.apply (c.k n.layer)) }

def runNodes (nodes : List (CopyNode m)) (c : KvCache m size) : KvCache m size :=
  nodes.foldl (fun c n => n.run c) c

/-- `build_graph_defrag`. -/
def buildGraphDefrag (m : KvParams) (nKv : Nat) (ids : Nat → Nat) : List (CopyNode m) :=
  (copyGroups nKv ids nKv 0).flatMap fun g =>
    (List.finRange m.nLayer).flatMap fun il => [⟨il, false, g⟩, ⟨il, true, g⟩]

/-! ## What a cache holds -/

/-- The position and the sequences of a cell, and its rows in all layers. -/
def KvCache.content (c : KvCache m size) (i : Nat) :
    Int × Finset Int × (∀ il, Format.Block (m.kSizeRow il)) ×
      ∀ il, Fin (m.vRows il) → Format.Block (m.vPiece il) :=
  ((c.cells i).pos, (c.cells i).seqId, fun il => c.k il i, fun il j => c.v il j i)

/-- The cells that are not empty. -/
def KvCache.live (c : KvCache m size) : Finset Nat :=
  (Finset.range size).filter fun i => (c.cells i).seqId ≠ ∅

end LamaServer

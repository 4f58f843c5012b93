import LamaServer.GraphBuild
import LamaServer.Lib.PostOrder
import Mathlib.Data.Set.Card

/-!
# A graph is built in topological order

Whatever calls build a graph, it lists what can be reached from their tensors, each tensor once and
behind its sources (`buildForward_sorted`), and it has room for it where the two lists have. A copy
of the graph has a table of its own, with the same tensors at other places, and the gradients at
these (`buildForward_dup`).
-/

namespace LamaServer

open PostOrder

/-! ## The table -/

namespace GgmlBitset

theorem get_eq (bitset : GgmlBitset) (i : ℕ) :
    bitset.get i = (bitset (i / 32)).getLsbD (i % 32) := by
  have hmask : i &&& 31 = i % 32 := Nat.and_two_pow_sub_one_eq_mod i 5
  have hlt : i % 32 < 32 := Nat.mod_lt _ (by decide)
  rw [get, hmask, Nat.shiftRight_eq_div_pow, ← BitVec.twoPow_eq, BitVec.and_twoPow]
  split_ifs with h
  · rw [h, decide_eq_true]
    intro h0
    have := congrArg (·.getLsbD (i % 32)) h0
    simp [hlt] at this
  · simp [h]

theorem get_set (bitset : GgmlBitset) (i j : ℕ) :
    (bitset.set i).get j = (decide (j = i) || bitset.get j) := by
  have hmask : i &&& 31 = i % 32 := Nat.and_two_pow_sub_one_eq_mod i 5
  rw [get_eq, get_eq, set, hmask, Nat.shiftRight_eq_div_pow, ← BitVec.twoPow_eq]
  have hi : i % 32 < 32 := Nat.mod_lt _ (by decide)
  have hj : j % 32 < 32 := Nat.mod_lt _ (by decide)
  by_cases hword : j / 32 = i / 2 ^ 5
  · rw [hword, Function.update_self, BitVec.getLsbD_or, BitVec.getLsbD_twoPow, Bool.or_comm]
    have hiff : i % 32 = j % 32 ↔ j = i := by omega
    simp [hi, hj, hiff]
  · rw [Function.update_of_ne hword, decide_eq_false (by omega), Bool.false_or]

end GgmlBitset

variable {T : Type} [DecidableEq T]

namespace GgmlHashSet

variable {hashSet : GgmlHashSet T} {address : T → ℕ} {keys : List T} {key : T} {i : ℕ}

/-- What is at a place of the table. -/
def slot (hashSet : GgmlHashSet T) (i : ℕ) : Option T :=
  if hashSet.used.get i then some (hashSet.keys i) else none

/-- The table holds these keys, where they are found. -/
def Holds (hashSet : GgmlHashSet T) (address : T → ℕ) (keys : List T) : Prop :=
  Probing.Holds (fun t => ggmlHash (address t)) hashSet.size hashSet.slot keys

theorem find_eq (hashSet : GgmlHashSet T) (address : T → ℕ) (key : T) :
    hashSet.find address key =
      Probing.place (fun t => ggmlHash (address t)) hashSet.size hashSet.slot key := by
  have hp : (fun i => !(hashSet.used.get i && hashSet.keys i ≠ key)) =
      fun i => decide (hashSet.slot i = none ∨ hashSet.slot i = some key) := by
    funext i
    cases hused : hashSet.used.get i <;> simp [slot, hused]
  rw [find, hp]
  rfl

omit [DecidableEq T] in
theorem slot_insert (hashSet : GgmlHashSet T) (i : ℕ) (key : T) :
    slot { hashSet with used := hashSet.used.set i, keys := Function.update hashSet.keys i key } =
      Function.update hashSet.slot i (some key) := by
  funext j
  by_cases hj : j = i
  · subst hj
    simp [slot, GgmlBitset.get_set]
  · simp [slot, GgmlBitset.get_set, hj]

theorem holds_nil (hsize : 0 < hashSet.size) (hused : hashSet.used = fun _ => 0) :
    hashSet.Holds address [] :=
  Probing.holds_nil hsize fun i _ => by simp [slot, GgmlBitset.get_eq, hused]

theorem Holds.place_of_mem (h : hashSet.Holds address keys) (hkey : key ∈ keys) :
    ∃ i < hashSet.size, hashSet.find address key = some i ∧ hashSet.used.get i ∧
      hashSet.keys i = key := by
  obtain ⟨i, hi, hslot, hplace⟩ := Probing.Holds.place_of_mem h hkey
  rw [← find_eq] at hplace
  simp only [slot, Option.ite_none_right_eq_some, Option.some.injEq] at hslot
  exact ⟨i, hi, hplace, hslot⟩

theorem Holds.used_of_find (h : hashSet.Holds address keys) (hfind : hashSet.find address key = some i) :
    hashSet.used.get i = decide (key ∈ keys) := by
  rw [find_eq] at hfind
  have hslot := Probing.Holds.slot_of_place h hfind
  by_cases hkey : key ∈ keys
  · rw [if_pos hkey] at hslot
    simp only [slot, Option.ite_none_right_eq_some] at hslot
    simpa [hkey] using hslot.1
  · rw [if_neg hkey] at hslot
    simpa [hkey, slot] using hslot

/-- The set contains its keys and nothing else. -/
theorem Holds.contains_iff (h : hashSet.Holds address keys) :
    hashSet.contains address key ↔ key ∈ keys := by
  unfold contains
  rcases hfind : hashSet.find address key with _ | i
  · rw [find_eq] at hfind
    simpa using (Probing.Holds.size_le_of_place h hfind).2
  · simp [h.used_of_find hfind]

/-- An insertion leaves the other keys in their places. -/
theorem Holds.insert (h : hashSet.Holds address keys) (key : T) :
    Except.Ends (fun e => e = .hashFull ∧ key ∉ keys ∧ hashSet.size ≤ keys.length)
      (fun o => o.elim (key ∈ keys) fun hashSet' => key ∉ keys ∧ hashSet'.size = hashSet.size ∧
        hashSet'.Holds address (keys ++ [key]) ∧
        ∀ t ∈ keys, hashSet'.find address t = hashSet.find address t)
      (hashSet.insert address key) := by
  unfold GgmlHashSet.insert
  rcases hfind : hashSet.find address key with _ | i
  · rw [find_eq] at hfind
    have hfull := Probing.Holds.size_le_of_place h hfind
    exact ⟨rfl, hfull.2, hfull.1⟩
  · have hused := h.used_of_find hfind
    simp only
    split_ifs with hi
    · simpa [hi] using hused.symm
    · have hkey : key ∉ keys := by simpa [hi] using hused.symm
      have hinsert := Probing.Holds.insert h hkey (by rw [← find_eq, hfind])
      rw [← slot_insert] at hinsert
      refine ⟨hkey, rfl, hinsert, fun t ht => ?_⟩
      obtain ⟨j, hj, hslot, hplace⟩ := Probing.Holds.place_of_mem h ht
      rw [find_eq, find_eq, hplace]
      refine hinsert.found j hj t ?_
      rw [slot_insert, Function.update_of_ne]
      · exact hslot
      · rintro rfl
        simp [slot, hi] at hslot

end GgmlHashSet

/-- A table has room for at least as many keys as it is made for. -/
theorem le_ggmlHashSize (minSz : ℕ) : minSz ≤ ggmlHashSize minSz := by
  have hsearch : ∀ n l r : ℕ, r - l < 2 ^ n → l ≤ r → r ≤ hashPrimes.length →
      (r < hashPrimes.length → minSz ≤ hashPrimes.getD r 0) →
      searchPrime minSz n l r < hashPrimes.length →
        minSz ≤ hashPrimes.getD (searchPrime minSz n l r) 0 := by
    intro n
    induction n with
    | zero =>
      intro l r hn hlr _ hmin hlt
      obtain rfl : l = r := by omega
      exact hmin hlt
    | succ n ih =>
      intro l r hn hlr hr hmin hlt
      rw [pow_succ] at hn
      simp only [searchPrime] at hlt ⊢
      split_ifs at hlt ⊢ with hlr' hprime
      · exact ih _ _ (by omega) (by omega) hr hmin hlt
      · exact ih _ _ (by omega) (by omega) (by omega) (fun _ => by omega) hlt
      · obtain rfl : l = r := by omega
        exact hmin hlt
  unfold ggmlHashSize
  simp only
  split_ifs with h
  · exact hsearch _ _ _ (by decide) (by decide) le_rfl (fun h => absurd h (lt_irrefl _)) h
  · exact Nat.left_le_or

theorem ggmlHashSize_pos (minSz : ℕ) : 0 < ggmlHashSize minSz := by
  rcases Nat.eq_zero_or_pos minSz with rfl | h
  · decide
  · exact h.trans_le (le_ggmlHashSize minSz)

/-! ## The visit -/

namespace GgmlTensors

variable (tensors : GgmlTensors T)

/-- `b` is a source of `a`. -/
def Source (a b : T) : Prop := ∃ i, tensors.src a i = some b

/-- No tensor is computed from itself. -/
def Acyclic : Prop := ∀ a, ¬ Relation.TransGen tensors.Source a a

/-- A tensor without an operation has no sources, as the functions that make tensors leave it. -/
def LeafsBare : Prop := ∀ a, tensors.isLeaf a → ∀ b, ¬ tensors.Source a b

/-- The tensors that the given ones are computed from, and they themselves. -/
def Reachable (roots : List T) (t : T) : Prop :=
  ∃ root ∈ roots, Relation.ReflTransGen tensors.Source root t

/-- A graph of this size has room for the tensors that the given ones are computed from. -/
def Fits (size : ℕ) (roots : List T) : Prop :=
  {t | tensors.Reachable roots t ∧ tensors.isLeaf t}.encard ≤ size ∧
    {t | tensors.Reachable roots t ∧ ¬ tensors.isLeaf t}.encard ≤ size

/-- The graph lists what the roots are computed from, in topological order. -/
structure Sorted (start : GraphBuilding T) (roots : List T) (b : GraphBuilding T) : Prop where
  nodup : (b.cgraph.nodes ++ b.cgraph.leafs).Nodup
  mem : ∀ t, t ∈ b.cgraph.nodes ++ b.cgraph.leafs ↔ tensors.Reachable roots t
  leaf : ∀ t ∈ b.cgraph.leafs, tensors.isLeaf t
  node : ∀ t ∈ b.cgraph.nodes, ¬ tensors.isLeaf t
  before : ∀ l t r, b.cgraph.nodes = l ++ t :: r → ∀ s, tensors.Source t s →
    s ∈ b.cgraph.leafs ∨ s ∈ l
  contains : ∀ t, b.cgraph.visitedHashSet.contains tensors.address t ↔
    t ∈ b.cgraph.nodes ++ b.cgraph.leafs
  named : ∀ t ∈ b.cgraph.nodes ++ b.cgraph.leafs, b.name t ≠ ""
  name : ∀ t, start.name t ≠ "" → b.name t = start.name t

variable {tensors} {order : GgmlEvalOrder} {a b : T}

omit [DecidableEq T] in
theorem mem_sources : b ∈ tensors.sources order a ↔ tensors.Source a b := by
  simp only [sources, List.mem_filterMap, List.mem_finRange, true_and, Source]
  split_ifs
  · exact ⟨fun ⟨i, h⟩ => ⟨i.rev, h⟩, fun ⟨i, h⟩ => ⟨i.rev, by rwa [Fin.rev_rev]⟩⟩
  · exact Iff.rfl

omit [DecidableEq T] in
theorem child_sources (tensors : GgmlTensors T) (order : GgmlEvalOrder) :
    Child (tensors.sources order) = tensors.Source :=
  funext fun _ => funext fun _ => propext mem_sources

/-- The first part of `ggml_visit_parents`. -/
def enterNode (tensors : GgmlTensors T) (b : GraphBuilding T) (node : T) :
    Except GraphAbort (Option (GraphBuilding T)) :=
  (b.cgraph.visitedHashSet.insert tensors.address node).map fun visited =>
    visited.map fun visited => { b with cgraph := { b.cgraph with visitedHashSet := visited } }

theorem visitParents_eq : ∀ n, tensors.visitParents n =
    visit (fun b t => tensors.sources b.cgraph.order t) tensors.enterNode tensors.addNode .tooDeep n
  | 0 => rfl
  | n + 1 => by
    funext b node
    rw [visitParents, visit, enterNode, ← visitParents_eq n]
    rcases b.cgraph.visitedHashSet.insert tensors.address node with e | _ | visited <;> rfl

/-- The state of a graph in which `seen` are visited and `out` added. -/
structure Builds (tensors : GgmlTensors T) (start b : GraphBuilding T) (seen out : List T) :
    Prop where
  size : b.cgraph.size = start.cgraph.size
  order : b.cgraph.order = start.cgraph.order
  grads : b.cgraph.grads = start.cgraph.grads
  gradAccs : b.cgraph.gradAccs = start.cgraph.gradAccs
  hashSize : b.cgraph.visitedHashSet.size = start.cgraph.visitedHashSet.size
  holds : b.cgraph.visitedHashSet.Holds tensors.address seen
  nodes : b.cgraph.nodes = out.filter (!tensors.isLeaf ·)
  leafs : b.cgraph.leafs = out.filter (tensors.isLeaf ·)
  nodes_le : b.cgraph.nodes.length ≤ b.cgraph.size
  leafs_le : b.cgraph.leafs.length ≤ b.cgraph.size
  named : ∀ t ∈ out, b.name t ≠ ""
  name : ∀ t, start.name t ≠ "" → b.name t = start.name t

/-- A graph has no room for these tensors. -/
def Overflows (tensors : GgmlTensors T) (start : GraphBuilding T) : GraphAbort → List T → Prop
  | .hashFull, l => start.cgraph.visitedHashSet.size < l.length
  | .leafsFull, l => start.cgraph.size < (l.filter (tensors.isLeaf ·)).length
  | .nodesFull, l => start.cgraph.size < (l.filter (!tensors.isLeaf ·)).length
  | _, _ => False

theorem update_named {name : T → String} {node t : T} {new : String} (hnew : new ≠ "")
    (h : t = node ∨ name t ≠ "") :
    (if name node = "" then Function.update name node new else name) t ≠ "" := by
  split_ifs with hname
  · by_cases ht : t = node
    · rwa [ht, Function.update_self]
    · rw [Function.update_of_ne ht]
      exact h.resolve_left ht
  · rcases h with rfl | h
    · exact hname
    · exact h

theorem update_name {name : T → String} {node t : T} {new : String} (h : name t ≠ "") :
    (if name node = "" then Function.update name node new else name) t = name t := by
  split_ifs with hname
  · exact Function.update_of_ne (fun ht => h (by rw [ht, hname])) ..
  · rfl

theorem Builds.enterNode {start b : GraphBuilding T} {seen out : List T} {node : T}
    (h : Builds tensors start b seen out) :
    Except.Ends (fun e => node ∉ seen ∧ Overflows tensors start e (seen ++ [node]))
      (fun b' => b'.elim (node ∈ seen) fun b' =>
        node ∉ seen ∧ Builds tensors start b' (seen ++ [node]) out)
      (tensors.enterNode b node) := by
  have hinsert := h.holds.insert node
  rw [GgmlTensors.enterNode]
  rcases hcall : b.cgraph.visitedHashSet.insert tensors.address node with e | _ | visited <;>
    rw [hcall] at hinsert
  · obtain ⟨rfl, hnode, hle⟩ := hinsert
    refine ⟨hnode, ?_⟩
    rw [h.hashSize] at hle
    simp only [Overflows, List.length_append, List.length_singleton]
    omega
  · exact hinsert
  · obtain ⟨hnode, hsize, hholds, -⟩ := hinsert
    exact ⟨hnode, { h with hashSize := hsize.trans h.hashSize, holds := hholds }⟩

theorem Builds.addNode {start b : GraphBuilding T} {seen out : List T} {node : T}
    (h : Builds tensors start b seen out) :
    Except.Ends (fun e => Overflows tensors start e (out ++ [node]))
      (fun b' => Builds tensors start b' seen (out ++ [node])) (tensors.addNode b node) := by
  have hname : ∀ (p : String) (n : ℕ), p ≠ "" → toString p ++ toString n ≠ "" := by
    intro p n hp h
    exact hp (String.append_eq_empty_iff.1 h).1
  have hout : ∀ t ∈ out ++ [node], t = node ∨ b.name t ≠ "" := fun t ht => by
    rcases List.mem_append.1 ht with ht | ht
    · exact .inr (h.named t ht)
    · exact .inl (List.mem_singleton.1 ht)
  have hkept : ∀ t, start.name t ≠ "" → b.name t ≠ "" := fun t ht => by rwa [h.name t ht]
  unfold GgmlTensors.addNode
  refine .ite (fun hleaf => .ite (fun hroom => ?_) fun hroom => ?_) fun hleaf =>
    .ite (fun hroom => ?_) fun hroom => ?_
  · refine { h with
      nodes := ?_
      leafs := ?_
      leafs_le := ?_
      named := fun t ht => update_named (hname "leaf_" _ (by decide)) (hout t ht)
      name := fun t ht => (update_name (hkept t ht)).trans (h.name t ht) }
    · simpa [hleaf] using h.nodes
    · simp [hleaf, h.leafs]
    · simpa using hroom
  · have hle := Nat.le_of_not_lt hroom
    rw [h.size, h.leafs] at hle
    simp only [Except.ends_error, Overflows, List.filter_append, List.filter_singleton, hleaf,
      cond_true, List.length_append, List.length_singleton]
    omega
  · refine { h with
      nodes := ?_
      leafs := ?_
      nodes_le := ?_
      named := fun t ht => update_named (hname "node_" _ (by decide)) (hout t ht)
      name := fun t ht => (update_name (hkept t ht)).trans (h.name t ht) }
    · simp [hleaf, h.nodes]
    · simpa [hleaf] using h.leafs
    · simpa using hroom
  · have hle := Nat.le_of_not_lt hroom
    rw [h.size, h.nodes] at hle
    simp only [Except.ends_error, Overflows, List.filter_append, List.filter_singleton, hleaf,
      Bool.not_false, cond_true, List.length_append, List.length_singleton]
    omega

theorem tracks (start : GraphBuilding T) :
    Tracks (tensors.sources start.cgraph.order) (fun b t => tensors.sources b.cgraph.order t)
      tensors.enterNode tensors.addNode (Builds tensors start) (Overflows tensors start)
      start.cgraph.visitedHashSet.size where
  kids_eq b seen out a h := by rw [h.order]
  length_le b seen out h := h.hashSize ▸ Probing.Holds.length_le h.holds
  enter _ _ _ _ h := h.enterNode
  leave _ _ _ _ h := h.addNode

/-! ## The calls that build a graph -/

/-- What the calls for `roots` have visited and added. -/
structure Built (tensors : GgmlTensors T) (start b : GraphBuilding T) (roots seen out : List T) :
    Prop where
  builds : Builds tensors start b seen out
  visiting : Visiting (tensors.sources start.cgraph.order) seen out
  listed : ∀ t ∈ seen, t ∈ out
  mem : ∀ t, t ∈ out ↔ tensors.Reachable roots t

omit [DecidableEq T] in
theorem acyclic_sources (h : tensors.Acyclic) (order : GgmlEvalOrder) :
    PostOrder.Acyclic (tensors.sources order) := by
  rw [PostOrder.Acyclic, child_sources]
  exact h

omit [DecidableEq T] in
theorem Reachable.append {roots : List T} {root t : T} :
    tensors.Reachable (roots ++ [root]) t ↔
      tensors.Reachable roots t ∨ Relation.ReflTransGen tensors.Source root t := by
  simp only [Reachable, List.mem_append, List.mem_singleton]
  constructor
  · rintro ⟨r, hr | rfl, h⟩
    · exact .inl ⟨r, hr, h⟩
    · exact .inr h
  · rintro (⟨r, hr, h⟩ | h)
    · exact ⟨r, .inl hr, h⟩
    · exact ⟨root, .inr rfl, h⟩

omit [DecidableEq T] in
/-- "the last added node should always be starting point" -/
theorem getLast_of_visited (hbare : tensors.LeafsBare) {root : T} {out new : List T}
    (hreached : ∀ t ∈ new, Relation.ReflTransGen tensors.Source root t)
    (hlast : new = [] ∨ new.getLast? = some root)
    (hlt : (out.filter (!tensors.isLeaf ·)).length <
      ((out ++ new).filter (!tensors.isLeaf ·)).length) :
    ((out ++ new).filter (!tensors.isLeaf ·)).getLast? = some root := by
  rcases hlast with rfl | hlast
  · simp at hlt
  · obtain ⟨new, rfl⟩ := List.getLast?_eq_some_iff.1 hlast
    by_cases hleaf : tensors.isLeaf root
    · have hroot : ∀ t ∈ new ++ [root], t = root := fun t ht => by
        rcases (hreached t ht).cases_head with rfl | ⟨s, hs, -⟩
        · rfl
        · exact absurd hs (hbare root hleaf s)
      have hnone : (new ++ [root]).filter (!tensors.isLeaf ·) = [] :=
        List.filter_eq_nil_iff.2 fun t ht => by simp [hroot t ht, hleaf]
      rw [List.filter_append, hnone, List.append_nil] at hlt
      exact absurd hlt (lt_irrefl _)
    · rw [← List.append_assoc, List.filter_append]
      simp [hleaf]

theorem Built.expand (hacyclic : tensors.Acyclic) (hbare : tensors.LeafsBare)
    {start b : GraphBuilding T} {roots seen out : List T} (root : T)
    (h : Built tensors start b roots seen out) :
    Except.Ends
      (fun e => ∃ l : List T, l.Nodup ∧ (∀ t ∈ l, tensors.Reachable (roots ++ [root]) t) ∧
        Overflows tensors start e l)
      (fun b' => ∃ seen' out', Built tensors start b' (roots ++ [root]) seen' out')
      (tensors.buildForwardExpand b root) := by
  have hsearch := visit_spec (acyclic_sources hacyclic start.cgraph.order) (tracks start) .tooDeep
    (b.cgraph.visitedHashSet.size + 1) b _ _ root (by rw [h.builds.hashSize]; omega) h.builds h.visiting
    fun t ht hout => absurd (h.listed t ht) hout
  rw [← visitParents_eq] at hsearch
  change Except.Ends _ _ (tensors.visitParents _ b root >>= _)
  refine (hsearch.imp fun e he => ?_).bind fun b' hb' => ?_
  · obtain ⟨l, hl, hmem, hover⟩ := he
    refine ⟨l, hl, fun t ht => Reachable.append.2 ?_, hover⟩
    rcases hmem t ht with ht | ht
    · exact .inl ((h.mem t).1 (h.listed t ht))
    · rw [Reaches, child_sources] at ht
      exact .inr ht
  · obtain ⟨seen', new, hv, hI, hroot, hlast⟩ := hb'
    have hreached : ∀ t ∈ new, Relation.ReflTransGen tensors.Source root t := fun t ht => by
      have := hv.reached t ht
      rwa [Reaches, child_sources] at this
    have hassert : ¬ (b.cgraph.nodes.length < b'.cgraph.nodes.length ∧
        b'.cgraph.nodes.getLast? ≠ some root) := by
      rintro ⟨hlt, hne⟩
      rw [h.builds.nodes, hI.nodes] at hlt
      rw [hI.nodes] at hne
      exact hne (getLast_of_visited hbare hreached hlast hlt)
    refine .ite (fun h => absurd h hassert) fun _ => ?_
    refine ⟨seen', out ++ new, hI, hv.visiting, fun t ht => ?_, fun t => ?_⟩
    · rcases (hv.mem_seen t).1 ht with ht | ht
      · exact List.mem_append_left _ (h.listed t ht)
      · exact List.mem_append_right _ ht
    · rw [Reachable.append, List.mem_append, h.mem]
      refine or_congr_right' fun hnot => ⟨hreached t, fun ht => ?_⟩
      rw [← child_sources tensors start.cgraph.order] at ht
      rcases List.mem_append.1 (hv.visiting.ordered.reaches_mem hroot ht) with hout | hnew
      · exact absurd ((h.mem t).1 hout) hnot
      · exact hnew

/-- The calls for the tensors of a list. -/
theorem built_foldlM (hacyclic : tensors.Acyclic) (hbare : tensors.LeafsBare)
    {start : GraphBuilding T} (hstart : Built tensors start start [] [] []) (roots : List T) :
    Except.Ends
      (fun e => ∃ l : List T, l.Nodup ∧ (∀ t ∈ l, tensors.Reachable roots t) ∧
        Overflows tensors start e l)
      (fun b => ∃ seen out, Built tensors start b roots seen out)
      (roots.foldlM tensors.buildForwardExpand start) := by
  refine (Except.Ends.foldlM_induction
    (P := fun done b => done ⊆ roots ∧ ∃ seen out, Built tensors start b done seen out)
    ⟨List.nil_subset _, [], [], hstart⟩ ?_).mono fun b hb => hb.2
  rintro done root hroot b ⟨hsub, seen, out, hb⟩
  have hsub' : done ++ [root] ⊆ roots := List.append_subset.2 ⟨hsub, by simpa using hroot⟩
  refine ((hb.expand hacyclic hbare root).imp fun e he => ?_).mono fun b' hb' => ⟨hsub', hb'⟩
  obtain ⟨l, hl, hmem, hover⟩ := he
  refine ⟨l, hl, fun t ht => ?_, hover⟩
  obtain ⟨r, hr, hrt⟩ := hmem t ht
  exact ⟨r, hsub' hr, hrt⟩

theorem length_le_encard {l : List T} {S : Set T} (hl : l.Nodup) (hS : ∀ t ∈ l, t ∈ S) :
    (l.length : ℕ∞) ≤ S.encard := by
  rw [← List.toFinset_card_of_nodup hl, ← Set.encard_coe_eq_coe_finsetCard]
  exact Set.encard_le_encard fun t ht => hS t (List.mem_toFinset.1 ht)

/-- A graph with room for all the tensors never runs out of it. -/
theorem Fits.not_overflows {start : GraphBuilding T} {roots l : List T} {e : GraphAbort}
    (hhash : start.cgraph.size * 2 ≤ start.cgraph.visitedHashSet.size)
    (hfits : tensors.Fits start.cgraph.size roots) (hl : l.Nodup)
    (hmem : ∀ t ∈ l, tensors.Reachable roots t) : ¬ Overflows tensors start e l := by
  have hleafs : (l.filter (tensors.isLeaf ·)).length ≤ start.cgraph.size := by
    have := (length_le_encard (S := {t | tensors.Reachable roots t ∧ tensors.isLeaf t})
      (hl.filter _) fun t ht => ⟨hmem t (List.mem_filter.1 ht).1, (List.mem_filter.1 ht).2⟩).trans
        hfits.1
    exact_mod_cast this
  have hnodes : (l.filter (!tensors.isLeaf ·)).length ≤ start.cgraph.size := by
    have := (length_le_encard (l := l.filter (!tensors.isLeaf ·))
      (S := {t | tensors.Reachable roots t ∧ ¬ tensors.isLeaf t}) (hl.filter _)
      fun t ht => ⟨hmem t (List.mem_filter.1 ht).1, by
        simpa using (List.mem_filter.1 ht).2⟩).trans hfits.2
    exact_mod_cast this
  have hsum := List.length_eq_length_filter_add (l := l) (tensors.isLeaf ·)
  cases e <;> simp only [Overflows, not_false_eq_true, not_lt]
  · omega
  · exact hleafs
  · exact hnodes

theorem Built.sorted {start b : GraphBuilding T} {roots seen out : List T}
    (h : Built tensors start b roots seen out) : tensors.Sorted start roots b := by
  have hmem : ∀ t, t ∈ b.cgraph.nodes ++ b.cgraph.leafs ↔ t ∈ out := fun t => by
    rw [List.mem_append, h.builds.nodes, h.builds.leafs, List.mem_filter, List.mem_filter]
    cases tensors.isLeaf t <;> simp
  refine ⟨?_, fun t => (hmem t).trans (h.mem t), ?_, ?_, fun l t r heq s hs => ?_, fun t => ?_,
    fun t ht => h.builds.named t ((hmem t).1 ht), h.builds.name⟩
  · rw [h.builds.nodes, h.builds.leafs, List.nodup_append]
    refine ⟨h.visiting.ordered.nodup.filter _, h.visiting.ordered.nodup.filter _, ?_⟩
    rintro t ht u hu rfl
    have hnode := (List.mem_filter.1 ht).2
    rw [(List.mem_filter.1 hu).2] at hnode
    cases hnode
  · rw [h.builds.leafs]
    exact fun t ht => (List.mem_filter.1 ht).2
  · rw [h.builds.nodes]
    exact fun t ht => by simpa using (List.mem_filter.1 ht).2
  · rw [h.builds.nodes] at heq
    obtain ⟨l', r', rfl, rfl, hr⟩ := List.filter_eq_append_iff.1 heq
    obtain ⟨m, r'', rfl, hm, -, rfl⟩ := List.filter_eq_cons_iff.1 hr
    have hs' := h.visiting.ordered.closed (l' ++ m) t r'' (by simp) s (mem_sources.2 hs)
    cases hleaf : tensors.isLeaf s
    · refine .inr (List.mem_filter.2 ⟨?_, by simp [hleaf]⟩)
      rcases List.mem_append.1 hs' with hs' | hs'
      · exact hs'
      · exact absurd (hm s hs') (by simp [hleaf])
    · refine .inl ?_
      rw [h.builds.leafs]
      exact List.mem_filter.2 ⟨by
        rw [← List.append_assoc]
        exact List.mem_append_left _ hs', hleaf⟩
  · rw [hmem, h.builds.holds.contains_iff]
    exact ⟨h.listed t, h.visiting.sub t⟩

theorem Built.fits {start b : GraphBuilding T} {roots seen out : List T}
    (h : Built tensors start b roots seen out) : tensors.Fits start.cgraph.size roots := by
  have hcard : ∀ p : T → Bool, {t | tensors.Reachable roots t ∧ p t}.encard ≤
      ((out.filter p).length : ℕ∞) := fun p => by
    have heq : {t | tensors.Reachable roots t ∧ p t} = ((out.filter p).toFinset : Set T) := by
      ext t
      simp [h.mem t]
    rw [heq, Set.encard_coe_eq_coe_finsetCard]
    exact_mod_cast List.toFinset_card_le _
  have hleafs := h.builds.leafs_le
  have hnodes := h.builds.nodes_le
  rw [h.builds.leafs, h.builds.size] at hleafs
  rw [h.builds.nodes, h.builds.size] at hnodes
  refine ⟨(hcard (tensors.isLeaf ·)).trans (by exact_mod_cast hleafs), ?_⟩
  have := (hcard (!tensors.isLeaf ·)).trans (by exact_mod_cast hnodes :
    _ ≤ (start.cgraph.size : ℕ∞))
  simpa using this

/-- A new graph, of any evaluation order. -/
def newBuilding (size : ℕ) (grads : Bool) (keys : ℕ → T) (order : GgmlEvalOrder)
    (name : T → String) : GraphBuilding T :=
  ⟨{ GgmlCgraph.newCustom size grads keys with order := order }, name⟩

theorem built_new (size : ℕ) (grads : Bool) (keys : ℕ → T) (order : GgmlEvalOrder)
    (name : T → String) :
    Built tensors (newBuilding size grads keys order name) (newBuilding size grads keys order name)
      [] [] [] where
  builds :=
    { size := rfl
      order := rfl
      grads := rfl
      gradAccs := rfl
      hashSize := rfl
      holds := GgmlHashSet.holds_nil (ggmlHashSize_pos _) rfl
      nodes := rfl
      leafs := rfl
      nodes_le := Nat.zero_le _
      leafs_le := Nat.zero_le _
      named := by simp
      name := fun _ _ => rfl }
  visiting := ⟨List.nodup_nil, postOrdered_nil, by simp⟩
  listed := by simp
  mem := by simp [Reachable]

/-- Calls on a new graph succeed where its two lists have room, whatever the order, and what they
have built is sorted. -/
theorem buildForward_sorted (hacyclic : tensors.Acyclic) (hbare : tensors.LeafsBare) (size : ℕ)
    (grads : Bool) (keys : ℕ → T) (order : GgmlEvalOrder) (name : T → String) (roots : List T) :
    let start := newBuilding size grads keys order name
    ((∃ b, roots.foldlM tensors.buildForwardExpand start = .ok b) ↔ tensors.Fits size roots) ∧
      ∀ b, roots.foldlM tensors.buildForwardExpand start = .ok b →
        tensors.Sorted start roots b := by
  intro start
  have hrun := built_foldlM hacyclic hbare (built_new size grads keys order name) roots
  have hhash : size * 2 ≤ start.cgraph.visitedHashSet.size := le_ggmlHashSize _
  refine ⟨⟨?_, fun hfits => ?_⟩, fun b hb => ?_⟩
  · rintro ⟨b, hb⟩
    obtain ⟨seen, out, h⟩ := hrun.of_ok hb
    exact h.fits
  · rcases hb : roots.foldlM tensors.buildForwardExpand start with e | b
    · obtain ⟨l, hl, hmem, hover⟩ := hrun.of_error hb
      exact absurd hover (Fits.not_overflows hhash hfits hl hmem)
    · exact ⟨b, rfl⟩
  · obtain ⟨seen, out, h⟩ := hrun.of_ok hb
    exact h.sorted

/-- A constant, its square, and the sum of the two, which all have the same place in the table. -/
def squarePlus : GgmlTensors (Fin 3) where
  address t := 80 * (t + 1)
  op t := if t.val = 0 then .none else if t.val = 1 then .sqr else .add
  param _ := false
  src t i := ([[], [0], [1, 0]][t.val]?.bind (·[i.val]?)).bind ((List.finRange 3)[·]?)

theorem squarePlus_source {a b : Fin 3} (h : squarePlus.Source a b) : b < a := by
  obtain ⟨i, hi⟩ := h
  revert a b i
  decide

theorem squarePlus_acyclic : squarePlus.Acyclic := by
  have hlt : ∀ a b, Relation.TransGen squarePlus.Source a b → b < a := fun a b h => by
    induction h with
    | single h => exact squarePlus_source h
    | tail _ h ih => exact (squarePlus_source h).trans ih
  exact fun a h => lt_irrefl a (hlt a a h)

theorem squarePlus_bare : squarePlus.LeafsBare := by
  rintro a ha b ⟨i, hi⟩
  revert a b i
  decide

/-- The sum, built on a graph with room for two nodes and two leafs. -/
theorem buildForward_sorted_squarePlus :
    ∃ b, [2].foldlM squarePlus.buildForwardExpand
        (newBuilding 3 false (fun _ => 0) .rightToLeft fun _ => "") = .ok b ∧
      b.cgraph.nodes = [1, 2] ∧ b.cgraph.leafs = [0] ∧ squarePlus.Sorted
        (newBuilding 3 false (fun _ => 0) .rightToLeft fun _ => "") [2] b := by
  obtain ⟨hfits, hsorted⟩ := buildForward_sorted squarePlus_acyclic squarePlus_bare 3 false
    (fun _ => 0) .rightToLeft (fun _ => "") [2]
  have hcard : ∀ S : Set (Fin 3), S.encard ≤ (3 : ℕ) := fun S =>
    (Set.encard_le_encard (Set.subset_univ S)).trans (by simp)
  obtain ⟨b, hb⟩ := hfits.2 ⟨hcard _, hcard _⟩
  have hrun : ([2].foldlM squarePlus.buildForwardExpand
      (newBuilding 3 false (fun _ => 0) .rightToLeft fun _ => "")).map
        (fun b => (b.cgraph.nodes, b.cgraph.leafs)) = .ok ([1, 2], [0]) := by decide
  rw [hb] at hrun
  have hlists := Prod.mk.inj (Except.ok.inj hrun)
  exact ⟨b, hb, hlists.1, hlists.2, hsorted b hb⟩

end GgmlTensors

/-! ## Copies -/

open PostOrder

variable {T : Type} [DecidableEq T]

namespace GgmlHashSet

variable {src dst : GgmlHashSet T} {address : T → ℕ} {keys : List T}

/-- Each key of a table is at a place of its own. -/
theorem Holds.find_inj (h : src.Holds address keys) {t u : T} {i : ℕ} (ht : t ∈ keys)
    (hu : u ∈ keys) (hti : src.find address t = some i) (hui : src.find address u = some i) :
    t = u := by
  obtain ⟨i', -, hi', -, rfl⟩ := h.place_of_mem ht
  obtain ⟨j, -, hj, -, rfl⟩ := h.place_of_mem hu
  rw [hti] at hi'
  rw [hui] at hj
  obtain rfl := Option.some.inj hi'
  obtain rfl := Option.some.inj hj
  rfl

end GgmlHashSet

namespace GgmlCgraph

variable {src dst : GgmlCgraph T} {address : T → ℕ} {keys : List T}

/-- The keys of a graph are copied to a table that is not smaller. -/
theorem foldlM_cpyKey (hsrc : src.visitedHashSet.Holds address keys) (visited : GgmlHashSet T)
    (hsize : src.visitedHashSet.size ≤ visited.size) (hvisited : visited.Holds address []) :
    ∃ copied : GgmlHashSet T, (List.range src.visitedHashSet.size).foldlM (src.cpyKey address)
      visited = .ok copied ∧ ∃ keys', copied.Holds address keys' ∧ ∀ t, t ∈ keys' ↔ t ∈ keys := by
  have hends : Except.Ends (fun _ => False) _
      ((List.range src.visitedHashSet.size).foldlM (src.cpyKey address) visited) :=
    Except.Ends.foldlM_induction
    (P := fun done (copied : GgmlHashSet T) => done ⊆ List.range src.visitedHashSet.size ∧
      copied.size = visited.size ∧ ∃ keys', copied.Holds address keys' ∧
        ∀ t, t ∈ keys' ↔ ∃ i ∈ done, src.visitedHashSet.slot i = some t)
    ⟨List.nil_subset _, rfl, [], hvisited, by simp⟩ ?_
  · rcases hcopied : (List.range src.visitedHashSet.size).foldlM (src.cpyKey address) visited
      with e | copied <;> rw [hcopied] at hends
    · exact absurd hends id
    · obtain ⟨-, -, keys', hholds, hkeys'⟩ := hends
      refine ⟨copied, rfl, keys', hholds, fun t => ?_⟩
      rw [hkeys', hsrc.mem]
      simp only [List.mem_range]
  · rintro done i hi copied ⟨hdone, hcsize, keys', hholds, hkeys'⟩
    have hdone' : done ++ [i] ⊆ List.range src.visitedHashSet.size :=
      List.append_subset.2 ⟨hdone, by simpa using hi⟩
    unfold cpyKey
    refine .ite (fun hused => ?_) fun hused => ⟨hdone', hcsize, keys', hholds, fun t => ?_⟩
    · have hslot : src.visitedHashSet.slot i = some (src.visitedHashSet.keys i) := if_pos hused
      have hnext : ∀ t, (t ∈ keys' ∨ t = src.visitedHashSet.keys i) ↔
          ∃ j ∈ done ++ [i], src.visitedHashSet.slot j = some t := fun t => by
        simp [hkeys', or_and_right, exists_or, hslot, eq_comm]
      refine ((hholds.insert (src.visitedHashSet.keys i)).imp fun e he => ?_).bind
        fun inserted hins => ?_
      · obtain ⟨-, hnot, hfull⟩ := he
        have hnodup : (keys' ++ [src.visitedHashSet.keys i]).Nodup := by
          rw [List.nodup_append]
          refine ⟨hholds.nodup, List.nodup_singleton _, fun t ht u hu htu => hnot ?_⟩
          rw [List.mem_singleton.1 hu] at htu
          exact htu ▸ ht
        have hsub : keys' ++ [src.visitedHashSet.keys i] ⊆ keys := fun t ht => by
          obtain ⟨j, hj, hjt⟩ := (hnext t).1 (by simpa using ht)
          exact (hsrc.mem t).2 ⟨j, List.mem_range.1 (hdone' hj), hjt⟩
        have hlen := (hnodup.subperm hsub).length_le
        have hle := Probing.Holds.length_le hsrc
        rw [List.length_append, List.length_singleton] at hlen
        omega
      · rcases inserted with _ | inserted
        · refine ⟨hdone', hcsize, keys', hholds, fun t => ?_⟩
          rw [← hnext]
          exact ⟨.inl, fun h => h.elim id fun h => h ▸ hins⟩
        · obtain ⟨-, hisize, hiholds, -⟩ := hins
          refine ⟨hdone', hisize.trans hcsize, _, hiholds, fun t => ?_⟩
          rw [← hnext, List.mem_append, List.mem_singleton]
    · have hslot : src.visitedHashSet.slot i = none := if_neg hused
      simp [hkeys', or_and_right, exists_or, hslot]

/-- A graph whose nodes are in its table. -/
structure Tabled (cgraph : GgmlCgraph T) (address : T → ℕ) (keys : List T) : Prop where
  holds : cgraph.visitedHashSet.Holds address keys
  nodes : ∀ t ∈ cgraph.nodes, t ∈ keys
  hashSize : cgraph.visitedHashSet.size = ggmlHashSize (cgraph.size * 2)
  nodes_le : cgraph.nodes.length ≤ cgraph.size
  leafs_le : cgraph.leafs.length ≤ cgraph.size
  accs : cgraph.gradAccs.isSome = cgraph.grads.isSome

theorem getGradIn_of_mem {cgraph : GgmlCgraph T} (h : cgraph.visitedHashSet.Holds address keys)
    {t : T} (ht : t ∈ keys) : ∃ i, cgraph.gradPlace address t = .ok i ∧
      cgraph.visitedHashSet.find address t = some i ∧
      ∀ grads, cgraph.getGradIn address grads t = grads.bind fun grads => grads i := by
  obtain ⟨i, -, hfind, hused, -⟩ := h.place_of_mem ht
  exact ⟨i, by simp [gradPlace, hfind, hused], hfind, fun grads => by
    simp [getGradIn, hfind, hused]⟩

theorem getGradIn_of_notMem {cgraph : GgmlCgraph T}
    (h : cgraph.visitedHashSet.Holds address keys) {t : T} (ht : t ∉ keys)
    (grads : Option (ℕ → Option T)) : cgraph.getGradIn address grads t = none := by
  unfold getGradIn
  rcases hfind : cgraph.visitedHashSet.find address t with _ | i
  · rfl
  · simp [h.used_of_find hfind, ht]

/-- A table of gradients with those of some of the nodes of a graph. -/
def CopiedGrads (src dst : GgmlCgraph T) (address : T → ℕ) (keys : List T)
    (srcGrads dstGrads : Option (ℕ → Option T)) (nodes : List T) : Prop :=
  ∀ t ∈ keys, dst.getGradIn address dstGrads t =
    if t ∈ nodes then src.getGradIn address srcGrads t else none

theorem CopiedGrads.update {keys' : List T} {srcGrads dstGrads : ℕ → Option T} {nodes : List T}
    (hsrc : src.visitedHashSet.Holds address keys)
    (hdst : dst.visitedHashSet.Holds address keys') (hkeys : ∀ t, t ∈ keys' ↔ t ∈ keys)
    (h : CopiedGrads src dst address keys (some srcGrads) (some dstGrads) nodes) {node : T}
    (hnode : node ∈ keys) {i j : ℕ} (hi : src.visitedHashSet.find address node = some i)
    (hj : dst.visitedHashSet.find address node = some j) :
    CopiedGrads src dst address keys (some srcGrads)
      (some (Function.update dstGrads j (srcGrads i))) (nodes ++ [node]) := by
  intro t ht
  obtain ⟨k, -, hk, hget⟩ := getGradIn_of_mem hdst ((hkeys t).2 ht)
  by_cases htn : t = node
  · subst htn
    obtain ⟨i', -, hi', hget'⟩ := getGradIn_of_mem hsrc ht
    rw [hi] at hi'
    rw [hj] at hk
    obtain rfl := Option.some.inj hi'
    obtain rfl := Option.some.inj hk
    rw [if_pos (by simp), hget, hget']
    simp
  · have hkj : k ≠ j := fun hkj => htn
      (hdst.find_inj ((hkeys t).2 ht) ((hkeys node).2 hnode) hk (hkj ▸ hj))
    have hold := h t ht
    rw [hget] at hold
    simp only [hget, Option.bind_some, Function.update_of_ne hkj, List.mem_append,
      List.mem_singleton, htn, or_false]
    exact hold

theorem CopiedGrads.eq_of_nodes {keys' : List T} {srcGrads dstGrads : Option (ℕ → Option T)}
    (h : CopiedGrads src dst address keys srcGrads dstGrads ([] ++ src.nodes))
    (hdst : dst.visitedHashSet.Holds address keys') (hkeys : ∀ t, t ∈ keys' ↔ t ∈ keys)
    (hnodes : ∀ t ∈ src.nodes, t ∈ keys) (t : T) : dst.getGradIn address dstGrads t =
      if t ∈ src.nodes then src.getGradIn address srcGrads t else none := by
  by_cases ht : t ∈ keys
  · exact h t ht
  · rw [if_neg fun hn => ht (hnodes t hn)]
    exact getGradIn_of_notMem hdst (fun ht' => ht ((hkeys t).1 ht')) dstGrads

/-- The loop that copies the gradients of the nodes. -/
theorem foldlM_cpyGrad {keys' : List T} {srcGrads srcAccs grads accs : ℕ → Option T}
    (hsrc : src.visitedHashSet.Holds address keys)
    (hdst : dst.visitedHashSet.Holds address keys') (hkeys : ∀ t, t ∈ keys' ↔ t ∈ keys) :
    ∀ (todo done : List T), (∀ t ∈ todo, t ∈ keys) →
      CopiedGrads src dst address keys (some srcGrads) (some grads) done →
      CopiedGrads src dst address keys (some srcAccs) (some accs) done →
      ∃ grads' accs', todo.foldlM (src.cpyGrad address srcGrads srcAccs)
          { dst with grads := some grads, gradAccs := some accs } =
            .ok { dst with grads := some grads', gradAccs := some accs' } ∧
        CopiedGrads src dst address keys (some srcGrads) (some grads') (done ++ todo) ∧
        CopiedGrads src dst address keys (some srcAccs) (some accs') (done ++ todo) := by
  intro todo
  induction todo generalizing grads accs with
  | nil =>
    intro done _ hgrads haccs
    exact ⟨grads, accs, rfl, by simpa using hgrads, by simpa using haccs⟩
  | cons node todo ih =>
    intro done htodo hgrads haccs
    have hnode := htodo node (List.mem_cons_self ..)
    obtain ⟨i, hplace, hi, -⟩ := getGradIn_of_mem hsrc hnode
    obtain ⟨j, hplace', hj, -⟩ := getGradIn_of_mem hdst ((hkeys node).2 hnode)
    obtain ⟨grads', accs', hrun, hg, ha⟩ := ih (done ++ [node])
      (fun t ht => htodo t (List.mem_cons_of_mem _ ht))
      (hgrads.update hsrc hdst hkeys hnode hi hj) (haccs.update hsrc hdst hkeys hnode hi hj)
    refine ⟨grads', accs', ?_, by simpa using hg, by simpa using ha⟩
    have hstep : src.cpyGrad address srcGrads srcAccs
        { dst with grads := some grads, gradAccs := some accs } node =
          .ok { dst with
            grads := some (Function.update grads j (srcGrads i))
            gradAccs := some (Function.update accs j (srcAccs i)) } := by
      have hplace'' : gradPlace { dst with grads := some grads, gradAccs := some accs } address
        node = .ok j := hplace'
      rw [cpyGrad, hplace, hplace'']
      rfl
    rw [List.foldlM_cons, hstep]
    exact hrun

/-- A copy has the nodes and leafs of the graph, in a table with the same tensors, and each of the
nodes has its gradients. -/
structure Copies (src dst : GgmlCgraph T) (address : T → ℕ) : Prop where
  nodes : dst.nodes = src.nodes
  leafs : dst.leafs = src.leafs
  order : dst.order = src.order
  contains : ∀ t, dst.visitedHashSet.contains address t = src.visitedHashSet.contains address t
  grad : ∀ t, dst.getGrad address t = if t ∈ src.nodes then src.getGrad address t else none
  gradAcc : ∀ t, dst.getGradAcc address t =
    if t ∈ src.nodes then src.getGradAcc address t else none

/-- `ggml_graph_dup` succeeds on a graph whose nodes are in its table. -/
theorem Tabled.dup (h : src.Tabled address keys) (garbage : ℕ → T) (forceGrads : Bool) :
    ∃ dst, src.dup address garbage forceGrads = .ok dst ∧ src.Copies dst address := by
  set start := newCustom src.size (src.grads.isSome || forceGrads) garbage with hstart
  have hholds : start.visitedHashSet.Holds address [] :=
    GgmlHashSet.holds_nil (ggmlHashSize_pos _) rfl
  obtain ⟨copied, hcopied, keys', hcholds, hkeys⟩ :=
    foldlM_cpyKey h.holds start.visitedHashSet h.hashSize.le hholds
  have hcontains : ∀ t, copied.contains address t = src.visitedHashSet.contains address t :=
    fun t => Bool.eq_iff_iff.2 (by rw [hcholds.contains_iff, h.holds.contains_iff, hkeys])
  have hroom : ¬ (start.size < src.leafs.length ∨ start.size < src.nodes.length ∨
      start.visitedHashSet.size < src.visitedHashSet.size) := by
    rw [not_or, not_or, not_lt, not_lt, not_lt]
    exact ⟨h.leafs_le, h.nodes_le, h.hashSize.le⟩
  let base : GgmlCgraph T :=
    { start with
      nodes := src.nodes
      leafs := src.leafs
      order := src.order
      visitedHashSet := copied }
  have hbase : base.visitedHashSet.Holds address keys' := hcholds
  have hnone : ∀ grads, (∀ g, grads = some g → ∀ i, g i = none) → ∀ t,
      base.getGradIn address grads t = none := fun grads hg t => by
    by_cases ht : t ∈ keys'
    · obtain ⟨i, -, -, hget⟩ := getGradIn_of_mem hbase ht
      rcases grads with _ | g
      · exact hget none
      · rw [hget, Option.bind_some, hg g rfl]
    · exact getGradIn_of_notMem hbase ht grads
  rw [GgmlCgraph.dup, ← hstart, cpy, if_neg hroom, hcopied, Except.ok_bind_eq]
  rcases hgrads : src.grads with _ | srcGrads
  · have haccs : src.gradAccs = none := by simpa [hgrads] using h.accs
    have hsrc : ∀ t, src.getGradIn address none t = none := fun t => by
      unfold getGradIn
      rcases src.visitedHashSet.find address t with _ | i <;> simp
    have hgrad : ∀ t, src.getGrad address t = none := fun t => by rw [getGrad, hgrads, hsrc]
    have hacc : ∀ t, src.getGradAcc address t = none := fun t => by rw [getGradAcc, haccs, hsrc]
    refine ⟨_, rfl, rfl, rfl, rfl, hcontains, fun t => ?_, fun t => ?_⟩
    · rw [hgrad, ite_self]
      refine hnone _ (fun g hg i => ?_) t
      obtain ⟨g', -, rfl⟩ := Option.map_eq_some_iff.1 hg
      rfl
    · rw [hacc, ite_self]
      refine hnone _ (fun g hg i => ?_) t
      rcases forceGrads with _ | _ <;> simp [hstart, newCustom, hgrads] at hg
      rw [← hg]
  · obtain ⟨srcAccs, haccs⟩ := Option.isSome_iff_exists.1 (h.accs.trans (by rw [hgrads]; rfl))
    have hcg : ∀ srcGrads, CopiedGrads src base address keys (some srcGrads)
        (some fun _ => none) [] := fun srcGrads t ht => by
      rw [hnone _ (fun g hg i => by rw [← Option.some.inj hg]), if_neg (List.not_mem_nil)]
    obtain ⟨grads', accs', hrun, hg, ha⟩ := foldlM_cpyGrad h.holds hbase hkeys src.nodes []
      h.nodes (hcg srcGrads) (hcg srcAccs)
    refine ⟨{ base with grads := some grads', gradAccs := some accs' }, ?_, rfl, rfl, rfl,
      hcontains, fun t => ?_, fun t => ?_⟩
    · have hg0 : start.grads = some fun _ => none := by simp [hstart, newCustom, hgrads]
      have ha0 : start.gradAccs = some fun _ => none := by simp [hstart, newCustom, hgrads]
      simp only [haccs, hg0, ha0, Option.map_some, Option.isSome_some, if_true, Option.getD_some,
        and_self]
      exact hrun
    · rw [getGrad, getGrad, hgrads]
      exact hg.eq_of_nodes hbase hkeys h.nodes t
    · rw [getGradAcc, getGradAcc, haccs]
      exact ha.eq_of_nodes hbase hkeys h.nodes t

end GgmlCgraph

namespace GgmlTensors

variable {tensors : GgmlTensors T}

/-- A graph that calls have built on a new one is copied, and with it the gradients that it has
been given since. -/
theorem buildForward_dup (hacyclic : tensors.Acyclic) (hbare : tensors.LeafsBare) {size : ℕ}
    {withGrads : Bool} {keys : ℕ → T} {order : GgmlEvalOrder} {name : T → String} {roots : List T}
    {b : GraphBuilding T} (hrun : roots.foldlM tensors.buildForwardExpand
      (newBuilding size withGrads keys order name) = .ok b)
    (grads gradAccs : Option (ℕ → Option T)) (haccs : gradAccs.isSome = grads.isSome)
    (garbage : ℕ → T) (forceGrads : Bool) :
    let src := { b.cgraph with grads := grads, gradAccs := gradAccs }
    ∃ dst, src.dup tensors.address garbage forceGrads = .ok dst ∧
      src.Copies dst tensors.address := by
  intro src
  obtain ⟨seen, out, h⟩ := (built_foldlM hacyclic hbare
    (built_new size withGrads keys order name) roots).of_ok hrun
  have htabled : src.Tabled tensors.address seen := by
    refine ⟨h.builds.holds, fun t ht => ?_, ?_, h.builds.nodes_le, h.builds.leafs_le, haccs⟩
    · have hnode : t ∈ b.cgraph.nodes := ht
      rw [h.builds.nodes] at hnode
      exact h.visiting.sub t (List.mem_filter.1 hnode).1
    · change b.cgraph.visitedHashSet.size = ggmlHashSize (b.cgraph.size * 2)
      rw [h.builds.hashSize, h.builds.size]
      rfl
  exact htabled.dup garbage forceGrads

/-- The copy of the sum, with the gradients of the nodes at the places that they have there. -/
theorem buildForward_dup_squarePlus :
    ∃ b dst, [2].foldlM squarePlus.buildForwardExpand
        (newBuilding 3 true (fun _ => 0) .leftToRight fun _ => "") = .ok b ∧
      { b.cgraph with grads := some fun i => if i = 1 then some 0 else none }.dup
        squarePlus.address (fun _ => 1) false = .ok dst ∧ dst.nodes = [1, 2] := by
  have hrun : ([2].foldlM squarePlus.buildForwardExpand
      (newBuilding 3 true (fun _ => 0) .leftToRight fun _ => "")).map
        (fun b => (b.cgraph.nodes, b.cgraph.gradAccs.isSome)) = .ok ([1, 2], true) := by decide
  obtain ⟨b, hb, hlists⟩ := Except.map_eq_ok.1 hrun
  obtain ⟨hnodes, haccs⟩ := Prod.mk.inj hlists
  obtain ⟨dst, hdst, hcopies⟩ := buildForward_dup squarePlus_acyclic squarePlus_bare hb
    (some fun i => if i = 1 then some 0 else none) b.cgraph.gradAccs (by rw [haccs]; rfl)
    (fun _ => 1) false
  exact ⟨b, dst, hb, hdst, hcopies.nodes.trans hnodes⟩

end GgmlTensors

end LamaServer

import LamaServer.Rpc
import Mathlib.Data.List.ReduceOption
import Mathlib.SetTheory.Cardinal.Finite

/-!
# The graph that a server builds

The shapes and strides of a tensor are sent in 32 bits. Where those of every tensor below the nodes
fit, and the size of the message fits an `int`, the server builds the graph of the client.
-/

namespace LamaServer

open Format PointerGraph
open Relation (ReflTransGen)

/-! ## Numbers in fewer bits -/

theorem toInt_toInt64 (m : UInt32) : m.toUInt64.toInt64.toInt = m.toNat := by
  have hint : m.toUInt64.toInt64.toInt = m.toUInt64.toInt64.toBitVec.toInt := rfl
  have hnat : m.toUInt64.toInt64.toBitVec.toNat = m.toNat := by simp
  have hlt := m.toNat_lt
  rw [hint, BitVec.toInt_eq_toNat_cond, hnat]
  split_ifs
  · rfl
  · omega

theorem toInt64_eq_iff (z : Int64) :
    z.toUInt64.toUInt32.toUInt64.toInt64 = z ↔ 0 ≤ z.toInt ∧ z.toInt < 2 ^ 32 := by
  have hint : z.toInt = z.toBitVec.toInt := rfl
  have hnat : z.toUInt64.toUInt32.toUInt64.toInt64.toBitVec.toNat = z.toBitVec.toNat % 2 ^ 32 := by
    simp
  have hlt := z.toBitVec.isLt
  rw [hint, BitVec.toInt_eq_toNat_cond, ← Int64.toBitVec_inj, ← BitVec.toNat_inj, hnat]
  split_ifs <;> omega

theorem toUInt64_eq_iff (m : UInt64) : m.toUInt32.toUInt64 = m ↔ m.toNat < 2 ^ 32 := by
  rw [← UInt64.toNat_inj]
  simp

/-! ## The size of a tensor -/

namespace GgmlNode

variable {P B P' B' : Type}

/-- The shape and the strides of a tensor fit the message. -/
def Fits (t : GgmlNode P B) : Prop :=
  ∀ i, 0 ≤ (t.ne i).toInt ∧ (t.ne i).toInt < 2 ^ 32 ∧ (t.nb i).toNat < 2 ^ 32

theorem toNat_toUInt64 {z : Int64} (hz : 0 ≤ z.toInt) : z.toUInt64.toNat = z.toInt.toNat := by
  have hint : z.toInt = z.toBitVec.toInt := rfl
  have hnat : z.toUInt64.toNat = z.toBitVec.toNat := rfl
  have hlt := z.toBitVec.isLt
  rw [hint, BitVec.toInt_eq_toNat_cond] at hz ⊢
  split_ifs at hz ⊢ <;> omega

theorem toInt_sub_one {z : Int64} (hz : 0 < z.toInt) : (z - 1).toInt = z.toInt - 1 := by
  refine Int64.toInt_sub_of_le z 1 (by decide) (Int64.le_iff_toInt_le.2 ?_)
  exact Int.add_one_le_iff.2 hz

/-- Products of numbers of 32 bits do not wrap. -/
theorem toNat_mul {z : Int64} {m : UInt64} (hz : 0 ≤ z.toInt) (hz32 : z.toInt < 2 ^ 32)
    (hm : m.toNat < 2 ^ 32) : (z.toUInt64 * m).toNat = z.toInt.toNat * m.toNat := by
  have hlt : z.toInt.toNat * m.toNat < 2 ^ 32 * 2 ^ 32 :=
    Nat.mul_lt_mul_of_lt_of_lt (by omega) hm
  rw [UInt64.toNat_mul, toNat_toUInt64 hz]
  exact Nat.mod_eq_of_lt hlt

theorem ggmlBlckSize_le : ∀ type : GgmlType, ggmlBlckSize type ≤ 256 := by decide

theorem toNat_blckSize (type : GgmlType) :
    (UInt64.ofNat (ggmlBlckSize type)).toNat = ggmlBlckSize type := by
  have hle := ggmlBlckSize_le type
  exact UInt64.toNat_ofNat_of_lt (hle.trans_lt (by decide))

/-- Only the last sums of `ggml_nbytes` may wrap. -/
theorem toNat_ggmlNbytes {t : GgmlNode P B} (hfits : t.Fits) :
    t.ggmlNbytes.toNat = t.extent % 2 ^ 64 := by
  by_cases hne : ∃ i, t.ne i ≤ 0
  · simp [ggmlNbytes, extent, hne]
  · have hpos : ∀ i, 0 < (t.ne i).toInt := by
      intro i
      by_contra hi
      exact hne ⟨i, Int64.le_iff_toInt_le.2 (not_lt.1 hi)⟩
    have hdim : ∀ i, (t.dimBytes i).toNat = ((t.ne i).toInt - 1).toNat * (t.nb i).toNat := by
      intro i
      have hi := hpos i
      obtain ⟨-, hlt, hnb⟩ := hfits i
      rw [← toInt_sub_one hi]
      refine toNat_mul ?_ ?_ hnb <;> rw [toInt_sub_one hi] <;> omega
    have hrow : ((t.ne 0).toUInt64 * t.nb 0).toNat = (t.ne 0).toInt.toNat * (t.nb 0).toNat :=
      toNat_mul (hpos 0).le (hfits 0).2.1 (hfits 0).2.2
    have hone : UInt64.ofNat (ggmlBlckSize t.type) = 1 ↔ ggmlBlckSize t.type = 1 := by
      rw [← UInt64.toNat_inj, toNat_blckSize]
      rfl
    simp only [ggmlNbytes, extent, if_neg hne, hone, UInt64.toNat_add, hdim]
    split_ifs
    · rw [UInt64.toNat_add, hdim, UInt64.toNat_ofNat']
      omega
    · rw [UInt64.toNat_div, toNat_blckSize, hrow]
      omega

end GgmlNode

/-! ## What the server finds in the message -/

namespace Cgraph

variable {n : Nat} (g : Cgraph n) {p q : Fin n}

/-- A tensor that a node of the graph is computed from. -/
def Below (p : Fin n) : Prop := ∃ r ∈ g.nodes, ReflTransGen (fun a b => b ∈ g.links a) r p

variable {g}

theorem mem_addTensors : p ∈ g.addTensors ↔ g.Below p := (collectAll_spec g.links g.nodes).2 p

theorem Below.link (hp : g.Below p) (hq : q ∈ g.links p) : g.Below q := by
  obtain ⟨r, hr, hrp⟩ := hp
  exact ⟨r, hr, hrp.tail hq⟩

theorem length_addTensors : g.addTensors.length = Nat.card {p // g.Below p} := by
  have hnodup : g.addTensors.Nodup := (collectAll_spec g.links g.nodes).1
  rw [← List.toFinset_card_of_nodup hnodup, ← Nat.card_eq_finsetCard]
  refine Nat.card_congr (Equiv.subtypeEquivRight fun p => ?_)
  rw [List.mem_toFinset]
  exact mem_addTensors

variable (g) in
/-- The tensors of the message. -/
def sent : List RpcTensor := g.addTensors.map g.serializeTensor

theorem of_findTensor {id : UInt64} {tensor : RpcTensor}
    (h : RpcServer.findTensor g.sent id = some tensor) :
    ∃ p, g.Below p ∧ id = g.addr p ∧ tensor = g.serializeTensor p := by
  have hid := List.find?_some h
  have hmem := List.mem_reverse.1 (List.mem_of_find?_eq_some h)
  obtain ⟨p, hp, rfl⟩ := List.mem_map.1 hmem
  exact ⟨p, mem_addTensors.1 hp, (of_decide_eq_true hid).symm, rfl⟩

theorem findTensor_sent (hp : g.Below p) :
    RpcServer.findTensor g.sent (g.addr p) = some (g.serializeTensor p) := by
  rcases h : RpcServer.findTensor g.sent (g.addr p) with _ | tensor
  · have hnone := List.find?_eq_none.1 h (g.serializeTensor p)
      (List.mem_reverse.2 (List.mem_map_of_mem (mem_addTensors.2 hp)))
    simp [serializeTensor] at hnone
  · obtain ⟨q, -, hq, rfl⟩ := of_findTensor h
    rw [g.addr_injective hq]

theorem linkIds_serializeTensor (p : Fin n) :
    RpcServer.linkIds (g.serializeTensor p) = (g.tensor p).pointers.map (Option.map g.addr) := by
  have haddr : ∀ o : Option (Fin n),
      (if g.address o = 0 then none else some (g.address o)) = o.map g.addr := by
    rintro (_ | q)
    · rfl
    · exact if_neg (g.addr_ne_zero q)
  simp only [RpcServer.linkIds, serializeTensor, GgmlNode.pointers, List.map_append, List.map_ofFn,
    List.map_cons, List.map_nil, haddr, Function.comp_def]

end Cgraph

/-! ## One tensor -/

namespace RpcServer

variable {server : RpcServer} {n : Nat} {g : Cgraph n} {p q : Fin n}

/-- The tensor lies in a buffer of the server. -/
def Lives {P : Type} (server : RpcServer) (t : GgmlNode P RpcBuffer) : Prop :=
  ∃ ctx ∈ t.buffer, ∃ b ∈ server.buffers, b.ptr = ctx.remotePtr ∧ b.getBase.toNat ≤ t.data.toNat ∧
    t.data.toNat + t.extent ≤ b.getBase.toNat + b.size.toNat

/-- What the server makes of a tensor that it was sent. -/
def received (server : RpcServer) (g : Cgraph n) (p : Fin n) : ServerTensor :=
  server.newTensor (g.tensor p).type (g.serializeTensor p)

theorem findBuffer_ptr {b : ServerBuffer} (hb : b ∈ server.buffers) :
    server.findBuffer b.ptr = some b := by
  rcases h : server.findBuffer b.ptr with _ | b'
  · simpa using List.find?_eq_none.1 h b hb
  · have hptr := List.find?_some h
    have hmem := List.mem_of_find?_eq_some h
    rw [List.inj_on_of_nodup_map server.nodup hmem hb (of_decide_eq_true hptr)]

theorem getBase_add_size (b : ServerBuffer) :
    (b.getBase + b.size).toNat = b.getBase.toNat + b.size.toNat := by
  have hfits := b.fits
  rw [UInt64.toNat_add]
  refine Nat.mod_eq_of_lt ?_
  rw [ServerBuffer.getBase]
  split_ifs with h
  · simp [h]
  · exact hfits

/-- A tensor in a buffer passes the assertions, whose sums do not wrap then. -/
theorem inBuffer_of_le {b : ServerBuffer} {data size : UInt64} {m : Nat} (hsize : size.toNat ≤ m)
    (hbase : b.getBase.toNat ≤ data.toNat)
    (hend : data.toNat + m ≤ b.getBase.toNat + b.size.toNat) : InBuffer data size b := by
  have hb := getBase_add_size b
  have hlt := (b.getBase + b.size).toNat_lt
  have hsum : (data + size).toNat = data.toNat + size.toNat := by
    rw [UInt64.toNat_add]
    exact Nat.mod_eq_of_lt (by omega)
  refine ⟨?_, ?_, ?_⟩ <;> rw [UInt64.le_iff_toNat_le] <;> omega

theorem received_ne (h : (g.tensor p).Fits) : (server.received g p).ne = (g.tensor p).ne :=
  funext fun i => (toInt64_eq_iff _).2 ⟨(h i).1, (h i).2.1⟩

theorem received_nb (h : (g.tensor p).Fits) : (server.received g p).nb = (g.tensor p).nb :=
  funext fun i => (toUInt64_eq_iff _).2 (h i).2.2

theorem ggmlNbytes_received (h : (g.tensor p).Fits) :
    (server.received g p).ggmlNbytes = (g.tensor p).ggmlNbytes := by
  unfold GgmlNode.ggmlNbytes GgmlNode.dimBytes
  rw [received_ne h, received_nb h]
  rfl

theorem setName_nameBytes (s : TensorName) : setName (nameBytes s) = s := by
  refine Subtype.ext ?_
  have htake : (s.1 ++ List.replicate (ggmlMaxName - s.1.length) 0).takeWhile (· ≠ 0) = s.1 := by
    rw [List.takeWhile_append_of_pos]
    · simp
    · intro b hb
      simpa using fun h0 : b = 0 => s.2.2 (h0 ▸ hb)
  change (cString _).take _ = _
  rw [cString, nameBytes, htake]
  have hlt := s.2.1
  exact List.take_of_length_le (by omega)

theorem deserializeTensor_eq_some {tensor : RpcTensor} {t : ServerTensor} :
    server.deserializeTensor tensor = .ok (some t) ↔ ∃ h : tensor.type.toNat < 39,
      t = server.newTensor ⟨_, h⟩ tensor ∧ ggmlBlckSize t.type ≠ 0 ∧
        ∀ b ∈ t.buffer, InBuffer t.data t.ggmlNbytes b := by
  rw [deserializeTensor]
  by_cases htype : tensor.type.toNat < 39
  · rw [dif_pos htype]
    dsimp only
    split_ifs with hblck hin
    · refine iff_of_false (by simp) ?_
      rintro ⟨h, rfl, hne, -⟩
      exact hne hblck
    · constructor
      · intro h
        obtain rfl := Option.some.inj (Except.ok.inj h)
        exact ⟨htype, rfl, hblck, hin⟩
      · rintro ⟨h, rfl, -, -⟩
        rfl
    · refine iff_of_false (by simp) ?_
      rintro ⟨h, rfl, -, hb⟩
      exact hin hb
  · rw [dif_neg htype]
    exact iff_of_false (by simp) fun ⟨h, _⟩ => htype h

theorem deserializeTensor_serializeTensor (hlives : server.Lives (g.tensor p))
    (hfits : (g.tensor p).Fits) :
    server.deserializeTensor (g.serializeTensor p) = .ok (some (server.received g p)) := by
  have htype : (g.serializeTensor p).type.toNat = (g.tensor p).type :=
    UInt32.toNat_ofNat_of_lt ((g.tensor p).type.2.trans (by decide))
  have hlt : (g.serializeTensor p).type.toNat < 39 := htype ▸ (g.tensor p).type.2
  have hnew : server.newTensor ⟨_, hlt⟩ (g.serializeTensor p) = server.received g p := by
    have hfin : (⟨_, hlt⟩ : GgmlType) = (g.tensor p).type := Fin.ext htype
    rw [hfin, received]
  obtain ⟨ctx, hctx, b, hb, hptr, hbase, hend⟩ := hlives
  have hbuffer : (server.received g p).buffer = some b := by
    have hsent : (g.serializeTensor p).buffer = b.ptr := by
      rw [Cgraph.serializeTensor, Option.mem_def.1 hctx, hptr]
    change server.findBuffer (g.serializeTensor p).buffer = _
    rw [hsent, findBuffer_ptr hb]
  have hin : ∀ b ∈ (server.received g p).buffer,
      InBuffer (server.received g p).data (server.received g p).ggmlNbytes b := by
    rw [hbuffer, ggmlNbytes_received hfits]
    rintro _ ⟨⟩
    refine inBuffer_of_le ?_ hbase hend
    rw [GgmlNode.toNat_ggmlNbytes hfits]
    exact Nat.mod_le ..
  exact deserializeTensor_eq_some.2 ⟨hlt, hnew.symm, g.blckSize_ne_zero p, hin⟩

/-! ## The loop over the nodes -/

section Loop

variable {tensors : List RpcTensor} {ids : List UInt64} {nodes : List (Option Nat)}
  {made made' : Made UInt64 ServerTensor} {graph : Graph}

/-- From `made` to `made'` tensors below the ids were made. -/
abbrev Makes (server : RpcServer) (tensors : List RpcTensor) (done : Prop) (ids : List UInt64)
    (made made' : Made UInt64 ServerTensor) : Prop :=
  Grows (server.makeNode tensors) (fun d => linkIds d.1) linkNode done (· ∈ ids) made made'

theorem createNodes_makes : ∀ {ids nodes made},
    server.createNodes tensors ids nodes made = .ok (some graph) →
    ∃ ptrs made', graph = ⟨nodes ++ ptrs, made'.nodes⟩ ∧
      server.Makes tensors (none ∉ ptrs) ids made made' ∧
      List.Forall₂ (fun id r => ∀ i, r = some i → made'.ids[i]? = some id) ids ptrs
  | [], nodes, made, h => by
    obtain rfl := Option.some.inj (Except.ok.inj h)
    exact ⟨[], made, by rw [List.append_nil], .refl, .nil⟩
  | id :: ids, nodes, made, h => by
    obtain ⟨⟨r, made₁⟩, hid, h⟩ := Except.bind_eq_ok.1 h
    obtain ⟨hgrows, hat⟩ := build_grows hid
    split_ifs at h
    · simp at h
    · obtain ⟨ptrs, made', rfl, hgrows', hptrs⟩ := createNodes_makes h
      refine ⟨r :: ptrs, made', by rw [List.append_assoc]; rfl, ?_, .cons (fun i hi => ?_) hptrs⟩
      · refine (hgrows.mono ?_ ?_).trans (hgrows'.mono ?_ ?_)
        · rintro hnone rfl
          exact hnone (List.mem_cons_self ..)
        · rintro _ rfl
          exact List.mem_cons_self ..
        · exact fun hnone hmem => hnone (List.mem_cons_of_mem _ hmem)
        · exact fun _ => List.mem_cons_of_mem _
      · exact getElem?_of_isPrefix hgrows'.ids (hat i hi)

theorem makeNode_of_findTensor {id : UInt64} {tensor : RpcTensor}
    (h : findTensor tensors id = some tensor) : server.makeNode tensors id =
      (server.deserializeTensor tensor).map (Option.map (tensor, ·)) := by
  rw [makeNode, h]

theorem makeNode_eq_some {id : UInt64} {d : RpcTensor × ServerTensor} :
    server.makeNode tensors id = .ok (some d) ↔
      findTensor tensors id = some d.1 ∧ server.deserializeTensor d.1 = .ok (some d.2) := by
  obtain ⟨tensor, t⟩ := d
  rcases hfind : findTensor tensors id with _ | tensor'
  · simp [makeNode, hfind]
  · rw [makeNode_of_findTensor hfind, Except.map_eq_ok]
    simp only [Option.map_eq_some_iff, Option.some.injEq, Prod.mk.injEq]
    constructor
    · rintro ⟨_, hdes, t', rfl, rfl, rfl⟩
      exact ⟨rfl, hdes⟩
    · rintro ⟨rfl, hdes⟩
      exact ⟨_, hdes, t, rfl, rfl, rfl⟩

/-- Every tensor handed to the backend was deserialized from the message. -/
theorem Makes.deserialized {done : Prop} (h : server.Makes tensors done ids .empty made')
    {t : ServerTensor} (ht : t ∈ made'.nodes) : ∃ id ∈ made'.ids, ∃ tensor t₀ ptrs,
      findTensor tensors id = some tensor ∧ server.deserializeTensor tensor = .ok (some t₀) ∧
        t = linkNode (tensor, t₀) ptrs := by
  obtain ⟨j, hj, rfl⟩ := List.mem_iff_getElem.1 ht
  have hj' : j < made'.ids.length := made'.length_eq ▸ hj
  obtain ⟨d, ptrs, hd, hn, -⟩ := h.made j _ (Nat.zero_le _) (List.getElem?_eq_getElem hj')
  obtain ⟨hfind, hdes⟩ := makeNode_eq_some.1 hd
  rw [List.getElem?_eq_getElem hj, Option.some.injEq] at hn
  exact ⟨_, List.getElem_mem hj', d.1, d.2, ptrs, hfind, hdes, hn⟩

/-- An id of which something is made is that of a tensor of the message. -/
theorem mem_of_makeNode {id : UInt64} (h : server.makeNode tensors id ≠ .ok none) :
    id ∈ (tensors.map (·.id)).toFinset := by
  rcases hfind : findTensor tensors id with _ | tensor
  · simp [makeNode, hfind] at h
  · have hid := List.find?_some hfind
    refine List.mem_toFinset.2 (List.mem_map.2 ⟨tensor, ?_, of_decide_eq_true hid⟩)
    exact List.mem_reverse.1 (List.mem_of_find?_eq_some hfind)

/-- A node is not made only where a tensor below it cannot be. -/
theorem createNode_ends (server : RpcServer) (tensors : List RpcTensor)
    (made : Made UInt64 ServerTensor) (id : UInt64) :
    (server.createNode tensors made id).Ends
      (fun f => ∃ k, ReflTransGen (Names (server.makeNode tensors) fun d => linkIds d.1) id k ∧
        server.makeNode tensors k = .error f)
      fun r => r.1 = none →
        ∃ k, ReflTransGen (Names (server.makeNode tensors) fun d => linkIds d.1) id k ∧
          server.makeNode tensors k = .ok none := by
  refine build_ends (fun _ => mem_of_makeNode) tensors.length made id ?_
  refine (Finset.card_le_card Finset.sdiff_subset).trans ?_
  exact (List.toFinset_card_le _).trans_eq (List.length_map ..)

theorem createNodes_succeeds (server : RpcServer) (tensors : List RpcTensor) :
    ∀ (ids nodes made),
    (∀ r ∈ ids, ∀ k, ReflTransGen (Names (server.makeNode tensors) fun d => linkIds d.1) r k →
      ∃ d, server.makeNode tensors k = .ok (some d)) →
    ∃ ptrs : List Nat, ∃ graph, graph.nodes = nodes ++ ptrs.map some ∧
      server.createNodes tensors ids nodes made = .ok (some graph)
  | [], nodes, made, _ => ⟨[], ⟨nodes, made.nodes⟩, by simp, rfl⟩
  | id :: ids, nodes, made, hids => by
    have hends := createNode_ends server tensors made id
    rcases hid : server.createNode tensors made id with f | ⟨_ | i, made₁⟩
    · obtain ⟨k, hk, hf⟩ := hends.of_error hid
      obtain ⟨d, hd⟩ := hids id (List.mem_cons_self ..) k hk
      simp [hd] at hf
    · obtain ⟨k, hk, hnone⟩ := hends.of_ok hid rfl
      obtain ⟨d, hd⟩ := hids id (List.mem_cons_self ..) k hk
      simp [hd] at hnone
    · obtain ⟨ptrs, graph, hgraph, h⟩ := createNodes_succeeds server tensors ids (nodes ++ [some i])
        made₁ fun r hr => hids r (List.mem_cons_of_mem _ hr)
      refine ⟨i :: ptrs, graph, by simp [hgraph], ?_⟩
      rw [createNodes, hid, Except.ok_bind_eq, if_neg (by simp), h]

end Loop

end RpcServer

/-! ## The whole graph -/

section Whole

variable {server : RpcServer} {n : Nat} {g : Cgraph n} {p q : Fin n}

/-- A tensor of the server is one of the client, with its pointers moved by `φ`. -/
structure MovedTensor (φ : Fin n → Nat) (t : GgmlNode (Fin n) RpcBuffer) (t' : ServerTensor) :
    Prop where
  type : t'.type = t.type
  ne : t'.ne = t.ne
  nb : t'.nb = t.nb
  op : t'.op = t.op
  opParams : t'.opParams = t.opParams
  flags : t'.flags = t.flags
  viewOffs : t'.viewOffs = t.viewOffs
  src : ∀ i, t'.src i = (t.src i).map φ
  viewSrc : t'.viewSrc = t.viewSrc.map φ
  data : t'.data = t.data
  name : t'.name = t.name

/-- The graph of the server is that of the client, with its pointers moved by `φ`. -/
structure SameGraph (g : Cgraph n) (φ : Fin n → Nat) (graph : RpcServer.Graph) : Prop where
  nodes : graph.nodes = g.nodes.map fun p => some (φ p)
  tensor : ∀ p, g.Below p → ∃ t, graph.tensors[φ p]? = some t ∧ MovedTensor φ (g.tensor p) t
  injective : ∀ p q, g.Below p → g.Below q → φ p = φ q → p = q
  onto : ∀ i < graph.tensors.length, ∃ p, g.Below p ∧ φ p = i

/-- The server builds the graph of the client from the message of the client. -/
def Rebuilds (server : RpcServer) (g : Cgraph n) : Prop :=
  ∃ input, g.serializeGraph = some input ∧ ∃ graph, server.buildGraph input = .ok (some graph) ∧
    ∃ φ, SameGraph g φ graph

theorem linkNode_same {φ : Fin n → Nat} (hfits : (g.tensor p).Fits) :
    MovedTensor φ (g.tensor p) (RpcServer.linkNode (g.serializeTensor p, server.received g p)
      ((g.tensor p).pointers.map (Option.map φ))) where
  type := rfl
  ne := show (server.received g p).ne = _ from RpcServer.received_ne hfits
  nb := show (server.received g p).nb = _ from RpcServer.received_nb hfits
  op := rfl
  opParams := rfl
  flags := rfl
  viewOffs := by
    have hlen : (g.tensor p).pointers.length = 11 := by simp [GgmlNode.pointers]
    simp [RpcServer.linkNode, hlen, Cgraph.serializeTensor]
  src i := by
    have hi : (g.tensor p).pointers[i.1]? = some ((g.tensor p).src i) := by
      rw [GgmlNode.pointers, List.getElem?_append_left (by simp), List.getElem?_ofFn]
      simp
    change (((g.tensor p).pointers.map (Option.map φ)).getD i none) = _
    rw [List.getD, List.getElem?_map, hi]
    rfl
  viewSrc := by
    change (((g.tensor p).pointers.map (Option.map φ)).getD 10 none) = _
    simp [GgmlNode.pointers, List.getD]
  data := rfl
  name := RpcServer.setName_nameBytes _

theorem rpcTensor_valid (t : RpcTensor) : rpcTensor.Valid t :=
  ⟨uint64_valid _, uint32_valid _, uint64_valid _, vec_valid.2 fun _ => uint32_valid _,
    vec_valid.2 fun _ => uint32_valid _, uint32_valid _, vec_valid.2 fun _ => int32_valid _,
    int32_valid _, vec_valid.2 fun _ => uint64_valid _, uint64_valid _, uint64_valid _,
    uint64_valid _, trivial, trivial⟩

theorem graphMessage_read (hsize : 4 + g.nodes.length * 8 + 4 +
      (g.addTensors.map g.serializeTensor).length * rpcTensorSize < 2 ^ 31) :
    graphMessage.read (graphMessage.write (g.nodes.map g.addr, g.sent)) =
      some ((g.nodes.map g.addr, g.sent), []) := by
  have hvalid : graphMessage.Valid (g.nodes.map g.addr, g.sent) := by
    rw [rpcTensorSize] at hsize
    refine ⟨⟨?_, fun id _ => uint64_valid id⟩, ?_, fun t _ => rpcTensor_valid t⟩
    · rw [List.length_map]
      omega
    · change (g.addTensors.map g.serializeTensor).length < 256 ^ 4
      omega
  have hread := graphMessage.read_write hvalid []
  rwa [List.append_nil] at hread

theorem makeNode_sent (hlives : server.Lives (g.tensor p)) (hfits : (g.tensor p).Fits)
    (hp : g.Below p) : server.makeNode g.sent (g.addr p) =
      .ok (some (g.serializeTensor p, server.received g p)) := by
  rw [RpcServer.makeNode, Cgraph.findTensor_sent hp]
  simp only [RpcServer.deserializeTensor_serializeTensor hlives hfits]
  rfl

/-- What an id of the message names is a tensor below the nodes. -/
theorem names_below (hlives : ∀ p, g.Below p → server.Lives (g.tensor p))
    (hfits : ∀ p, g.Below p → (g.tensor p).Fits) (hp : g.Below p) {k : UInt64}
    (hk : ReflTransGen (Names (server.makeNode g.sent) fun d => RpcServer.linkIds d.1)
      (g.addr p) k) : ∃ q, g.Below q ∧ k = g.addr q := by
  induction hk with
  | refl => exact ⟨p, hp, rfl⟩
  | tail _ hab ih =>
    obtain ⟨q, hq, rfl⟩ := ih
    obtain ⟨d, hd, hmem⟩ := hab
    rw [makeNode_sent (hlives q hq) (hfits q hq) hq] at hd
    obtain rfl := Option.some.inj (Except.ok.inj hd)
    change some _ ∈ RpcServer.linkIds (g.serializeTensor q) at hmem
    rw [Cgraph.linkIds_serializeTensor] at hmem
    obtain ⟨_ | r, hr, hrb⟩ := List.mem_map.1 hmem
    · simp at hrb
    · refine ⟨r, hq.link ?_, (Option.some.inj hrb).symm⟩
      exact List.reduceOption_mem_iff.2 hr

/-- A tensor points to another in the message as it does on the client. -/
theorem names_of_below (hlives : ∀ p, g.Below p → server.Lives (g.tensor p))
    (hfits : ∀ p, g.Below p → (g.tensor p).Fits) (hp : g.Below p)
    (hpq : ReflTransGen (fun a b => b ∈ g.links a) p q) :
    ReflTransGen (Names (server.makeNode g.sent) fun d => RpcServer.linkIds d.1)
      (g.addr p) (g.addr q) := by
  induction hpq with
  | refl => exact .refl
  | @tail a b hpa hab ih =>
    have ha : g.Below a := by
      obtain ⟨r, hr, hrp⟩ := hp
      exact ⟨r, hr, hrp.trans hpa⟩
    refine ih.tail ⟨_, makeNode_sent (hlives a ha) (hfits a ha) ha, ?_⟩
    change some _ ∈ RpcServer.linkIds (g.serializeTensor a)
    rw [Cgraph.linkIds_serializeTensor]
    exact List.mem_map_of_mem (List.reduceOption_mem_iff.1 hab)

theorem sameGraph_of_fits (hlives : ∀ p, g.Below p → server.Lives (g.tensor p))
    (hfits : ∀ p, g.Below p → (g.tensor p).Fits) :
    ∃ graph, server.createNodes g.sent (g.nodes.map g.addr) [] .empty = .ok (some graph) ∧
      ∃ φ, SameGraph g φ graph := by
  have hnode : ∀ p ∈ g.nodes, g.Below p := fun p hp => ⟨p, hp, .refl⟩
  obtain ⟨ptrs, graph, hnodes, hgraph⟩ := server.createNodes_succeeds g.sent
    (g.nodes.map g.addr) [] .empty (by
      intro r hr k hk
      obtain ⟨p, hp, rfl⟩ := List.mem_map.1 hr
      obtain ⟨q, hq, rfl⟩ := names_below hlives hfits (hnode p hp) hk
      exact ⟨_, makeNode_sent (hlives q hq) (hfits q hq) hq⟩)
  refine ⟨graph, hgraph, ?_⟩
  obtain ⟨ptrs', made, rfl, hmakes, hptrs⟩ := RpcServer.createNodes_makes hgraph
  obtain rfl : ptrs' = ptrs.map some := by simpa using hnodes
  have hmade : server.Makes g.sent True (g.nodes.map g.addr) .empty made :=
    hmakes.mono (by simp) fun _ => id
  have hids : ∀ k ∈ made.ids, ∃ p, g.Below p ∧ k = g.addr p := by
    intro k hk
    obtain hk | ⟨r, hr, hrk⟩ := hmade.below k hk
    · simp [Made.empty] at hk
    · obtain ⟨p, hp, rfl⟩ := List.mem_map.1 hr
      exact names_below hlives hfits (hnode p hp) hrk
  have hnodeAt : List.Forall₂ (fun p (i : Nat) => made.ids[i]? = some (g.addr p)) g.nodes ptrs := by
    rw [List.forall₂_map_left_iff, List.forall₂_map_right_iff] at hptrs
    exact hptrs.imp fun p i h => h i rfl
  have hmem : ∀ p, g.Below p → g.addr p ∈ made.ids := by
    rintro p ⟨r, hr, hrp⟩
    obtain ⟨i, hi⟩ : ∃ i, made.ids[i]? = some (g.addr r) := by
      obtain ⟨j, hj, rfl⟩ := List.mem_iff_getElem.1 hr
      exact ⟨_, hnodeAt.get hj (hnodeAt.length_eq ▸ hj)⟩
    exact hmade.closed (List.mem_of_getElem? hi) (names_of_below hlives hfits (hnode r hr) hrp)
  refine ⟨fun p => made.ids.idxOf (g.addr p), ?_, fun p hp => ?_, fun p q hp hq hpq => ?_, ?_⟩
  · have hmap : List.Forall₂ Eq (g.nodes.map fun p => made.ids.idxOf (g.addr p)) ptrs := by
      refine List.forall₂_map_left_iff.2 (hnodeAt.imp fun p i hi => ?_)
      obtain ⟨hlt, hi⟩ := List.getElem?_eq_some_iff.1 hi
      rw [← hi, made.nodup.idxOf_getElem]
    rw [List.forall₂_eq_eq_eq] at hmap
    rw [← hmap, List.map_map]
    rfl
  · have hj := List.getElem?_idxOf (hmem p hp)
    obtain ⟨d, links, hd, hn, hl⟩ := hmade.made _ _ (Nat.zero_le _) hj
    rw [makeNode_sent (hlives p hp) (hfits p hp) hp] at hd
    obtain rfl := Option.some.inj (Except.ok.inj hd)
    have hlinks := (hl trivial).eq_map made.nodup
    change links = (RpcServer.linkIds (g.serializeTensor p)).map _ at hlinks
    rw [Cgraph.linkIds_serializeTensor, List.map_map] at hlinks
    refine ⟨_, hn, ?_⟩
    have hmap : links = (g.tensor p).pointers.map
        (Option.map fun p => made.ids.idxOf (g.addr p)) := by
      rw [hlinks]
      refine List.map_congr_left fun o _ => ?_
      rcases o with _ | q <;> rfl
    rw [hmap]
    exact linkNode_same (hfits p hp)
  · have hp' := List.getElem?_idxOf (hmem p hp)
    have hq' := List.getElem?_idxOf (hmem q hq)
    rw [show made.ids.idxOf (g.addr p) = made.ids.idxOf (g.addr q) from hpq, hq'] at hp'
    exact g.addr_injective (Option.some.inj hp').symm
  · intro i hi
    have hlt : i < made.ids.length := made.length_eq ▸ hi
    obtain ⟨p, hp, hpi⟩ := hids _ (List.getElem_mem hlt)
    exact ⟨p, hp, by rw [← hpi, made.nodup.idxOf_getElem]⟩

/-- The shapes and strides of a tensor that was deserialized are numbers of 32 bits. -/
theorem fits_of_deserialized {tensor : RpcTensor} {t : ServerTensor}
    (h : server.deserializeTensor tensor = .ok (some t)) : t.Fits := by
  obtain ⟨htype, rfl, -⟩ := RpcServer.deserializeTensor_eq_some.1 h
  intro i
  have hne := (tensor.ne i).toNat_lt
  have hnb := (tensor.nb i).toNat_lt
  change 0 ≤ (tensor.ne i).toUInt64.toInt64.toInt ∧ (tensor.ne i).toUInt64.toInt64.toInt < 2 ^ 32 ∧
    (tensor.nb i).toUInt64.toNat < 2 ^ 32
  rw [toInt_toInt64, UInt32.toNat_toUInt64]
  omega

theorem outputSize_eq (g : Cgraph n) : 4 + g.nodes.length * 8 + 4 +
    (g.addTensors.map g.serializeTensor).length * rpcTensorSize =
      8 + 8 * g.nodes.length + 296 * Nat.card {p // g.Below p} := by
  rw [List.length_map, Cgraph.length_addTensors, rpcTensorSize]
  ring

theorem Rebuilds.fits_and_size (h : Rebuilds server g) : (∀ p, g.Below p → (g.tensor p).Fits) ∧
    8 + 8 * g.nodes.length + 296 * Nat.card {p // g.Below p} < 2 ^ 31 := by
  obtain ⟨input, hinput, graph, hgraph, φ, hsame⟩ := h
  rw [Cgraph.serializeGraph] at hinput
  simp only [Option.ite_none_right_eq_some, Option.some.injEq] at hinput
  obtain ⟨hlt, rfl⟩ := hinput
  have hread := graphMessage_read hlt
  rw [Cgraph.sent] at hread
  rw [RpcServer.buildGraph, hread] at hgraph
  obtain ⟨ptrs, made, rfl, hmakes, -⟩ := RpcServer.createNodes_makes hgraph
  refine ⟨fun p hp i => ?_, outputSize_eq g ▸ hlt⟩
  obtain ⟨t, ht, htp⟩ := hsame.tensor p hp
  obtain ⟨id, -, tensor, t₀, links, -, hdes, rfl⟩ := hmakes.deserialized (List.mem_of_getElem? ht)
  rw [← htp.ne, ← htp.nb]
  exact fits_of_deserialized hdes i

/-- The server builds the graph of the client just when the shapes and strides of its tensors fit in
32 bits and the message in an `int`. -/
theorem rebuilds_iff (server : RpcServer) (g : Cgraph n)
    (hlives : ∀ p, g.Below p → server.Lives (g.tensor p)) :
    Rebuilds server g ↔ (∀ p, g.Below p → (g.tensor p).Fits) ∧
      8 + 8 * g.nodes.length + 296 * Nat.card {p // g.Below p} < 2 ^ 31 := by
  refine ⟨Rebuilds.fits_and_size, ?_⟩
  rintro ⟨hfits, hlt⟩
  rw [← outputSize_eq] at hlt
  obtain ⟨graph, hgraph, hsame⟩ := sameGraph_of_fits hlives hfits
  refine ⟨_, if_pos hlt, graph, ?_, hsame⟩
  have hread := graphMessage_read hlt
  rw [Cgraph.sent] at hread
  rw [RpcServer.buildGraph, hread]
  exact hgraph

end Whole

/-- A tensor of `ne0 * ne1` elements in the buffer 7. -/
def matrixTensor {P : Type} (type : GgmlType) (ne0 ne1 : Int64) (nb0 nb1 nb2 : UInt64)
    (src : List P) (viewSrc : Option P) : GgmlNode P RpcBuffer where
  type := type
  buffer := some ⟨7⟩
  ne i := [ne0, ne1, 1, 1].getD i 0
  nb i := [nb0, nb1, nb2, nb2].getD i 0
  op := 0
  opParams _ := 0
  flags := 0
  src i := src[i.1]?
  viewSrc := viewSrc
  viewOffs := 0
  data := 4096
  name := ⟨[], by decide⟩

def serverOf (size : UInt64) (h : 4096 + size.toNat < 2 ^ 64) : RpcServer where
  buffers := [⟨7, 4096, size, by decide, h⟩]
  nodup := List.nodup_singleton _

/-- The sum of a tensor and of a view of it. -/
def sumGraph : Cgraph 3 where
  tensor p := if p = 0 then matrixTensor 0 4 1 4 16 16 [] none
    else if p = 1 then matrixTensor 0 4 1 4 16 16 [0] (some 0)
    else matrixTensor 0 4 1 4 16 16 [0, 1] none
  addr p := UInt64.ofNat (p + 1)
  nodes := [1, 2]
  addr_injective := by decide
  addr_ne_zero := by decide
  blckSize_ne_zero := by decide

/-- The tensor that the others are made of, as it is sent. -/
def firstTensor : RpcTensor := sumGraph.serializeTensor 0

theorem rebuilds_sumGraph : Rebuilds (serverOf 4096 (by decide)) sumGraph := by
  have hlives : ∀ p, (serverOf 4096 (by decide)).Lives (sumGraph.tensor p) := fun p => by
    refine ⟨⟨7⟩, ?_, _, List.mem_singleton_self _, rfl, ?_, ?_⟩ <;> revert p <;> decide
  have hfits : ∀ p, (sumGraph.tensor p).Fits := by
    unfold GgmlNode.Fits
    decide
  refine (rebuilds_iff _ sumGraph fun p _ => hlives p).2 ⟨fun p _ => hfits p, ?_⟩
  have hcard : Nat.card {p // sumGraph.Below p} ≤ Nat.card (Fin 3) :=
    Nat.card_le_card_of_injective _ Subtype.val_injective
  rw [Nat.card_fin] at hcard
  change 8 + 8 * 2 + 296 * _ < 2 ^ 31
  omega

/-- Every graph in the buffers of a server is built by the server as it is. -/
def RpcGraphLaw : Prop :=
  ∀ (n : Nat) (server : RpcServer) (g : Cgraph n),
    (∀ p, g.Below p → server.Lives (g.tensor p)) → Rebuilds server g

/-- A matrix of 4 GiB. -/
def bigGraph : Cgraph 1 where
  tensor _ := matrixTensor 1 32768 65536 2 65536 (2 ^ 32) [] none
  addr _ := 1
  nodes := [0]
  addr_injective := by decide
  addr_ne_zero := by decide
  blckSize_ne_zero := by decide

/-- The strides behind the matrix are sent as 0. -/
theorem not_rpcGraphLaw : ¬ RpcGraphLaw := by
  intro h
  have hlives : ∀ p, (serverOf (2 ^ 32) (by decide)).Lives (bigGraph.tensor p) := fun p => by
    refine ⟨⟨7⟩, rfl, _, List.mem_singleton_self _, rfl, ?_, ?_⟩ <;> revert p <;> decide
  have hrebuilds := h 1 _ bigGraph fun p _ => hlives p
  have hfits := hrebuilds.fits_and_size.1 0 ⟨0, List.mem_singleton_self _, .refl⟩ 2
  exact absurd hfits.2.2 (by decide)

end LamaServer

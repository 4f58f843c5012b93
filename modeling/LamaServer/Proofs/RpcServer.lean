import LamaServer.Proofs.RpcGraph
import LamaServer.RpcServer

/-!
# What an RPC server hands to the backend

A tensor whose buffer the server does not know is kept without one, and is not checked: the requests
that read the buffer of a tensor then read a null pointer, and a graph may name any memory. Where
every tensor names a buffer of the server and no sum wraps, the memory lies in the buffers.
-/

namespace LamaServer

open Format PointerGraph Transition
open Relation (ReflTransGen)

/-- The memory lies in a buffer of the server. -/
def Access.Inside (a : Access) (server : RpcServer) : Prop :=
  a.size = 0 ∨ ∃ b ∈ server.buffers, b.getBase.toNat ≤ a.start.toNat ∧
    a.start.toNat + a.size ≤ b.getBase.toNat + b.size.toNat

/-- No pointer that is null or foreign is read, and the memory handed over lies in the buffers. -/
def SafeHandled (h : Handled) : Prop :=
  h.Ends (· ≠ .pointer) fun o => ∀ r ∈ o, ∀ a ∈ r.2, a.Inside r.1.server

namespace RpcServer

variable {server : RpcServer} {tensor : RpcTensor} {t : ServerTensor} {b : ServerBuffer}

/-- Unless its type is none, the tensor names a buffer of the server. -/
def Known (server : RpcServer) (tensor : RpcTensor) : Prop :=
  ∀ h : tensor.type.toNat < 39, ggmlBlckSize ⟨_, h⟩ ≠ 0 → (server.findBuffer tensor.buffer).isSome

theorem mem_of_findBuffer {ptr : UInt64} (h : server.findBuffer ptr = some b) :
    b ∈ server.buffers := List.mem_of_find?_eq_some h

/-- Reading a tensor fails by an assertion at most. -/
theorem deserializeTensor_ne_pointer : server.deserializeTensor tensor ≠ .error .pointer := by
  rw [deserializeTensor]
  split_ifs with h
  · dsimp only
    split_ifs <;> simp
  · simp

/-- A tensor without a buffer is one that names none of the server. -/
theorem known_of_buffer (h : server.deserializeTensor tensor = .ok (some t))
    (hb : t.buffer = some b) : server.Known tensor := by
  obtain ⟨htype, rfl, -⟩ := deserializeTensor_eq_some.1 h
  intro _ _
  rw [show server.findBuffer tensor.buffer = some b from hb]
  rfl

theorem Known.buffer (hknown : server.Known tensor)
    (h : server.deserializeTensor tensor = .ok (some t)) :
    ∃ b ∈ server.buffers, t.buffer = some b ∧ InBuffer t.data t.ggmlNbytes b := by
  obtain ⟨htype, rfl, hblck, hin⟩ := deserializeTensor_eq_some.1 h
  obtain ⟨b, hb⟩ := Option.isSome_iff_exists.1 (hknown htype hblck)
  exact ⟨b, mem_of_findBuffer hb, hb, hin b hb⟩

/-- A tensor that names no buffer of the server is kept without a buffer. -/
theorem exists_of_not_known (h : ¬ server.Known tensor) :
    ∃ t, server.deserializeTensor tensor = .ok (some t) ∧ t.buffer = none := by
  rw [Known] at h
  push Not at h
  obtain ⟨htype, hblck, hnone⟩ := h
  rw [ne_eq, Option.not_isSome_iff_eq_none] at hnone
  have hbuffer : (server.newTensor ⟨_, htype⟩ tensor).buffer = none := hnone
  refine ⟨_, deserializeTensor_eq_some.2 ⟨htype, rfl, hblck, ?_⟩, hbuffer⟩
  simp [hbuffer]

end RpcServer

/-! ## Regions of a tensor -/

section Region

variable {s s' : RpcState} {tensor : RpcTensor} {t : ServerTensor} {b : ServerBuffer}
  {offset : UInt64} {size : Nat}

theorem regionInBuffer_eq_true (hb : t.buffer = some b) :
    regionInBuffer t t.data offset size = .ok true ↔
      b.getBase.toNat ≤ (t.data + offset).toNat ∧
        (t.data + offset).toNat < b.getBase.toNat + b.size.toNat ∧
        (t.data + offset).toNat + size ≤ b.getBase.toNat + b.size.toNat := by
  have hend := RpcServer.getBase_add_size b
  have hsub : b.getBase + b.size - t.data - offset = b.getBase + b.size - (t.data + offset) := by
    exact sub_sub ..
  simp only [regionInBuffer, hb, Except.ok.injEq, decide_eq_true_eq, not_or, not_lt, not_le, hsub,
    UInt64.le_iff_toNat_le, UInt64.lt_iff_toNat_lt, hend]
  refine and_congr_right fun _ => and_congr_right fun hlt => ?_
  rw [UInt64.toNat_sub_of_le _ _ (UInt64.le_iff_toNat_le.2 (by omega)), hend]
  omega

theorem tensorAccess_ends {P : List Access → Prop} (hnil : P [])
    (h : P [⟨t.data + offset, size⟩]) : (tensorAccess t offset size).Ends (· ≠ .pointer) P := by
  rw [tensorAccess]
  split_ifs
  · exact hnil
  · exact h
  · simp

/-- A request that names a region of a tensor is safe just when the tensor names a buffer. -/
theorem accessTensor_safe (hserver : s'.server = s.server) :
    SafeHandled (s.accessTensor tensor offset size s') ↔ s.server.Known tensor := by
  constructor
  · intro h
    by_contra hknown
    obtain ⟨t, ht, hb⟩ := RpcServer.exists_of_not_known hknown
    simp [SafeHandled, RpcState.accessTensor, ht, regionInBuffer, hb, bind, Except.bind] at h
  · intro hknown
    refine Except.Ends.bind (Q := fun o => s.server.deserializeTensor tensor = .ok o) ?_ ?_
    · rcases h : s.server.deserializeTensor tensor with f | o
      · rintro rfl
        exact RpcServer.deserializeTensor_ne_pointer h
      · exact rfl
    · rintro (_ | t) ht
      · simp
      · obtain ⟨b, hmem, hb, hin⟩ := hknown.buffer ht
        have hdata : tensor.data = t.data := by
          obtain ⟨_, rfl, -⟩ := RpcServer.deserializeTensor_eq_some.1 ht
          rfl
        simp only [hdata]
        refine Except.Ends.bind (Q := fun o => regionInBuffer t t.data offset size = .ok o) ?_ ?_
        · simp [regionInBuffer, hb]
        · rintro (_ | _) hregion
          · simp
          · have hbounds := (regionInBuffer_eq_true hb).1 hregion
            rw [if_pos rfl]
            refine Except.Ends.bind (tensorAccess_ends ?_ ?_) fun accesses h => h
            · simp
            · simp only [Except.ends_ok, Option.mem_some_iff, forall_eq', List.mem_singleton,
                forall_eq]
              rw [hserver]
              exact .inr ⟨b, hmem, hbounds.1, hbounds.2.2⟩

end Region

/-! ## Copies -/

/-- What a copy must meet where both tensors are deserialized: the target has a buffer, and if the
source seems to fit there, it has one too, and the sum that says so does not wrap. -/
def CopyOk (server : RpcServer) (rpcSrc rpcDst : RpcTensor) : Prop :=
  ∀ src dst, server.deserializeTensor rpcSrc = .ok (some src) →
    server.deserializeTensor rpcDst = .ok (some dst) → ∃ b, dst.buffer = some b ∧
      (dst.data + src.ggmlNbytes ≤ b.getBase + b.size → b.size ≠ 0 →
        src.buffer.isSome ∧ dst.data.toNat + src.ggmlNbytes.toNat < 2 ^ 64)

theorem inside_of_inBuffer {server : RpcServer} {b : ServerBuffer} {data size : UInt64}
    (hmem : b ∈ server.buffers) (hin : RpcServer.InBuffer data size b) :
    Access.Inside ⟨data, size.toNat⟩ server := by
  obtain ⟨hwrap, hbase, hend⟩ := hin
  rw [UInt64.le_iff_toNat_le] at hwrap hbase hend
  have hb := RpcServer.getBase_add_size b
  refine .inr ⟨b, hmem, hbase, ?_⟩
  have hsum : (data + size).toNat = data.toNat + size.toNat := by
    have hdata := data.toNat_lt
    have hsize := size.toNat_lt
    rw [UInt64.toNat_add] at hwrap ⊢
    omega
  rw [← hb, ← hsum]
  exact hend

/-- What is written to the target lies inside a buffer unless the sum wraps. -/
theorem copy_inside_iff {server : RpcServer} {b : ServerBuffer} {data n size : UInt64}
    (hmem : b ∈ server.buffers) (hin : RpcServer.InBuffer data size b)
    (hfits : data + n ≤ b.getBase + b.size) :
    Access.Inside ⟨data, n.toNat⟩ server ↔ data.toNat + n.toNat < 2 ^ 64 := by
  have hb := RpcServer.getBase_add_size b
  have hdata := data.toNat_lt
  constructor
  · rintro (hzero | ⟨c, -, -, hend⟩)
    · simp only at hzero
      omega
    · have hc := RpcServer.getBase_add_size c
      have hlt := (c.getBase + c.size).toNat_lt
      simp only at hend
      omega
  · intro hlt
    have hsum : (data + n).toNat = data.toNat + n.toNat := by
      rw [UInt64.toNat_add]
      exact Nat.mod_eq_of_lt hlt
    rw [UInt64.le_iff_toNat_le] at hfits
    have hbase := UInt64.le_iff_toNat_le.1 hin.2.1
    exact .inr ⟨b, hmem, hbase, by simp only; omega⟩

/-- A copy of which a tensor is not deserialized touches no memory. -/
theorem copyTensor_safe_of_none {s : RpcState} {rpcSrc rpcDst : RpcTensor}
    (h : ∀ src dst, s.server.deserializeTensor rpcSrc = .ok (some src) →
      s.server.deserializeTensor rpcDst ≠ .ok (some dst)) :
    SafeHandled (s.copyTensor rpcSrc rpcDst) := by
  have hsrc : s.server.deserializeTensor rpcSrc ≠ .error .pointer :=
    RpcServer.deserializeTensor_ne_pointer
  have hdst : s.server.deserializeTensor rpcDst ≠ .error .pointer :=
    RpcServer.deserializeTensor_ne_pointer
  rw [RpcState.copyTensor]
  rcases hs : s.server.deserializeTensor rpcSrc with f | _ | src
  · exact fun hf => hsrc (hs.trans (hf ▸ rfl))
  · rcases hd : s.server.deserializeTensor rpcDst with f | dst
    · exact fun hf => hdst (hd.trans (hf ▸ rfl))
    · simp [SafeHandled, Except.Ends, bind, Except.bind]
  · rcases hd : s.server.deserializeTensor rpcDst with f | _ | dst
    · exact fun hf => hdst (hd.trans (hf ▸ rfl))
    · simp [SafeHandled, Except.Ends, bind, Except.bind]
    · exact absurd hd (h src dst hs)

theorem copyTensor_safe {s : RpcState} {rpcSrc rpcDst : RpcTensor} :
    SafeHandled (s.copyTensor rpcSrc rpcDst) ↔ CopyOk s.server rpcSrc rpcDst := by
  by_cases h : ∃ src dst, s.server.deserializeTensor rpcSrc = .ok (some src) ∧
      s.server.deserializeTensor rpcDst = .ok (some dst)
  · obtain ⟨src, dst, hsrc, hdst⟩ := h
    have hok : CopyOk s.server rpcSrc rpcDst ↔ ∃ b, dst.buffer = some b ∧
        (dst.data + src.ggmlNbytes ≤ b.getBase + b.size → b.size ≠ 0 →
          src.buffer.isSome ∧ dst.data.toNat + src.ggmlNbytes.toNat < 2 ^ 64) := by
      simp [CopyOk, hsrc, hdst]
    rw [hok, RpcState.copyTensor, hsrc, hdst]
    simp only [Except.ok_bind_eq]
    rcases hb : dst.buffer with _ | b
    · simp [SafeHandled]
    · obtain ⟨hmem, hin⟩ : b ∈ s.server.buffers ∧ RpcServer.InBuffer dst.data dst.ggmlNbytes b := by
        obtain ⟨b', hmem, hb', hin⟩ := (RpcServer.known_of_buffer hdst hb).buffer hdst
        obtain rfl := Option.some.inj (hb.symm.trans hb')
        exact ⟨hmem, hin⟩
      simp only [Option.some.injEq, exists_eq_left']
      split_ifs with hrefused hzero hnone
      · simp [SafeHandled, UInt64.not_le.2 hrefused]
      · simp [SafeHandled, hzero]
      · simp [SafeHandled, UInt64.not_lt.1 hrefused, hzero, Option.isNone_iff_eq_none.1 hnone]
      · have hfits := UInt64.not_lt.1 hrefused
        have hsome : src.buffer.isSome := Option.isSome_iff_ne_none.2 (by simpa using hnone)
        obtain ⟨b', hb'⟩ := Option.isSome_iff_exists.1 hsome
        obtain ⟨c, hc, -, hinSrc⟩ := (RpcServer.known_of_buffer hsrc hb').buffer hsrc
        have hsrcInside := inside_of_inBuffer hc hinSrc
        have hiff : SafeHandled (.ok (some (s, [⟨src.data, src.ggmlNbytes.toNat⟩,
            ⟨dst.data, src.ggmlNbytes.toNat⟩]))) ↔
            Access.Inside ⟨dst.data, src.ggmlNbytes.toNat⟩ s.server := by
          simp [SafeHandled, hsrcInside]
        rw [hiff]
        simp only [hfits, hzero, hsome, true_and, ne_eq, not_false_eq_true, forall_const]
        exact copy_inside_iff hmem hin hfits
  · push Not at h
    exact iff_of_true (copyTensor_safe_of_none h) fun src dst hsrc hdst =>
      absurd hdst (h src dst hsrc)

/-! ## Graphs -/

namespace RpcServer

variable {server : RpcServer} {tensors : List RpcTensor} {ids : List UInt64} {id k : UInt64}

/-- One tensor of a message names another. -/
def NamesIn (tensors : List RpcTensor) (a b : UInt64) : Prop :=
  ∃ tensor, findTensor tensors a = some tensor ∧ some b ∈ linkIds tensor

/-- Every tensor that is named below the id is in the message, with a type. -/
def Resolves (tensors : List RpcTensor) (id : UInt64) : Prop :=
  ∀ k, ReflTransGen (NamesIn tensors) id k →
    ∃ tensor, findTensor tensors k = some tensor ∧ tensor.type.toNat < 39

/-- The tensor names a buffer of the server, and the sum of its size does not wrap. -/
def Measured (server : RpcServer) (tensor : RpcTensor) : Prop :=
  server.Known tensor ∧
    ∀ h : tensor.type.toNat < 39, (server.newTensor ⟨_, h⟩ tensor).extent < 2 ^ 64

/-- What a graph must meet: an id 0 among the nodes is that of a tensor, and if the graph is built,
its tensors are measured. -/
def GraphOk (server : RpcServer) (input : List UInt8) : Prop :=
  ∀ ids tensors rest, graphMessage.read input = some ((ids, tensors), rest) →
    (0 ∈ ids → Resolves tensors 0) ∧
      ((∀ id ∈ ids, Resolves tensors id) → ∀ id ∈ ids, ∀ k,
        ReflTransGen (NamesIn tensors) id k →
          ∀ tensor, findTensor tensors k = some tensor → server.Measured tensor)

theorem deserializeTensor_eq_none {tensor : RpcTensor} :
    server.deserializeTensor tensor = .ok none ↔ ¬ tensor.type.toNat < 39 := by
  rw [deserializeTensor]
  split_ifs with h
  · refine iff_of_false ?_ (not_not.2 h)
    dsimp only
    split_ifs <;> simp
  · simp [h]

theorem NamesIn.of_names
    (h : ReflTransGen (Names (server.makeNode tensors) fun d => linkIds d.1) id k) :
    ReflTransGen (NamesIn tensors) id k :=
  h.lift (fun k => k) fun _ _ ⟨d, hd, hmem⟩ => ⟨d.1, (makeNode_eq_some.1 hd).1, hmem⟩

/-- A tensor that resolves is not refused. -/
theorem Resolves.makeNode_ne_none (h : Resolves tensors id)
    (hk : ReflTransGen (Names (server.makeNode tensors) fun d => linkIds d.1) id k) :
    server.makeNode tensors k ≠ .ok none := by
  obtain ⟨tensor, hfind, htype⟩ := h k (NamesIn.of_names hk)
  rw [makeNode_of_findTensor hfind, ne_eq, Except.map_eq_ok]
  rintro ⟨o, hdes, ho⟩
  obtain rfl := Option.map_eq_none_iff.1 ho
  exact deserializeTensor_eq_none.1 hdes htype

/-- Every node is made where an id 0 resolves. -/
theorem createNodes_nodes : ∀ {ids nodes made graph}, (0 ∈ ids → Resolves tensors 0) →
    server.createNodes tensors ids nodes made = .ok (some graph) → none ∉ nodes →
      none ∉ graph.nodes
  | [], nodes, made, graph, _, h, hnodes => by
    obtain rfl := Option.some.inj (Except.ok.inj h)
    exact hnodes
  | id :: ids, nodes, made, graph, hzero, h, hnodes => by
    obtain ⟨⟨r, made₁⟩, hid, h⟩ := Except.bind_eq_ok.1 h
    split_ifs at h with hrefused
    · simp at h
    · refine createNodes_nodes (fun h0 => hzero (List.mem_cons_of_mem _ h0)) h ?_
      rcases r with _ | i
      · have h0 : id = 0 := by simpa using hrefused
        subst h0
        obtain ⟨k, hk, hnone⟩ := (createNode_ends server tensors made 0).of_ok hid rfl
        exact absurd hnone ((hzero (List.mem_cons_self ..)).makeNode_ne_none hk)
      · simpa using hnodes

/-- What resolves below the nodes is made, where every node is. -/
theorem mem_ids_of_makes {done : Prop} {made : Made UInt64 ServerTensor} (hdone : done)
    (hmakes : server.Makes tensors done ids .empty made) (hid : id ∈ made.ids)
    (hk : ReflTransGen (NamesIn tensors) id k) : k ∈ made.ids := by
  have hmakes : server.Makes tensors True ids .empty made :=
    hmakes.mono (fun _ => hdone) fun _ h => h
  induction hk with
  | refl => exact hid
  | @tail a b _ hab ih =>
    obtain ⟨j, hj, hget⟩ := List.mem_iff_getElem.1 ih
    obtain ⟨d, ptrs, hd, -, -⟩ := hmakes.made j a (Nat.zero_le _)
      (hget ▸ List.getElem?_eq_getElem hj)
    obtain ⟨tensor, hfind, hmem⟩ := hab
    refine hmakes.closed ih (.single ⟨d, hd, ?_⟩)
    rwa [← Option.some.inj ((makeNode_eq_some.1 hd).1.symm.trans hfind)] at hmem

/-- The memory of a measured tensor lies in its buffer. -/
theorem Measured.inside {tensor : RpcTensor} {t : ServerTensor} (h : server.Measured tensor)
    (hdes : server.deserializeTensor tensor = .ok (some t)) :
    Access.Inside ⟨t.data, t.extent⟩ server := by
  obtain ⟨b, hmem, -, hin⟩ := h.1.buffer hdes
  have hext : t.extent < 2 ^ 64 := by
    obtain ⟨htype, rfl, -⟩ := deserializeTensor_eq_some.1 hdes
    exact h.2 htype
  rw [← Nat.mod_eq_of_lt hext, ← GgmlNode.toNat_ggmlNbytes (fits_of_deserialized hdes)]
  exact inside_of_inBuffer hmem hin

theorem createNodes_ne_pointer : ∀ {ids nodes made},
    server.createNodes tensors ids nodes made ≠ .error .pointer
  | [], nodes, made => by simp [createNodes]
  | id :: ids, nodes, made => by
    rw [createNodes]
    rcases hid : server.createNode tensors made id with f | ⟨r, made₁⟩
    · rintro ⟨⟩
      obtain ⟨k, -, hk⟩ := (createNode_ends server tensors made id).of_error hid
      rw [makeNode] at hk
      rcases hfind : findTensor tensors k with _ | tensor
      · simp [hfind] at hk
      · rw [hfind] at hk
        rcases hdes : server.deserializeTensor tensor with f | o
        · simp only [hdes, Except.map, Except.error.injEq] at hk
          exact deserializeTensor_ne_pointer (hk ▸ hdes)
        · simp [hdes, Except.map] at hk
    · rw [Except.ok_bind_eq]
      split_ifs
      · simp
      · exact createNodes_ne_pointer

end RpcServer

theorem graphCompute_safe {s : RpcState} {input : List UInt8}
    (hok : s.server.GraphOk input) : SafeHandled (s.graphCompute input) := by
  rw [RpcState.graphCompute]
  rcases hread : graphMessage.read input with _ | ⟨⟨ids, tensors⟩, rest⟩
  · have hbuild : s.server.buildGraph input = .ok none := by rw [RpcServer.buildGraph, hread]
    simp [SafeHandled, hbuild, Except.ok_bind_eq]
  · have hbuild : s.server.buildGraph input = s.server.createNodes tensors ids [] .empty := by
      rw [RpcServer.buildGraph, hread]
    obtain ⟨hzero, hmeasured⟩ := hok ids tensors rest hread
    rw [hbuild]
    rcases hgraph : s.server.createNodes tensors ids [] .empty with f | _ | graph
    · rintro rfl
      exact RpcServer.createNodes_ne_pointer hgraph
    · simp [SafeHandled, Except.ok_bind_eq]
    · have hnodes := RpcServer.createNodes_nodes hzero hgraph (by simp)
      obtain ⟨ptrs, made, rfl, hmakes, hptrs⟩ := RpcServer.createNodes_makes hgraph
      have hnone : none ∉ ptrs := by simpa using hnodes
      have hid : ∀ id ∈ ids, id ∈ made.ids := by
        intro id hid
        obtain ⟨i, hi, rfl⟩ := List.mem_iff_getElem.1 hid
        have hi' := hptrs.length_eq ▸ hi
        obtain ⟨j, hj⟩ := Option.ne_none_iff_exists'.1 fun h0 =>
          hnone (h0 ▸ List.getElem_mem hi')
        exact List.mem_of_getElem? (hptrs.get hi hi' j hj)
      have hresolves : ∀ id ∈ ids, RpcServer.Resolves tensors id := by
        intro id hidmem k hk
        obtain ⟨j, hj, hget⟩ := List.mem_iff_getElem.1
          (RpcServer.mem_ids_of_makes hnone hmakes (hid id hidmem) hk)
        obtain ⟨d, links, hd, -, -⟩ := hmakes.made j k (Nat.zero_le _)
          (hget ▸ List.getElem?_eq_getElem hj)
        obtain ⟨hfind, hdes⟩ := RpcServer.makeNode_eq_some.1 hd
        obtain ⟨htype, -⟩ := RpcServer.deserializeTensor_eq_some.1 hdes
        exact ⟨d.1, hfind, htype⟩
      rw [Except.ok_bind_eq]
      simp only [if_neg hnodes, SafeHandled, Except.ends_ok, Option.mem_some_iff, forall_eq',
        List.mem_map, forall_exists_index, and_imp, forall_apply_eq_imp_iff₂]
      intro t ht
      obtain ⟨k, hk, tensor, t₀, links, hfind, hdes, rfl⟩ := hmakes.deserialized ht
      obtain hk | ⟨r, hr, hrk⟩ := hmakes.below k hk
      · simp [Made.empty] at hk
      · have hin := hmeasured hresolves r hr k (RpcServer.NamesIn.of_names hrk) tensor hfind
        have hinside := hin.inside hdes
        exact hinside

/-! ## Requests -/

/-- What a request must meet; the ones not named meet nothing. -/
def RequestOk (s : RpcState) (r : RpcRequest) : Prop :=
  match RpcCmd.ofCode r.cmd with
  | some .setTensor => ∀ tensor offset data,
    (rpcTensor.pair uint64).read r.input = some ((tensor, offset), data) → s.server.Known tensor
  | some .setTensorHash => ∀ tensor offset hash,
    (rpcTensor.pair (uint64.pair uint64)).read r.input = some ((tensor, offset, hash), []) →
      (s.getCachedFile hash).isSome → s.server.Known tensor
  | some .getTensor => ∀ tensor offset size,
    (rpcTensor.pair (uint64.pair uint64)).read r.input = some ((tensor, offset, size), []) →
      s.server.Known tensor
  | some .copyTensor => ∀ src dst,
    (rpcTensor.pair rpcTensor).read r.input = some ((src, dst), []) → CopyOk s.server src dst
  | some .graphCompute => s.server.GraphOk r.input
  | _ => True

section Requests

variable {s : RpcState} {r : RpcRequest}

theorem recvMsg_safe {α : Type} {f : Format α} {input : List UInt8} {handle : α → Handled}
    (h : ∀ a, f.read input = some (a, []) → SafeHandled (handle a)) :
    SafeHandled (recvMsg f input handle) := by
  rw [recvMsg]
  split
  · exact h _ ‹_›
  · simp [SafeHandled]

theorem save_server (data : List UInt8) : (s.save data).server = s.server := by
  rw [RpcState.save]
  split
  · rfl
  · split_ifs <;> rfl

theorem allocBuffer_safe (answer : Option ServerBuffer) : SafeHandled (s.allocBuffer answer) := by
  rcases answer with _ | b <;> simp [SafeHandled, RpcState.allocBuffer]

theorem freeBuffer_safe (ptr : UInt64) : SafeHandled (s.freeBuffer ptr) := by
  rw [RpcState.freeBuffer]
  rcases s.server.findBuffer ptr with _ | b <;> simp [SafeHandled]

theorem bufferGetBase_safe (ptr : UInt64) : SafeHandled (s.bufferGetBase ptr) := by
  rw [RpcState.bufferGetBase]
  rcases s.server.findBuffer ptr with _ | b <;> simp [SafeHandled]

theorem bufferClear_safe (ptr : UInt64) : SafeHandled (s.bufferClear ptr) := by
  rw [RpcState.bufferClear]
  rcases hb : s.server.findBuffer ptr with _ | b
  · simp [SafeHandled]
  · simp only [SafeHandled, Except.ends_ok, Option.mem_some_iff, forall_eq', List.mem_singleton,
      forall_eq]
    exact .inr ⟨b, RpcServer.mem_of_findBuffer hb, le_rfl, le_rfl⟩

theorem inspectTensor_safe (tensor : RpcTensor) : SafeHandled (s.inspectTensor tensor) := by
  rw [RpcState.inspectTensor]
  rcases h : s.server.deserializeTensor tensor with f | _ | t
  · rintro rfl
    exact RpcServer.deserializeTensor_ne_pointer h
  · simp [SafeHandled, Except.ok_bind_eq]
  · simp [SafeHandled, Except.ok_bind_eq]

/-- A request that meets its condition is safe. -/
theorem serve_safe (hok : RequestOk s r) : SafeHandled (s.serve r) := by
  have hempty : SafeHandled (if r.input = [] then .ok (some (s, [])) else .ok none) := by
    split_ifs <;> simp [SafeHandled]
  rw [RequestOk] at hok
  rw [RpcState.serve]
  rcases hcmd : RpcCmd.ofCode r.cmd with _ | cmd
  · simp [SafeHandled]
  · rw [hcmd] at hok
    cases cmd with
    | allocBuffer => exact recvMsg_safe fun _ _ => allocBuffer_safe r.answer
    | getAlignment | getMaxSize | getDeviceMemory => exact hempty
    | bufferGetBase => exact recvMsg_safe fun ptr _ => bufferGetBase_safe ptr
    | freeBuffer => exact recvMsg_safe fun ptr _ => freeBuffer_safe ptr
    | bufferClear => exact recvMsg_safe fun q _ => bufferClear_safe q.1
    | setTensor =>
      simp only [RpcState.setTensor]
      rcases hread : (rpcTensor.pair uint64).read r.input with _ | ⟨⟨tensor, offset⟩, data⟩
      · simp [SafeHandled]
      · exact (accessTensor_safe (save_server data)).2 (hok tensor offset data hread)
    | setTensorHash =>
      refine recvMsg_safe fun ⟨tensor, offset, hash⟩ hread => ?_
      simp only [RpcState.setTensorHash]
      rcases hfile : s.getCachedFile hash with _ | file
      · simp [SafeHandled]
      · exact (accessTensor_safe rfl).2 (hok tensor offset hash hread (by rw [hfile]; rfl))
    | getTensor =>
      refine recvMsg_safe fun ⟨tensor, offset, size⟩ hread => ?_
      exact (accessTensor_safe rfl).2 (hok tensor offset size hread)
    | copyTensor =>
      exact recvMsg_safe fun ⟨src, dst⟩ hread => copyTensor_safe.2 (hok src dst hread)
    | graphCompute => exact graphCompute_safe hok
    | initTensor | getAllocSize => exact recvMsg_safe fun tensor _ => inspectTensor_safe tensor
    | hello => simp [SafeHandled]

end Requests

/-! ## Runs -/

namespace RpcConn

/-- No request has read a pointer that is null or foreign, and the memory that the last one has
handed over lies in the buffers. -/
def Safe (c : RpcConn) : Prop :=
  c.status ≠ .fault .pointer ∧ ∀ a ∈ c.accesses, a.Inside c.state.server

theorem next_safe {c : RpcConn} {r : RpcRequest} (h : SafeHandled (c.state.serve r)) :
    (c.next r).Safe := by
  rw [next]
  rcases hserve : c.state.serve r with f | _ | ⟨state, accesses⟩ <;> rw [hserve] at h
  · exact ⟨fun hf => h (ConnStatus.fault.inj hf), by simp⟩
  · simp [Safe]
  · exact ⟨by simp, h _ rfl⟩

/-- Where every request of a run meets its condition, the connection is safe all along. -/
theorem stays_safe {c₀ c : RpcConn} {rs : List RpcRequest} (hstart : c₀.Start)
    (hrun : Run (Guarded (fun c r => RequestOk c.state r) Step) c₀ rs c) : c.Safe := by
  refine hrun.invariant (I := Safe) (fun c r c' _ hstep => ?_) ?_
  · obtain ⟨hok, -, rfl⟩ := hstep
    exact next_safe (serve_safe hok)
  · obtain ⟨-, haccesses, hstatus⟩ := hstart
    simp [Safe, haccesses, hstatus]

/-- A connection behind HELLO, without a cache. -/
def fresh : RpcConn := ⟨⟨⟨[], .nil⟩, none⟩, [], .serving⟩

theorem seven_ne_zero : (7 : UInt64) ≠ 0 := by decide

/-- A buffer of 64 bytes is asked for. -/
def allocRequest : RpcRequest :=
  ⟨0, uint64.write 64, some ⟨7, 4096, 64, seven_ne_zero, by decide⟩⟩

/-- Data for a tensor of that buffer. -/
def setRequest : RpcRequest :=
  ⟨6, (rpcTensor.pair uint64).write (firstTensor, 0) ++ List.replicate 16 1, none⟩

theorem stays_safe_set_tensor : ((fresh.next allocRequest).next setRequest).Safe := by
  have hserving : (fresh.next allocRequest).status = .serving := by decide
  have hok : RequestOk (fresh.next allocRequest).state setRequest := by
    intro tensor offset data hread
    have hwritten := (rpcTensor.pair uint64).read_write (a := (firstTensor, 0))
      ⟨rpcTensor_valid _, uint64_valid _⟩ (List.replicate 16 1)
    obtain ⟨⟨rfl, -⟩, -⟩ : (tensor = _ ∧ _) ∧ _ := by
      simpa only [Prod.mk.injEq] using Option.some.inj (hread.symm.trans hwritten)
    intro _ _
    decide
  have hfirst : RequestOk fresh.state allocRequest := trivial
  exact stays_safe ⟨rfl, rfl, rfl⟩ (.cons ⟨hfirst, rfl, rfl⟩ (.single ⟨hok, hserving, rfl⟩))

/-- Every connection is safe whatever a client sends. -/
def SafetyLaw : Prop :=
  ∀ (c₀ c : RpcConn) (rs : List RpcRequest), c₀.Start → Run Step c₀ rs c → c.Safe

/-- A tensor of zeros has a type and no buffer. -/
theorem not_safetyLaw : ¬ SafetyLaw := by
  intro h
  have hfault : (fresh.next ⟨6, List.replicate 304 0, none⟩).status = .fault .pointer := by
    decide +kernel
  exact (h fresh _ [⟨6, List.replicate 304 0, none⟩] ⟨rfl, rfl, rfl⟩ (.single ⟨rfl, rfl⟩)).1 hfault

end RpcConn

end LamaServer

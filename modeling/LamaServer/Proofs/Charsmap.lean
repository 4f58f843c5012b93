import LamaServer.Proofs.Ugm

/-!
# The bounds of the charsmap

The charsmap comes from the model file and may be any bytes. Each index that the array is read at
should be below the number of its entries, each replacement should end within the bytes, and what
cannot be read should be thrown. `get_node` lets the entry behind the last one be read, a
replacement is read up to a NUL that need not be there, and the size is read before it is known that
there are four bytes.
-/

namespace LamaServer

/-! ## What is read -/

namespace LlmTokenizerUgm

variable (tok : LlmTokenizerUgm)

/-- What `get_node` is called with at a byte: the child, and for a leaf the node of its value. -/
def childCalls (nodeIndex : UInt32) (c : UInt8) : List UInt32 :=
  if c = 0 then []
  else
    let index := nodeIndex ^^^ c.toUInt32
    index :: match tok.getLcheck index, tok.getLeaf index, tok.getBase index with
      | .ok lcheck, .ok true, .ok base => if lcheck = c.toUInt32 then [index ^^^ base] else []
      | _, _, _ => []

def xcdaCalls (nodeIndex : UInt32) : Text → List UInt32
  | [] => []
  | c :: input => tok.childCalls nodeIndex c ++ match tok.xcdaChild nodeIndex c with
    | .ok (some (next, _)) => xcdaCalls next input
    | _ => []

/-- What `normalize_prefix` calls `get_node` with. -/
def nodeCalls (input : Text) : List UInt32 :=
  if input = [] ∨ 0 < tok.userDefinedTokenMatcher.getLongestPrefix input ∨
    tok.xcdaArraySize = 0 then []
  else 0 :: match tok.getBase 0 with
    | .ok root => tok.xcdaCalls root input
    | .error _ => []

/-- The bytes lead from a node to a node. -/
def WalksFrom : UInt32 → Text → UInt32 → Prop
  | nodeIndex, [], last => nodeIndex = last
  | nodeIndex, c :: p, last => ∃ next w, tok.xcdaChild nodeIndex c = .ok (some (next, w)) ∧
    WalksFrom next p last

end LlmTokenizerUgm

namespace UgmVocab

open LlmTokenizerUgm

/-- Nothing is read outside of the array and the bytes: an index either is thrown for or below the
number of entries, and a normalization that does not return has thrown. -/
structure CharsmapSafe (v : UgmVocab) : Prop where
  built : v.tokenizer ≠ .error .undefined
  nodes : ∀ tok, v.tokenizer = .ok tok → ∀ text input,
    Reaches (fun input res => tok.normalizePrefix input = .ok res) text input →
    ∀ index ∈ tok.nodeCalls input, index.toNat ≤ tok.xcdaArraySize →
      index.toNat < tok.xcdaArraySize
  result : ∀ tok, v.tokenizer = .ok tok → ∀ text e, v.normalize tok text = .error e →
    ∃ what, e = .runtimeError what

/-- The condition on an array and its replacements, as to the bytes that no user-defined token
starts with: no walk from the root comes to the entry behind the last one, and a replacement that a
walk comes to has a NUL behind it. -/
structure ArrayFits (v : UgmVocab) (tok : LlmTokenizerUgm) : Prop where
  nodes : 0 < tok.xcdaArraySize → ∀ root, tok.getBase 0 = .ok root → ∀ p last c,
    tok.WalksFrom root p last → ¬ v.StartsToken ((p ++ [c]).take 1) →
    ∀ index ∈ tok.childCalls last c, index.toNat ≠ tok.xcdaArraySize
  replacements : ∀ p value, tok.Maps value p → ¬ v.StartsToken (p.take 1) →
    value.toNat < tok.prefixReplacementsSize →
    0 ∈ tok.precompiledCharsmap.drop (tok.prefixReplacements + value.toNat)

/-- The condition on a charsmap. -/
def CharsmapFits (v : UgmVocab) : Prop :=
  (v.precompiledCharsmap = [] ∨ 4 ≤ v.precompiledCharsmap.length) ∧
    ∀ tok, v.tokenizer = .ok tok → v.ArrayFits tok

end UgmVocab

/-! ## The array -/

theorem readU32_of_le {bytes : Text} {offset : Nat} (h : offset + 4 ≤ bytes.length) :
    ∃ w, readU32 bytes offset = .ok w := by
  have hlen : 4 ≤ (bytes.drop offset).length := by
    rw [List.length_drop]
    omega
  rw [readU32]
  generalize bytes.drop offset = bytes at hlen
  rcases bytes with _ | ⟨b0, _ | ⟨b1, _ | ⟨b2, _ | ⟨b3, rest⟩⟩⟩⟩
  · simp at hlen
  · simp at hlen
  · simp at hlen
  · simp at hlen
  · exact ⟨_, rfl⟩

theorem readU32_of_lt {bytes : Text} (h : bytes.length < 4) :
    readU32 bytes 0 = .error .undefined := by
  rw [readU32, List.drop_zero]
  rcases bytes with _ | ⟨b0, _ | ⟨b1, _ | ⟨b2, _ | ⟨b3, rest⟩⟩⟩⟩
  · rfl
  · rfl
  · rfl
  · rfl
  · simp only [List.length_cons] at h
    omega

namespace UgmVocab

variable {v : UgmVocab} {tok : LlmTokenizerUgm}

/-- The array that the constructor makes lies within the charsmap. -/
theorem tokenizer_array (h : v.tokenizer = .ok tok) :
    tok.xcdaArray + 4 * tok.xcdaArraySize ≤ tok.precompiledCharsmap.length := by
  unfold tokenizer at h
  dsimp only at h
  split_ifs at h
  · cases h
    exact Nat.zero_le _
  · obtain ⟨size, -, h⟩ := Except.bind_eq_ok.1 h
    split_ifs at h with hsize
    cases h
    dsimp only
    omega

theorem tokenizer_undefined : v.tokenizer ≠ .error .undefined ↔
    v.precompiledCharsmap = [] ∨ 4 ≤ v.precompiledCharsmap.length := by
  unfold tokenizer
  dsimp only
  split_ifs with hnil
  · simp [hnil]
  · simp only [hnil, false_or]
    by_cases hlen : 4 ≤ v.precompiledCharsmap.length
    · obtain ⟨size, hsize⟩ := readU32_of_le (Nat.zero_add 4 ▸ hlen)
      rw [hsize, Except.ok_bind_eq]
      split_ifs <;> simp [hlen, pure, Except.pure]
    · rw [readU32_of_lt (Nat.lt_of_not_le hlen)]
      simp [hlen, bind, Except.bind]

end UgmVocab

namespace LlmTokenizerUgm

variable {tok : LlmTokenizerUgm} {index nodeIndex last : UInt32} {c : UInt8} {p r input : Text}
  {e : UgmError}

theorem getNode_of_lt (harray : tok.xcdaArray + 4 * tok.xcdaArraySize ≤
      tok.precompiledCharsmap.length) (h : index.toNat < tok.xcdaArraySize) :
    ∃ w, tok.getNode index = .ok w := by
  rw [getNode, if_neg (by omega)]
  exact readU32_of_le (by omega)

/-- Besides the entry behind the last one, what cannot be read is thrown for. -/
theorem getNode_error (harray : tok.xcdaArray + 4 * tok.xcdaArraySize ≤
      tok.precompiledCharsmap.length) (h : index.toNat ≠ tok.xcdaArraySize)
    (he : tok.getNode index = .error e) : ∃ what, e = .runtimeError what := by
  rcases Nat.lt_or_gt_of_ne h with hlt | hgt
  · obtain ⟨w, hw⟩ := getNode_of_lt harray hlt
    cases hw.symm.trans he
  · rw [getNode, if_pos hgt] at he
    cases he
    exact ⟨_, rfl⟩

theorem get_of_node {w : UInt32} (h : tok.getNode index = .ok w) :
    tok.getLcheck index = .ok (w &&& (((1 : UInt32) <<< 31) ||| 0xff)) ∧
    tok.getLeaf index = .ok (decide ((w >>> 8) &&& 1 ≠ 0)) ∧
    tok.getBase index = .ok ((w >>> 10) <<< ((w &&& ((1 : UInt32) <<< 9)) >>> 6)) := by
  rw [getLcheck, getLeaf, getBase, h]
  exact ⟨rfl, rfl, rfl⟩

theorem get_of_error (h : tok.getNode index = .error e) : tok.getLcheck index = .error e ∧
    tok.getBase index = .error e ∧ tok.getValue index = .error e := by
  rw [getLcheck, getBase, getValue, h]
  exact ⟨rfl, rfl, rfl⟩

theorem xcdaChild_error (harray : tok.xcdaArray + 4 * tok.xcdaArraySize ≤
      tok.precompiledCharsmap.length)
    (h : ∀ index ∈ tok.childCalls nodeIndex c, index.toNat ≠ tok.xcdaArraySize)
    (he : tok.xcdaChild nodeIndex c = .error e) : ∃ what, e = .runtimeError what := by
  rw [xcdaChild] at he
  rw [childCalls] at h
  split_ifs at h he with hc
  · cases he
  dsimp only at h he
  rw [List.forall_mem_cons] at h
  set index := nodeIndex ^^^ c.toUInt32
  rcases hnode : tok.getNode index with e' | w
  · rw [(get_of_error hnode).1] at he
    cases he
    exact getNode_error harray h.1 hnode
  · obtain ⟨hlcheck, hleaf, hbase⟩ := get_of_node hnode
    rw [hlcheck, hleaf, hbase] at h
    rw [hlcheck, Except.ok_bind_eq] at he
    split_ifs at he with hne
    · cases he
    rw [hleaf, hbase, Except.ok_bind_eq, Except.ok_bind_eq] at he
    split_ifs at he with hleaf'
    · -- the node of the value
      rw [hleaf'] at h
      dsimp only at h
      rw [if_pos (not_not.1 hne), List.forall_mem_singleton] at h
      rcases hvalue : tok.getNode (index ^^^ _) with e' | w'
      · rw [(get_of_error hvalue).2.2] at he
        cases he
        exact getNode_error harray h.2 hvalue
      · rw [getValue, hvalue] at he
        cases he
    · cases he

/-- The calls of a loop are those at the bytes that a walk comes to. -/
theorem mem_xcdaCalls : ∀ {input : Text} {nodeIndex : UInt32},
    index ∈ tok.xcdaCalls nodeIndex input ↔ ∃ p c r last, input = p ++ c :: r ∧
      tok.WalksFrom nodeIndex p last ∧ index ∈ tok.childCalls last c
  | [], nodeIndex => by simp [xcdaCalls]
  | d :: input, nodeIndex => by
    rw [xcdaCalls, List.mem_append]
    constructor
    · rintro (h | h)
      · exact ⟨[], d, input, nodeIndex, rfl, rfl, h⟩
      · rcases hchild : tok.xcdaChild nodeIndex d with e | (_ | ⟨next, w⟩) <;> rw [hchild] at h
        · cases h
        · cases h
        · obtain ⟨p, c, r, last, rfl, hwalk, h⟩ := mem_xcdaCalls.1 h
          exact ⟨d :: p, c, r, last, rfl, ⟨next, w, hchild, hwalk⟩, h⟩
    · rintro ⟨_ | ⟨d', p⟩, c, r, last, hinput, hwalk, h⟩
      · obtain ⟨rfl, rfl⟩ := List.cons.inj hinput
        obtain rfl := hwalk
        exact .inl h
      · obtain ⟨rfl, rfl⟩ := List.cons.inj hinput
        obtain ⟨next, w, hchild, hwalk⟩ := hwalk
        rw [hchild]
        exact .inr (mem_xcdaCalls.2 ⟨p, c, r, last, rfl, hwalk, h⟩)

theorem xcdaLoop_error : ∀ {input : Text} {nodeIndex : UInt32} {n : Nat} {longest : Nat × UInt32},
    tok.xcdaLoop nodeIndex n longest input = .error e → ∃ p c r last, input = p ++ c :: r ∧
      tok.WalksFrom nodeIndex p last ∧ tok.xcdaChild last c = .error e
  | [], _, _, _, h => nomatch h
  | c :: input, nodeIndex, n, longest, h => by
    rw [xcdaLoop] at h
    rcases hchild : tok.xcdaChild nodeIndex c with e' | (_ | ⟨next, _ | w⟩) <;> rw [hchild] at h
    · cases h
      exact ⟨[], c, input, nodeIndex, rfl, rfl, hchild⟩
    · cases h
    · obtain ⟨p, c', r, last, rfl, hwalk, hc⟩ := xcdaLoop_error h
      exact ⟨c :: p, c', r, last, rfl, ⟨next, _, hchild, hwalk⟩, hc⟩
    · obtain ⟨p, c', r, last, rfl, hwalk, hc⟩ := xcdaLoop_error h
      exact ⟨c :: p, c', r, last, rfl, ⟨next, _, hchild, hwalk⟩, hc⟩

theorem MapsFrom.stays {value : UInt32} : ∀ {p : Text} {nodeIndex : UInt32},
    tok.MapsFrom value nodeIndex p → tok.StaysFrom nodeIndex p
  | [], _, _ => trivial
  | c :: p, nodeIndex, h => by
    obtain ⟨next, w, hchild, hcase⟩ := h.child
    refine ⟨_, hchild, fun next' w' heq => ?_⟩
    obtain ⟨rfl, rfl⟩ := Prod.mk.inj (Option.some.inj heq)
    rcases hcase with ⟨rfl, -⟩ | h
    · trivial
    · exact h.stays

/-- A text of the charsmap is found in itself. -/
theorem Maps.longestPrefix {value : UInt32} (h : tok.Maps value p) :
    tok.longestPrefix p = .ok (p.length, value) := by
  have hne : p ≠ [] := by
    obtain ⟨-, root, -, h⟩ := h
    exact h.ne_nil
  have hstays : tok.Stays p := fun _ => by
    obtain ⟨-, root, hroot, h⟩ := h
    exact ⟨root, hroot, h.stays⟩
  have hself : Longest (fun q => ∃ value, tok.Maps value q) p p :=
    ⟨hne, List.prefix_refl p, ⟨value, h⟩, fun q hq _ => hq.length_le⟩
  obtain ⟨length, value', hok, hcase⟩ := (longestPrefix_spec tok p).1 hstays
  rcases hcase with ⟨-, hnone⟩ | ⟨q, rfl, hq, hvalue⟩
  · exact (hnone p hself).elim
  · obtain rfl := hself.unique hq
    rw [hok, h.unique hvalue]

theorem normalizePrefix_consumed {res : NormalizationResult} (hinput : input ≠ [])
    (h : tok.normalizePrefix input = .ok res) : 0 < res.consumedInput := by
  rw [normalizePrefix, if_neg hinput] at h
  dsimp only at h
  split_ifs at h with huser
  · cases h
    exact huser
  · obtain ⟨longest, -, h⟩ := Except.bind_eq_ok.1 h
    split_ifs at h with hpos
    · obtain ⟨text, -, h⟩ := Except.bind_eq_ok.1 h
      cases h
      exact hpos
    · rcases hcpt : unicodeCptFromUtf8 input with _ | ⟨cpt, n⟩ <;> rw [hcpt] at h <;> cases h
      · exact Nat.one_pos
      · obtain ⟨rest, -, hdec⟩ := decodes_of_fromUtf8 hcpt
        rcases n with _ | n
        · rw [List.take_zero] at hdec
          exact hdec.elim
        · exact Nat.succ_pos n

end LlmTokenizerUgm

/-! ## The whole text -/

namespace UgmVocab

open LlmTokenizerUgm

variable {v : UgmVocab} {tok : LlmTokenizerUgm} {input p : Text} {e : UgmError}

theorem take_one_eq {p input : Text} (h : p <+: input) (hp : p ≠ []) :
    p.take 1 = input.take 1 := by
  obtain ⟨c, p, rfl⟩ := List.exists_cons_of_ne_nil hp
  obtain ⟨r, rfl⟩ := h
  rfl

theorem StartsToken.start {q : Text} (h : v.StartsToken p) (hq : q <+: p) : v.StartsToken q := by
  obtain ⟨text, htext, hp⟩ := h
  exact ⟨text, htext, hq.trans hp⟩

/-- The charsmap is asked where no user-defined token starts with the first byte. -/
theorem getLongestPrefix_eq_zero (h : v.tokenizer = .ok tok) (hinput : input ≠ []) :
    tok.userDefinedTokenMatcher.getLongestPrefix input = 0 ↔ ¬ v.StartsToken (input.take 1) := by
  obtain ⟨hpos, hzero⟩ := longest_startsToken h
    (Eq.refl (tok.userDefinedTokenMatcher.getLongestPrefix input))
  constructor
  · intro hn
    exact hzero hn _ (List.take_prefix 1 input) (by simpa using hinput)
  · intro hno
    by_contra hne
    obtain ⟨-, hlongest⟩ := hpos (Nat.pos_of_ne_zero hne)
    refine hno (hlongest.holds.start ?_)
    exact List.take_prefix_take_left (Nat.one_le_iff_ne_zero.2 hne)

/-- Where the array fits, `normalize_prefix` does nothing but throw. -/
theorem ArrayFits.normalizePrefix_error (h : v.tokenizer = .ok tok) (hfits : v.ArrayFits tok)
    (hinput : input ≠ []) (he : tok.normalizePrefix input = .error e) :
    ∃ what, e = .runtimeError what := by
  have harray := tokenizer_array h
  rw [normalizePrefix, if_neg hinput] at he
  dsimp only at he
  split_ifs at he with huser
  have hno := (getLongestPrefix_eq_zero h hinput).1 (Nat.eq_zero_of_not_pos huser)
  rcases hlongest : tok.longestPrefix input with e' | ⟨length, value⟩ <;> rw [hlongest] at he
  · cases he
    rw [longestPrefix] at hlongest
    split_ifs at hlongest with hsize
    rcases hroot : tok.getBase 0 with e' | root <;> rw [hroot] at hlongest
    · have hzero : (0 : UInt32).toNat < tok.xcdaArraySize := hsize
      obtain ⟨w, hw⟩ := getNode_of_lt harray hzero
      cases hroot.symm.trans (get_of_node hw).2.2
    · obtain ⟨p, c, r, last, rfl, hwalk, hchild⟩ := xcdaLoop_error hlongest
      refine xcdaChild_error harray (hfits.nodes hsize root hroot p last c hwalk ?_) hchild
      rwa [take_one_eq ⟨r, (List.append_cons p c r).symm⟩ (by simp)]
  · rw [Except.ok_bind_eq] at he
    dsimp only at he
    split_ifs at he with hpos
    · have hstays : tok.Stays input := by
        by_contra hno
        obtain ⟨e', he'⟩ := (longestPrefix_spec tok input).2 hno
        cases hlongest.symm.trans he'
      obtain ⟨length', value', hok, hcase⟩ := (longestPrefix_spec tok input).1 hstays
      cases hlongest.symm.trans hok
      rcases hcase with ⟨rfl, -⟩ | ⟨p, -, hp, hvalue⟩
      · cases hpos
      have hno' : ¬ v.StartsToken (p.take 1) := by
        rwa [take_one_eq hp.start hp.ne_nil]
      rw [prefixReplacement] at he
      split_ifs at he with hsize
      · cases he
        exact ⟨_, rfl⟩
      · dsimp only at he
        rw [if_pos (hfits.replacements p value hvalue hno' (Nat.lt_of_not_le hsize))] at he
        cases he
    · rcases hcpt : unicodeCptFromUtf8 input with _ | ⟨cpt, n⟩ <;> rw [hcpt] at he <;> cases he

theorem ArrayFits.normalizeLoop_error (h : v.tokenizer = .ok tok) (hfits : v.ArrayFits tok) :
    ∀ {fuel : Nat} {input : Text} {st : Normalized}, input.length ≤ fuel →
      v.normalizeLoop tok fuel input st = .error e → ∃ what, e = .runtimeError what
  | _, [], _, _, he => by
    rw [normalizeLoop] at he
    cases he
  | fuel + 1, c :: input, st, hfuel, he => by
    have hne : c :: input ≠ [] := List.cons_ne_nil c input
    rw [normalizeLoop] at he
    rcases hres : tok.normalizePrefix (c :: input) with e' | res <;> rw [hres] at he
    · cases he
      exact hfits.normalizePrefix_error h hne hres
    · have hconsumed := normalizePrefix_consumed hne hres
      refine hfits.normalizeLoop_error h ?_ he
      rw [List.length_drop]
      omega
    · exact hne

/-- A charsmap is read safely exactly where it has its size, the walks stay within the array, and the
replacements end. -/
theorem charsmapSafe_iff (v : UgmVocab) : v.CharsmapSafe ↔ v.CharsmapFits := by
  constructor
  · intro hsafe
    refine ⟨tokenizer_undefined.1 hsafe.built, fun tok h => ⟨?_, ?_⟩⟩
    · intro hsize root hroot p last c hwalk hno index hindex heq
      have hne : p ++ [c] ≠ [] := by simp
      have hcalls : index ∈ tok.nodeCalls (p ++ [c]) := by
        rw [nodeCalls, if_neg (by simp [(getLongestPrefix_eq_zero h hne).2 hno, hsize.ne']), hroot]
        exact List.mem_cons_of_mem _ (mem_xcdaCalls.2 ⟨p, c, [], last, rfl, hwalk, hindex⟩)
      have := hsafe.nodes tok h (p ++ [c]) _ .start index hcalls heq.le
      omega
    · intro p value hmaps hno hsize
      by_contra hnul
      have hne : p ≠ [] := by
        obtain ⟨-, root, -, h⟩ := hmaps
        exact h.ne_nil
      have hcode : tok.normalizePrefix p = .error .undefined := by
        rw [normalizePrefix, if_neg hne, (getLongestPrefix_eq_zero h hne).2 hno,
          hmaps.longestPrefix]
        dsimp only
        rw [if_neg (Nat.lt_irrefl 0), Except.ok_bind_eq]
        dsimp only
        rw [if_pos (List.length_pos_iff.2 hne), prefixReplacement, if_neg (Nat.not_le.2 hsize),
          if_neg hnul]
        rfl
      have hloop : v.normalize tok p = .error .undefined := by
        obtain ⟨c, p, rfl⟩ := List.exists_cons_of_ne_nil hne
        rw [normalize, List.length_cons, normalizeLoop, hcode]
        · rfl
        · exact hne
      obtain ⟨what, hwhat⟩ := hsafe.result tok h p _ hloop
      cases hwhat
  · rintro ⟨hlen, hfits⟩
    refine ⟨tokenizer_undefined.2 hlen, fun tok h text input _ index hindex hle => ?_,
      fun tok h text e he => ?_⟩
    · rw [nodeCalls] at hindex
      split_ifs at hindex with hno
      · cases hindex
      simp only [not_or, Nat.not_lt, Nat.le_zero] at hno
      obtain ⟨hne, huser, hsize⟩ := hno
      have hpos := Nat.pos_of_ne_zero hsize
      rcases List.mem_cons.1 hindex with rfl | hindex
      · exact hpos
      rcases hroot : tok.getBase 0 with e | root <;> rw [hroot] at hindex
      · cases hindex
      obtain ⟨p, c, r, last, rfl, hwalk, hindex⟩ := mem_xcdaCalls.1 hindex
      refine lt_of_le_of_ne hle ((hfits tok h).nodes hpos root hroot p last c hwalk ?_ index hindex)
      rw [take_one_eq ⟨r, (List.append_cons p c r).symm⟩ (by simp)]
      exact (getLongestPrefix_eq_zero h hne).1 huser
    · rw [normalize] at he
      rcases hloop : v.normalizeLoop tok text.length text {} with e' | st <;> rw [hloop] at he
      · cases he
        exact (hfits tok h).normalizeLoop_error h (Nat.le_refl _) hloop
      · cases he

/-- An array of one entry, its root, that `a` leads on from to the entry behind it. -/
def shortCharsmap : UgmVocab where
  idToToken := []
  precompiledCharsmap := [4, 0, 0, 0, 0, 0x80, 1, 0, 0]

/-- At the text `a` four bytes are read where the charsmap has only one left. -/
theorem not_charsmapSafe : ¬ shortCharsmap.CharsmapSafe := fun h => by
  rcases htok : shortCharsmap.tokenizer with e | tok
  · cases htok
  · have hcode : shortCharsmap.normalize tok [0x61] = .error .undefined := by
      cases htok
      decide
    obtain ⟨what, hwhat⟩ := h.result tok htok [0x61] _ hcode
    cases hwhat

end UgmVocab

end LamaServer

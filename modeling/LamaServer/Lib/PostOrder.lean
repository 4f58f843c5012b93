import LamaServer.Lib.Except
import Mathlib.Data.List.Nodup
import Mathlib.Data.List.Perm.Subperm
import Mathlib.Logic.Relation

/-!
# Depth-first search in post-order

A search that marks a node before it goes through the node's children, and lists the node behind
them. In a graph without cycles the nodes that are marked but not listed yet are those that the
search is in the middle of, all of them above the node it is at, so that a marked child is listed
(`visit_spec`). The search keeps its marks and its list in a state of its own.
-/

namespace PostOrder

variable {α σ ε : Type*} {children : α → List α}

/-- Each node once, behind its children. -/
structure PostOrdered (children : α → List α) (out : List α) : Prop where
  nodup : out.Nodup
  closed : ∀ l a r, out = l ++ a :: r → ∀ b ∈ children a, b ∈ l

/-- `b` is a child of `a`. -/
def Child (children : α → List α) (a b : α) : Prop := b ∈ children a

/-- What can be reached from `a`. -/
abbrev Reaches (children : α → List α) : α → α → Prop := Relation.ReflTransGen (Child children)

def Acyclic (children : α → List α) : Prop :=
  ∀ a, ¬ Relation.TransGen (Child children) a a

theorem postOrdered_nil : PostOrdered children [] where
  nodup := List.nodup_nil
  closed l a r h := by simp at h

namespace PostOrdered

variable {out : List α} {a b : α}

theorem child_mem (h : PostOrdered children out) (ha : a ∈ out) (hb : b ∈ children a) : b ∈ out := by
  obtain ⟨l, r, rfl⟩ := List.append_of_mem ha
  exact List.mem_append_left _ (h.closed l a r rfl b hb)

theorem reaches_mem (h : PostOrdered children out) (ha : a ∈ out) (hab : Reaches children a b) :
    b ∈ out := by
  induction hab with
  | refl => exact ha
  | tail _ hbc ih => exact h.child_mem ih hbc

theorem concat (h : PostOrdered children out) (ha : a ∉ out) (hsub : ∀ b ∈ children a, b ∈ out) :
    PostOrdered children (out ++ [a]) where
  nodup := by
    rw [List.nodup_append]
    refine ⟨h.nodup, List.nodup_singleton _, fun b hb c hc hbc => ?_⟩
    rw [List.mem_singleton.1 hc] at hbc
    exact ha (hbc ▸ hb)
  closed l b r heq c hc := by
    rcases List.eq_nil_or_concat r with rfl | ⟨r, z, rfl⟩
    · obtain ⟨rfl, hb⟩ := List.append_inj' heq rfl
      exact hsub c (List.singleton_inj.1 hb ▸ hc)
    · rw [List.concat_eq_append, ← List.cons_append, ← List.append_assoc] at heq
      exact h.closed l b r (List.append_inj' heq rfl).1 c hc

end PostOrdered

/-- The search from a node, for a state that `enter` marks a node in, unless it is marked already,
`kids` finds its children in, and `leave` lists it in. The first argument bounds the depth. -/
def visit (kids : σ → α → List α) (enter : σ → α → Except ε (Option σ))
    (leave : σ → α → Except ε σ) (tooDeep : ε) : ℕ → σ → α → Except ε σ
  | 0, _, _ => .error tooDeep
  | n + 1, s, a => do
    match ← enter s a with
    | none => .ok s
    | some s => leave (← (kids s a).foldlM (visit kids enter leave tooDeep n) s) a

/-- What is known while a search goes on: `seen` are the marked nodes, `out` the listed ones. -/
structure Visiting (children : α → List α) (seen out : List α) : Prop where
  nodup : seen.Nodup
  ordered : PostOrdered children out
  sub : ∀ a ∈ out, a ∈ seen

/-- A search from `a` has marked and listed `new`. -/
structure Visited (children : α → List α) (a : α) (seen out seen' new : List α) : Prop where
  visiting : Visiting children seen' (out ++ new)
  mem_seen : ∀ b, b ∈ seen' ↔ b ∈ seen ∨ b ∈ new
  reached : ∀ b ∈ new, Reaches children a b
  fresh : ∀ b ∈ new, b ∉ seen

/-- How a state keeps the marks and the list, and when `enter` and `leave` throw. -/
structure Tracks (children : α → List α) (kids : σ → α → List α)
    (enter : σ → α → Except ε (Option σ)) (leave : σ → α → Except ε σ)
    (I : σ → List α → List α → Prop) (F : ε → List α → Prop) (bound : ℕ) : Prop where
  kids_eq : ∀ s seen out a, I s seen out → kids s a = children a
  length_le : ∀ s seen out, I s seen out → seen.length ≤ bound
  enter : ∀ s seen out a, I s seen out → Except.Ends (fun e => a ∉ seen ∧ F e (seen ++ [a]))
    (fun s' => s'.elim (a ∈ seen) fun s' => a ∉ seen ∧ I s' (seen ++ [a]) out) (enter s a)
  leave : ∀ s seen out a, I s seen out → Except.Ends (fun e => F e (out ++ [a]))
    (fun s' => I s' seen (out ++ [a])) (leave s a)

variable {kids : σ → α → List α} {enter : σ → α → Except ε (Option σ)} {leave : σ → α → Except ε σ} {tooDeep : ε}
  {I : σ → List α → List α → Prop} {F : ε → List α → Prop} {bound : ℕ}

/-- Why a search that goes on from `seen` throws: nodes that are marked, or that it reaches. -/
def Blocked (children : α → List α) (F : ε → List α → Prop) (seen : List α) (a : α) (e : ε) : Prop :=
  ∃ l : List α, l.Nodup ∧ (∀ b ∈ l, b ∈ seen ∨ Reaches children a b) ∧ F e l

theorem Blocked.of_child {seen seen' : List α} {a b : α} {e : ε} (hab : Child children a b)
    (h : Blocked children F seen' b e) (hseen : ∀ c ∈ seen', c ∈ seen ∨ Reaches children a c) :
    Blocked children F seen a e := by
  obtain ⟨l, hl, hmem, hF⟩ := h
  refine ⟨l, hl, fun c hc => ?_, hF⟩
  obtain hc | hc := hmem c hc
  · exact hseen c hc
  · exact .inr (.head hab hc)

/-- What the search from a node does, for a node below all those that it is in the middle of. -/
def Searches (children : α → List α) (I : σ → List α → List α → Prop) (F : ε → List α → Prop)
    (bound n : ℕ) (search : σ → α → Except ε σ) : Prop :=
  ∀ (s : σ) (seen out : List α) (a : α), bound - seen.length < n → I s seen out →
    Visiting children seen out →
    (∀ b ∈ seen, b ∉ out → Relation.TransGen (Child children) b a) →
    Except.Ends (Blocked children F seen a)
      (fun s' => ∃ seen' new, Visited children a seen out seen' new ∧ I s' seen' (out ++ new) ∧
        a ∈ out ++ new ∧ (new = [] ∨ new.getLast? = some a)) (search s a)

/-- The marks and the list in the middle of the children of `a`, which `done` are listed of. -/
structure Between (children : α → List α) (a : α) (seen out done seen' new : List α) : Prop where
  visiting : Visiting children seen' (out ++ new)
  mem_seen : ∀ b, b ∈ seen' ↔ b ∈ seen ∨ b = a ∨ b ∈ new
  below : ∀ b ∈ new, Relation.TransGen (Child children) a b
  fresh : ∀ b ∈ new, b ∉ seen
  done : ∀ c ∈ done, c ∈ out ++ new
  longer : seen.length < seen'.length

section Spec

variable {n : ℕ} {seen out : List α} {a : α}

theorem Visiting.nodup_concat (h : Visiting children seen out) (ha : a ∉ seen) :
    (seen ++ [a]).Nodup := by
  rw [List.nodup_append]
  refine ⟨h.nodup, List.nodup_singleton _, fun b hb c hc hbc => ?_⟩
  rw [List.mem_singleton.1 hc] at hbc
  exact ha (hbc ▸ hb)

theorem Between.reaches {done seen' new : List α}
    (h : Between children a seen out done seen' new) :
    ∀ b ∈ seen', b ∈ seen ∨ Reaches children a b := by
  intro b hb
  rcases (h.mem_seen b).1 hb with hb | rfl | hb
  · exact .inl hb
  · exact .inr .refl
  · exact .inr (h.below b hb).to_reflTransGen

/-- The search from the next child. -/
theorem Between.next {done seen₁ new₁ seen₂ new₂ : List α} {c : α}
    (h : Between children a seen out done seen₁ new₁) (hc : Child children a c)
    (hv : Visited children c seen₁ (out ++ new₁) seen₂ new₂) (hcout : c ∈ out ++ new₁ ++ new₂) :
    Between children a seen out (done ++ [c]) seen₂ (new₁ ++ new₂) where
  visiting := by
    rw [← List.append_assoc]
    exact hv.visiting
  mem_seen b := by
    rw [hv.mem_seen, h.mem_seen, List.mem_append]
    tauto
  below b hb := (List.mem_append.1 hb).elim (h.below b) fun hb => .head' hc (hv.reached b hb)
  fresh b hb := (List.mem_append.1 hb).elim (h.fresh b) fun hb hbs =>
    hv.fresh b hb ((h.mem_seen b).2 (.inl hbs))
  done d hd := by
    rw [← List.append_assoc]
    rcases List.mem_append.1 hd with hd | hd
    · exact List.mem_append_left _ (h.done d hd)
    · exact List.mem_singleton.1 hd ▸ hcout
  longer := Nat.lt_of_lt_of_le h.longer
    (h.visiting.nodup.subperm fun b hb => (hv.mem_seen b).2 (.inl hb)).length_le

/-- The loop over the children. -/
theorem foldlM_children (ht : Tracks children kids enter leave I F bound) {search : σ → α → Except ε σ}
    (hsearch : Searches children I F bound n search) (hn : bound - seen.length < n + 1)
    (habove : ∀ b ∈ seen, b ∉ out → Relation.TransGen (Child children) b a) :
    ∀ (cs done : List α) {s : σ} {seen₁} (new₁ : List α), (∀ c ∈ cs, Child children a c) →
      I s seen₁ (out ++ new₁) → Between children a seen out done seen₁ new₁ →
      Except.Ends (Blocked children F seen a)
        (fun s' => ∃ seen' new, I s' seen' (out ++ new) ∧
          Between children a seen out (done ++ cs) seen' new) (cs.foldlM search s)
  | [], done, s, seen₁, new₁, _, hI, h => by
    rw [List.foldlM_nil, Except.ends_pure, List.append_nil]
    exact ⟨seen₁, new₁, hI, h⟩
  | c :: cs, done, s, seen₁, new₁, hcs, hI, h => by
    have hc := hcs c (List.mem_cons_self ..)
    have hle := ht.length_le _ _ _ hI
    have hlt := h.longer
    have hvisit := hsearch s seen₁ (out ++ new₁) c (by omega) hI h.visiting fun b hb hbout => by
        rcases (h.mem_seen b).1 hb with hb | rfl | hb
        · exact (habove b hb fun h => hbout (List.mem_append_left _ h)).tail hc
        · exact .single hc
        · exact absurd (List.mem_append_right _ hb) hbout
    rw [List.foldlM_cons]
    refine (hvisit.imp fun e he => he.of_child hc h.reaches).bind fun s' hs' => ?_
    obtain ⟨seen₂, new₂, hv, hI₂, hcout, -⟩ := hs'
    rw [List.append_assoc] at hI₂
    have hrest := foldlM_children ht hsearch hn habove cs (done ++ [c]) _
      (fun c hc => hcs c (List.mem_cons_of_mem _ hc)) hI₂ (h.next hc hv hcout)
    rwa [List.append_assoc, List.singleton_append] at hrest

/-- The last step of the search from a node, behind its children. -/
theorem Between.finish {seen' new : List α} (hacyclic : Acyclic children)
    (h : Between children a seen out (children a) seen' new) (hv : Visiting children seen out)
    (ha : a ∉ seen) : Visited children a seen out seen' (new ++ [a]) := by
  have hnew : a ∉ out ++ new := by
    rw [List.mem_append, not_or]
    exact ⟨fun h => ha (hv.sub a h), fun hn => hacyclic a (h.below a hn)⟩
  have hordered := h.visiting.ordered.concat hnew h.done
  rw [List.append_assoc] at hordered
  refine ⟨⟨h.visiting.nodup, hordered, fun b hb => ?_⟩, fun b => ?_, fun b hb => ?_,
    fun b hb => ?_⟩
  · rw [← List.append_assoc, List.mem_append, List.mem_singleton] at hb
    rcases hb with hb | rfl
    · exact h.visiting.sub b hb
    · exact (h.mem_seen b).2 (.inr (.inl rfl))
  · rw [h.mem_seen, List.mem_append, List.mem_singleton]
    tauto
  · rcases List.mem_append.1 hb with hb | hb
    · exact (h.below b hb).to_reflTransGen
    · exact List.mem_singleton.1 hb ▸ .refl
  · rcases List.mem_append.1 hb with hb | hb
    · exact h.fresh b hb
    · exact List.mem_singleton.1 hb ▸ ha

theorem visit_spec (hacyclic : Acyclic children) (ht : Tracks children kids enter leave I F bound)
    (tooDeep : ε) :
    ∀ n : ℕ, Searches children I F bound n (visit kids enter leave tooDeep n)
  | 0, s, seen, out, a, hn, _, _, _ => absurd hn (Nat.not_lt_zero _)
  | n + 1, s, seen, out, a, hn, hI, hv, habove => by
    rw [visit]
    refine ((ht.enter s seen out a hI).imp fun e he => ?_).bind fun s₁ hs₁ => ?_
    · refine ⟨seen ++ [a], hv.nodup_concat he.1, fun b hb => ?_, he.2⟩
      rcases List.mem_append.1 hb with hb | hb
      · exact .inl hb
      · exact .inr (List.mem_singleton.1 hb ▸ .refl)
    · rcases s₁ with _ | s₁
      · have haout : a ∈ out := by
          by_contra haout
          exact hacyclic a (habove a hs₁ haout)
        refine ⟨seen, [], ⟨?_, by simp, by simp, by simp⟩, ?_, ?_, .inl rfl⟩
        · simpa using hv
        · simpa using hI
        · simpa using haout
      · obtain ⟨ha, hI₁⟩ := hs₁
        have hstart : Between children a seen out [] (seen ++ [a]) [] := by
          refine ⟨⟨hv.nodup_concat ha, ?_, fun b hb => ?_⟩, by simp, by simp, by simp, by simp,
            by simp⟩
          · simpa using hv.ordered
          · exact List.mem_append_left _ (hv.sub b (by simpa using hb))
        have hall := foldlM_children ht (visit_spec hacyclic ht tooDeep n) hn habove (children a) [] []
          (fun _ hc => hc) (by simpa using hI₁) hstart
        rw [← ht.kids_eq s₁ _ _ a hI₁] at hall
        refine hall.bind fun s₂ hs₂ => ?_
        obtain ⟨seen₂, new, hI₂, hb⟩ := hs₂
        rw [List.nil_append, ht.kids_eq s₁ _ _ a hI₁] at hb
        have hdone := hb.finish hacyclic hv ha
        refine ((ht.leave s₂ seen₂ (out ++ new) a hI₂).imp fun e he => ?_).mono fun s₃ hs₃ => ?_
        · rw [List.append_assoc] at he
          refine ⟨_, hdone.visiting.ordered.nodup, fun b hb => ?_, he⟩
          rcases List.mem_append.1 hb with hb | hb
          · exact .inl (hv.sub b hb)
          · exact .inr (hdone.reached b hb)
        · rw [List.append_assoc] at hs₃
          exact ⟨seen₂, new ++ [a], hdone, hs₃, by simp, .inr (by simp)⟩

end Spec

end PostOrder

import Mathlib.Algebra.Ring.Nat
import Mathlib.Data.Set.Lattice
import Mathlib.Order.CompletePartialOrder
import Mathlib.Data.List.Pairwise
import Mathlib.Tactic.Basic

/-!
# Free lists and accounts

The blocks of a free list are apart, and what matters about them is the addresses that they cover:
what the list gives out leaves the cover, and what comes back joins it. A list in order has each of
its blocks between two that are held. An account is the other side of it. The regions that are held
are apart, from each other and from what is free.
-/

namespace FreeList

/-- `size` addresses from `offset` on. -/
structure Block where
  offset : ℕ
  size : ℕ
deriving DecidableEq, Repr

def Block.span (b : Block) : Set ℕ := {a | b.offset ≤ a ∧ a < b.offset + b.size}

def cover (bs : List Block) : Set ℕ := {a | ∃ b ∈ bs, a ∈ b.span}

def Apart (bs : List Block) : Prop := bs.Pairwise fun b c => Disjoint b.span c.span

section Blocks

variable {xs ys mid bs bs' : List Block} {b : Block} {s : Set ℕ} {a n : ℕ}

theorem Block.mem_span : a ∈ b.span ↔ b.offset ≤ a ∧ a < b.offset + b.size := Iff.rfl

@[simp]
theorem cover_nil : cover [] = ∅ := by simp [cover]

@[simp]
theorem cover_cons : cover (b :: bs) = b.span ∪ cover bs := by
  ext a
  simp [cover]

@[simp]
theorem cover_append : cover (xs ++ ys) = cover xs ∪ cover ys := by
  induction xs with
  | nil => simp
  | cons x xs ih => rw [List.cons_append, cover_cons, ih, cover_cons, Set.union_assoc]

theorem disjoint_cover : Disjoint s (cover bs) ↔ ∀ b ∈ bs, Disjoint s b.span := by
  induction bs with
  | nil => simp
  | cons b bs ih => simp [Set.disjoint_union_right, ih]

@[simp]
theorem apart_cons : Apart (b :: bs) ↔ Disjoint b.span (cover bs) ∧ Apart bs := by
  rw [disjoint_cover]
  exact List.pairwise_cons

theorem apart_append : Apart (xs ++ ys) ↔ Apart xs ∧ Apart ys ∧ Disjoint (cover xs) (cover ys) := by
  induction xs with
  | nil => simp [Apart]
  | cons x xs ih =>
    rw [List.cons_append, apart_cons, ih, apart_cons, cover_append, cover_cons,
      Set.disjoint_union_right, Set.disjoint_union_left]
    tauto

theorem Block.span_eq_empty (h : b.size = 0) : b.span = ∅ := by
  refine Set.eq_empty_of_forall_notMem fun a ha => ?_
  rw [Block.mem_span] at ha
  omega

theorem Block.span_append {o n m : ℕ} :
    (Block.mk o (n + m)).span = (Block.mk o n).span ∪ (Block.mk (o + n) m).span := by
  ext a
  simp only [Block.mem_span, Set.mem_union]
  omega

theorem Block.disjoint_append {o n m : ℕ} :
    Disjoint (Block.mk o n).span (Block.mk (o + n) m).span := by
  rw [Set.disjoint_left]
  intro a h h'
  rw [Block.mem_span] at h h'
  dsimp only at h h'
  omega

/-- `s` is given out of `bs`, and `bs'` is left. -/
structure Takes (bs : List Block) (s : Set ℕ) (bs' : List Block) : Prop where
  apart : Apart bs'
  within : s ⊆ cover bs
  left : cover bs' = cover bs \ s

/-- `s` comes back to `bs`, and `bs'` is what there is then. -/
structure Gives (bs : List Block) (s : Set ℕ) (bs' : List Block) : Prop where
  apart : Apart bs'
  all : cover bs' = cover bs ∪ s

/-- The first addresses of a block are given out. -/
theorem Takes.carve (h : Apart (xs ++ b :: ys)) (hn : n ≤ b.size) :
    Takes (xs ++ b :: ys) (Block.mk b.offset n).span
      (xs ++ ⟨b.offset + n, b.size - n⟩ :: ys) := by
  have hb : b.span = (Block.mk b.offset n).span ∪ (Block.mk (b.offset + n) (b.size - n)).span := by
    rw [← Block.span_append, Nat.add_sub_cancel' hn]
  rcases apart_append.1 h with ⟨hxs, hys, hxy⟩
  rcases apart_cons.1 hys with ⟨hby, hys⟩
  rw [cover_cons, hb, Set.disjoint_union_right, Set.disjoint_union_right] at hxy
  rw [hb, Set.disjoint_union_left] at hby
  have hd := Block.disjoint_append (o := b.offset) (n := n) (m := b.size - n)
  refine ⟨?_, ?_, ?_⟩
  · rw [apart_append, apart_cons, cover_cons, Set.disjoint_union_right]
    exact ⟨hxs, ⟨hby.2, hys⟩, hxy.1.2, hxy.2⟩
  · rw [cover_append, cover_cons, hb]
    exact fun a ha => .inr (.inl (.inl ha))
  · rw [cover_append, cover_cons, cover_append, cover_cons, hb, Set.union_sdiff_distrib,
      Set.union_sdiff_distrib, Set.union_sdiff_left, hxy.1.1.sdiff_eq_left,
      hd.symm.sdiff_eq_left, hby.1.symm.sdiff_eq_left]

/-- An empty block can go. -/
theorem Takes.erase (h : Takes bs s (xs ++ b :: ys)) (hb : b.size = 0) :
    Takes bs s (xs ++ ys) := by
  rcases apart_append.1 h.apart with ⟨hxs, hys, hxy⟩
  have hl := h.left
  rw [cover_cons, Set.disjoint_union_right] at hxy
  rw [cover_append, cover_cons, Block.span_eq_empty hb, Set.empty_union, ← cover_append] at hl
  exact ⟨apart_append.2 ⟨hxs, (apart_cons.1 hys).2, hxy.2⟩, h.within, hl⟩

/-- Some blocks become one with what comes back. -/
theorem Gives.absorb (mid : List Block) (h : Apart (xs ++ (mid ++ ys)))
    (hs : Disjoint s (cover (xs ++ (mid ++ ys)))) (hb : b.span = cover mid ∪ s) :
    Gives (xs ++ (mid ++ ys)) s (xs ++ b :: ys) := by
  rcases apart_append.1 h with ⟨hxs, hmy, hxm⟩
  rcases apart_append.1 hmy with ⟨-, hys, hmy⟩
  rw [cover_append, cover_append, Set.disjoint_union_right, Set.disjoint_union_right] at hs
  rw [cover_append, Set.disjoint_union_right] at hxm
  refine ⟨?_, ?_⟩
  · rw [apart_append, apart_cons, cover_cons, Set.disjoint_union_right, hb,
      Set.disjoint_union_left, Set.disjoint_union_right]
    exact ⟨hxs, ⟨⟨hmy, hs.2.2⟩, hys⟩, ⟨hxm.1, hs.1.symm⟩, hxm.2⟩
  · rw [cover_append, cover_cons, hb, cover_append, cover_append]
    ext a
    simp only [Set.mem_union]
    tauto

theorem Gives.insert (h : Apart (xs ++ ys)) (hs : Disjoint b.span (cover (xs ++ ys))) :
    Gives (xs ++ ys) b.span (xs ++ b :: ys) :=
  Gives.absorb [] h hs (by rw [cover_nil, Set.empty_union])

/-- What is given out joins what is held. -/
theorem Takes.held {held : List Block} (h : Takes bs b.span bs') (ha : Apart (held ++ bs)) :
    Apart (held ++ [b] ++ bs') ∧ cover (held ++ [b] ++ bs') = cover (held ++ bs) := by
  obtain ⟨hheld, -, hd⟩ := apart_append.1 ha
  have hb : Disjoint (cover held) b.span := hd.mono_right h.within
  refine ⟨apart_append.2 ⟨apart_append.2 ⟨hheld, by simp [Apart], by simpa using hb⟩, h.apart, ?_⟩, ?_⟩
  · rw [h.left, cover_append, cover_cons, cover_nil, Set.union_empty, Set.disjoint_union_left]
    exact ⟨hd.mono_right Set.sdiff_subset, Set.disjoint_sdiff_right⟩
  · rw [cover_append, cover_append, cover_append, h.left, cover_cons, cover_nil, Set.union_empty,
      Set.union_assoc, Set.union_sdiff_cancel h.within]

/-- What is held comes back. -/
theorem Gives.held (h : Gives bs b.span bs') (ha : Apart (xs ++ b :: ys ++ bs)) :
    Apart (xs ++ ys ++ bs') ∧ cover (xs ++ ys ++ bs') = cover (xs ++ b :: ys ++ bs) := by
  obtain ⟨hheld, -, hd⟩ := apart_append.1 ha
  obtain ⟨hxs, hby, hxby⟩ := apart_append.1 hheld
  obtain ⟨hb, hys⟩ := apart_cons.1 hby
  rw [cover_cons, Set.disjoint_union_right] at hxby
  rw [cover_append, cover_cons, Set.disjoint_union_left, Set.disjoint_union_left] at hd
  refine ⟨apart_append.2 ⟨apart_append.2 ⟨hxs, hys, hxby.2⟩, h.apart, ?_⟩, ?_⟩
  · rw [h.all, cover_append, Set.disjoint_union_left, Set.disjoint_union_right,
      Set.disjoint_union_right]
    exact ⟨⟨hd.1, hxby.1⟩, hd.2.2, hb.symm⟩
  · simp only [cover_append, cover_cons, h.all]
    ext a
    simp only [Set.mem_union]
    tauto

end Blocks

/-! ## Blocks in order -/

/-- The blocks are in order, none is empty, and no two of them meet. -/
structure Gapped (bs : List Block) : Prop where
  pairwise : bs.Pairwise fun b c => b.offset + b.size < c.offset
  pos : ∀ b ∈ bs, 0 < b.size

section Gapped

variable {xs ys bs : List Block} {b c : Block} {n : ℕ}

theorem Block.disjoint_iff (hb : 0 < b.size) (hc : 0 < c.size) :
    Disjoint b.span c.span ↔ b.offset + b.size ≤ c.offset ∨ c.offset + c.size ≤ b.offset := by
  rw [Set.disjoint_left]
  simp only [Block.mem_span]
  constructor
  · intro h
    by_contra hno
    rw [not_or, not_le, not_le] at hno
    exact h (a := max b.offset c.offset) (by omega) (by omega)
  · intro h a ha ha'
    omega

theorem gapped_append : Gapped (xs ++ ys) ↔ Gapped xs ∧ Gapped ys ∧
    ∀ b ∈ xs, ∀ c ∈ ys, b.offset + b.size < c.offset := by
  constructor
  · rintro ⟨hpair, hpos⟩
    obtain ⟨hxs, hys, hxy⟩ := List.pairwise_append.1 hpair
    obtain ⟨hpx, hpy⟩ := List.forall_mem_append.1 hpos
    exact ⟨⟨hxs, hpx⟩, ⟨hys, hpy⟩, hxy⟩
  · rintro ⟨⟨hxs, hpx⟩, ⟨hys, hpy⟩, hxy⟩
    exact ⟨List.pairwise_append.2 ⟨hxs, hys, hxy⟩, List.forall_mem_append.2 ⟨hpx, hpy⟩⟩

theorem gapped_cons : Gapped (b :: bs) ↔
    0 < b.size ∧ (∀ c ∈ bs, b.offset + b.size < c.offset) ∧ Gapped bs := by
  constructor
  · rintro ⟨hpair, hpos⟩
    obtain ⟨hb, hbs⟩ := List.pairwise_cons.1 hpair
    obtain ⟨hpb, hpbs⟩ := List.forall_mem_cons.1 hpos
    exact ⟨hpb, hb, hbs, hpbs⟩
  · rintro ⟨hpb, hb, hbs, hpbs⟩
    exact ⟨List.pairwise_cons.2 ⟨hb, hbs⟩, List.forall_mem_cons.2 ⟨hpb, hpbs⟩⟩

theorem Gapped.apart (h : Gapped bs) : Apart bs := by
  refine h.pairwise.imp_of_mem fun {b c} hb hc hlt => ?_
  exact (Block.disjoint_iff (h.pos b hb) (h.pos c hc)).2 (.inl hlt.le)

/-- Some blocks become one. -/
theorem Gapped.replace (mid : List Block) (h : Gapped (xs ++ (mid ++ ys))) (hb : 0 < b.size)
    (hxs : ∀ x ∈ xs, x.offset + x.size < b.offset) (hys : ∀ y ∈ ys, b.offset + b.size < y.offset) :
    Gapped (xs ++ b :: ys) := by
  obtain ⟨hgx, hgmy, hxmy⟩ := gapped_append.1 h
  obtain ⟨-, hgy, -⟩ := gapped_append.1 hgmy
  refine gapped_append.2 ⟨hgx, gapped_cons.2 ⟨hb, hys, hgy⟩, fun x hx c hc => ?_⟩
  rcases List.mem_cons.1 hc with rfl | hc
  · exact hxs x hx
  · exact hxmy x hx c (List.mem_append_right _ hc)

theorem Gapped.erase (h : Gapped (xs ++ b :: ys)) : Gapped (xs ++ ys) := by
  obtain ⟨hgx, hgy, hxy⟩ := gapped_append.1 h
  exact gapped_append.2 ⟨hgx, (gapped_cons.1 hgy).2.2, fun x hx y hy =>
    hxy x hx y (List.mem_cons_of_mem b hy)⟩

/-- The first addresses of a block are given out. -/
theorem Gapped.carve (h : Gapped (xs ++ b :: ys)) (hn : n < b.size) :
    Gapped (xs ++ ⟨b.offset + n, b.size - n⟩ :: ys) := by
  obtain ⟨-, hgb, hxb⟩ := gapped_append.1 h
  refine Gapped.replace [b] h (Nat.sub_pos_of_lt hn) (fun x hx => ?_) fun y hy => ?_
  · exact (hxb x hx b (List.mem_cons_self ..)).trans_le (Nat.le_add_right ..)
  · have := (gapped_cons.1 hgb).2.1 y hy
    dsimp only
    omega

end Gapped

section Account

variable {ι α : Type*} {held : Set ι} {region region' : ι → Set α} {free free' : Set α} {t p : ι}

/-- What is held is apart, from each other and from what is free. -/
structure Account (held : Set ι) (region : ι → Set α) (free : Set α) : Prop where
  apart : ∀ t ∈ held, ∀ u ∈ held, t ≠ u → Disjoint (region t) (region u)
  kept : ∀ t ∈ held, Disjoint (region t) free

theorem Account.empty : Account ∅ region free := by
  constructor <;> simp

theorem Account.take (h : Account held region free) (hu : ∀ u ∈ held, region' u = region u)
    (ht : region' t ⊆ free) (hf : free' = free \ region' t) :
    Account (insert t held) region' free' := by
  have hd : ∀ u ∈ held, Disjoint (region' u) (region' t) := fun u hm =>
    hu u hm ▸ (h.kept u hm).mono_right ht
  refine ⟨?_, ?_⟩
  · rintro u (rfl | hm) v (rfl | hn) huv
    · exact absurd rfl huv
    · exact (hd v hn).symm
    · exact hd u hm
    · rw [hu u hm, hu v hn]
      exact h.apart u hm v hn huv
  · rintro u (rfl | hm)
    · rw [hf]
      exact Set.disjoint_sdiff_right
    · rw [hf, hu u hm]
      exact (h.kept u hm).mono_right Set.sdiff_subset

theorem Account.give (h : Account held region free) (ht : t ∈ held)
    (hf : free' = free ∪ region t) : Account (held \ {t}) region free' where
  apart u hu v hv := h.apart u hu.1 v hv.1
  kept u hu := by
    rw [hf, Set.disjoint_union_right]
    exact ⟨h.kept u hu.1, h.apart u hu.1 t ht hu.2⟩

/-- `t` gets what `p` held. -/
theorem Account.handOver (h : Account held region free) (hp : p ∈ held) (ht : t ∉ held)
    (hu : ∀ u ∈ held, region' u = region u) (htp : region' t = region p) :
    Account (insert t (held \ {p})) region' free := by
  refine ⟨?_, ?_⟩
  · rintro u (rfl | hm) v (rfl | hn) huv
    · exact absurd rfl huv
    · rw [htp, hu v hn.1]
      exact h.apart p hp v hn.1 (Ne.symm hn.2)
    · rw [htp, hu u hm.1]
      exact h.apart u hm.1 p hp hm.2
    · rw [hu u hm.1, hu v hn.1]
      exact h.apart u hm.1 v hn.1 huv
  · rintro u (rfl | hm)
    · rw [htp]
      exact h.kept p hp
    · rw [hu u hm.1]
      exact h.kept u hm.1

end Account

end FreeList

import LamaServer.Lib.Except
import Mathlib.Data.Finset.Card
import Mathlib.Data.Fintype.Card
import Mathlib.Logic.Relation
import Mathlib.Tactic.Basic

/-!
# Graphs of pointers

`collect` lists the vertices below a root depth first, each behind those it points to. `build` makes
the vertices of such a list again: it remembers which ids it has made, so that what was shared is
shared again, and an id is known before its links are followed, so that a cycle ends.
-/

namespace PointerGraph

open Relation (ReflTransGen)

universe u v

section Collect

variable {V : Type*}

/-- The vertices visited, and those listed. -/
abbrev Walk (V : Type*) := List V × List V

variable {links : V → List V} {vs vs' new new' : List V} {s s' s'' : Walk V}

/-- From `s` to `s'` the vertices below `vs` were listed, and they are `new`. -/
structure Collects (links : V → List V) (vs : List V) (s s' : Walk V) (new : List V) : Prop where
  out : s'.2 = s.2 ++ new
  visited : ∀ u, u ∈ s'.1 ↔ u ∈ s.1 ∨ u ∈ new
  nodup : new.Nodup
  fresh : ∀ u ∈ new, u ∉ s.1
  closed : ∀ u ∈ new, ∀ w ∈ links u, w ∈ s'.1
  below : ∀ u ∈ new, ∃ v ∈ vs, ReflTransGen (fun a b => b ∈ links a) v u
  roots : ∀ v ∈ vs, v ∈ s'.1

theorem Collects.nil : Collects links [] s s [] := by
  constructor <;> simp

theorem Collects.append (h : Collects links vs s s' new) (h' : Collects links vs' s' s'' new') :
    Collects links (vs ++ vs') s s'' (new ++ new') where
  out := by rw [h'.out, h.out, List.append_assoc]
  visited u := by rw [h'.visited, h.visited, List.mem_append, or_assoc]
  nodup := by
    refine List.nodup_append.2 ⟨h.nodup, h'.nodup, ?_⟩
    rintro u hu _ hu' rfl
    exact h'.fresh u hu' ((h.visited u).2 (.inr hu))
  fresh u hu := by
    rcases List.mem_append.1 hu with hu | hu
    · exact h.fresh u hu
    · exact fun hs => h'.fresh u hu ((h.visited u).2 (.inl hs))
  closed u hu w hw := by
    rcases List.mem_append.1 hu with hu | hu
    · exact (h'.visited w).2 (.inl (h.closed u hu w hw))
    · exact h'.closed u hu w hw
  below u hu := by
    rcases List.mem_append.1 hu with hu | hu
    · obtain ⟨v, hv, hvu⟩ := h.below u hu
      exact ⟨v, List.mem_append_left _ hv, hvu⟩
    · obtain ⟨v, hv, hvu⟩ := h'.below u hu
      exact ⟨v, List.mem_append_right _ hv, hvu⟩
  roots v hv := by
    rcases List.mem_append.1 hv with hv | hv
    · exact (h'.visited v).2 (.inl (h.roots v hv))
    · exact h'.roots v hv

/-- A vertex is listed behind those it points to. -/
theorem Collects.vertex {v : V} (hv : v ∉ s.1)
    (h : Collects links (links v) (v :: s.1, s.2) s' new) :
    Collects links [v] s (s'.1, s'.2 ++ [v]) (new ++ [v]) where
  out := by rw [h.out, List.append_assoc]
  visited u := by
    rw [h.visited, List.mem_cons, List.mem_append, List.mem_singleton]
    tauto
  nodup := by
    refine List.nodup_append.2 ⟨h.nodup, List.nodup_singleton v, ?_⟩
    rintro u hu _ hv rfl
    rw [List.mem_singleton] at hv
    exact h.fresh u hu (hv ▸ List.mem_cons_self ..)
  fresh u hu := by
    rcases List.mem_append.1 hu with hu | hu
    · exact fun hs => h.fresh u hu (List.mem_cons_of_mem v hs)
    · rwa [List.mem_singleton.1 hu]
  closed u hu w hw := by
    rcases List.mem_append.1 hu with hu | hu
    · exact h.closed u hu w hw
    · rw [List.mem_singleton.1 hu] at hw
      exact h.roots w hw
  below u hu := by
    refine ⟨v, List.mem_singleton_self v, ?_⟩
    rcases List.mem_append.1 hu with hu | hu
    · obtain ⟨w, hw, hwu⟩ := h.below u hu
      exact .head hw hwu
    · rw [List.mem_singleton.1 hu]
  roots u hu := by
    rw [List.mem_singleton.1 hu]
    exact (h.visited v).2 (.inl (List.mem_cons_self ..))

variable [DecidableEq V]

/-- Visits a vertex: those it points to, then itself. -/
def collect (links : V → List V) : Nat → Walk V → V → Walk V
  | 0, s, _ => s
  | fuel + 1, s, v =>
    if v ∈ s.1 then s
    else
      let s := (links v).foldl (collect links fuel) (v :: s.1, s.2)
      (s.1, s.2 ++ [v])

variable [Fintype V]

/-- How many vertices are still unvisited. -/
def unvisited (vs : List V) : Nat := (Finset.univ.filter (· ∉ vs)).card

theorem unvisited_cons_lt {v : V} (h : v ∉ vs) : unvisited (v :: vs) < unvisited vs := by
  refine Finset.card_lt_card (Finset.ssubset_iff_of_subset ?_ |>.2 ⟨v, ?_⟩)
  · intro u
    simp +contextual
  · simpa using h

theorem Collects.unvisited_le (h : Collects links vs s s' new) :
    unvisited s'.1 ≤ unvisited s.1 := by
  refine Finset.card_le_card fun u hu => ?_
  simp only [Finset.mem_filter, Finset.mem_univ, true_and, h.visited, not_or] at hu ⊢
  exact hu.1

theorem collect_foldl {fuel : Nat}
    (hstep : ∀ s v, unvisited s.1 ≤ fuel →
      ∃ new, Collects links [v] s (collect links fuel s v) new) :
    ∀ vs s, unvisited s.1 ≤ fuel →
      ∃ new, Collects links vs s (vs.foldl (collect links fuel) s) new
  | [], s, _ => ⟨[], .nil⟩
  | v :: vs, s, hfuel => by
    obtain ⟨new, h⟩ := hstep s v hfuel
    obtain ⟨new', h'⟩ := collect_foldl hstep vs (collect links fuel s v)
      (h.unvisited_le.trans hfuel)
    exact ⟨new ++ new', h.append h'⟩

/-- With fuel for the unvisited vertices all that is below a vertex is listed. -/
theorem collect_spec : ∀ fuel s (v : V), unvisited s.1 ≤ fuel →
    ∃ new, Collects links [v] s (collect links fuel s v) new
  | 0, s, v, hfuel => by
    have hv : v ∈ s.1 := by
      by_contra hv
      have := unvisited_cons_lt hv
      omega
    exact ⟨[], by simp [collect], by simp [collect], .nil, by simp, by simp, by simp,
      by simpa [collect] using hv⟩
  | fuel + 1, s, v, hfuel => by
    rw [collect]
    split_ifs with hv
    · exact ⟨[], by simp, by simp, .nil, by simp, by simp, by simp, by simpa using hv⟩
    · have hlt := unvisited_cons_lt hv
      obtain ⟨new, h⟩ := collect_foldl (collect_spec fuel) (links v) (v :: s.1, s.2) (by
        change unvisited (v :: s.1) ≤ fuel
        omega)
      exact ⟨new ++ [v], h.vertex hv⟩

/-- The vertices below some roots. -/
def collectAll (links : V → List V) (roots : List V) : List V :=
  (roots.foldl (collect links (Fintype.card V)) ([], [])).2

theorem collectAll_spec (links : V → List V) (roots : List V) :
    (collectAll links roots).Nodup ∧ ∀ u, u ∈ collectAll links roots ↔
      ∃ r ∈ roots, ReflTransGen (fun a b => b ∈ links a) r u := by
  obtain ⟨new, h⟩ := collect_foldl (collect_spec (Fintype.card V)) roots
    (([], []) : Walk V) (Finset.card_le_univ _)
  have hnew : collectAll links roots = new := h.out
  have hvisited : ∀ u, u ∈ (roots.foldl (collect links (Fintype.card V)) ([], [])).1 ↔ u ∈ new := by
    simpa using h.visited
  rw [hnew]
  refine ⟨h.nodup, fun u => ⟨h.below u, ?_⟩⟩
  rintro ⟨r, hr, hru⟩
  induction hru with
  | refl => exact (hvisited r).1 (h.roots r hr)
  | tail _ hab ih => exact (hvisited _).1 (h.closed _ ih _ hab)

end Collect

section Build

variable {K N D : Type u} {ε : Type v}

/-- The vertices made so far; the place of an id is the pointer to its vertex. -/
structure Made (K N : Type u) where
  ids : List K
  nodes : List N
  nodup : ids.Nodup
  length_eq : ids.length = nodes.length

namespace Made

variable (s : Made K N) (n : N)

def empty : Made K N := ⟨[], [], .nil, rfl⟩

def push (id : K) (h : id ∉ s.ids) : Made K N where
  ids := s.ids ++ [id]
  nodes := s.nodes ++ [n]
  nodup := by
    refine List.nodup_append.2 ⟨s.nodup, List.nodup_singleton id, ?_⟩
    rintro k hk _ hid rfl
    exact h (List.mem_singleton.1 hid ▸ hk)
  length_eq := by simp [s.length_eq]

def set (i : Nat) : Made K N where
  ids := s.ids
  nodes := s.nodes.set i n
  nodup := s.nodup
  length_eq := by rw [List.length_set, s.length_eq]

end Made

/-- Follows the links of a vertex until one of them cannot be followed. -/
def buildLinks (b : Made K N → K → Except ε (Option Nat × Made K N)) :
    List (Option K) → Made K N → Except ε (List (Option Nat) × Made K N)
  | [], s => .ok ([], s)
  | none :: ids, s => do
    let r ← buildLinks b ids s
    .ok (none :: r.1, r.2)
  | some id :: ids, s => do
    let r ← b s id
    match r.1 with
    | none => .ok ([], r.2)
    | some i => do
      let r ← buildLinks b ids r.2
      .ok (some i :: r.1, r.2)

/-! ### What was made -/

/-- `ptrs` point to the vertices of `ids`. -/
def Linked (known : List K) (ids : List (Option K)) (ptrs : List (Option Nat)) : Prop :=
  List.Forall₂ (Option.Rel fun k i => known[i]? = some k) ids ptrs

theorem getElem?_of_isPrefix {α : Type*} {l l' : List α} {i : Nat} {a : α} (h : l <+: l')
    (ha : l[i]? = some a) : l'[i]? = some a := by
  obtain ⟨t, rfl⟩ := h
  rw [List.getElem?_append_left (List.getElem?_eq_some_iff.1 ha).1, ha]

theorem Linked.mono {known known' : List K} {ids : List (Option K)} {ptrs : List (Option Nat)}
    (h : Linked known ids ptrs) (hknown : known <+: known') : Linked known' ids ptrs := by
  refine List.Forall₂.imp (fun o p hrel => ?_) h
  cases hrel with
  | some hk => exact .some (getElem?_of_isPrefix hknown hk)
  | none => exact .none

/-- A pointer is the place of its id. -/
theorem Linked.eq_map [DecidableEq K] {known : List K} {ids : List (Option K)}
    {ptrs : List (Option Nat)} (h : Linked known ids ptrs) (hnodup : known.Nodup) :
    ptrs = ids.map (Option.map known.idxOf) := by
  induction h with
  | nil => rfl
  | cons hrel _ ih =>
    rw [List.map_cons, ← ih]
    cases hrel with
    | some hk =>
      obtain ⟨hlt, rfl⟩ := List.getElem?_eq_some_iff.1 hk
      rw [Option.map_some, hnodup.idxOf_getElem]
    | none => rfl

theorem Linked.mem {known : List K} {ids : List (Option K)} {ptrs : List (Option Nat)}
    (h : Linked known ids ptrs) {k : K} (hk : some k ∈ ids) : k ∈ known := by
  induction h with
  | nil => simp at hk
  | cons hrel _ ih =>
    rcases List.mem_cons.1 hk with rfl | hk
    · cases hrel with
      | some hk => exact List.mem_of_getElem? hk
    · exact ih hk

section Spec

variable (make : K → Except ε (Option D)) (links : D → List (Option K))
  (node : D → List (Option Nat) → N)

/-- The vertex of one id points to that of another. -/
def Names (a b : K) : Prop := ∃ d, make a = .ok (some d) ∧ some b ∈ links d

/-- From `s` to `s'` vertices below `roots` were made; where `done` holds, all have their links. -/
structure Grows (done : Prop) (roots : K → Prop) (s s' : Made K N) : Prop where
  ids : s.ids <+: s'.ids
  nodes : s.nodes <+: s'.nodes
  made : ∀ j k, s.ids.length ≤ j → s'.ids[j]? = some k → ∃ d ptrs, make k = .ok (some d) ∧
    s'.nodes[j]? = some (node d ptrs) ∧ (done → Linked s'.ids (links d) ptrs)
  below : ∀ k ∈ s'.ids, k ∈ s.ids ∨ ∃ r, roots r ∧ ReflTransGen (Names make links) r k

variable {make links node} {done done' : Prop} {roots roots' : K → Prop} {s s' s'' : Made K N}

theorem Grows.refl : Grows make links node done roots s s where
  ids := List.prefix_rfl
  nodes := List.prefix_rfl
  made j k hj hk := by
    have hlt := (List.getElem?_eq_some_iff.1 hk).1
    omega
  below k hk := .inl hk

theorem Grows.mono (h : Grows make links node done roots s s') (hdone : done' → done)
    (hroots : ∀ r, roots r → roots' r) : Grows make links node done' roots' s s' where
  ids := h.ids
  nodes := h.nodes
  made j k hj hk := by
    obtain ⟨d, ptrs, hd, hn, hl⟩ := h.made j k hj hk
    exact ⟨d, ptrs, hd, hn, fun hdone' => hl (hdone hdone')⟩
  below k hk := by
    refine (h.below k hk).imp_right ?_
    rintro ⟨r, hr, hrk⟩
    exact ⟨r, hroots r hr, hrk⟩

theorem Grows.trans (h : Grows make links node done roots s s')
    (h' : Grows make links node done roots s' s'') : Grows make links node done roots s s'' where
  ids := h.ids.trans h'.ids
  nodes := h.nodes.trans h'.nodes
  made j k hj hk := by
    rcases lt_or_ge j s'.ids.length with hlt | hge
    · have hk' : s'.ids[j]? = some k := by
        rw [List.getElem?_eq_getElem hlt, ← hk]
        exact (getElem?_of_isPrefix h'.ids (List.getElem?_eq_getElem hlt)).symm
      obtain ⟨d, ptrs, hd, hn, hl⟩ := h.made j k hj hk'
      exact ⟨d, ptrs, hd, getElem?_of_isPrefix h'.nodes hn, fun hdone => (hl hdone).mono h'.ids⟩
    · exact h'.made j k hge hk
  below k hk := by
    rcases h'.below k hk with hk | hk
    · exact h.below k hk
    · exact .inr hk

/-- Of vertices that have their links, what they point to was made. -/
theorem Grows.closed (h : Grows make links node True roots .empty s') {k k' : K}
    (hk : k ∈ s'.ids) (hkk' : ReflTransGen (Names make links) k k') : k' ∈ s'.ids := by
  induction hkk' with
  | refl => exact hk
  | tail _ hab ih =>
    obtain ⟨d, hd, hmem⟩ := hab
    obtain ⟨j, hj, hget⟩ := List.mem_iff_getElem.1 ih
    obtain ⟨d', ptrs, hd', -, hl⟩ := h.made j _ (Nat.zero_le _) (hget ▸ List.getElem?_eq_getElem hj)
    obtain rfl := Option.some.inj (Except.ok.inj (hd.symm.trans hd'))
    exact (hl trivial).mem hmem

/-- What following links does, from what making one vertex does. -/
theorem buildLinks_grows {b : Made K N → K → Except ε (Option Nat × Made K N)}
    (hb : ∀ {s id r s'}, b s id = .ok (r, s') →
      Grows make links node (r ≠ none) (· = id) s s' ∧ ∀ i, r = some i → s'.ids[i]? = some id) :
    ∀ {os : List (Option K)} {s s' : Made K N} {ptrs : List (Option Nat)},
      buildLinks b os s = .ok (ptrs, s') →
      Grows make links node (ptrs.length = os.length) (some · ∈ os) s s' ∧
        (ptrs.length = os.length → Linked s'.ids os ptrs)
  | [], s, s', ptrs, h => by
    obtain ⟨rfl, rfl⟩ := Prod.mk.inj (Except.ok.inj h)
    exact ⟨.refl, fun _ => .nil⟩
  | none :: os, s, s', ptrs, h => by
    obtain ⟨⟨ptrs', s₁⟩, hrest, h⟩ := Except.bind_eq_ok.1 h
    obtain ⟨rfl, rfl⟩ := Prod.mk.inj (Except.ok.inj h)
    obtain ⟨hgrows, hlinked⟩ := buildLinks_grows hb hrest
    refine ⟨hgrows.mono (by simp) (by simp), fun hlen => ?_⟩
    exact .cons .none (hlinked (by simpa using hlen))
  | some id :: os, s, s', ptrs, h => by
    obtain ⟨⟨r, s₁⟩, hid, h⟩ := Except.bind_eq_ok.1 h
    obtain ⟨hgrows, hat⟩ := hb hid
    rcases r with _ | i
    · obtain ⟨rfl, rfl⟩ := Prod.mk.inj (Except.ok.inj h)
      exact ⟨hgrows.mono (by simp) (by simp), by simp⟩
    · obtain ⟨⟨ptrs', s₂⟩, hrest, h⟩ := Except.bind_eq_ok.1 h
      obtain ⟨rfl, rfl⟩ := Prod.mk.inj (Except.ok.inj h)
      obtain ⟨hgrows', hlinked⟩ := buildLinks_grows hb hrest
      refine ⟨(hgrows.mono (by simp) (by simp)).trans (hgrows'.mono (by simp) ?_), fun hlen => ?_⟩
      · exact fun r hr => List.mem_cons_of_mem _ hr
      · refine .cons (.some ?_) (hlinked (by simpa using hlen))
        exact getElem?_of_isPrefix hgrows'.ids (hat i rfl)

/-- A vertex is made, then those its links name, then its links are set. -/
theorem Grows.vertex {id : K} {d : D} {ptrs : List (Option Nat)} {h : id ∉ s.ids}
    (hd : make id = .ok (some d))
    (hgrows : Grows make links node (ptrs.length = (links d).length) (some · ∈ links d)
      (s.push (node d []) id h) s')
    (hlinked : ptrs.length = (links d).length → Linked s'.ids (links d) ptrs) :
    Grows make links node (ptrs.length = (links d).length) (· = id) s
      (s'.set (node d ptrs) s.nodes.length) where
  ids := (List.prefix_append ..).trans hgrows.ids
  nodes := by
    obtain ⟨t, ht⟩ := hgrows.nodes
    refine ⟨node d ptrs :: t, ?_⟩
    change _ = s'.nodes.set _ _
    rw [← ht]
    simp [Made.push]
  made j k hj hk := by
    change s'.ids[j]? = some k at hk
    have hlen : (s.push (node d []) id h).ids.length = s.ids.length + 1 := by simp [Made.push]
    rcases hj.eq_or_lt with rfl | hlt
    · have hid : s'.ids[s.ids.length]? = some id :=
        getElem?_of_isPrefix hgrows.ids (by simp [Made.push])
      obtain rfl := Option.some.inj (hid.symm.trans hk)
      refine ⟨d, ptrs, hd, ?_, hlinked⟩
      have hj := (List.getElem?_eq_some_iff.1 hk).1
      rw [s'.length_eq, s.length_eq] at hj
      change (s'.nodes.set _ _)[_]? = _
      rw [s.length_eq, List.getElem?_set_self hj]
    · obtain ⟨d', ptrs', hd', hn, hl⟩ := hgrows.made j k (by omega) hk
      refine ⟨d', ptrs', hd', ?_, hl⟩
      rw [← hn]
      exact List.getElem?_set_ne (by rw [← s.length_eq]; omega)
  below k hk := by
    rcases hgrows.below k hk with hk | ⟨r, hr, hrk⟩
    · rcases List.mem_append.1 hk with hk | hk
      · exact .inl hk
      · exact .inr ⟨id, rfl, List.mem_singleton.1 hk ▸ .refl⟩
    · exact .inr ⟨id, rfl, .head ⟨d, hd, hr⟩ hrk⟩

end Spec

/-! ### Making vertices -/

variable [DecidableEq K]

/-- The pointer to the vertex of an id, made with `make` where it was not made before: `links` are
the ids it points to, and `node` is the vertex with the first of its links set. -/
def build (make : K → Except ε (Option D)) (links : D → List (Option K))
    (node : D → List (Option Nat) → N) :
    Nat → Made K N → K → Except ε (Option Nat × Made K N)
  | 0, s, id => .ok (if id ∈ s.ids then some (s.ids.idxOf id) else none, s)
  | fuel + 1, s, id =>
    if h : id ∈ s.ids then .ok (some (s.ids.idxOf id), s)
    else do
      match ← make id with
      | none => .ok (none, s)
      | some d => do
        let r ← buildLinks (build make links node fuel) (links d) (s.push (node d []) id h)
        let s' := r.2.set (node d r.1) s.nodes.length
        .ok (if r.1.length = (links d).length then some s.nodes.length else none, s')

section Spec

variable {make : K → Except ε (Option D)} {links : D → List (Option K)}
  {node : D → List (Option Nat) → N}

/-- What making a vertex does, whether it succeeds or not. -/
theorem build_grows : ∀ {fuel : Nat} {s s' : Made K N} {id : K} {r : Option Nat},
    build make links node fuel s id = .ok (r, s') →
    Grows make links node (r ≠ none) (· = id) s s' ∧ ∀ i, r = some i → s'.ids[i]? = some id
  | 0, s, s', id, r, h => by
    obtain ⟨rfl, rfl⟩ := Prod.mk.inj (Except.ok.inj h)
    refine ⟨.refl, fun i hi => ?_⟩
    split_ifs at hi with hid
    obtain rfl := Option.some.inj hi
    exact List.getElem?_idxOf hid
  | fuel + 1, s, s', id, r, h => by
    rw [build] at h
    split_ifs at h with hid
    · obtain ⟨rfl, rfl⟩ := Prod.mk.inj (Except.ok.inj h)
      refine ⟨.refl, fun i hi => ?_⟩
      obtain rfl := Option.some.inj hi
      exact List.getElem?_idxOf hid
    · obtain ⟨_ | d, hd, h⟩ := Except.bind_eq_ok.1 h
      · obtain ⟨rfl, rfl⟩ := Prod.mk.inj (Except.ok.inj h)
        exact ⟨.refl, by simp⟩
      · obtain ⟨⟨ptrs, s₁⟩, hlinks, h⟩ := Except.bind_eq_ok.1 h
        obtain ⟨rfl, rfl⟩ := Prod.mk.inj (Except.ok.inj h)
        obtain ⟨hgrows, hlinked⟩ := buildLinks_grows build_grows hlinks
        refine ⟨(hgrows.vertex hd hlinked).mono (by simp) (by simp), fun i hi => ?_⟩
        simp only [Option.ite_none_right_eq_some, Option.some.injEq] at hi
        obtain rfl := hi.2
        refine getElem?_of_isPrefix hgrows.ids ?_
        simp [Made.push, ← s.length_eq]

/-- Ids that can be made, and are not made yet. -/
def unmade (T : Finset K) (s : Made K N) : Nat := (T \ s.ids.toFinset).card

theorem unmade_le {T : Finset K} {s s' : Made K N} (h : s.ids <+: s'.ids) :
    unmade T s' ≤ unmade T s := by
  refine Finset.card_le_card (Finset.sdiff_subset_sdiff le_rfl fun k hk => ?_)
  exact List.mem_toFinset.2 (h.subset (List.mem_toFinset.1 hk))

theorem unmade_push_lt {T : Finset K} {s : Made K N} {id : K} {n : N} (h : id ∉ s.ids)
    (hT : id ∈ T) : unmade T (s.push n id h) < unmade T s := by
  refine Finset.card_lt_card (Finset.ssubset_iff_of_subset ?_ |>.2 ⟨id, ?_, ?_⟩)
  · refine Finset.sdiff_subset_sdiff le_rfl fun k hk => ?_
    rw [List.mem_toFinset] at hk ⊢
    exact List.mem_append_left _ hk
  · simpa using ⟨hT, h⟩
  · simp [Made.push]

theorem buildLinks_ends {T : Finset K} {fuel : Nat}
    (hb : ∀ s id, unmade T s ≤ fuel → (build make links node fuel s id).Ends
      (fun e => ∃ k, ReflTransGen (Names make links) id k ∧ make k = .error e)
      fun r => r.1 = none → ∃ k, ReflTransGen (Names make links) id k ∧ make k = .ok none) :
    ∀ (os : List (Option K)) (s : Made K N), unmade T s ≤ fuel →
      (buildLinks (build make links node fuel) os s).Ends
        (fun e => ∃ r k, some r ∈ os ∧ ReflTransGen (Names make links) r k ∧ make k = .error e)
        fun p => p.1.length ≠ os.length →
          ∃ r k, some r ∈ os ∧ ReflTransGen (Names make links) r k ∧ make k = .ok none
  | [], s, _ => by simp [buildLinks]
  | none :: os, s, hfuel => by
    rw [buildLinks]
    have ih := buildLinks_ends hb os s hfuel
    rcases h : buildLinks (build make links node fuel) os s with e | p
    · obtain ⟨r, k, hr, hrk, hk⟩ := ih.of_error h
      exact ⟨r, k, List.mem_cons_of_mem _ hr, hrk, hk⟩
    · intro hlen
      obtain ⟨r, k, hr, hrk, hk⟩ := ih.of_ok h (by simpa using hlen)
      exact ⟨r, k, List.mem_cons_of_mem _ hr, hrk, hk⟩
  | some id :: os, s, hfuel => by
    rw [buildLinks]
    have hid := hb s id hfuel
    rcases h : build make links node fuel s id with e | ⟨_ | i, s₁⟩
    · obtain ⟨k, hidk, hk⟩ := hid.of_error h
      exact ⟨id, k, List.mem_cons_self .., hidk, hk⟩
    · obtain ⟨k, hidk, hk⟩ := hid.of_ok h rfl
      exact fun _ => ⟨id, k, List.mem_cons_self .., hidk, hk⟩
    · have ih := buildLinks_ends hb os s₁ ((unmade_le (build_grows h).1.ids).trans hfuel)
      rw [Except.ok_bind_eq]
      change (buildLinks _ os s₁ >>= _).Ends _ _
      rcases hrest : buildLinks (build make links node fuel) os s₁ with e | p
      · obtain ⟨r, k, hr, hrk, hk⟩ := ih.of_error hrest
        exact ⟨r, k, List.mem_cons_of_mem _ hr, hrk, hk⟩
      · intro hlen
        obtain ⟨r, k, hr, hrk, hk⟩ := ih.of_ok hrest (by simpa using hlen)
        exact ⟨r, k, List.mem_cons_of_mem _ hr, hrk, hk⟩

/-- With fuel for the ids not made yet, a vertex is not made only where one below it cannot be. -/
theorem build_ends {T : Finset K} (hT : ∀ k, make k ≠ .ok none → k ∈ T) :
    ∀ (fuel : Nat) (s : Made K N) (id : K), unmade T s ≤ fuel →
      (build make links node fuel s id).Ends
        (fun e => ∃ k, ReflTransGen (Names make links) id k ∧ make k = .error e)
        fun r => r.1 = none → ∃ k, ReflTransGen (Names make links) id k ∧ make k = .ok none
  | 0, s, id, hfuel => by
    rw [build]
    intro hnone
    have hmem : id ∉ s.ids := by
      intro hmem
      simp [hmem] at hnone
    refine ⟨id, .refl, ?_⟩
    by_contra hd
    exact absurd hfuel (Finset.card_pos.2 ⟨id, by simp [hT id hd, hmem]⟩).not_ge
  | fuel + 1, s, id, hfuel => by
    rw [build]
    split_ifs with hmem
    · simp
    · rcases hd : make id with e | _ | d
      · exact ⟨id, .refl, hd⟩
      · exact fun _ => ⟨id, .refl, hd⟩
      · have hlt := unmade_push_lt (n := node d []) hmem (hT id (by simp [hd]))
        have ih := buildLinks_ends (build_ends hT fuel) (links d) (s.push (node d []) id hmem)
          (by omega)
        rw [Except.ok_bind_eq]
        change (buildLinks _ (links d) _ >>= _).Ends _ _
        rcases h : buildLinks (build make links node fuel) (links d)
          (s.push (node d []) id hmem) with e | p
        · obtain ⟨r, k, hr, hrk, hk⟩ := ih.of_error h
          exact ⟨k, .head ⟨d, hd, hr⟩ hrk, hk⟩
        · intro hnone
          obtain ⟨r, k, hr, hrk, hk⟩ := ih.of_ok h (by simpa using hnone)
          exact ⟨k, .head ⟨d, hd, hr⟩ hrk, hk⟩

end Spec

end Build

end PointerGraph

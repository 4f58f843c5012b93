import LamaServer.Lib.Fragments
import LamaServer.Mmap
import Mathlib.Data.List.Induction

/-!
# What stays mapped

A range gives back the pages that lie within it, whole. So the fragments after any ranges are the
bytes of the other pages (`unmapFragments_destroy`), in order, and each starts at a page, which is
why the calls of the destructor give back each of the pages that are left, and none of them twice.
-/

namespace LamaServer

open Fragments (Ordered Refines covered)

/-- The page lies in the range, whole. -/
def WholePage (pageSize : ℕ) (r : ℕ × ℕ) (page : ℕ) : Prop :=
  r.1 ≤ page * pageSize ∧ (page + 1) * pageSize ≤ r.2

/-- The page is one of those that the calls remove. -/
def GivesBack (pageSize : ℕ) (calls : List Munmap) (page : ℕ) : Prop :=
  ∃ call ∈ calls, page ∈ call.pages pageSize

namespace LlamaMmap

section Align

variable {k first last x : ℕ}

theorem wholePage_iff {p : ℕ} (hp : 0 < p) :
    WholePage p (first, last) (x / p) ↔ Align.roundUp first p ≤ x ∧ x < last / p * p := by
  have hstart : Align.roundUp first p ≤ x ↔ first ≤ x / p * p := by
    rw [← Align.roundUp_le_mul hp]
    refine ⟨fun h => ?_, fun h => h.trans (Nat.div_mul_le_self x p)⟩
    exact Nat.mul_le_mul_right p ((Nat.le_div_iff_mul_le hp).2 h)
  have hend : x < last / p * p ↔ (x / p + 1) * p ≤ last := by
    rw [← Nat.div_lt_iff_lt_mul hp, ← Nat.le_div_iff_mul_le hp]
    exact Iff.rfl
  rw [hstart, hend]
  exact Iff.rfl

theorem alignRange_eq (hk : k < 31) (hfirst : first + 2 ^ k ≤ 2 ^ 64) (hlast : last < 2 ^ 64) :
    alignRange first last (2 ^ k) =
      (Align.roundUp first (2 ^ k), max (Align.roundUp first (2 ^ k)) (last / 2 ^ k * 2 ^ k)) := by
  have hpos := Nat.two_pow_pos k
  have hmod : (if first % 2 ^ k = 0 then 0 else 2 ^ k - first % 2 ^ k) =
      (2 ^ k - first % 2 ^ k) % 2 ^ k := by
    have := Nat.mod_lt first hpos
    split_ifs with h
    · simp [h]
    · exact (Nat.mod_eq_of_lt (by omega)).symm
  have hlt := (Align.roundUp_lt (x := first) hpos).trans_le hfirst
  unfold alignRange
  simp only [Nat.and_two_pow_sub_one_eq_mod, hmod, Align.add_sub_mod_mod hpos,
    Align.and_two_pow_sub hlast (by omega : k ≤ 64), Nat.mod_eq_of_lt hlt, Prod.mk.injEq, true_and]
  split_ifs <;> omega

end Align

/-! ## One range -/

theorem newFragments_refines {first last : ℕ} {frag : ℕ × ℕ} (hlt : first < last)
    (hfrag : frag.1 < frag.2) : Refines frag (newFragments first last frag) := by
  unfold newFragments
  split_ifs with h1 h2 h3 h4
  · refine ⟨⟨?_, ?_⟩, ?_⟩ <;> simp <;> omega
  · refine ⟨.single h2.1, ?_⟩
    simp
    omega
  · refine ⟨.single h3.2, ?_⟩
    simp
    omega
  · exact .nil
  · exact .self hfrag

theorem covered_newFragments {first last : ℕ} {frag : ℕ × ℕ} (hlt : first < last) :
    covered (newFragments first last frag) = Set.Ico frag.1 frag.2 \ Set.Ico first last := by
  ext x
  unfold newFragments
  split_ifs <;> simp <;> omega

/-- A fragment starts where one did before, or where the range ends. -/
theorem start_of_newFragments {first last : ℕ} {frag q : ℕ × ℕ}
    (hq : q ∈ newFragments first last frag) : q.1 = frag.1 ∨ q.1 = last := by
  unfold newFragments at hq
  split_ifs at hq <;> simp at hq
  · rcases hq with rfl | rfl <;> simp
  · simp [hq]
  · simp [hq]
  · simp [hq]

/-- The fragments are in order, and start at pages. -/
structure Paged (pageSize : ℕ) (m : LlamaMmap) : Prop where
  ordered : Ordered m.mappedFragments
  aligned : ∀ frag ∈ m.mappedFragments, pageSize ∣ frag.1

theorem pages_iff {p a b page : ℕ} (hp : 0 < p) (ha : p ∣ a) :
    page ∈ (Munmap.mk a (b - a)).pages p ↔ a ≤ page * p ∧ page * p < b := by
  obtain ⟨n, rfl⟩ := ha
  simp only [Munmap.pages, Set.mem_ofPred_eq]
  refine ⟨?_, fun h => ⟨page * p, h.1, by omega, Nat.mul_div_cancel _ hp⟩⟩
  rintro ⟨x, hle, hlt, rfl⟩
  have hstart := Nat.div_mul_le_self x p
  refine ⟨?_, by omega⟩
  rw [Nat.mul_comm p n] at hle ⊢
  exact Nat.mul_le_mul_right p ((Nat.le_div_iff_mul_le hp).2 hle)

/-- What a range does: its whole pages are given back, in at most one call. -/
theorem unmapFragment_spec {k first last : ℕ} {m : LlamaMmap} (hk : k < 31)
    (hfirst : first + 2 ^ k ≤ 2 ^ 64) (hlast : last < 2 ^ 64) (hm : m.Paged (2 ^ k)) :
    ∃ calls m', m.unmapFragment (2 ^ k) first last = .ok (calls, m') ∧ calls.length ≤ 1 ∧
      (∀ call ∈ calls, call.Valid (2 ^ k)) ∧
      (∀ page, GivesBack (2 ^ k) calls page ↔ WholePage (2 ^ k) (first, last) page) ∧
      m'.Paged (2 ^ k) ∧ ∀ x, x ∈ covered m'.mappedFragments ↔
        x ∈ covered m.mappedFragments ∧ ¬ WholePage (2 ^ k) (first, last) (x / 2 ^ k) := by
  have hpos := Nat.two_pow_pos k
  have hwhole : ∀ page, WholePage (2 ^ k) (first, last) page ↔
      Align.roundUp first (2 ^ k) ≤ page * 2 ^ k ∧ page * 2 ^ k < last / 2 ^ k * 2 ^ k := by
    intro page
    have : WholePage (2 ^ k) (first, last) (page * 2 ^ k / 2 ^ k) ↔ _ := wholePage_iff hpos
    rwa [Nat.mul_div_cancel _ hpos] at this
  have hbytes : ∀ x, WholePage (2 ^ k) (first, last) (x / 2 ^ k) ↔
      Align.roundUp first (2 ^ k) ≤ x ∧ x < last / 2 ^ k * 2 ^ k := fun x => wholePage_iff hpos
  have hend : 2 ^ k ∣ last / 2 ^ k * 2 ^ k := Nat.dvd_mul_left ..
  have hdvd : 2 ^ k ∣ Align.roundUp first (2 ^ k) := Align.dvd_roundUp
  unfold unmapFragment
  rw [alignRange_eq hk hfirst hlast]
  generalize Align.roundUp first (2 ^ k) = a at *
  generalize last / 2 ^ k * 2 ^ k = b at *
  by_cases hlt : a < b
  · rw [max_eq_right hlt.le]
    refine ⟨[⟨a, b - a⟩], ⟨m.size, m.mappedFragments.flatMap (newFragments a b)⟩, ?_, le_rfl, ?_,
      fun page => ?_, ⟨?_, ?_⟩, fun x => ?_⟩
    · simp [Nat.mod_eq_zero_of_dvd hdvd, Nat.mod_eq_zero_of_dvd hend, hlt,
        Nat.sub_ne_zero_of_lt hlt]
      rfl
    · intro call hcall
      rw [List.mem_singleton.1 hcall]
      exact ⟨hdvd, Nat.sub_pos_of_lt hlt⟩
    · rw [hwhole, ← pages_iff hpos hdvd]
      simp [GivesBack]
    · exact hm.ordered.flatMap fun frag h => newFragments_refines hlt (hm.ordered.nonempty frag h)
    · intro q hq
      obtain ⟨frag, hfrag, hq⟩ := List.mem_flatMap.1 hq
      rcases start_of_newFragments hq with h | h <;> rw [h]
      · exact hm.aligned frag hfrag
      · exact hend
    · rw [hbytes, Fragments.covered_flatMap fun frag _ => covered_newFragments hlt]
      exact Iff.rfl
  · rw [max_eq_left (not_lt.1 hlt)]
    refine ⟨[], m, by simp; rfl, by simp, by simp, fun page => ?_, hm, fun x => ?_⟩
    · rw [hwhole]
      simp [GivesBack]
      omega
    · rw [hbytes]
      refine ⟨fun h => ⟨h, ?_⟩, fun h => h.1⟩
      omega

/-! ## Any ranges -/

theorem givesBack_append {p page : ℕ} {calls calls' : List Munmap} :
    GivesBack p (calls ++ calls') page ↔ GivesBack p calls page ∨ GivesBack p calls' page := by
  simp [GivesBack, or_and_right, exists_or]

/-- The calls remove no page twice. -/
def Apart (p : ℕ) (calls : List Munmap) : Prop :=
  calls.Pairwise fun c c' => Disjoint (c.pages p) (c'.pages p)

theorem apart_append {p : ℕ} {calls calls' : List Munmap} :
    Apart p (calls ++ calls') ↔ Apart p calls ∧ Apart p calls' ∧
      ∀ page, GivesBack p calls page → ¬ GivesBack p calls' page := by
  unfold Apart
  rw [List.pairwise_append]
  refine and_congr_right fun _ => and_congr_right fun _ =>
    ⟨fun h page => ?_, fun h c hc c' hc' => ?_⟩
  · rintro ⟨c, hc, hin⟩ ⟨c', hc', hin'⟩
    exact Set.disjoint_left.1 (h c hc c' hc') hin hin'
  · exact Set.disjoint_left.2 fun page hin hin' => h page ⟨c, hc, hin⟩ ⟨c', hc', hin'⟩

theorem apart_of_length_le {p : ℕ} {calls : List Munmap} (h : calls.length ≤ 1) :
    Apart p calls := by
  rcases calls with _ | ⟨c, _ | ⟨c', calls⟩⟩
  · exact .nil
  · exact List.pairwise_singleton _ _
  · simp at h

theorem unmapFragments_spec {k : ℕ} {m : LlamaMmap} {ranges : List (ℕ × ℕ)} (hk : k < 31)
    (hranges : ∀ r ∈ ranges, r.1 + 2 ^ k ≤ 2 ^ 64 ∧ r.2 < 2 ^ 64) (hm : m.Paged (2 ^ k)) :
    ∃ calls m', m.unmapFragments (2 ^ k) ranges = .ok (calls, m') ∧
      (ranges.Pairwise (fun r r' => ∀ page,
        WholePage (2 ^ k) r page → ¬ WholePage (2 ^ k) r' page) → Apart (2 ^ k) calls) ∧
      (∀ call ∈ calls, call.Valid (2 ^ k)) ∧
      (∀ page, GivesBack (2 ^ k) calls page ↔ ∃ r ∈ ranges, WholePage (2 ^ k) r page) ∧
      m'.Paged (2 ^ k) ∧ ∀ x, x ∈ covered m'.mappedFragments ↔
        x ∈ covered m.mappedFragments ∧ ∀ r ∈ ranges, ¬ WholePage (2 ^ k) r (x / 2 ^ k) := by
  induction ranges using List.reverseRecOn with
  | nil => exact ⟨[], m, rfl, fun _ => .nil, by simp, by simp [GivesBack], hm, by simp⟩
  | append_singleton ranges r ih =>
    obtain ⟨calls, m₁, hrun, hapart, hvalid, hpages, hm₁, hcovered⟩ :=
      ih fun r hr => hranges r (List.mem_append_left _ hr)
    obtain ⟨hfirst, hlast⟩ := hranges r (by simp)
    obtain ⟨call, m₂, hstep, hlength, hvalid', hpages', hm₂, hcovered'⟩ :=
      unmapFragment_spec hk hfirst hlast hm₁
    refine ⟨calls ++ call, m₂, ?_, fun hdisjoint => ?_, fun c hc => ?_, fun page => ?_, hm₂,
      fun x => ?_⟩
    · unfold unmapFragments at hrun ⊢
      rw [List.foldlM_append, hrun]
      change ((m₁.unmapFragment (2 ^ k) r.1 r.2).bind _).bind _ = _
      rw [hstep]
      rfl
    · rw [List.pairwise_append] at hdisjoint
      refine apart_append.2 ⟨hapart hdisjoint.1, apart_of_length_le hlength, fun page h => ?_⟩
      obtain ⟨r', hr', hwhole⟩ := (hpages page).1 h
      rw [hpages']
      exact hdisjoint.2.2 r' hr' r (List.mem_singleton_self r) page hwhole
    · rcases List.mem_append.1 hc with hc | hc
      · exact hvalid c hc
      · exact hvalid' c hc
    · rw [givesBack_append, hpages, hpages']
      simp [or_and_right, exists_or]
    · rw [hcovered', hcovered]
      simp [or_imp, forall_and, and_assoc]

theorem paged_ofFile {size : ℕ} (pageSize : ℕ) (hsize : 0 < size) :
    (ofFile size).Paged pageSize :=
  ⟨.single hsize, by simp [ofFile]⟩

/-- The destructor gives back each page of the fragments, and none of them twice. -/
theorem Paged.destroy {p : ℕ} {m : LlamaMmap} (hp : 0 < p) (hm : m.Paged p) :
    (∀ page, GivesBack p m.destroy page ↔ page * p ∈ covered m.mappedFragments) ∧
    Apart p m.destroy ∧ ∀ call ∈ m.destroy, call.Valid p := by
  refine ⟨fun page => ?_, ?_, ?_⟩
  · have hpage : ∀ frag ∈ m.mappedFragments,
        page ∈ (Munmap.mk frag.1 (frag.2 - frag.1)).pages p ↔ page * p ∈ Set.Ico frag.1 frag.2 :=
      fun frag hfrag => pages_iff hp (hm.aligned frag hfrag)
    refine ⟨fun h => ?_, fun h => ?_⟩
    · obtain ⟨call, hcall, hin⟩ := h
      obtain ⟨frag, hfrag, rfl⟩ := List.mem_map.1 hcall
      exact ⟨frag, hfrag, (hpage frag hfrag).1 hin⟩
    · obtain ⟨frag, hfrag, hin⟩ := h
      exact ⟨_, List.mem_map_of_mem hfrag, (hpage frag hfrag).2 hin⟩
  · unfold Apart LlamaMmap.destroy
    refine List.pairwise_map.2 (hm.ordered.behind.imp_of_mem fun {f g} hf hg hle => ?_)
    refine Set.disjoint_left.2 fun page h h' => ?_
    rw [pages_iff hp (hm.aligned f hf)] at h
    rw [pages_iff hp (hm.aligned g hg)] at h'
    omega
  · intro call hcall
    obtain ⟨frag, hfrag, rfl⟩ := List.mem_map.1 hcall
    exact ⟨hm.aligned frag hfrag, Nat.sub_pos_of_lt (hm.ordered.nonempty frag hfrag)⟩

/-- When no page is in two ranges, the calls and the destructor give back each page once. -/
theorem accounts_of_apart {k size : ℕ} {ranges : List (ℕ × ℕ)} {calls : List Munmap} {m : LlamaMmap}
    (hapart : Apart (2 ^ k) calls) (hranges : ∀ r ∈ ranges, r.2 ≤ size)
    (hpages : ∀ page, GivesBack (2 ^ k) calls page ↔ ∃ r ∈ ranges, WholePage (2 ^ k) r page)
    (hm : m.Paged (2 ^ k)) (hcovered : ∀ x, x ∈ covered m.mappedFragments ↔
      x < size ∧ ∀ r ∈ ranges, ¬ WholePage (2 ^ k) r (x / 2 ^ k)) :
    Apart (2 ^ k) (calls ++ m.destroy) ∧
      ∀ page, GivesBack (2 ^ k) (calls ++ m.destroy) page ↔ page * 2 ^ k < size := by
  have hpos := Nat.two_pow_pos k
  obtain ⟨hback, hdisjoint, -⟩ := hm.destroy hpos
  have hdestroy : ∀ page, GivesBack (2 ^ k) m.destroy page ↔
      page * 2 ^ k < size ∧ ¬ GivesBack (2 ^ k) calls page := fun page => by
    rw [hback, hcovered, hpages, Nat.mul_div_cancel _ hpos]
    simp
  refine ⟨apart_append.2 ⟨hapart, hdisjoint, fun page h h' => ((hdestroy page).1 h').2 h⟩,
    fun page => ?_⟩
  rw [givesBack_append, hdestroy]
  refine ⟨fun h => ?_, fun h => ?_⟩
  · rcases h with h | h
    · obtain ⟨r, hr, hwhole⟩ := (hpages page).1 h
      have := hwhole.2.trans (hranges r hr)
      rw [Nat.succ_mul] at this
      omega
    · exact h.1
  · by_cases hcall : GivesBack (2 ^ k) calls page
    · exact .inl hcall
    · exact .inr ⟨h, hcall⟩

/-- After any ranges the fragments are the bytes of the pages that lie in none of them, and the
destructor gives back, once, each page of the mapping that no range did. -/
theorem unmapFragments_destroy {k size : ℕ} {ranges : List (ℕ × ℕ)} (hk : k < 31) (hsize : 0 < size)
    (hranges : ∀ r ∈ ranges, r.1 + 2 ^ k ≤ 2 ^ 64 ∧ r.2 < 2 ^ 64) :
    ∃ calls m, (ofFile size).unmapFragments (2 ^ k) ranges = .ok (calls, m) ∧
      Ordered m.mappedFragments ∧
      (∀ x, x ∈ covered m.mappedFragments ↔
        x < size ∧ ∀ r ∈ ranges, ¬ WholePage (2 ^ k) r (x / 2 ^ k)) ∧
      (ranges.Pairwise (fun r r' => ∀ page,
        WholePage (2 ^ k) r page → ¬ WholePage (2 ^ k) r' page) → Apart (2 ^ k) calls) ∧
      (∀ page, GivesBack (2 ^ k) calls page ↔ ∃ r ∈ ranges, WholePage (2 ^ k) r page) ∧
      (∀ page, GivesBack (2 ^ k) m.destroy page ↔
        page * 2 ^ k < size ∧ ¬ GivesBack (2 ^ k) calls page) ∧
      Apart (2 ^ k) m.destroy ∧ ∀ call ∈ calls ++ m.destroy, call.Valid (2 ^ k) := by
  have hpos := Nat.two_pow_pos k
  obtain ⟨calls, m, hrun, hapart, hvalid, hpages, hm, hcovered⟩ :=
    unmapFragments_spec hk hranges (paged_ofFile _ hsize)
  have hbytes : ∀ x, x ∈ covered m.mappedFragments ↔
      x < size ∧ ∀ r ∈ ranges, ¬ WholePage (2 ^ k) r (x / 2 ^ k) := fun x => by
    rw [hcovered]
    simp [ofFile]
  obtain ⟨hback, hdisjoint, hvalid'⟩ := hm.destroy hpos
  refine ⟨calls, m, hrun, hm.ordered, hbytes, hapart, hpages, fun page => ?_, hdisjoint,
    fun call hc => ?_⟩
  · rw [hback, hbytes, hpages, Nat.mul_div_cancel _ hpos]
    simp
  · rcases List.mem_append.1 hc with hc | hc
    · exact hvalid call hc
    · exact hvalid' call hc

/-- Three ranges of a file of a little more than seven pages, of which two overlap. -/
theorem unmapFragments_destroy_overlap :
    ∃ calls m, (ofFile 29).unmapFragments (2 ^ 2) [(0, 10), (5, 14), (17, 29)] = .ok (calls, m) ∧
      m.mappedFragments = [(12, 20), (28, 29)] ∧ Ordered m.mappedFragments ∧
      Apart (2 ^ 2) m.destroy := by
  have hrun : ((ofFile 29).unmapFragments (2 ^ 2) [(0, 10), (5, 14), (17, 29)]).toOption.map
      (·.2.mappedFragments) = some [(12, 20), (28, 29)] := by decide
  obtain ⟨calls, m, hok, hordered, -, -, -, -, hapart, -⟩ := unmapFragments_destroy
    (show 2 < 31 by decide) (show 0 < 29 by decide)
    (show ∀ r ∈ [(0, 10), (5, 14), (17, 29)], r.1 + 2 ^ 2 ≤ 2 ^ 64 ∧ r.2 < 2 ^ 64 by decide)
  rw [hok] at hrun
  exact ⟨calls, m, hok, Option.some.inj hrun, hordered, hapart⟩

end LlamaMmap

end LamaServer

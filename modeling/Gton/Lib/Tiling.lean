import Mathlib.Data.Set.Lattice
import Mathlib.Data.List.Pairwise
import Mathlib.Data.List.Perm.Basic
import Mathlib.Order.CompletePartialOrder

/-!
# Tilings

A list of tiles, none of them empty, that fill a region and do not overlap; and how a tiling
splits along a cut that no tile crosses.
-/

namespace Gton.Lib.Tiling

open List

variable {ι κ X : Type} {tile : ι → Set X} {region left right : Set X} {l : List ι} {p : ι → Bool}

/-- The tiles of a list are pairwise disjoint and fill the region. -/
structure Tiles (tile : ι → Set X) (region : Set X) (l : List ι) : Prop where
  inhabited : ∀ i ∈ l, (tile i).Nonempty
  disjoint : l.Pairwise fun i j => Disjoint (tile i) (tile j)
  fills : ∀ x, x ∈ region ↔ ∃ i ∈ l, x ∈ tile i

namespace Tiles

section

variable (h : Tiles tile region l) {i : ι}

include h

theorem subset (mem : i ∈ l) : tile i ⊆ region := by
  intro x hx
  exact (h.fills x).mpr ⟨i, mem, hx⟩

theorem ne_nil (ne : region.Nonempty) : l ≠ [] := by
  rintro rfl
  obtain ⟨x, hx⟩ := ne
  obtain ⟨i, mem, -⟩ := (h.fills x).mp hx
  cases mem

omit h in
theorem single (ne : (tile i).Nonempty) : Tiles tile (tile i) [i] where
  inhabited := by simpa using ne
  disjoint := pairwise_singleton _ _
  fills := by simp

theorem eq_single (mem : i ∈ l) (whole : tile i = region) : l = [i] := by
  have alone (j : ι) (hj : j ∈ l) : ¬ Disjoint (tile j) (tile i) := by
    intro apart
    obtain ⟨x, hx⟩ := h.inhabited j hj
    apply Set.disjoint_left.mp apart hx
    rw [whole]
    exact h.subset hj hx
  obtain ⟨before, after, rfl⟩ := append_of_mem mem
  obtain ⟨-, later, cross⟩ := pairwise_append.mp h.disjoint
  have noneAfter : after = [] := by
    apply eq_nil_iff_forall_not_mem.mpr
    intro j hj
    exact alone j (by simp [hj]) ((pairwise_cons.mp later).1 j hj).symm
  have noneBefore : before = [] := by
    apply eq_nil_iff_forall_not_mem.mpr
    intro j hj
    exact alone j (by simp [hj]) (cross j hj i (by simp))
  rw [noneBefore, noneAfter, nil_append]

theorem perm {l' : List ι} (same : l.Perm l') : Tiles tile region l' where
  inhabited := fun i mem => h.inhabited i (same.mem_iff.mpr mem)
  disjoint := (same.pairwise_iff fun apart => Disjoint.symm apart).mp h.disjoint
  fills := fun x => by simp only [h.fills x, same.mem_iff]

theorem eq_of_mem {j : ι} (hi : i ∈ l) (hj : j ∈ l) {x : X} (xi : x ∈ tile i) (xj : x ∈ tile j) :
    i = j := by
  by_contra ne
  have apart := h.disjoint.forall hi hj ne
  exact Set.disjoint_left.mp apart xi xj

theorem nodup : l.Nodup := by
  apply h.disjoint.imp_of_mem
  rintro i j hi - apart rfl
  obtain ⟨x, hx⟩ := h.inhabited i hi
  exact Set.disjoint_left.mp apart hx hx

end

variable {part : Set X}

theorem exchange {old new rest : List ι} (h : Tiles tile region (old ++ rest))
    (ho : Tiles tile part old) (hn : Tiles tile part new) : Tiles tile region (new ++ rest) where
  inhabited := by
    intro i mem
    rcases mem_append.mp mem with inNew | inRest
    · exact hn.inhabited i inNew
    · exact h.inhabited i (mem_append_right _ inRest)
  disjoint := by
    obtain ⟨-, others, cross⟩ := pairwise_append.mp h.disjoint
    refine pairwise_append.mpr ⟨hn.disjoint, others, ?_⟩
    intro i hi j hj
    rw [Set.disjoint_left]
    intro x xi
    obtain ⟨k, hk, xk⟩ := (ho.fills x).mp (hn.subset hi xi)
    exact Set.disjoint_left.mp (cross k hk j hj) xk
  fills := by
    intro x
    have inNew := hn.fills x
    rw [ho.fills x] at inNew
    rw [h.fills x]
    simp only [mem_append, or_and_right, exists_or, inNew]

theorem restrict {q : ι → Bool} (h : Tiles tile region l) (sub : part ⊆ region)
    (inside : ∀ i ∈ l, q i = true → tile i ⊆ part)
    (outside : ∀ i ∈ l, q i = false → Disjoint (tile i) part) : Tiles tile part (l.filter q) where
  inhabited := fun i mem => h.inhabited i (mem_of_mem_filter mem)
  disjoint := h.disjoint.filter _
  fills := by
    intro x
    constructor
    · intro hx
      obtain ⟨i, mem, hi⟩ := (h.fills x).mp (sub hx)
      cases side : q i with
      | true => exact ⟨i, mem_filter.mpr ⟨mem, side⟩, hi⟩
      | false => exact absurd hx (Set.disjoint_left.mp (outside i mem side) hi)
    · rintro ⟨i, mem, hi⟩
      obtain ⟨mem, side⟩ := mem_filter.mp mem
      exact inside i mem side hi

end Tiles

theorem tiles_map {f : κ → ι} {l : List κ} :
    Tiles tile region (l.map f) ↔ Tiles (fun k => tile (f k)) region l := by
  constructor
  · intro h
    refine ⟨fun k mem => h.inhabited (f k) (mem_map_of_mem mem), ?_,
      fun x => by rw [h.fills x]; simp⟩
    have disjoint := h.disjoint
    rwa [pairwise_map] at disjoint
  · intro h
    refine ⟨?_, ?_, fun x => by rw [h.fills x]; simp⟩
    · intro i mem
      obtain ⟨k, hk, rfl⟩ := mem_map.mp mem
      exact h.inhabited k hk
    · rw [pairwise_map]
      exact h.disjoint

/-- A relation that holds within both halves of a list and across them holds on the list. -/
theorem pairwise_of_filter {R : ι → ι → Prop} :
    ∀ {l : List ι}, (l.filter p).Pairwise R → (l.filter (!p ·)).Pairwise R →
      (∀ i ∈ l, ∀ j ∈ l, p i ≠ p j → R i j) → l.Pairwise R := by
  intro l
  induction l with
  | nil => intros; exact List.Pairwise.nil
  | cons i l ih =>
    intro inside outside cross
    have rest := ih (inside.sublist ((sublist_cons_self i l).filter p))
      (outside.sublist ((sublist_cons_self i l).filter _))
      (fun a ha b hb => cross a (by simp [ha]) b (by simp [hb]))
    refine pairwise_cons.mpr ⟨?_, rest⟩
    intro j hj
    by_cases same : p i = p j
    · cases side : p i with
      | true =>
        rw [filter_cons_of_pos side] at inside
        exact (pairwise_cons.mp inside).1 j (by simp [hj, ← same, side])
      | false =>
        rw [filter_cons_of_pos (by simp [side])] at outside
        exact (pairwise_cons.mp outside).1 j (by simp [hj, ← same, side])
    · exact cross i (by simp) j (by simp [hj]) same

theorem tiles_split (apart : Disjoint left right) (inLeft : ∀ i ∈ l, p i = true → tile i ⊆ left)
    (inRight : ∀ i ∈ l, p i = false → tile i ⊆ right) :
    Tiles tile (left ∪ right) l ↔
      Tiles tile left (l.filter p) ∧ Tiles tile right (l.filter (!p ·)) := by
  constructor
  · intro h
    constructor
    · apply h.restrict Set.subset_union_left inLeft
      intro i mem out
      exact apart.symm.mono_left (inRight i mem out)
    · apply h.restrict Set.subset_union_right
      · intro i mem side
        exact inRight i mem (by simpa using side)
      · intro i mem out
        exact apart.mono_left (inLeft i mem (by simpa using out))
  · rintro ⟨hl, hr⟩
    refine ⟨?_, pairwise_of_filter hl.disjoint hr.disjoint ?_, ?_⟩
    · intro i mem
      cases side : p i with
      | true => exact hl.inhabited i (mem_filter.mpr ⟨mem, side⟩)
      | false => exact hr.inhabited i (mem_filter.mpr ⟨mem, by simp [side]⟩)
    · intro i hi j hj differ
      cases side : p i with
      | true =>
        have other : p j = false := by simpa [side] using differ.symm
        exact apart.mono (inLeft i hi side) (inRight j hj other)
      | false =>
        have other : p j = true := by simpa [side] using differ.symm
        exact (apart.mono (inLeft j hj other) (inRight i hi side)).symm
    · intro x
      constructor
      · rintro (hx | hx)
        · obtain ⟨i, mem, inside⟩ := (hl.fills x).mp hx
          exact ⟨i, mem_of_mem_filter mem, inside⟩
        · obtain ⟨i, mem, inside⟩ := (hr.fills x).mp hx
          exact ⟨i, mem_of_mem_filter mem, inside⟩
      · rintro ⟨i, mem, inside⟩
        cases side : p i with
        | true => exact .inl (inLeft i mem side inside)
        | false => exact .inr (inRight i mem side inside)

end Gton.Lib.Tiling

import Mathlib.Data.List.Pairwise
import Mathlib.Data.List.Sort
import Std.Data.ExtTreeMap

/-!
# Sorting by a key

A list whose items have distinct keys is sorted in one way only, so its order does not matter.
-/

namespace Gton.Lib.Sorted

variable {α κ : Type} {cmp : κ → κ → Ordering} {key : α → κ} {l l' : List α}

instance total_isLE [Std.TransCmp cmp] :
    Std.Total fun x y : α => (cmp (key x) (key y)).isLE = true where
  total x y := by
    have swap : cmp (key x) (key y) = (cmp (key y) (key x)).swap := Std.OrientedCmp.eq_swap
    cases order : cmp (key y) (key x) <;> simp [swap, order]

instance trans_isLE [Std.TransCmp cmp] :
    IsTrans α fun x y => (cmp (key x) (key y)).isLE = true where
  trans _ _ _ := Std.TransCmp.isLE_trans

theorem eq_of_isLE [Std.TransCmp cmp] [Std.LawfulEqCmp cmp] {k k' : κ}
    (le : (cmp k k').isLE = true) (ge : (cmp k' k).isLE = true) : k = k' :=
  Std.LawfulEqCmp.eq_of_compare (Std.OrientedCmp.isLE_antisymm le ge)

section Unique

variable (cmp) (key) [Std.TransCmp cmp] [Std.LawfulEqCmp cmp]

/-- Two sorted lists of the same items, none of them with the key of another. -/
theorem eq_of_perm_of_sorted (same : l.Perm l')
    (unique : ∀ x ∈ l, ∀ y ∈ l, key x = key y → x = y)
    (sorted : l.Pairwise fun x y => (cmp (key x) (key y)).isLE = true)
    (sorted' : l'.Pairwise fun x y => (cmp (key x) (key y)).isLE = true) : l = l' := by
  apply same.eq_of_pairwise _ sorted sorted'
  intro x y hx hy le ge
  exact unique x hx y (same.mem_iff.mpr hy) (eq_of_isLE le ge)

theorem insertionSort_eq_of_perm (same : l.Perm l')
    (unique : ∀ x ∈ l, ∀ y ∈ l, key x = key y → x = y) :
    l.insertionSort (fun x y => (cmp (key x) (key y)).isLE = true) =
      l'.insertionSort fun x y => (cmp (key x) (key y)).isLE = true := by
  have toList := List.perm_insertionSort (fun x y => (cmp (key x) (key y)).isLE = true) l
  have toList' := List.perm_insertionSort (fun x y => (cmp (key x) (key y)).isLE = true) l'
  apply eq_of_perm_of_sorted cmp key (toList.trans (same.trans toList'.symm))
  · intro x hx y hy
    exact unique x (toList.mem_iff.mp hx) y (toList.mem_iff.mp hy)
  · exact List.pairwise_insertionSort _ _
  · exact List.pairwise_insertionSort _ _

end Unique

theorem eq_of_mem_owned {β : Type} {owned : α → List β} (distinct : (l.flatMap owned).Nodup)
    {x y : α} (hx : x ∈ l) (hy : y ∈ l) {b : β} (mem : b ∈ owned x) (mem' : b ∈ owned y) :
    x = y := by
  by_contra ne
  obtain ⟨-, apart⟩ := List.nodup_flatMap.mp distinct
  have symm : Std.Symm (Function.onFun List.Disjoint owned) :=
    ⟨fun _ _ disjoint _ mem mem' => disjoint mem' mem⟩
  exact apart.forall hx hy ne mem mem'

theorem nodup_map_of_flatMap {β : Type} {f : α → β} {owned : α → List β}
    (mem : ∀ x ∈ l, f x ∈ owned x) (distinct : (l.flatMap owned).Nodup) : (l.map f).Nodup := by
  obtain ⟨-, apart⟩ := List.nodup_flatMap.mp distinct
  rw [List.Nodup, List.pairwise_map]
  apply apart.imp_of_mem
  intro x y hx hy disjoint same
  exact disjoint (mem x hx) (same ▸ mem y hy)

end Gton.Lib.Sorted

import Gton.MsgPool.Run

/-!
# The indexes of a run

`byKey` and `byEnv` find the queued entries. One statement covers both, for a projection of the
message, and every operation of a run keeps it.
-/

namespace Gton.MsgPool

open List Function

variable {K : Type} [DecidableEq K] {proj : InternalMessage → K} {index : K → Option Nat}
  {entries kept rest : List RunEntry} {e f e : RunEntry} {i at_ : Nat}

/-- The queued entries by projection: each is found where it is, and nothing else is. -/
def Indexes (proj : InternalMessage → K) (index : K → Option Nat)
    (entries : List RunEntry) : Prop :=
  ∀ k i, index k = some i ↔ ∃ e, entries[i]? = some e ∧ e.removedAt = 0 ∧ proj e.msg = k

omit [DecidableEq K] in
theorem Indexes.empty : Indexes proj (fun _ => none) [] := by
  intro k i
  simp

omit [DecidableEq K] in
theorem Indexes.eq_none (h : Indexes proj index entries) {k : K} :
    index k = none ↔ ∀ e ∈ entries, e.removedAt = 0 → proj e.msg ≠ k := by
  constructor
  · intro none e mem live here
    obtain ⟨i, lt, at_⟩ := mem_iff_getElem.mp mem
    have := (h k i).mpr ⟨e, by rw [getElem?_eq_getElem lt, at_], live, here⟩
    rw [none] at this
    cases this
  · intro absent
    cases found : index k with
    | none => rfl
    | some i =>
      obtain ⟨e, at_, live, here⟩ := (h k i).mp found
      exact absurd here (absent e (mem_of_getElem? at_) live)

omit [DecidableEq K] in
theorem Indexes.nodup (h : Indexes proj index entries) :
    ((entries.filter (·.live)).map fun e => proj e.msg).Nodup := by
  rw [List.Nodup, pairwise_map, pairwise_filter, pairwise_iff_getElem]
  intro i j hi hj lt livei livej same
  simp only [RunEntry.live, beq_iff_eq] at livei livej
  have first := (h (proj (entries[j]).msg) i).mpr
    ⟨_, getElem?_eq_getElem hi, livei, same⟩
  have second := (h (proj (entries[j]).msg) j).mpr
    ⟨_, getElem?_eq_getElem hj, livej, rfl⟩
  rw [first] at second
  cases second
  omega

omit [DecidableEq K] in
theorem Indexes.unique (h : Indexes proj index entries) {j : Nat}
    (he : entries[i]? = some e) (hf : entries[j]? = some f) (livee : e.removedAt = 0)
    (livef : f.removedAt = 0) (same : proj e.msg = proj f.msg) : i = j := by
  have first := (h (proj f.msg) i).mpr ⟨e, he, livee, same⟩
  have second := (h (proj f.msg) j).mpr ⟨f, hf, livef, rfl⟩
  rw [first] at second
  exact Option.some.inj second

theorem getElem?_snoc :
    (entries ++ [e])[i]? = some f ↔ entries[i]? = some f ∨ (i = entries.length ∧ f = e) := by
  rw [getElem?_append]
  split
  next lt =>
    constructor
    · exact .inl
    · rintro (old | ⟨rfl, -⟩)
      · exact old
      · omega
  · rw [getElem?_singleton, getElem?_eq_none (by omega)]
    split
    · simp only [Option.some.injEq, reduceCtorEq, false_or]
      exact ⟨fun h => ⟨by omega, h.symm⟩, fun h => h.2.symm⟩
    · simp only [reduceCtorEq, false_or, false_iff]
      omega

theorem Indexes.snoc_live (h : Indexes proj index entries) (live : e.removedAt = 0)
    (new : index (proj e.msg) = none) :
    Indexes proj (Function.update index (proj e.msg) (some entries.length)) (entries ++ [e]) := by
  intro k i
  simp only [getElem?_snoc]
  by_cases here : k = proj e.msg
  · subst here
    rw [update_self]
    constructor
    · rintro ⟨⟩
      exact ⟨e, .inr ⟨rfl, rfl⟩, live, rfl⟩
    · rintro ⟨f, old | ⟨rfl, rfl⟩, livef, same⟩
      · exact absurd same ((h.eq_none.mp new) f (mem_of_getElem? old) livef)
      · rfl
  · rw [update_of_ne here, h k i]
    constructor
    · rintro ⟨f, at_, rest⟩
      exact ⟨f, .inl at_, rest⟩
    · rintro ⟨f, old | ⟨rfl, rfl⟩, livef, same⟩
      · exact ⟨f, old, livef, same⟩
      · exact absurd same.symm here

omit [DecidableEq K] in
theorem Indexes.snoc_dead (h : Indexes proj index entries) (dead : e.removedAt ≠ 0) :
    Indexes proj index (entries ++ [e]) := by
  intro k i
  simp only [getElem?_snoc]
  rw [h k i]
  constructor
  · rintro ⟨f, at_, rest⟩
    exact ⟨f, .inl at_, rest⟩
  · rintro ⟨f, old | ⟨rfl, rfl⟩, livef, same⟩
    · exact ⟨f, old, livef, same⟩
    · exact absurd livef dead

theorem Indexes.reindex (h : Indexes proj index entries) {more : List RunEntry}
    (nodup : (((entries ++ more).filter (·.live)).map fun e => proj e.msg).Nodup) :
    Indexes proj (SourceRun.reindex proj entries.length more index) (entries ++ more) := by
  induction more generalizing entries index with
  | nil => simpa [SourceRun.reindex] using h
  | cons e more ih =>
    rw [append_cons] at nodup ⊢
    unfold SourceRun.reindex
    have length : entries.length + 1 = (entries ++ [e]).length := by simp
    rw [length]
    split
    next dead =>
      exact ih (h.snoc_dead dead) nodup
    next live =>
      have live := not_not.mp live
      refine ih (h.snoc_live live (h.eq_none.mpr ?_)) nodup
      intro f mem livef same
      rw [filter_append, map_append, nodup_append, filter_append,
        map_append] at nodup
      have apart := (nodup_append.mp nodup.1).2.2 (proj f.msg)
        (mem_map.mpr ⟨f, mem_filter.mpr ⟨mem, by simp [RunEntry.live, livef]⟩, rfl⟩)
        (proj e.msg) (by simp [RunEntry.live, live])
      exact apart same

theorem indexes_reindex
    (nodup : ((entries.filter (·.live)).map fun e => proj e.msg).Nodup) :
    Indexes proj (SourceRun.reindex proj 0 entries fun _ => none) entries := by
  have start : Indexes proj (fun _ => none) [] := Indexes.empty
  exact start.reindex nodup

theorem Indexes.remove (h : Indexes proj index entries) {s : UInt32}
    (at_ : entries[i]? = some e) (live : e.removedAt = 0) (pos : s ≠ 0) :
    Indexes proj (Function.update index (proj e.msg) none)
      (entries.set i { e with removedAt := s }) := by
  have lt : i < entries.length := (List.getElem?_eq_some_iff.mp at_).1
  intro k j
  rw [getElem?_set]
  by_cases here : k = proj e.msg
  · subst here
    rw [update_self]
    simp only [reduceCtorEq, false_iff, not_exists, not_and]
    intro f found livef same
    split at found
    · cases found
      exact pos livef
    next ne =>
      exact ne (h.unique at_ found live livef same.symm)
  · rw [update_of_ne here, h k j]
    constructor
    · rintro ⟨f, found, livef, same⟩
      refine ⟨f, ?_, livef, same⟩
      rw [if_neg]
      · exact found
      · rintro rfl
        rw [at_] at found
        cases found
        exact here same.symm
    · rintro ⟨f, found, livef, same⟩
      split at found
      · cases found
        exact absurd livef pos
      · exact ⟨f, found, livef, same⟩

/-! ## The sweep -/

/-- During the sweep: what is kept is found at its new place, what is to come at its old one. -/
def Sweeping (proj : InternalMessage → K) (index : K → Option Nat) (kept : List RunEntry)
    (at_ : Nat) (rest : List RunEntry) : Prop :=
  ∀ k i, index k = some i ↔ (∃ e, kept[i]? = some e ∧ e.removedAt = 0 ∧ proj e.msg = k) ∨
    ∃ j e, i = at_ + j ∧ rest[j]? = some e ∧ e.removedAt = 0 ∧ proj e.msg = k

omit [DecidableEq K] in
theorem Indexes.sweeping (h : Indexes proj index entries) : Sweeping proj index [] 0 entries := by
  intro k i
  rw [h k i]
  simp

omit [DecidableEq K] in
theorem Sweeping.indexes (h : Sweeping proj index kept at_ []) : Indexes proj index kept := by
  intro k i
  rw [h k i]
  simp

omit [DecidableEq K] in
theorem Sweeping.drop (h : Sweeping proj index kept at_ (e :: rest)) (dead : e.removedAt ≠ 0) :
    Sweeping proj index kept (at_ + 1) rest := by
  intro k i
  rw [h k i]
  refine or_congr Iff.rfl ?_
  constructor
  · rintro ⟨j, f, rfl, found, live, same⟩
    cases j with
    | zero =>
      cases found
      exact absurd live dead
    | succ j => exact ⟨j, f, by omega, found, live, same⟩
  · rintro ⟨j, f, rfl, found, live, same⟩
    exact ⟨j + 1, f, by omega, found, live, same⟩

omit [DecidableEq K] in
theorem Sweeping.keep_dead (h : Sweeping proj index kept at_ (e :: rest)) (dead : e.removedAt ≠ 0) :
    Sweeping proj index (kept ++ [e]) (at_ + 1) rest := by
  intro k i
  rw [h.drop dead k i]
  refine or_congr ?_ Iff.rfl
  simp only [getElem?_snoc]
  constructor
  · rintro ⟨f, found, live⟩
    exact ⟨f, .inl found, live⟩
  · rintro ⟨f, found | ⟨-, rfl⟩, live, same⟩
    · exact ⟨f, found, live, same⟩
    · exact absurd live dead

/-- A queued entry moves to the end of what is kept; when it is there already, nothing is
written. -/
theorem Sweeping.keep_live (h : Sweeping proj index kept at_ (e :: rest)) (live : e.removedAt = 0)
    (le : kept.length ≤ at_) :
    Sweeping proj (if at_ ≠ kept.length then Function.update index (proj e.msg) (some kept.length)
      else index) (kept ++ [e]) (at_ + 1) rest := by
  have here := (h (proj e.msg) at_).mpr (.inr ⟨0, e, by omega, rfl, live, rfl⟩)
  have moved : (if at_ ≠ kept.length then Function.update index (proj e.msg) (some kept.length)
      else index) = Function.update index (proj e.msg) (some kept.length) := by
    split
    · rfl
    next same =>
      rw [← not_not.mp same, ← here, update_eq_self]
  rw [moved]
  intro k i
  simp only [getElem?_snoc]
  by_cases mine : k = proj e.msg
  · subst mine
    rw [update_self]
    constructor
    · rintro ⟨⟩
      exact .inl ⟨e, .inr ⟨rfl, rfl⟩, live, rfl⟩
    · rintro (⟨f, found | ⟨rfl, -⟩, livef, same⟩ | ⟨j, f, rfl, found, livef, same⟩)
      · have other := (h (proj e.msg) i).mpr (.inl ⟨f, found, livef, same⟩)
        have := (List.getElem?_eq_some_iff.mp found).1
        rw [here] at other
        cases other
        omega
      · rfl
      · have other := (h (proj e.msg) (at_ + (j + 1))).mpr
          (.inr ⟨j + 1, f, rfl, found, livef, same⟩)
        rw [here] at other
        have := Option.some.inj other
        omega
  · rw [update_of_ne mine, h k i]
    refine or_congr ?_ ?_
    · constructor
      · rintro ⟨f, found, rest⟩
        exact ⟨f, .inl found, rest⟩
      · rintro ⟨f, found | ⟨-, rfl⟩, livef, same⟩
        · exact ⟨f, found, livef, same⟩
        · exact absurd same.symm mine
    · constructor
      · rintro ⟨j, f, rfl, found, livef, same⟩
        cases j with
        | zero =>
          cases found
          exact absurd same.symm mine
        | succ j => exact ⟨j, f, by omega, found, livef, same⟩
      · rintro ⟨j, f, rfl, found, livef, same⟩
        exact ⟨j + 1, f, by omega, found, livef, same⟩

end Gton.MsgPool

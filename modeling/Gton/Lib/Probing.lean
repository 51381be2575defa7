import Mathlib.Data.List.Perm.Basic

/-!
# Linear probing

A table of slots that is searched in a circle. A slot has a home; the search for it starts there
and ends at the first slot that is free, so everything between a slot and its home has to be
taken.
-/

namespace Gton.Lib.Probing

open List

variable {σ : Type} {n : Nat} {slot : σ}

/-- The first slot from `pos` on, in a circle, at which a search stops. -/
def probe (slots : List σ) (stop : σ → Bool) : Nat → Nat → Option (Nat × σ)
  | 0, _ => none
  | fuel + 1, pos =>
    match slots[pos]? with
    | none => none
    | some slot =>
      if stop slot then some (pos, slot) else probe slots stop fuel ((pos + 1) % slots.length)

section Probe

variable {slots : List σ} {stop : σ → Bool} {fuel : Nat}

theorem next_add (pos e n : Nat) : ((pos + 1) % n + e) % n = (pos + (e + 1)) % n := by
  rw [Nat.mod_add_mod, Nat.add_assoc, Nat.add_comm 1 e]

/-- What a search has seen when it stops. -/
structure Stops (slots : List σ) (stop : σ → Bool) (pos d : Nat) (slot : σ) : Prop where
  here : slots[(pos + d) % slots.length]? = some slot
  stops : stop slot = true
  passed : ∀ e < d, ∀ other, slots[(pos + e) % slots.length]? = some other → stop other = false

theorem probe_sound : ∀ {pos q : Nat} {slot : σ}, pos < slots.length →
    probe slots stop fuel pos = some (q, slot) →
    ∃ d < fuel, q = (pos + d) % slots.length ∧ Stops slots stop pos d slot := by
  induction fuel with
  | zero =>
    intro pos q slot _ h
    cases h
  | succ fuel ih =>
    intro pos q slot lt h
    have own : pos % slots.length = pos := Nat.mod_eq_of_lt lt
    have found : slots[pos]? = some slots[pos] := getElem?_eq_getElem lt
    simp only [probe, found] at h
    split at h
    next stops =>
      cases h
      refine ⟨0, by omega, own.symm, ?_, stops, by simp⟩
      rw [Nat.add_zero, own]
      exact found
    next goes =>
      obtain ⟨d, le, rfl, spec⟩ := ih (Nat.mod_lt _ (by omega)) h
      refine ⟨d + 1, by omega, next_add pos d _, ?_, spec.stops, ?_⟩
      · rw [← next_add]
        exact spec.here
      · intro e he other there
        cases e with
        | zero =>
          rw [Nat.add_zero, own, found, Option.some.injEq] at there
          rw [← there]
          simpa using goes
        | succ e =>
          rw [← next_add] at there
          exact spec.passed e (by omega) other there

theorem probe_complete : ∀ {pos d : Nat} {slot : σ}, pos < slots.length → d < fuel →
    slots[(pos + d) % slots.length]? = some slot → stop slot = true →
    ∃ result, probe slots stop fuel pos = some result := by
  induction fuel with
  | zero =>
    intro pos d slot _ le
    omega
  | succ fuel ih =>
    intro pos d slot lt le there stops
    have own : pos % slots.length = pos := Nat.mod_eq_of_lt lt
    have found : slots[pos]? = some slots[pos] := getElem?_eq_getElem lt
    simp only [probe, found]
    split
    · exact ⟨_, rfl⟩
    next goes =>
      cases d with
      | zero =>
        rw [Nat.add_zero, own, found, Option.some.injEq] at there
        rw [there] at goes
        exact absurd stops goes
      | succ d =>
        rw [← next_add] at there
        exact ih (Nat.mod_lt _ (by omega)) (by omega) there stops

theorem exists_distance {pos p : Nat} (hpos : pos < n) (hp : p < n) :
    ∃ d < n, (pos + d) % n = p := by
  by_cases le : pos ≤ p
  · refine ⟨p - pos, by omega, ?_⟩
    rw [Nat.add_sub_cancel' le, Nat.mod_eq_of_lt hp]
  · refine ⟨p + n - pos, by omega, ?_⟩
    rw [show pos + (p + n - pos) = p + n by omega, Nat.add_mod_right, Nat.mod_eq_of_lt hp]

end Probe

/-! ## Settled tables -/

section Settled

variable {free : σ → Bool} {home : σ → Nat} {slots : List σ}

/-- Every slot from `start` on and before `p` is taken. -/
def Reaches (free : σ → Bool) (slots : List σ) (start p : Nat) : Prop :=
  ∃ d < slots.length, (start + d) % slots.length = p ∧
    ∀ e < d, ∀ slot, slots[(start + e) % slots.length]? = some slot → free slot = false

/-- No search gives up before it comes to what it looks for. -/
def Settled (free : σ → Bool) (home : σ → Nat) (slots : List σ) : Prop :=
  ∀ {p : Nat} {slot : σ}, slots[p]? = some slot → free slot = false →
    Reaches free slots (home slot % slots.length) p

/-- The slots in use. -/
def taken (free : σ → Bool) (slots : List σ) : List σ := slots.filter fun slot => !free slot

theorem mem_taken : slot ∈ taken free slots ↔ slot ∈ slots ∧ free slot = false := by
  simp [taken]

theorem settled_replicate (isFree : free slot = true) :
    Settled free home (List.replicate n slot) := by
  intro p other found used
  have same : other = slot := eq_of_mem_replicate (mem_of_getElem? found)
  rw [same, isFree] at used
  cases used

theorem taken_replicate (isFree : free slot = true) : taken free (List.replicate n slot) = [] := by
  apply filter_eq_nil_iff.mpr
  intro other mem
  rw [eq_of_mem_replicate mem]
  simp [isFree]

theorem Reaches.set {start p q : Nat} {new : σ} (h : Reaches free slots start q)
    (used : free new = false) : Reaches free (slots.set p new) start q := by
  obtain ⟨d, lt, here, passed⟩ := h
  rw [Reaches, length_set]
  refine ⟨d, lt, here, ?_⟩
  intro e he slot found
  rw [getElem?_set] at found
  split at found
  · split at found
    · cases found
      exact used
    · cases found
  · exact passed e he slot found

/-- A slot written where the search for it would end keeps the table settled. -/
theorem Settled.set {p : Nat} {new : σ} (h : Settled free home slots) (used : free new = false)
    (reaches : Reaches free slots (home new % slots.length) p) :
    Settled free home (slots.set p new) := by
  intro q slot found taken
  rw [length_set]
  rw [getElem?_set] at found
  split at found
  next same =>
    split at found
    · cases found
      rw [← same]
      exact reaches.set used
    · cases found
  · exact (h found taken).set used

theorem perm_set {p : Nat} {old new : σ} (found : slots[p]? = some old) :
    slots.Perm (old :: slots.eraseIdx p) ∧ (slots.set p new).Perm (new :: slots.eraseIdx p) := by
  obtain ⟨lt, here⟩ := List.getElem?_eq_some_iff.mp found
  constructor
  · rw [← here]
    exact (getElem_cons_eraseIdx_perm lt).symm
  · exact set_perm_cons_eraseIdx lt new

theorem taken_set_free {p : Nat} {old new : σ} (found : slots[p]? = some old)
    (isFree : free old = true) (used : free new = false) :
    (taken free (slots.set p new)).Perm (new :: taken free slots) := by
  obtain ⟨before, after⟩ := @perm_set σ slots p old new found
  have left := after.filter fun slot => !free slot
  have right := before.filter fun slot => !free slot
  rw [filter_cons_of_pos (by simp [used])] at left
  rw [filter_cons_of_neg (by simp [isFree])] at right
  exact left.trans (List.Perm.cons new right.symm)

theorem taken_set_taken {p : Nat} {old new : σ} (found : slots[p]? = some old)
    (before : free old = false) (used : free new = false) :
    ∃ rest, (taken free slots).Perm (old :: rest) ∧
      (taken free (slots.set p new)).Perm (new :: rest) := by
  obtain ⟨was, is⟩ := @perm_set σ slots p old new found
  have left := was.filter fun slot => !free slot
  have right := is.filter fun slot => !free slot
  rw [filter_cons_of_pos (by simp [before])] at left
  rw [filter_cons_of_pos (by simp [used])] at right
  exact ⟨_, left, right⟩

theorem exists_free (room : (taken free slots).length < slots.length) :
    ∃ (p : Nat) (slot : σ), slots[p]? = some slot ∧ free slot = true := by
  by_contra full
  have all : taken free slots = slots := by
    apply filter_eq_self.mpr
    intro slot mem
    obtain ⟨p, lt, here⟩ := mem_iff_getElem.mp mem
    cases isFree : free slot with
    | false => rfl
    | true =>
      refine absurd ⟨p, slot, ?_, isFree⟩ full
      rw [getElem?_eq_getElem lt, here]
  rw [all] at room
  omega

variable {hit : σ → Bool}

theorem probe_hit {p start : Nat} (h : Settled free home slots)
    (found : slots[p]? = some slot) (hits : hit slot = true) (used : free slot = false)
    (starts : home slot % slots.length = start) :
    ∃ q other, probe slots (fun s => free s || hit s) slots.length start = some (q, other) ∧
      slots[q]? = some other ∧ hit other = true := by
  obtain ⟨d, lt, here, passed⟩ := h found used
  rw [starts] at here passed
  have inside : start < slots.length := by
    rw [← starts]
    exact Nat.mod_lt _ (by omega)
  rw [← here] at found
  have search := @probe_complete σ slots (fun s => free s || hit s) slots.length
  obtain ⟨⟨q, other⟩, ends⟩ := search inside lt found (by simp [hits])
  obtain ⟨e, -, rfl, spec⟩ := probe_sound inside ends
  refine ⟨_, other, ends, spec.here, ?_⟩
  have stops := spec.stops
  by_cases before : e < d
  · simpa [passed e before other spec.here] using stops
  · have first : ¬ d < e := by
      intro later
      have missed := spec.passed d later slot found
      simp [hits] at missed
    have same : e = d := by omega
    have there := spec.here
    rw [same, found, Option.some.injEq] at there
    rw [← there]
    exact hits

theorem probe_miss {start : Nat} (misses : ∀ slot ∈ slots, hit slot = false)
    (room : (taken free slots).length < slots.length) (inside : start < slots.length) :
    ∃ q slot, probe slots (fun s => free s || hit s) slots.length start = some (q, slot) ∧
      slots[q]? = some slot ∧ free slot = true ∧ Reaches free slots start q := by
  obtain ⟨p, slot, found, isFree⟩ := exists_free room
  obtain ⟨lt, -⟩ := List.getElem?_eq_some_iff.mp found
  obtain ⟨d, ld, here⟩ := exists_distance inside lt
  rw [← here] at found
  have search := @probe_complete σ slots (fun s => free s || hit s) slots.length
  obtain ⟨⟨q, other⟩, ends⟩ := search inside ld found (by simp [isFree])
  obtain ⟨e, le, rfl, spec⟩ := probe_sound inside ends
  refine ⟨_, other, ends, spec.here, ?_, e, le, rfl, ?_⟩
  · have stops := spec.stops
    simpa [misses other (mem_of_getElem? spec.here)] using stops
  · intro e' before s there
    have passed := spec.passed e' before s there
    simp only [Bool.or_eq_false_iff] at passed
    exact passed.1

end Settled

/-! ## Tables that are written -/

section Rehash

variable (free : σ → Bool) (home : σ → Nat)

/-- Put a slot into the first free place from its home on. -/
def place (slots : List σ) (slot : σ) : Option (List σ) :=
  (probe slots free slots.length (home slot % slots.length)).map fun found =>
    slots.set found.1 slot

/-- Put all slots in use into another table. -/
def rehash (old slots : List σ) : Option (List σ) :=
  old.foldlM (fun slots slot => if free slot then some slots else place free home slots slot) slots

variable {free home} {slots : List σ}

theorem place_spec (h : Settled free home slots) (used : free slot = false)
    (room : (taken free slots).length < slots.length) :
    ∃ slots', place free home slots slot = some slots' ∧ Settled free home slots' ∧
      slots'.length = slots.length ∧ (taken free slots').Perm (slot :: taken free slots) := by
  have inside : home slot % slots.length < slots.length := Nat.mod_lt _ (by omega)
  have search := @probe_miss σ free slots fun _ => false
  obtain ⟨q, other, ends, found, isFree, reaches⟩ := search (fun _ _ => rfl) room inside
  simp only [Bool.or_false] at ends
  refine ⟨slots.set q slot, ?_, h.set used reaches, length_set, ?_⟩
  · unfold place
    rw [ends]
    rfl
  · exact taken_set_free found isFree used

theorem rehash_spec {old : List σ} : ∀ {slots : List σ}, Settled free home slots →
    (taken free slots).length + (taken free old).length < slots.length →
    ∃ slots', rehash free home old slots = some slots' ∧ Settled free home slots' ∧
      slots'.length = slots.length ∧
      (taken free slots').Perm (taken free old ++ taken free slots) := by
  induction old with
  | nil =>
    intro slots h _
    exact ⟨slots, rfl, h, rfl, List.Perm.refl _⟩
  | cons slot old ih =>
    intro slots h room
    unfold rehash
    rw [foldlM_cons]
    cases used : free slot with
    | true =>
      have skip : taken free (slot :: old) = taken free old :=
        filter_cons_of_neg (by simp [used])
      rw [skip] at room ⊢
      exact ih h room
    | false =>
      have more : taken free (slot :: old) = slot :: taken free old :=
        filter_cons_of_pos (by simp [used])
      rw [more, length_cons] at room
      obtain ⟨middle, put, settled, length, holds⟩ := place_spec h used (by omega)
      obtain ⟨slots', rest, settled', length', holds'⟩ := ih settled (by
        rw [holds.length_eq, length_cons, length]
        omega)
      refine ⟨slots', ?_, settled', length'.trans length, ?_⟩
      · simp only [Bool.false_eq_true, if_false, put]
        exact rest
      · rw [more, cons_append]
        exact holds'.trans ((holds.append_left _).trans perm_middle)

end Rehash

end Gton.Lib.Probing

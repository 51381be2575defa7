import Gton.MsgPool.BranchTree

/-!
# Rebasing onto a committed ancestor

A rebase cuts the line of the tip below the newest applied ancestor: the child of that ancestor
becomes a root over the ancestor's queue, and all candidates below it are copied on top. Every
copy has the queue its original had. Candidates off the line are not copied; the tree is kept
when there are none.
-/

namespace Gton.MsgPool

open Gton.Shard
open Gton.Lib.Merge (Heap)
open List BranchCandidate

variable {p first committed c : BranchCandidate} {b b' : Branch} {id tip : Hash}

namespace BranchCandidate

/-- The copy: the ancestor with that id becomes a root over the base. -/
def rebaseAt (cut : Hash) (base : BranchBase) : BranchCandidate → BranchCandidate
  | root id seqno old delta => root id seqno old delta
  | child id seqno parent delta =>
    if id = cut then root id seqno base delta else child id seqno (parent.rebaseAt cut base) delta

variable {cut : Hash} {base : BranchBase} {c first committed : BranchCandidate}

@[simp] theorem id_rebaseAt (c : BranchCandidate) : (c.rebaseAt cut base).id = c.id := by
  cases c with
  | root => rfl
  | child =>
    unfold rebaseAt
    split <;> rfl

theorem Wf.rebaseAt (wf : c.Wf) (hbase : base.Wf)
    (entries : ∀ m, m ∈ base.entries ↔ m ∈ committed.queue)
    (parent : first.parent = some committed) (below : first ∈ c.lineage)
    (once : ∀ a ∈ c.lineage, a.id = first.id → a = first) :
    (c.rebaseAt first.id base).Wf ∧ (∀ m, m ∈ (c.rebaseAt first.id base).queue ↔ m ∈ c.queue) ∧
      ∀ m ∈ (c.rebaseAt first.id base).objects, m ∈ c.objects := by
  have queue : {m | m ∈ base.entries} = committed.queue := Set.ext entries
  induction c with
  | root id seqno old delta =>
    rw [mem_singleton.mp below] at parent
    cases parent
  | child id seqno p delta ih =>
    obtain ⟨wf, resolves, fresh⟩ := wf
    unfold BranchCandidate.rebaseAt
    split
    next here =>
      have same := once _ (mem_lineage_self _) here
      rw [← same] at parent
      cases parent
      have objects (m : InternalMessage) (mem : m ∈ base.entries) : m ∈ committed.objects :=
        ((wf.mem_queue m).mp ((entries m).mp mem)).1
      refine ⟨⟨hbase, queue ▸ resolves, fun a ha mem => fresh a ha (objects a mem)⟩, ?_, ?_⟩
      · intro m
        unfold BranchCandidate.queue
        rw [queue]
      · intro m mem
        rcases mem_append.mp mem with old | new
        · exact mem_append_left _ (objects m old)
        · exact mem_append_right _ new
    next other =>
      have above : first ∈ p.lineage := by
        rcases mem_cons.mp below with same | above
        · rw [same] at other
          exact absurd rfl other
        · exact above
      obtain ⟨wf', queue', objects'⟩ := ih wf above fun a ha => once a (.tail _ ha)
      refine ⟨⟨wf', resolves.congr fun m => (queue' m).symm,
        fun a ha mem => fresh a ha (objects' a mem)⟩, ?_, ?_⟩
      · intro m
        unfold BranchCandidate.queue
        rw [Set.ext queue']
      · intro m mem
        rcases mem_append.mp mem with old | new
        · exact mem_append_left _ (objects' m old)
        · exact mem_append_right _ new

theorem rebaseAt_of_parent (parent : c.parent = some p) (other : c.id ≠ cut) :
    c.rebaseAt cut base = child c.id c.seqno (p.rebaseAt cut base) c.delta := by
  cases c with
  | root => cases parent
  | child =>
    cases parent
    exact if_neg other

theorem rebaseAt_self (parent : first.parent = some committed) :
    first.rebaseAt first.id base = root first.id first.seqno base first.delta := by
  cases first with
  | root => cases parent
  | child => exact if_pos rfl

end BranchCandidate

theorem committedAncestor_spec {run : SourceRun} {tip : BranchCandidate}
    (found : Branch.committedAncestor run tip = some (first, committed)) :
    first ∈ tip.lineage ∧ first.parent = some committed := by
  induction tip with
  | root => cases found
  | child id seqno p delta ih =>
    unfold Branch.committedAncestor at found
    split at found
    · cases found
      exact ⟨.head _, rfl⟩
    · exact ⟨.tail _ (ih found).1, (ih found).2⟩

theorem Branch.Tree.id_ne_of_above (t : b.Tree []) (held : b.candidates.lookup id = some c)
    (parent : c.parent = some p) (above : first ∈ p.lineage) : c.id ≠ first.id := by
  intro same
  have below := mem_lineage_of_parent parent above
  have eq := t.eq_of_mem_lineage held (t.lineage held c c.mem_lineage_self) below same.symm
  rw [← eq] at above
  exact not_mem_lineage_parent parent above

/-! ## Copying -/

/-- The copies made so far: these ids have the copy of what the branch holds, the others what
the branch holds. -/
structure Copied (b : Branch) (first : BranchCandidate) (base : BranchBase) (done : Set Hash)
    (candidates : Map Hash BranchCandidate) : Prop where
  new : ∀ id ∈ done, ∃ c, b.candidates.lookup id = some c ∧ first ∈ c.lineage ∧
    candidates.lookup id = some (c.rebaseAt first.id base)
  old : ∀ id, id ∉ done → candidates.lookup id = b.candidates.lookup id

/-- A copy whose children are to be copied. -/
def IsCopy (b : Branch) (first : BranchCandidate) (base : BranchBase) (copy : BranchCandidate) :
    Prop :=
  ∃ c, b.candidates.lookup c.id = some c ∧ first ∈ c.lineage ∧ copy = c.rebaseAt first.id base

section Copy

variable {b : Branch} {first : BranchCandidate} {base : BranchBase} {done : Set Hash}

theorem Copied.current {candidates : Map Hash BranchCandidate}
    {current : BranchCandidate} (h : Copied b first base done candidates)
    (found : candidates.lookup id = some current) :
    ∃ c, b.candidates.lookup id = some c ∧ current.seqno = c.seqno ∧ current.delta = c.delta := by
  by_cases mem : id ∈ done
  · obtain ⟨c, held, -, copy⟩ := h.new id mem
    rw [found] at copy
    cases copy
    refine ⟨c, held, ?_⟩
    cases c with
    | root => exact ⟨rfl, rfl⟩
    | child =>
      unfold BranchCandidate.rebaseAt
      split <;> exact ⟨rfl, rfl⟩
  · rw [h.old id mem] at found
    exact ⟨current, found, rfl, rfl⟩

theorem copyChildren_spec (t : b.Tree [])
    (held : b.candidates.lookup p.id = some p) (below : first ∈ p.lineage) (ids : List Hash) :
    ∀ {done : Set Hash} {candidates candidates' : Map Hash BranchCandidate}
      {copies : List BranchCandidate}, Copied b first base done candidates →
    (∀ id ∈ ids, id ∈ b.kids p.id) →
    Branch.copyChildren (p.rebaseAt first.id base) ids candidates = some (candidates', copies) →
    Copied b first base {id | id ∈ done ∨ id ∈ ids} candidates' ∧ copies.map (·.id) = ids ∧
      ∀ copy ∈ copies, IsCopy b first base copy := by
  induction ids with
  | nil =>
    rintro done candidates candidates' copies h - ⟨⟩
    have same : {id | id ∈ done ∨ id ∈ ([] : List Hash)} = done := by simp
    rw [same]
    exact ⟨h, rfl, nofun⟩
  | cons id ids ih =>
    intro done candidates candidates' copies h kids result
    unfold Branch.copyChildren at result
    cases found : candidates.lookup id with
    | none =>
      rw [found] at result
      cases result
    | some current =>
      rw [found] at result
      dsimp only [bind, Option.bind] at result
      obtain ⟨c, original, seqno, delta⟩ := h.current found
      have parent := t.parent_of_kid held original (kids id (.head _))
      have lineage := mem_lineage_of_parent parent below
      have named := t.named original
      have other := t.id_ne_of_above original parent below
      have copied : BranchCandidate.child id current.seqno (p.rebaseAt first.id base)
          current.delta = c.rebaseAt first.id base := by
        rw [rebaseAt_of_parent parent other, seqno, delta, named]
      rw [copied] at result
      cases rest : Branch.copyChildren (p.rebaseAt first.id base) ids
          (candidates.insert id (c.rebaseAt first.id base)) with
      | none =>
        rw [rest] at result
        cases result
      | some r =>
        obtain ⟨after, later⟩ := r
        rw [rest] at result
        cases result
        have step : Copied b first base {id' | id' ∈ done ∨ id' = id}
            (candidates.insert id (c.rebaseAt first.id base)) := by
          constructor
          · intro id' mem
            by_cases here : id' = id
            · subst here
              exact ⟨c, original, lineage, AList.lookup_insert _⟩
            · obtain ⟨c', held', below', copy⟩ := h.new id' (mem.resolve_right here)
              exact ⟨c', held', below', (AList.lookup_insert_ne here).trans copy⟩
          · intro id' fresh
            obtain ⟨undone, here⟩ := not_or.mp fresh
            rw [AList.lookup_insert_ne here]
            exact h.old id' undone
        obtain ⟨all, ids', each⟩ := ih step (fun id' mem => kids id' (.tail _ mem)) rest
        have same : {id' | id' ∈ {id' | id' ∈ done ∨ id' = id} ∨ id' ∈ ids} =
            {id' | id' ∈ done ∨ id' ∈ id :: ids} := by
          ext id'
          simp only [Set.mem_ofPred_eq, mem_cons]
          tauto
        refine ⟨same ▸ all, ?_, ?_⟩
        · rw [map_cons, ids', id_rebaseAt, named]
        · intro copy mem
          rcases mem_cons.mp mem with rfl | mem
          · exact ⟨c, named.symm ▸ original, lineage, rfl⟩
          · exact each copy mem

theorem copyTree_spec (t : b.Tree []) (fuel : Nat) : ∀ {waiting : List BranchCandidate}
    {done : Set Hash} {candidates candidates' : Map Hash BranchCandidate},
    Copied b first base done candidates → (∀ copy ∈ waiting, IsCopy b first base copy) →
    (∀ id ∈ done, id ∈ waiting.map (·.id) ∨ ∀ kid ∈ b.kids id, kid ∈ done) →
    b.copyTree fuel waiting candidates = some candidates' →
    ∃ done', Copied b first base done' candidates' ∧ (∀ id ∈ done, id ∈ done') ∧
      ∀ id ∈ done', ∀ kid ∈ b.kids id, kid ∈ done' := by
  have finish {done : Set Hash} {candidates : Map Hash BranchCandidate}
      (h : Copied b first base done candidates)
      (closed : ∀ id ∈ done, id ∈ ([] : List BranchCandidate).map (·.id) ∨
        ∀ kid ∈ b.kids id, kid ∈ done) :
      ∃ done', Copied b first base done' candidates ∧ (∀ id ∈ done, id ∈ done') ∧
        ∀ id ∈ done', ∀ kid ∈ b.kids id, kid ∈ done' := by
    refine ⟨done, h, fun _ mem => mem, fun id mem => ?_⟩
    rcases closed id mem with none | kids
    · cases none
    · exact kids
  induction fuel with
  | zero =>
    intro waiting done candidates candidates' h _ closed result
    cases waiting with
    | nil =>
      cases result
      exact finish h closed
    | cons => cases result
  | succ fuel ih =>
    intro waiting done candidates candidates' h copies closed result
    cases waiting with
    | nil =>
      cases result
      exact finish h closed
    | cons parent waiting =>
      obtain ⟨p, held, below, rfl⟩ := copies parent (.head _)
      unfold Branch.copyTree at result
      rw [id_rebaseAt] at result
      cases made : Branch.copyChildren (p.rebaseAt first.id base) (b.kids p.id) candidates with
      | none =>
        rw [made] at result
        cases result
      | some r =>
        obtain ⟨after, new⟩ := r
        rw [made] at result
        obtain ⟨h', ids, each⟩ :=
          copyChildren_spec t held below (b.kids p.id) h (fun _ mem => mem) made
        have copies' : ∀ copy ∈ new ++ waiting, IsCopy b first base copy := by
          intro copy mem
          rcases mem_append.mp mem with mem | mem
          · exact each copy mem
          · exact copies copy (.tail _ mem)
        have closed' : ∀ id ∈ {id | id ∈ done ∨ id ∈ b.kids p.id},
            id ∈ (new ++ waiting).map (·.id) ∨
              ∀ kid ∈ b.kids id, kid ∈ {id | id ∈ done ∨ id ∈ b.kids p.id} := by
          intro id mem
          rw [map_append, ids]
          rcases mem with mem | kid
          · rcases closed id mem with waits | kids
            · rcases mem_cons.mp waits with same | waits
              · rw [same.trans (id_rebaseAt p)]
                exact .inr fun kid mem => .inr mem
              · exact .inl (mem_append_right _ waits)
            · exact .inr fun kid mem => .inl (kids kid mem)
          · exact .inl (mem_append_left _ kid)
        obtain ⟨done', copied, grows, all⟩ := ih h' copies' closed' result
        exact ⟨done', copied, fun id mem => grows id (.inl mem), all⟩

theorem copied_below (t : b.Tree [])
    (kids : ∀ id ∈ done, ∀ kid ∈ b.kids id, kid ∈ done) (here : first.id ∈ done) :
    ∀ {id : Hash}, b.candidates.lookup id = some c → first ∈ c.lineage → id ∈ done := by
  induction c with
  | root id' seqno old delta =>
    intro id held below
    rw [← t.named held, ← mem_singleton.mp below]
    exact here
  | child id' seqno p delta ih =>
    intro id held below
    rcases mem_cons.mp below with same | above
    · rw [← t.named held, ← same]
      exact here
    · rcases t.up held rfl with ⟨parent, kid⟩ | none
      · exact kids p.id (ih parent above) id kid
      · cases none

end Copy

/-! ## Forgetting the committed line -/

theorem foldl_forget (line : List BranchCandidate) : ∀ b : Branch,
    (∀ id c, (line.foldl (fun b c => b.forget c.id) b).candidates.lookup id = some c ↔
      id ∉ line.map (·.id) ∧ b.candidates.lookup id = some c) ∧
    (∀ id pid, id ∈ (line.foldl (fun b c => b.forget c.id) b).kids pid ↔
      pid ∉ line.map (·.id) ∧ id ∈ b.kids pid) ∧
    (line.foldl (fun b c => b.forget c.id) b).sources = b.sources := by
  induction line with
  | nil =>
    intro b
    simp
  | cons x xs ih =>
    intro b
    obtain ⟨candidates, kids, sources⟩ := ih (b.forget x.id)
    rw [foldl_cons]
    refine ⟨fun id c => ?_, fun id pid => ?_, sources⟩
    · rw [candidates, lookup_forget, map_cons, mem_cons, not_or]
      tauto
    · rw [kids, kids_forget, map_cons, mem_cons, not_or]
      tauto

/-- Every held candidate is an ancestor of the tip or descends from it. -/
def Branch.OnLine (b : Branch) (tip : Hash) : Prop :=
  ∀ t, b.candidates.lookup tip = some t → ∀ id c, b.candidates.lookup id = some c →
    c ∈ t.lineage ∨ t ∈ c.lineage

/-- On a line, what is not above the cut is below it. -/
theorem Branch.Tree.below_or_committed
    {t : BranchCandidate} (tree : b.Tree []) (line : b.OnLine tip)
    (held : b.candidates.lookup tip = some t) (mem : first ∈ t.lineage)
    (parent : first.parent = some committed) (found : b.candidates.lookup id = some c) :
    first ∈ c.lineage ↔ id ∉ committed.lineage.map (·.id) := by
  constructor
  · intro below hid
    obtain ⟨a, ha, same⟩ := mem_map.mp hid
    have up := mem_lineage_of_parent parent ha
    have eq := tree.eq_of_mem_lineage held found (mem_lineage_trans mem up) same
    rw [eq] at below
    exact not_mem_lineage_parent parent
      (mem_lineage_trans ha below)
  · intro hid
    rcases line t held id c found with above | below
    · -- on the line of the tip: at the cut, below it, or committed
      have split : ∀ {t : BranchCandidate}, first ∈ t.lineage → c ∈ t.lineage →
          first ∈ c.lineage ∨ c ∈ committed.lineage := by
        intro t
        induction t with
        | root id seqno old delta =>
          intro hf hc
          rw [mem_singleton.mp hf] at parent
          cases parent
        | child id seqno p delta ih =>
          intro hf hc
          rcases mem_cons.mp hc with same | hc
          · rw [same]
            exact .inl hf
          · rcases mem_cons.mp hf with same | hf
            · rw [same] at parent
              cases parent
              exact .inr hc
            · exact ih hf hc
      rcases split mem above with below | above
      · exact below
      · exact absurd (mem_map.mpr ⟨c, above, tree.named found⟩) hid
    · exact mem_lineage_trans below mem

theorem Branch.Tree.copied {base : BranchBase}
    (tree : b.Tree []) (wf : base.Wf) (entries : ∀ m, m ∈ base.entries ↔ m ∈ committed.queue)
    (parent : first.parent = some committed) (cut : ∀ {id c}, b.candidates.lookup id = some c →
      (first ∈ c.lineage ↔ id ∉ committed.lineage.map (·.id)))
    (candidates : ∀ {id c'}, b'.candidates.lookup id = some c' ↔ ∃ c,
      b.candidates.lookup id = some c ∧ first ∈ c.lineage ∧ c' = c.rebaseAt first.id base)
    (kids : ∀ {id pid}, id ∈ b'.kids pid ↔
      pid ∉ committed.lineage.map (·.id) ∧ id ∈ b.kids pid) : b'.Tree [] := by
  constructor
  · intro id c' found
    obtain ⟨c, held, -, rfl⟩ := candidates.mp found
    rw [id_rebaseAt]
    exact tree.named held
  · intro id c' found
    obtain ⟨c, held, below, rfl⟩ := candidates.mp found
    refine ((tree.wf held).rebaseAt wf entries parent below fun a ha same => ?_).1
    exact (tree.eq_of_mem_lineage held (tree.lineage held a ha) below same.symm)
  · intro id c' p' found parent'
    left
    obtain ⟨c, held, below, rfl⟩ := candidates.mp found
    rcases mem_lineage_cases below with same | ⟨p, hp, above⟩
    · rw [← same, rebaseAt_self parent] at parent'
      cases parent'
    · have other := tree.id_ne_of_above held hp above
      rw [rebaseAt_of_parent hp other] at parent'
      cases parent'
      rw [id_rebaseAt]
      rcases tree.up held hp with ⟨held', kid⟩ | none
      · exact ⟨candidates.mpr ⟨p, held', above, rfl⟩, kids.mpr ⟨(cut held').mp above, kid⟩⟩
      · cases none
  · intro id pid mem
    obtain ⟨off, mem⟩ := kids.mp mem
    obtain ⟨c, p, held, hp, rfl⟩ := tree.down mem
    rcases tree.up held hp with ⟨held', -⟩ | none
    · have above := (cut held').mpr off
      have below := mem_lineage_of_parent hp above
      have other := tree.id_ne_of_above held hp above
      refine ⟨_, p.rebaseAt first.id base, candidates.mpr ⟨c, held, below, rfl⟩, ?_, ?_⟩
      · rw [rebaseAt_of_parent hp other]
        rfl
      · exact id_rebaseAt p
    · cases none

theorem rebaseCommitted_tree {heap : Heap Started rank} {fuel : Nat}
    {n : DestinationState} {r : Option BranchError} (tree : b.Tree [])
    (line : b.OnLine tip) (result : b.rebaseCommitted heap fuel n tip = some (b', r)) :
    b'.Tree [] ∧ ∀ key msgs, b'.sources.lookup key = some msgs →
      b.sources.lookup key = some msgs := by
  have same {b'' : Branch} {e e' : Option BranchError}
      (eq : some (b, e) = some (b'', e')) : b''.Tree [] ∧ ∀ key msgs,
        b''.sources.lookup key = some msgs → b.sources.lookup key = some msgs := by
    cases eq
    exact ⟨tree, fun _ _ found => found⟩
  unfold Branch.rebaseCommitted at result
  split at result
  · exact same result
  · split at result
    · exact same result
    · exact same result
    next t run held _ =>
      split at result
      · exact same result
      next first committed hcut =>
        dsimp only at result
        split at result
        · exact same result
        next base hbase =>
          obtain ⟨mem, parent⟩ := committedAncestor_spec hcut
          have hfirst := tree.lineage held first mem
          have up := mem_lineage_of_parent parent committed.mem_lineage_self
          have hcommitted := tree.lineage hfirst committed up
          have shows := (tree.wf hcommitted).shows heap
          obtain ⟨wf, entries⟩ := newBranchBase_spec (shows.ordered.imp le_of_lt) hbase
          rw [← rebaseAt_self parent] at result
          cases copied : b.copyTree fuel [first.rebaseAt first.id base]
              (b.candidates.insert (first.rebaseAt first.id base).id
                (first.rebaseAt first.id base)) with
          | none =>
            rw [copied] at result
            cases result
          | some candidates =>
            rw [copied] at result
            cases result
            have start : Copied b first base {first.id}
                (b.candidates.insert (first.rebaseAt first.id base).id
                  (first.rebaseAt first.id base)) := by
              rw [id_rebaseAt]
              constructor
              · rintro id rfl
                exact ⟨first, hfirst, first.mem_lineage_self, AList.lookup_insert _⟩
              · intro id other
                exact AList.lookup_insert_ne other
            have copies : ∀ copy ∈ [first.rebaseAt first.id base], IsCopy b first base copy := by
              intro copy mem
              rw [mem_singleton.mp mem]
              exact ⟨first, hfirst, first.mem_lineage_self, rfl⟩
            have waits : ∀ id ∈ ({first.id} : Set Hash),
                id ∈ [first.rebaseAt first.id base].map (·.id) ∨
                  ∀ kid ∈ b.kids id, kid ∈ ({first.id} : Set Hash) := by
              rintro id rfl
              rw [map_singleton, id_rebaseAt]
              exact .inl (mem_singleton_self _)
            obtain ⟨done, all, here, closed⟩ := copyTree_spec tree fuel start copies waits copied
            have cut {id : Hash} {c : BranchCandidate} (found : b.candidates.lookup id = some c) :=
              tree.below_or_committed line held mem parent found
            obtain ⟨lookup, kids, sources⟩ :=
              foldl_forget committed.lineage { b with candidates }
            refine ⟨tree.copied wf (fun m => entries ▸ shows.mem m) parent cut ?_ (kids _ _), ?_⟩
            · intro id c'
              refine (lookup id c').trans ?_
              by_cases mem : id ∈ done
              · obtain ⟨c, found, below, copy⟩ := all.new id mem
                rw [copy]
                constructor
                · rintro ⟨-, ⟨⟩⟩
                  exact ⟨c, found, below, rfl⟩
                · rintro ⟨c₁, found₁, below₁, rfl⟩
                  rw [found] at found₁
                  cases found₁
                  exact ⟨(cut found).mp below, rfl⟩
              · rw [all.old id mem]
                constructor
                · rintro ⟨off, found⟩
                  have below := (cut found).mpr off
                  exact absurd (copied_below tree closed (here _ rfl) found below) mem
                · rintro ⟨c, found, below, -⟩
                  exact absurd (copied_below tree closed (here _ rfl) found below) mem
            · intro key msgs found
              rw [lookup_eraseEach fun s : CandidateSource => (s.source, s.visible)] at found
              split at found
              · cases found
              · rwa [sources] at found

end Gton.MsgPool

import Gton.MsgPool.RoutedSeeds

/-!
# The split walks give what the sequential walk gives

Where every entry of a queue can be read, each walk gives a destination the entries its walk met
that route to it. A dropped prefix holds no such entry, and the pieces of the kept ones together
are the queue, up to an order that sorting takes away.
-/

namespace Gton.MsgPool

open Gton.Shard Gton.Lib Gton.Lib.BitString Gton.Lib.Fallible Gton.Lib.Pieces
open List

variable {Queue Value : Type} {lib : QueueLibrary Queue Value} {source : ShardIdent}
  {top : SourceRef} {snapshot : Topology} {x : QueueItem Value} {items : List (QueueItem Value)}
  {g : QueueItem Value → InternalMessage} {only : Option Nat} {n total known : Nat}
  {row : Nat → List InternalMessage} {pfx : PrefixCell} {route : AccountPrefix}
  {queueKey : QueueKey} {queue : Queue}

/-! ## One walk -/

/-- The entry routes to the destination. -/
def routed (snapshot : Topology) (index : Nat) (item : QueueItem Value) : Bool :=
  match queueKeyFromView item.key with
  | .ok queueKey => snapshot.router.routes queueKey.nextHop index
  | .error _ => false

/-- The entry goes into the run, in a walk for one destination or for all. -/
def wanted (snapshot : Topology) (only : Option Nat) (index : Nat) (item : QueueItem Value) :
    Bool :=
  match only with
  | none => routed snapshot index item
  | some one => index == one && routed snapshot index item

/-- The entry can be read, as the given message. -/
def Reads (lib : QueueLibrary Queue Value) (source : ShardIdent) (top : SourceRef)
    (g : QueueItem Value → InternalMessage) (item : QueueItem Value) : Prop :=
  ∃ queueKey, queueKeyFromView item.key = .ok queueKey ∧
    decodeItem lib source top item queueKey = .ok (g item)

theorem walkItem_rows (reads : Reads lib source top g x) :
    walkItem lib source top snapshot only ⟨(List.range n).map row, total⟩ x =
      .ok ⟨(List.range n).map fun i => row i ++ if wanted snapshot only i x then [g x] else [],
        total + 1⟩ := by
  obtain ⟨queueKey, key, decoded⟩ := reads
  have routes (i : Nat) : routed snapshot i x = snapshot.router.routes queueKey.nextHop i := by
    rw [routed, key]
  cases only with
  | none =>
    simp only [walkItem, key, decoded, bind, Except.bind, pure, Except.pure]
    rw [foldl_modify_rows]
    · simp only [wanted, routes, DestinationRouter.routes_eq]
    · rw [snapshot.filled]
      exact DestinationRouter.nodup_walk _ _
  | some one =>
    simp only [walkItem, key, decoded, bind, Except.bind, pure, Except.pure]
    have own (i : Nat) : wanted snapshot (some one) i x =
        (i == one && snapshot.router.routes queueKey.nextHop one) := by
      by_cases same : i = one
      · simp [wanted, routes, same]
      · simp [wanted, beq_false_of_ne same]
    cases inside : snapshot.router.routes queueKey.nextHop one with
    | true => simp [own, inside, modify_rows]
    | false => simp [own, inside]

theorem walkItems_rows (reads : ∀ x ∈ items, Reads lib source top g x) :
    items.foldlM (walkItem lib source top snapshot only) ⟨(List.range n).map row, total⟩ =
      .ok ⟨(List.range n).map fun i => row i ++ (items.filter (wanted snapshot only i)).map g,
        total + items.length⟩ := by
  induction items generalizing row total with
  | nil => simp [pure, Except.pure]
  | cons x items ih =>
    rw [foldlM_cons, walkItem_rows (reads x mem_cons_self)]
    change items.foldlM _ _ = _
    rw [ih fun y mem => reads y (mem_cons_of_mem x mem), length_cons]
    congr 2
    · apply map_congr_left
      intro i _
      cases own : wanted snapshot only i x <;> simp [own]
    · omega

theorem emptyRuns_eq : emptyRuns snapshot =
    (List.range snapshot.destinations.length).map fun _ => [] := by
  simp [emptyRuns, map_const']

/-- The sequential walk for one destination gives its run of the whole walk. -/
theorem narrowItems_eq {index : Nat} {messages : List InternalMessage}
    (reads : ∀ x ∈ items, Reads lib source top g x) :
    items.foldlM (narrowItem lib source top snapshot index) messages =
      .ok (messages ++ (items.filter (routed snapshot index)).map g) := by
  induction items generalizing messages with
  | nil => simp [pure, Except.pure]
  | cons x items ih =>
    obtain ⟨queueKey, key, decoded⟩ := reads x mem_cons_self
    have routes : routed snapshot index x = snapshot.router.routes queueKey.nextHop index := by
      rw [routed, key]
    have rest := fun messages => @ih messages fun y mem => reads y (mem_cons_of_mem x mem)
    rw [foldlM_cons]
    simp only [narrowItem, key, decoded, bind, Except.bind, pure, Except.pure]
    cases inside : snapshot.router.routes queueKey.nextHop index with
    | true =>
      have taken : routed snapshot index x = true := routes.trans inside
      refine (rest _).trans ?_
      simp [taken]
    | false =>
      have left : routed snapshot index x = false := routes.trans inside
      refine (rest _).trans ?_
      simp [left]

instance : Nonempty InternalMessage := ⟨⟨0, ⟨⟨0, 0⟩, 0⟩, 0, 0, 0, 0, 0, ⟨0, 0⟩, 0, false⟩⟩

theorem reads_of_walk {start walk : SeedWalk}
    (ok : items.foldlM (walkItem lib source top snapshot none) start = .ok walk) :
    ∃ g, ∀ x ∈ items, Reads lib source top g x := by
  have each : ∀ x ∈ items, ∃ msg queueKey, queueKeyFromView x.key = .ok queueKey ∧
      decodeItem lib source top x queueKey = .ok msg := by
    intro x mem
    obtain ⟨before, after, step⟩ := foldlM_step ok mem
    simp only [walkItem, bind_eq_ok] at step
    obtain ⟨queueKey, key, msg, decoded, -⟩ := step
    exact ⟨msg, queueKey, key, decoded⟩
  choose! g reads using each
  exact ⟨g, reads⟩

/-! ## Dropped prefixes -/

/-- A prefix with a route: its workchain, and the bits of the account prefix that follow. -/
theorem seedPrefixRoute_spec (found : seedPrefixRoute pfx = some (route, known)) :
    32 ≤ pfx.data.length ∧ known = min (pfx.data.length - 32) 64 ∧
      route.workchain = BitVec.ofNat 32 (value (pfx.data.take 32)) ∧
      (bits route.prefix_).take known = (pfx.data.drop 32).take known := by
  unfold seedPrefixRoute loadUInt at found
  split at found
  · cases found
  · by_cases short : pfx.data.length < 32
    · simp [short] at found
    · simp only [short, if_false, length_drop] at found
      have long : 32 ≤ pfx.data.length := Nat.not_lt.mp short
      by_cases pos : 0 < min (pfx.data.length - 32) 64
      · have enough : ¬ pfx.data.length - 32 < min (pfx.data.length - 32) 64 := by omega
        simp only [pos, if_true, enough, if_false, Option.some.injEq, Prod.mk.injEq] at found
        obtain ⟨rfl, rfl⟩ := found
        refine ⟨long, rfl, rfl, ?_⟩
        generalize width : min (pfx.data.length - 32) 64 = k
        have length : ((pfx.data.drop 32).take k).length = k := by
          rw [length_take, length_drop]
          omega
        have top := @take_bits_value 64 ((pfx.data.drop 32).take k) (by omega)
        rwa [length] at top
      · simp only [pos, if_false, Option.some.injEq, Prod.mk.injEq] at found
        obtain ⟨rfl, rfl⟩ := found
        refine ⟨long, rfl, rfl, ?_⟩
        rw [Nat.eq_zero_of_not_pos pos]
        rfl

/-- What a prefix says about the next hop of the keys under it. -/
theorem extends_of_seedPrefixRoute
    (found : seedPrefixRoute pfx = some (route, known)) {key : List Bool}
    (under : pfx.data <+: key) (read : queueKeyFromView key = .ok queueKey) :
    known ≤ 64 ∧ DestinationRouter.Extends known route queueKey.nextHop := by
  obtain ⟨long, width, workchain, prefixBits⟩ := seedPrefixRoute_spec found
  unfold queueKeyFromView at read
  split at read
  · cases read
  · cases read
    obtain ⟨rest, rfl⟩ := under
    refine ⟨by omega, DestinationRouter.extends_iff.mpr ⟨?_, ?_⟩⟩
    · rw [workchain, take_append_of_le_length long]
    · rw [prefixBits, bits_value, take_take, drop_append_of_le_length long,
        take_append_of_le_length]
      · rw [Nat.min_eq_left (by omega)]
      · rw [length_drop]
        omega
      · rw [length_take, length_drop]
        omega

theorem not_routed_of_dropped {index : Nat}
    (dropped : keepsPrefix snapshot.router index pfx = false)
    (under : pfx.data.isPrefixOf x.key = true) : routed snapshot index x = false := by
  cases inside : routed snapshot index x with
  | false => rfl
  | true =>
    rw [← dropped]
    unfold routed at inside
    cases key : queueKeyFromView x.key with
    | error e => simp [key] at inside
    | ok queueKey =>
      simp only [key] at inside
      unfold keepsPrefix
      cases found : seedPrefixRoute pfx with
      | none => rfl
      | some known =>
        obtain ⟨le, continues⟩ :=
          extends_of_seedPrefixRoute found (List.isPrefixOf_iff_prefix.mp under) key
        have visited := (DestinationRouter.routes_eq _ _).mp inside
        rw [snapshot.filled] at visited ⊢
        exact ((DestinationRouter.routesUnder_iff le).mpr ⟨_, continues, visited⟩).symm

/-! ## The pieces of a queue -/

/-- The entries under a prefix. -/
def piece (items : List (QueueItem Value)) (pfx : PrefixCell) : List (QueueItem Value) :=
  items.filter fun x => pfx.data.isPrefixOf x.key

theorem filter_kept {index : Nat} (prefixes : List PrefixCell) :
    ((filterSeedPrefixes prefixes snapshot.router index).flatMap (piece items)).filter
        (routed snapshot index) =
      (prefixes.flatMap (piece items)).filter (routed snapshot index) := by
  apply filter_flatMap_filter
  intro pfx dropped
  apply filter_eq_nil_iff.mpr
  intro x mem
  rw [not_routed_of_dropped dropped (mem_filter.mp mem).2]
  exact Bool.false_ne_true

theorem decodeItem_spec {msg : InternalMessage}
    (ok : decodeItem lib source top x queueKey = .ok msg) : msg.key = queueKey ∧
      ∃ lt < 2 ^ 64, (loadUInt 64 x.extra).map Prod.fst = some lt ∧
        msg.enqueuedLT = UInt64.ofNat lt := by
  unfold decodeItem at ok
  unfold loadUInt at ok ⊢
  by_cases short : x.extra.length < 64
  · simp [short] at ok
  · simp only [short, if_false, decodeRoutedQueueEntry, bind_eq_ok] at ok
    obtain ⟨msg', -, ok⟩ := ok
    split at ok
    · cases ok
    · cases ok
      refine ⟨rfl, value (x.extra.take 64), ?_, ?_, rfl⟩
      · have length : (x.extra.take 64).length = 64 := by
          rw [length_take]
          omega
        have := value_lt (x.extra.take 64)
        rwa [length] at this
      · rw [if_neg short]
        rfl

/-- Entries that are read as messages of one place in the import order are tied. -/
theorem Reads.tied {y : QueueItem Value} (hx : Reads lib source top g x)
    (hy : Reads lib source top g y) (same : (g x).order = (g y).order) :
    (loadUInt 64 x.extra).map Prod.fst = (loadUInt 64 y.extra).map Prod.fst ∧
      (queueKeyFromView x.key).map (·.msgHash) = (queueKeyFromView y.key).map (·.msgHash) := by
  obtain ⟨k, key, decoded⟩ := hx
  obtain ⟨k', key', decoded'⟩ := hy
  obtain ⟨rfl, lt, small, load, ltOf⟩ := decodeItem_spec decoded
  obtain ⟨rfl, lt', small', load', ltOf'⟩ := decodeItem_spec decoded'
  have parts := Prod.mk.inj (toLex_inj.mp same)
  rw [ltOf, ltOf', UInt64.toNat_ofNat_of_lt' small, UInt64.toNat_ofNat_of_lt' small'] at parts
  constructor
  · rw [load, load', parts.1]
  · rw [key, key']
    exact congrArg Except.ok (BitVec.eq_of_toNat_eq parts.2)

section Promises

variable {queue : Queue} {prefixes : List PrefixCell} {width limit : Nat}

section

variable (promises : lib.PartitionsKeys queue) (settled : lib.InKeyOrder queue ∨ lib.Untied queue)
  (reads : ∀ x ∈ lib.items queue, Reads lib source top g x)
  (listed : lib.keyPrefixes queue width limit = some prefixes)
include promises settled reads listed

theorem sort_pieces (p : QueueItem Value → Bool) :
    lib.sortFunc (((prefixes.flatMap (piece (lib.items queue))).filter p).map g) =
      lib.sortFunc (((lib.items queue).filter p).map g) := by
  rcases settled with ordered | untied
  · have whole : prefixes.flatMap (piece (lib.items queue)) = lib.items queue := by
      apply flatMap_filter_eq _ (promises.once listed) promises.ascending (ordered listed)
      intro x y first second
      exact List.lt_asymm first second
    rw [whole]
  · have perm := ((flatMap_filter_perm (promises.once listed)).filter p).map g
    have lawful : Std.LawfulEqCmp (compare : Nat ×ₗ Nat → Nat ×ₗ Nat → Ordering) :=
      ⟨compare_eq_iff_eq.mp⟩
    apply Sorted.eq_of_perm_of_sorted compare InternalMessage.order
    · exact (lib.sort_perm _).trans (perm.trans (lib.sort_perm _).symm)
    · intro a ha b hb same
      rw [(lib.sort_perm _).mem_iff] at ha hb
      obtain ⟨x, hx, rfl⟩ := mem_map.mp (perm.mem_iff.mp ha)
      obtain ⟨y, hy, rfl⟩ := mem_map.mp (perm.mem_iff.mp hb)
      have hx := mem_of_mem_filter hx
      have hy := mem_of_mem_filter hy
      obtain ⟨lts, hashes⟩ := (reads x hx).tied (reads y hy) same
      rw [untied x hx y hy lts hashes]
    · simpa only [compareLtHash_eq] using lib.sort_sorted _
    · simpa only [compareLtHash_eq] using lib.sort_sorted _

omit settled in
theorem runTasks_eq {kept : List PrefixCell} (subset : kept ⊆ prefixes) :
    runTasks lib source top snapshot queue only kept =
      .ok ⟨(List.range snapshot.destinations.length).map fun i => lib.sortFunc
        (((kept.flatMap (piece (lib.items queue))).filter (wanted snapshot only i)).map g),
        (kept.flatMap (piece (lib.items queue))).length⟩ := by
  have task : ∀ pfx ∈ kept, seedTask lib source top snapshot queue only pfx =
      .ok ⟨(List.range snapshot.destinations.length).map fun i =>
        ((piece (lib.items queue) pfx).filter (wanted snapshot only i)).map g,
        (piece (lib.items queue) pfx).length⟩ := by
    intro pfx mem
    obtain ⟨sub, cut, inside⟩ := promises.cut listed (subset mem)
    rw [seedTask, cut]
    simp only
    rw [inside, emptyRuns_eq, walkItems_rows fun x hx => reads x (mem_of_mem_filter hx)]
    simp [piece]
  rw [runTasks, mapM_eq_map task]
  simp only [bind, Except.bind, pure, Except.pure, foldl_map, emptyRuns_eq]
  rw [foldl_zipWith_rows, map_map, map_map, length_flatMap]
  congr 2
  apply map_congr_left
  intro i _
  simp only [Function.comp, nil_append, filter_flatMap, map_flatMap]

theorem runTasks_all :
    runTasks lib source top snapshot queue none prefixes =
      walkSequential lib source top snapshot queue := by
  have total : (prefixes.flatMap (piece (lib.items queue))).length = (lib.items queue).length :=
    (flatMap_filter_perm (promises.once listed)).length_eq
  rw [runTasks_eq promises reads listed (List.Subset.refl prefixes), walkSequential, emptyRuns_eq,
    walkItems_rows reads, total]
  simp only [bind, Except.bind, pure, Except.pure, map_map, Nat.zero_add]
  congr 2
  apply map_congr_left
  intro i _
  exact sort_pieces promises settled reads listed _

theorem runTasks_only {index : Nat} (inside : index < snapshot.destinations.length) :
    ∃ walk, runTasks lib source top snapshot queue (some index)
        (filterSeedPrefixes prefixes snapshot.router index) = .ok walk ∧
      walk.runs[index]? =
        some (lib.sortFunc (((lib.items queue).filter (routed snapshot index)).map g)) := by
  have kept : filterSeedPrefixes prefixes snapshot.router index ⊆ prefixes :=
    fun pfx mem => mem_of_mem_filter mem
  refine ⟨_, runTasks_eq promises reads listed kept, ?_⟩
  have own : @wanted Value snapshot (some index) index = routed snapshot index := by
    funext x
    simp [wanted]
  rw [getElem?_map, getElem?_range inside, Option.map_some, own, filter_kept,
    sort_pieces promises settled reads listed]

end

end Promises

theorem walkSequential_eq (reads : ∀ x ∈ lib.items queue, Reads lib source top g x) :
    walkSequential lib source top snapshot queue =
      .ok ⟨(List.range snapshot.destinations.length).map fun i =>
        lib.sortFunc (((lib.items queue).filter (routed snapshot i)).map g),
        (lib.items queue).length⟩ := by
  rw [walkSequential, emptyRuns_eq, walkItems_rows reads]
  simp only [bind, Except.bind, pure, Except.pure, map_map, Nat.zero_add]
  rfl

theorem routed_congr {i j : Nat} (same : snapshot.destinations[i]? = snapshot.destinations[j]?) :
    @routed Value snapshot i = routed snapshot j := by
  funext x
  unfold routed
  split
  next queueKey _ =>
    rw [Bool.eq_iff_iff, DestinationRouter.routes_eq, DestinationRouter.routes_eq, snapshot.filled,
      DestinationRouter.mem_walk, DestinationRouter.mem_walk, same]
  · rfl

/-- The walk for one destination gives the entries that route to it, whichever way it goes. -/
theorem narrowed_eq {index : Nat} {destination : ShardIdent}
    (promises : lib.PartitionsKeys queue) (settled : lib.InKeyOrder queue ∨ lib.Untied queue)
    (reads : ∀ x ∈ lib.items queue, Reads lib source top g x)
    (found : snapshot.destinations.findIdx? (· = destination) = some index) :
    routedSeedsForDestination lib source top snapshot queue destination =
      .ok (lib.sortFunc (((lib.items queue).filter (routed snapshot index)).map g)) := by
  have inside : index < snapshot.destinations.length := (findIdx?_eq_some_iff_getElem.mp found).1
  have sequential : lib.sortFunc <$>
      (lib.items queue).foldlM (narrowItem lib source top snapshot index) [] =
      .ok (lib.sortFunc (((lib.items queue).filter (routed snapshot index)).map g)) := by
    rw [narrowItems_eq reads]
    rfl
  rw [routedSeedsForDestination, found]
  simp only [routedSeedsFromQueueParallel]
  cases listed : lib.keyPrefixes queue (32 + 6) 512 with
  | none => exact sequential
  | some prefixes =>
    by_cases few : prefixes.length < 2
    · simp only [few, if_true]
      exact sequential
    · obtain ⟨walk, ran, run⟩ := @runTasks_only _ _ lib source top snapshot g _ _ _ _ promises
        settled reads listed index inside
      have split : (if filterSeedPrefixes prefixes snapshot.router index = [] then
          some (.ok ⟨emptyRuns snapshot, 0⟩)
          else some (runTasks lib source top snapshot queue (some index)
            (filterSeedPrefixes prefixes snapshot.router index))) = some (.ok walk) := by
        split
        next none_ =>
          have nothing : lib.sortFunc [] = [] := perm_nil.mp (lib.sort_perm [])
          rw [none_] at ran
          rw [← ran]
          simp [runTasks, emptyRuns, nothing, pure, Except.pure, bind, Except.bind]
        · rw [ran]
      simp only [few, if_false, split]
      change Except.ok ((walk.runs[index]?).getD []) = _
      rw [run]
      rfl

theorem getElem?_seeds (destinations : List ShardIdent) (row : Nat → List InternalMessage)
    (i : Nat) :
    (List.zipWith RoutedSeed.mk destinations ((List.range destinations.length).map row))[i]? =
      destinations[i]?.map fun d => ⟨d, row i⟩ := by
  rw [getElem?_zipWith, getElem?_map]
  by_cases inside : i < destinations.length
  · rw [getElem?_range inside, getElem?_eq_getElem inside]
    rfl
  · rw [getElem?_eq_none (Nat.not_lt.mp inside)]
    rfl

/-- Every destination gets the same messages from the walk for it, from the split walk and from
the sequential one. -/
theorem walks_agree {seeds : List RoutedSeed} (promises : lib.PartitionsKeys queue)
    (settled : lib.InKeyOrder queue ∨ lib.Untied queue)
    (ok : routedSeedsFromStateRootWith lib source top snapshot queue false = .ok (seeds, total)) :
    routedSeedsFromStateRootWith lib source top snapshot queue true = .ok (seeds, total) ∧
      seeds.map (·.destination) = snapshot.destinations ∧
      ∀ s ∈ seeds, routedSeedsForDestination lib source top snapshot queue s.destination =
        .ok s.messages := by
  have whole : seedsOf snapshot <$> walkSequential lib source top snapshot queue =
      .ok (seeds, total) := ok
  obtain ⟨walk, walked, same⟩ := map_eq_ok.mp whole
  rw [walkSequential, bind_eq_ok] at walked
  obtain ⟨raw, walked, -⟩ := walked
  obtain ⟨g, reads⟩ := reads_of_walk walked
  rw [walkSequential_eq reads] at whole
  cases whole
  refine ⟨?_, ?_, ?_⟩
  · rw [← ok, routedSeedsFromStateRootWith, routedSeedsFromStateRootWith,
      routedSeedsFromQueueParallel]
    cases listed : lib.keyPrefixes queue (32 + 6) 512 with
    | none => rfl
    | some prefixes =>
      by_cases few : prefixes.length < 2
      · simp [few]
      · simp [few, runTasks_all promises settled reads listed]
  · apply ext_getElem?
    intro i
    rw [getElem?_map, getElem?_seeds, Option.map_map]
    exact Option.map_id'
  · intro s mem
    obtain ⟨j, found⟩ := mem_iff_getElem?.mp mem
    rw [getElem?_seeds, Option.map_eq_some_iff] at found
    obtain ⟨d, own, rfl⟩ := found
    have some_ : (snapshot.destinations.findIdx? (· = d)).isSome = true := by
      rw [findIdx?_isSome, any_eq_true]
      exact ⟨d, mem_of_getElem? own, decide_eq_true rfl⟩
    obtain ⟨index, first⟩ := Option.isSome_iff_exists.mp some_
    have there : snapshot.destinations[index]? = some d := by
      obtain ⟨lt, equal, -⟩ := findIdx?_eq_some_iff_getElem.mp first
      rw [getElem?_eq_getElem lt, of_decide_eq_true equal]
    rw [narrowed_eq promises settled reads first, routed_congr (there.trans own.symm)]

open DestinationRouter in
/-- The router answers by the shards it was filled with, and so the walks that prune by it lose
nothing and add nothing. -/
theorem destination_routing (t : Topology) :
    (∀ p, (t.router.walk p).Nodup ∧ ∀ i, i ∈ t.router.walk p ↔
      ∃ d, t.destinations[i]? = some d ∧ d.containsPrefix p = true) ∧
    (∀ p known i, known ≤ 64 →
      (t.router.routesUnder p known i = true ↔ ∃ q, Extends known p q ∧ i ∈ t.router.walk q)) ∧
    ∀ {Queue Value : Type} (lib : QueueLibrary Queue Value) (queue : Queue) (source : ShardIdent)
      (top : SourceRef) (seeds : List RoutedSeed) (total : Nat), lib.PartitionsKeys queue →
      (lib.InKeyOrder queue ∨ lib.Untied queue) →
      routedSeedsFromStateRootWith lib source top t queue false = .ok (seeds, total) →
      routedSeedsFromStateRootWith lib source top t queue true = .ok (seeds, total) ∧
        seeds.map (·.destination) = t.destinations ∧
        ∀ s ∈ seeds, routedSeedsForDestination lib source top t queue s.destination =
          .ok s.messages := by
  refine ⟨?_, ?_, ?_⟩
  · intro p
    rw [t.filled]
    exact ⟨nodup_walk _ p, fun i => mem_walk⟩
  · intro p known i le
    rw [t.filled]
    exact routesUnder_iff le
  · intro Queue Value lib queue source top seeds total promises settled ok
    exact walks_agree promises settled ok

/-- The key of a message of the basechain with a zero hash, by the first bit of its account. -/
def keyOf (bit : Bool) : List Bool :=
  List.replicate 32 false ++ bit :: List.replicate 319 false

/-- Queues as lists of items, listed as two prefixes. -/
def listLibrary : QueueLibrary (List (QueueItem InternalMessage)) InternalMessage where
  items queue := queue
  keyPrefixes _ _ _ := some [⟨(keyOf false).take 38, true⟩, ⟨(keyOf true).take 38, true⟩]
  cutPrefixSubdict queue pfx := some (queue.filter fun x => pfx.data.isPrefixOf x.key)
  loadEnqueued := .ok
  sortFunc l := l.insertionSort (·.order ≤ ·.order)
  sort_perm l := List.perm_insertionSort _ l
  sort_sorted l := by
    have sorted := List.pairwise_insertionSort (fun a b : InternalMessage => a.order ≤ b.order) l
    refine sorted.imp ?_
    intro a b le
    rw [compareLtHash_eq, Ordering.isLE_iff_ne_gt]
    exact compare_le_iff_le.mpr le

/-- A queue with a message for either half of the basechain. -/
def twoHalves : List (QueueItem InternalMessage) :=
  [false, true].map fun bit =>
    ⟨keyOf bit, List.replicate 64 bit, ⟨0, ⟨⟨0, 0⟩, 0⟩, 0, 0, 0, 0, 0, ⟨0, 0⟩, 0, true⟩⟩

theorem twoHalves_partitions : listLibrary.PartitionsKeys twoHalves where
  ascending := by decide +kernel
  once := by
    intro bits limit prefixes listed
    cases listed
    decide +kernel
  cut := fun _ _ => ⟨_, rfl, rfl⟩

/-- The two halves and the whole of the basechain. -/
def halves : Topology := .of [⟨0, 0x4000000000000000⟩, ⟨0, 0xC000000000000000⟩, ⟨0, root⟩]

/-- Every message goes to its half and to the whole. -/
theorem destination_routing_halves : ∃ seeds total,
    routedSeedsFromStateRootWith listLibrary ⟨0, root⟩ ⟨0, 0⟩ halves twoHalves false =
      .ok (seeds, total) ∧
    seeds.map (·.messages.length) = [1, 1, 2] ∧ ∀ s ∈ seeds,
      routedSeedsForDestination listLibrary ⟨0, root⟩ ⟨0, 0⟩ halves twoHalves s.destination =
        .ok s.messages := by
  have ordered : listLibrary.InKeyOrder twoHalves := by
    intro bits limit prefixes listed
    cases listed
    decide +kernel
  have lengths : (routedSeedsFromStateRootWith listLibrary ⟨0, root⟩ ⟨0, 0⟩ halves twoHalves
      false).map (·.1.map (·.messages.length)) = .ok [1, 1, 2] := by decide +kernel
  obtain ⟨⟨seeds, total⟩, ok, same⟩ := map_eq_ok.mp lengths
  have walks := (destination_routing halves).2.2 listLibrary twoHalves _ _ seeds total
    twoHalves_partitions (.inl ordered) ok
  exact ⟨seeds, total, ok, same, walks.2.2⟩

end Gton.MsgPool

import ModelGateway.BucketPolicy

/-! Every policy selects a worker of a non-empty list of available workers, as long as the state it
chooses from knows no worker outside the list. -/
namespace ModelGateway.PolicySelection
open Policies BucketPolicy List KeyedMap CacheAwarePolicy
open WorkerRing (HashRing Position)
open Option (some bind_eq_bind bind_some)

/-- The choice is an index into the list. -/
def Selects (workers : List Worker) (choice : Option Nat) : Prop :=
  ∃ idx, choice = some idx ∧ idx < workers.length

/-- A list that a router may pass: not empty, and every worker in it available. -/
structure Offered (workers : List Worker) : Prop where
  nonempty : workers ≠ []
  available : ∀ worker ∈ workers, worker.isAvailable = true

section
variable {workers : List Worker} {α : Type} {items : List α} {url : String} {idx : Nat} {info : SelectWorkerInfo}

theorem selects_of_mem_range {choice : Option Nat}
    (chosen : ∃ idx ∈ range workers.length, choice = some idx) : Selects workers choice := by
  obtain ⟨idx, mem, rfl⟩ := chosen
  exact ⟨idx, rfl, mem_range.mp mem⟩

theorem minByKey_mem {key : α → Nat} {least : α} (found : minByKey key items = some least) : least ∈ items := by
  induction items generalizing least with
  | nil => cases found
  | cons item rest ih =>
    unfold minByKey at found
    split at found
    · cases found
      exact mem_cons_self
    · next later foundLater =>
      split at found
      · cases found
        exact mem_cons_of_mem _ (ih foundLater)
      · cases found
        exact mem_cons_self

theorem exists_minByKey (key : α → Nat) (nonempty : items ≠ []) : ∃ item ∈ items, minByKey key items = some item := by
  cases found : minByKey key items with
  | some item => exact ⟨item, minByKey_mem found, rfl⟩
  | none =>
    obtain ⟨item, rest, rfl⟩ := exists_cons_of_ne_nil nonempty
    unfold minByKey at found
    split at found
    · cases found
    · split at found <;> cases found

theorem maxBy_mem {less : α → α → Bool} {greatest : α} (found : maxBy less items = some greatest) :
    greatest ∈ items := by
  induction items generalizing greatest with
  | nil => cases found
  | cons item rest ih =>
    unfold maxBy at found
    split at found
    · cases found
      exact mem_cons_self
    · next later foundLater =>
      split at found
      · cases found
        exact mem_cons_self
      · cases found
        exact mem_cons_of_mem _ (ih foundLater)

theorem positionOf_lt (found : positionOf workers url = some idx) : idx < workers.length :=
  (findIdx?_eq_some_iff_findIdx_eq.mp found).1

theorem selects_positionOf : Selects workers (positionOf workers url) ↔ url ∈ workers.map (·.url) := by
  constructor
  · rintro ⟨idx, found, _⟩
    obtain ⟨below, same, _⟩ := findIdx?_eq_some_iff_getElem.mp found
    exact mem_map.mpr ⟨_, getElem_mem below, beq_iff_eq.mp same⟩
  · intro known
    cases found : positionOf workers url with
    | some idx => exact ⟨idx, rfl, positionOf_lt found⟩
    | none =>
      obtain ⟨worker, mem, rfl⟩ := mem_map.mp known
      have other := findIdx?_eq_none_iff.mp found worker mem
      simp at other

theorem minCandidates_mem (value : Nat → Nat) (indices : List Nat) {least : Option Nat}
    {candidates known : List Nat} (within : candidates ⊆ known) (indexed : indices ⊆ known)
    (started : least.isSome → candidates ≠ []) (some_left : least.isSome ∨ indices ≠ []) :
    minCandidates value indices least candidates ⊆ known ∧ minCandidates value indices least candidates ≠ [] := by
  induction indices generalizing least candidates with
  | nil =>
    unfold minCandidates
    exact ⟨within, started (some_left.resolve_right (· rfl))⟩
  | cons idx rest ih =>
    obtain ⟨first, later⟩ := cons_subset.mp indexed
    have alone : [idx] ⊆ known := cons_subset.mpr ⟨first, nil_subset _⟩
    cases least with
    | none => exact ih alone later (fun _ => cons_ne_nil _ _) (.inl rfl)
    | some least =>
      unfold minCandidates
      split
      · exact ih alone later (fun _ => cons_ne_nil _ _) (.inl rfl)
      · split
        · exact ih (append_subset.mpr ⟨within, alone⟩) later (by simp) (.inl rfl)
        · exact ih within later started (.inl rfl)

theorem exists_getElem?_mod (nonempty : items ≠ []) (draw : Nat) :
    ∃ item ∈ items, items[draw % items.length]? = some item := by
  have inside := Nat.mod_lt draw (length_pos_iff.mpr nonempty)
  exact ⟨_, getElem_mem inside, getElem?_eq_getElem inside⟩

section
variable {indices : List Nat} (nonempty : indices ≠ [])
include nonempty

theorem exists_selectMinBy (value : Nat → Nat) (chance : Chance) :
    ∃ idx ∈ indices, selectMinBy value indices chance = some idx := by
  obtain ⟨within, candidates⟩ := @minCandidates_mem value indices none [] indices (nil_subset _)
    (List.Subset.refl _) nofun (.inr nonempty)
  unfold selectMinBy
  dsimp only
  split
  · next single =>
    obtain ⟨idx, mem, found⟩ := exists_getElem?_mod candidates 0
    exact ⟨idx, within mem, by rwa [Nat.zero_mod] at found⟩
  · obtain ⟨idx, mem, found⟩ := exists_getElem?_mod candidates chance.first
    exact ⟨idx, within mem, found⟩

theorem exists_selectNewWorker (policy : ManualPolicy) (workers : List Worker) (chance : Chance) :
    ∃ idx ∈ indices, policy.selectNewWorker workers indices chance = some idx := by
  unfold ManualPolicy.selectNewWorker
  split
  · exact exists_getElem?_mod nonempty chance.first
  · exact exists_selectMinBy nonempty _ chance
  · exact exists_selectMinBy nonempty _ chance

end

theorem get?_healthyUrls (entries : List (Worker × Nat)) (map : KeyedMap String Nat) (url : String) :
    ((entries.foldl (fun map worker => map.insert worker.1.url worker.2) map).get? url).isSome ↔
      (map.get? url).isSome ∨ ∃ entry ∈ entries, entry.1.url = url := by
  induction entries generalizing map with
  | nil => simp
  | cons entry rest ih =>
    rw [foldl_cons, ih, get?_insert]
    by_cases same : url = entry.1.url
    · simp [same]
    · simp [same, Ne.symm same]

theorem healthyUrlToIdx_lt (held : (healthyUrlToIdx workers).get? url = some idx) : idx < workers.length := by
  refine foldlRecOn (motive := fun map : KeyedMap String Nat => ∀ url idx, map.get? url = some idx →
    idx < workers.length) _ _ (fun _ _ missing => by cases missing) (fun map below entry mem => ?_) url idx held
  obtain ⟨_, inside, _⟩ := mem_zipIdx (mem_of_mem_filter mem)
  exact forall_insert below (by simpa using inside)

theorem ring_selects (hash : String → Position) (key : String) {ring : HashRing}
    (found : ring.findHealthyUrl hash key (healthyUrlToIdx workers).contains = some url) :
    Selects workers ((healthyUrlToIdx workers).get? url) := by
  have held := (HashRing.findHealthyUrl_spec hash key _ ring).2 url found
  obtain ⟨idx, stored⟩ := Option.isSome_iff_exists.mp held
  exact ⟨idx, stored, healthyUrlToIdx_lt stored⟩

variable (offered : Offered workers) (policy : ManualPolicy)
include offered

theorem Offered.length_pos : 0 < workers.length := length_pos_iff.mpr offered.nonempty

theorem Offered.range_ne_nil : range workers.length ≠ [] := mt range_eq_nil.mp offered.length_pos.ne'

theorem Offered.healthy {worker : Worker} (mem : worker ∈ workers) : worker.isHealthy = true := by
  have available := offered.available worker mem
  simp only [Worker.isAvailable, Bool.and_eq_true] at available
  exact available.1

theorem Offered.healthyWorkers : workers.zipIdx.filter (fun worker => worker.1.isHealthy) = workers.zipIdx := by
  apply filter_eq_self.mpr
  intro entry mem
  exact offered.healthy (fst_mem_of_mem_zipIdx mem)

theorem Offered.healthyIndices : getHealthyWorkerIndices workers = range workers.length := by
  unfold getHealthyWorkerIndices
  rw [filter_eq_self.mpr, zipIdx_map_snd, range_eq_range']
  intro entry mem
  exact offered.available entry.1 (fst_mem_of_mem_zipIdx mem)

theorem Offered.selects_mod (draw : Nat) :
    Selects workers (range workers.length)[draw % (range workers.length).length]? :=
  selects_of_mem_range (exists_getElem?_mod offered.range_ne_nil draw)

/-! ### Policies that choose among the healthy indices -/

theorem random_selects (chance : Chance) : Selects workers (Random.selectWorker workers chance) := by
  unfold Random.selectWorker
  simp only [offered.healthyIndices, List.isEmpty_iff, offered.range_ne_nil, if_false]
  exact offered.selects_mod chance.first

theorem roundRobin_selects (policy : RoundRobinPolicy) : Selects workers (policy.selectWorker workers).1 := by
  unfold RoundRobinPolicy.selectWorker
  simp only [offered.healthyIndices, List.isEmpty_iff, offered.range_ne_nil, if_false]
  exact offered.selects_mod policy.counter.toNat

theorem powerOfTwo_selects {Response : Type} (policy : PowerOfTwoPolicy Response) (chance : Chance) :
    Selects workers (policy.selectWorker workers chance) := by
  unfold PowerOfTwoPolicy.selectWorker
  simp only [offered.healthyIndices, List.isEmpty_iff, offered.range_ne_nil, if_false]
  split
  · exact ⟨0, getElem?_range offered.length_pos, offered.length_pos⟩
  · obtain ⟨one, found, inside⟩ := offered.selects_mod chance.first
    obtain ⟨other, foundToo, insideToo⟩ := offered.selects_mod
      (randomRange chance.first (range workers.length).length + 1 +
        randomRange chance.second ((range workers.length).length - 1))
    have draw : (range workers.length)[randomRange chance.first
        (range workers.length).length]? = some one := found
    simp only [draw, foundToo, bind_eq_bind, bind_some, getElem?_eq_getElem inside, getElem?_eq_getElem insideToo]
    split
    · exact ⟨one, rfl, inside⟩
    · exact ⟨other, rfl, insideToo⟩

/-! ### Manual routing -/

theorem assign_selects (routingId : String) (node : Option Node) (chance : Chance) (now : Nat) : Selects workers
      (policy.assign routingId node workers (range workers.length) chance now).1 := by
  obtain ⟨idx, chosen, inside⟩ :=
    selects_of_mem_range (exists_selectNewWorker offered.range_ne_nil policy workers chance)
  unfold ManualPolicy.assign
  simp only [chosen, getElem?_eq_getElem inside]
  exact ⟨idx, rfl, inside⟩

theorem manual_selects (info : SelectWorkerInfo) (chance : Chance) (now : Nat) :
    Selects workers (policy.selectWorker workers info chance now).1 := by
  unfold ManualPolicy.selectWorker
  simp only [offered.healthyIndices, List.isEmpty_iff, offered.range_ne_nil, if_false]
  split
  · next routingId _ =>
    unfold ManualPolicy.selectByRoutingId
    split
    · next node _ =>
      split
      · next idx found =>
        obtain ⟨url, _, position⟩ := exists_of_findSome?_eq_some found
        exact ⟨idx, rfl, positionOf_lt (Option.filter_eq_some_iff.mp position).1⟩
      · exact assign_selects offered policy routingId (some node) chance now
    · exact assign_selects offered policy routingId none chance now
  · exact selects_of_mem_range (exists_selectNewWorker offered.range_ne_nil policy workers chance)

/-! ### Hash rings -/

theorem Offered.contains_healthyUrl (url : String) :
    (healthyUrlToIdx workers).contains url = true ↔ url ∈ workers.map (·.url) := by
  unfold KeyedMap.contains healthyUrlToIdx
  rw [offered.healthyWorkers, get?_healthyUrls]
  simp only [get?_empty, Option.isSome_none, Bool.false_eq_true, false_or, mem_map]
  constructor
  · rintro ⟨entry, mem, same⟩
    exact ⟨entry.1, fst_mem_of_mem_zipIdx mem, same⟩
  · rintro ⟨worker, mem, same⟩
    obtain ⟨idx, held⟩ := mem_iff_getElem?.mp mem
    exact ⟨(worker, idx), mk_mem_zipIdx_iff_getElem?.mpr held, same⟩

theorem Offered.healthyUrls_nonempty : ∃ url idx, (healthyUrlToIdx workers).get? url = some idx := by
  obtain ⟨worker, mem⟩ := exists_mem_of_ne_nil workers offered.nonempty
  have held := (offered.contains_healthyUrl worker.url).mpr (mem_map_of_mem mem)
  exact ⟨worker.url, Option.isSome_iff_exists.mp held⟩

/-- The ring, if there is one, holds a worker of the list. -/
def RingKnows (workers : List Worker) (info : SelectWorkerInfo) : Prop :=
  ∀ ring, info.hashRing = some ring → ∃ entry ∈ ring.entries, entry.2 ∈ workers.map (·.url)

theorem findByConsistentHash_selects (hash : String → Position) (info : SelectWorkerInfo) (key : String) :
    Selects workers (ConsistentHashing.findByConsistentHash hash workers info key) ↔ RingKnows workers info := by
  obtain ⟨some_url, some_idx, stored⟩ := offered.healthyUrls_nonempty
  have occupied : (healthyUrlToIdx workers).isEmpty = false := by
    apply Bool.eq_false_iff.mpr
    intro empty
    rw [isEmpty_iff.mp empty some_url] at stored
    cases stored
  unfold ConsistentHashing.findByConsistentHash RingKnows
  simp only [occupied, Bool.false_eq_true, if_false]
  cases info.hashRing with
  | some ring =>
    have lookup := (HashRing.findHealthyUrl_spec hash key (healthyUrlToIdx workers).contains ring).1
    simp only [offered.contains_healthyUrl] at lookup
    simp only [some.injEq, forall_eq', ← lookup]
    constructor
    · rintro ⟨idx, chosen, _⟩
      obtain ⟨url, found, _⟩ := Option.bind_eq_some_iff.mp chosen
      exact ⟨url, found⟩
    · rintro ⟨url, found⟩
      simp only [found, bind_eq_bind, bind_some]
      exact ring_selects hash key found
  | none =>
    refine iff_of_true ?_ fun ring given => by cases given
    have values : ∀ idx ∈ (healthyUrlToIdx workers).values.insertionSort (· ≤ ·), idx < workers.length := by
      intro idx mem
      have held := (mem_insertionSort _).mp mem
      obtain ⟨url, found⟩ := mem_values_iff.mp held
      exact healthyUrlToIdx_lt found
    have pos : 0 < ((healthyUrlToIdx workers).values.insertionSort (· ≤ ·)).length := by
      apply length_pos_of_mem
      exact (mem_insertionSort _).mpr (mem_values_iff.mpr ⟨some_url, stored⟩)
    have inside := Nat.mod_lt (hash key).val pos
    rw [getElem?_eq_getElem inside]
    exact ⟨_, rfl, values _ (getElem_mem inside)⟩

/-- The key that consistent hashing looks up. -/
def hashedKey (info : SelectWorkerInfo) : Option String :=
  (extractRoutingKey info.headers).or (ConsistentHashing.implicitKey info.headers)

theorem consistentHashing_selects (hash : String → Position) {info : SelectWorkerInfo}
    (untargeted : extractTargetWorker info.headers = none) (chance : Chance) :
    Selects workers (ConsistentHashing.selectWorker hash workers info chance) ↔
      (hashedKey info ≠ none → RingKnows workers info) := by
  unfold ConsistentHashing.selectWorker hashedKey
  rw [untargeted, if_neg (by simpa using offered.nonempty)]
  cases extractRoutingKey info.headers with
  | some key => simpa using findByConsistentHash_selects offered hash info key
  | none =>
    cases ConsistentHashing.implicitKey info.headers with
    | some key => simpa using findByConsistentHash_selects offered hash info key
    | none =>
      dsimp only
      rw [offered.healthyWorkers, zipIdx_map_snd, ← range_eq_range', length_range, if_neg offered.length_pos.ne']
      have drawn := offered.selects_mod chance.first
      rw [length_range] at drawn
      exact iff_of_true drawn fun named => absurd rfl named

theorem prefixHash_selects (hash : String → Position)
    (config : PrefixHashConfig) {token : UInt32} {rest : List UInt32}
    (given : info.tokens = some (token :: rest)) :
    Selects workers (PrefixHash.selectWorker hash config workers info) := by
  have indexed {entry : Worker × Nat} (mem : entry ∈ workers.zipIdx) : Selects workers (some entry.2) := by
    obtain ⟨_, inside, _⟩ := mem_zipIdx mem
    exact ⟨entry.2, rfl, by simpa using inside⟩
  have zipped : workers.zipIdx ≠ [] := by simpa using offered.nonempty
  unfold PrefixHash.selectWorker
  rw [given, if_neg (by simpa using offered.nonempty)]
  unfold PrefixHash.findWorkerWithLoadBalance
  simp only [offered.healthyWorkers, List.isEmpty_iff, zipped, if_false]
  split
  · next idx initial =>
    -- the ring leads to a worker of the list
    have inside : Selects workers (some idx) := by
      cases ringed : info.hashRing with
      | none => simp [ringed] at initial
      | some ring =>
        simp only [ringed, bind_eq_bind, bind_some] at initial
        obtain ⟨url, found, held⟩ := Option.bind_eq_some_iff.mp initial
        rw [← held]
        exact ring_selects hash _ found
    split
    · exact inside
    · split
      · next worker least lightest => exact indexed (mem_of_mem_filter (minByKey_mem lightest))
      · exact inside
  · obtain ⟨entry, mem, same⟩ := exists_minByKey (fun worker : Worker × Nat => worker.1.load) zipped
    rw [same]
    exact indexed mem

/-! ### Cache-aware routing -/

section
variable {Tree TokenTree : Type} (strings : TreeOperations Tree String)
  (tokens : TreeOperations TokenTree (List UInt32)) (policy : CacheAwarePolicy Tree TokenTree)

theorem minLoadIdx_selects : Selects workers (minLoadIdx workers (range workers.length)) := by
  apply selects_of_mem_range
  exact exists_minByKey _ offered.range_ne_nil

theorem selectWorkerEventDriven_selects (request : List UInt32) (indexer : EventIndexer) :
    Selects workers (policy.selectWorkerEventDriven workers request (range workers.length) indexer) := by
  unfold selectWorkerEventDriven
  split
  · next idx scored =>
    unfold scoreOverlap at scored
    simp only at scored
    split at scored
    · cases scored
    · split at scored
      · cases scored
      · have mem := mem_of_mem_filter (maxBy_mem scored)
        exact ⟨idx, rfl, mem_range.mp mem⟩
  · exact minLoadIdx_selects offered

theorem selectByTree_selects {Store Input : Type} (operations : TreeOperations Store Input) (input : Input)
    (tree : Store) :
    Selects workers (policy.selectByTree operations workers input (range workers.length) tree).1 := by
  unfold selectByTree
  have matched {result : MatchResult} {idx : Nat}
      (found : policy.matchedIdx workers (range workers.length) result = some idx) :
      idx < workers.length := by
    unfold matchedIdx at found
    split at found
    · exact positionOf_lt (Option.filter_eq_some_iff.mp found).1
    · obtain ⟨least, same, inside⟩ := @minLoadIdx_selects workers offered
      rw [same] at found
      rwa [← some.inj found]
  dsimp only
  split
  · next idx found =>
    rw [getElem?_eq_getElem (matched found)]
    exact ⟨idx, rfl, matched found⟩
  · exact ⟨0, getElem?_range offered.length_pos, offered.length_pos⟩

theorem cacheAware_selects (info : SelectWorkerInfo) (chance : Chance) :
    Selects workers (policy.selectWorker strings tokens workers info chance).1 := by
  unfold selectWorker
  rw [offered.healthyIndices]
  simp only [getElem?_range offered.length_pos, bind_some, getElem?_eq_getElem offered.length_pos]
  split
  · obtain ⟨idx, chosen, inside⟩ := @minLoadIdx_selects workers offered
    unfold selectWorkerMinLoad
    simp only [chosen, getElem?_eq_getElem inside]
    exact ⟨idx, rfl, inside⟩
  · split
    · next request _ =>
      split
      · next indexer _ => exact selectWorkerEventDriven_selects offered policy request indexer
      · unfold selectWorkerWithTokens
        split
        · next tree _ => exact selectByTree_selects offered policy tokens request tree
        · exact offered.selects_mod chance.first
    · unfold selectWorkerWithText
      split
      · next tree _ => exact selectByTree_selects offered policy strings _ tree
      · exact offered.selects_mod chance.first

end
end
end ModelGateway.PolicySelection

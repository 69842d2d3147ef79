import ModelGateway.BucketPolicy

/-! Prefill workers that join and leave one by one.  The first of them raises the length limit of its
bucket, so that the lengths are divided otherwise than for workers that are all known from the start. -/
namespace ModelGateway.BucketMembership
open BucketPolicy List KeyedMap
open Policies hiding usizeMax

inductive Change where
  | addPrefillUrl (worker : Worker)
  | removePrefillUrl (worker : Worker)

def Change.apply (policy : Policy) : Change → Policy
  | .addPrefillUrl worker => policy.addPrefillUrl worker
  | .removePrefillUrl worker => policy.removePrefillUrl worker

/-- A new policy after a history of changes. -/
def grown (config : BucketConfig) (history : List Change) : Policy :=
  history.foldl Change.apply { config := config }

/-- The lengths up to a limit divided evenly among workers. -/
def evenly (limit : UInt64) (urls : List String) : List Boundary :=
  urls.zipIdx.map (Bucket.initialBoundary (limit / UInt64.ofNat urls.length) urls.length)

variable {bucket : Bucket} {policy : Policy} {urls : List String}

theorem boundary_init (urls : List String) (bucket : Bucket) :
    (bucket.initPrefillWorkerUrls urls).boundary = evenly bucket.lMax urls := by
  cases urls <;> rfl

theorem evenly_short (short : urls.length ≤ 1) (limit other : UInt64) : evenly limit urls = evenly other urls := by
  match urls, short with
  | [], _ => rfl
  | [url], _ => simp [evenly, Bucket.initialBoundary]

theorem evenly_ne (several : 2 ≤ urls.length) (few : urls.length ≤ 4096) :
    evenly usizeMax urls ≠ evenly 4096 urls := by
  intro same
  obtain ⟨first, second, rest, rfl⟩ : ∃ first second rest, urls = first :: second :: rest := by
    match urls, several with
    | first :: second :: rest, _ => exact ⟨first, second, rest, rfl⟩
  generalize counted : (first :: second :: rest).length = workerCnt at several few
  have gaps : usizeMax / UInt64.ofNat workerCnt = 4096 / UInt64.ofNat workerCnt := by
    have uppers := congrArg Boundary.upper (cons.inj same).1
    have notLast : ¬ 0 = workerCnt - 1 := by omega
    simp only [Bucket.initialBoundary, counted, if_neg notLast] at uppers
    simpa using uppers
  have words := congrArg UInt64.toNat gaps
  rw [UInt64.toNat_div, UInt64.toNat_div, UInt64.toNat_ofNat_of_lt' (by
    simp only [UInt64.size]; omega)] at words
  have large : 4097 ≤ usizeMax.toNat / workerCnt := (Nat.le_div_iff_mul_le (by omega)).mpr (by
      have : usizeMax.toNat = 18446744073709551615 := rfl
      omega)
  have small : (4096 : UInt64).toNat / workerCnt ≤ 4096 := Nat.div_le_self _ _
  omega

/-- The lengths are divided up to the largest one, and so they will be while there are workers. -/
def Evened (bucket : Bucket) : Prop :=
  bucket.boundary = evenly usizeMax bucket.prefillWorkerUrls ∧
    (bucket.prefillWorkerUrls ≠ [] → bucket.lMax = usizeMax)

theorem Evened.init (evened : Evened bucket) (few : bucket.prefillWorkerUrls = [] → urls.length ≤ 1) :
    Evened (bucket.initPrefillWorkerUrls urls) := by
  have kept : (bucket.initPrefillWorkerUrls urls).prefillWorkerUrls = urls := by
    cases urls <;> rfl
  rw [Evened, boundary_init, kept]
  constructor
  · by_cases none : bucket.prefillWorkerUrls = []
    · exact evenly_short (few none) _ _
    · rw [evened.2 none]
  · intro present
    cases urls with
    | nil => exact absurd rfl present
    | cons => rfl

def AllEvened (policy : Policy) : Prop :=
  ∀ modelKey bucket, policy.buckets.get? modelKey = some bucket → Evened bucket

theorem AllEvened.bucketOf (all : AllEvened policy) (modelKey : String) : Evened (policy.bucketOf modelKey) := by
  unfold Policy.bucketOf
  cases held : policy.buckets.get? modelKey with
  | none => exact ⟨rfl, fun present => absurd rfl present⟩
  | some bucket => exact all modelKey bucket held

theorem AllEvened.apply (all : AllEvened policy) (change : Change) : AllEvened (change.apply policy) := by
  cases change with
  | addPrefillUrl worker =>
    have evened := all.bucketOf (normalizeModelKey worker.modelId)
    unfold Change.apply Policy.addPrefillUrl
    dsimp only
    split
    · exact forall_insert all evened
    · refine forall_insert all (evened.init fun none => ?_)
      rw [none, nil_append, length_singleton]
  | removePrefillUrl worker =>
    unfold Change.apply Policy.removePrefillUrl
    dsimp only
    split
    · exact all
    · next bucket held =>
      refine forall_insert all ((all _ bucket held).init fun none => ?_)
      rw [none, filter_nil]
      exact Nat.zero_le _

theorem allEvened_grown (config : BucketConfig) (history : List Change) : AllEvened (grown config history) :=
  foldlRecOn (motive := AllEvened) history _ nofun fun _ all change _ => all.apply change

/-- The URLs of the workers that serve a model. -/
def urlsOf (workers : List Worker) (modelKey : String) : List String :=
  (workers.filter fun worker => normalizeModelKey worker.modelId == modelKey).map (·.url)

theorem bucketOf_setBucket (policy : Policy) (modelKey probe : String) (bucket : Bucket) :
    (policy.setBucket modelKey bucket).bucketOf probe =
      if probe = modelKey then bucket else policy.bucketOf probe := by
  unfold Policy.bucketOf Policy.setBucket
  rw [get?_insert]
  split <;> rfl

/-- An initialisation divides the lengths once for each model that has workers. -/
theorem boundary_initialised (config : BucketConfig) (workers : List Worker) (modelKey : String) :
    ((Policy.initPrefillWorkerUrls { config := config } workers).bucketOf modelKey).boundary =
      evenly 4096 (urlsOf workers modelKey) := by
  have each : ∀ (keys : List String) (policy : Policy), keys.Nodup →
      (keys.foldl (fun policy key => policy.setBucket key
        ((policy.bucketOf key).initPrefillWorkerUrls (urlsOf workers key))) policy).bucketOf modelKey =
      if modelKey ∈ keys then
        (policy.bucketOf modelKey).initPrefillWorkerUrls (urlsOf workers modelKey)
      else policy.bucketOf modelKey := by
    intro keys
    induction keys with
    | nil => exact fun _ _ => rfl
    | cons key keys ih =>
      intro policy nodup
      have absent := (nodup_cons.mp nodup).1
      rw [foldl_cons, ih _ (nodup_cons.mp nodup).2, bucketOf_setBucket]
      by_cases same : modelKey = key
      · subst same
        simp [absent]
      · simp [same]
  refine (congrArg Bucket.boundary (each _ _ (nodup_dedup _))).trans ?_
  split
  · exact boundary_init _ _
  · next absent =>
    have none : urlsOf workers modelKey = [] := by
      simpa [urlsOf, filter_eq_nil_iff] using absent
    rw [none]
    rfl

/-- Workers that joined and left one by one get the ranges that they would get together only where
there is one of them at most. -/
theorem boundaries_initialised_iff (config : BucketConfig) (history : List Change) (modelKey : String)
    (workers : List Worker) (same : ((grown config history).bucketOf modelKey).prefillWorkerUrls =
      urlsOf workers modelKey) (few : (urlsOf workers modelKey).length ≤ 4096) :
    ((grown config history).bucketOf modelKey).boundary =
        ((Policy.initPrefillWorkerUrls { config := config } workers).bucketOf modelKey).boundary ↔
      (urlsOf workers modelKey).length ≤ 1 := by
  rw [((allEvened_grown config history).bucketOf modelKey).1, same, boundary_initialised]
  constructor
  · intro equal
    by_contra several
    exact evenly_ne (by omega) few equal
  · exact fun short => evenly_short short _ _

/-- A worker that replaced another is alone, as if it had been known from the start. -/
theorem boundaries_initialised_single : ((grown ⟨0, fun _ _ => true, 5⟩ [.addPrefillUrl { url := "a" },
        .removePrefillUrl { url := "a" },
        .addPrefillUrl { url := "b" }]).bucketOf "unknown").boundary =
      ((Policy.initPrefillWorkerUrls { config := ⟨0, fun _ _ => true, 5⟩ }
        [{ url := "b" }]).bucketOf "unknown").boundary :=
  (boundaries_initialised_iff _ _ _ [{ url := "b" }] (by decide) (by decide)).mpr (by decide)

/-- Two workers that join one after the other divide the lengths at 2^63, not at 2048. -/
theorem joined_boundaries_differ : ((grown ⟨0, fun _ _ => true, 5⟩ [.addPrefillUrl { url := "a" },
        .addPrefillUrl { url := "b" }]).bucketOf "unknown").boundary ≠
      ((Policy.initPrefillWorkerUrls { config := ⟨0, fun _ _ => true, 5⟩ }
        [{ url := "a" }, { url := "b" }]).bucketOf "unknown").boundary := by
  decide

end ModelGateway.BucketMembership

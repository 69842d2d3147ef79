import ModelGateway.PolicySelection

/-! The URLs a bucket chooses from: its boundaries name prefill workers, and every prefill worker has a
count of characters.  When the workers counted are all in the list, the bucket policy selects one of
them. -/
namespace ModelGateway.BucketPolicy
open Policies PolicySelection List KeyedMap Option

/-- The boundaries name prefill workers, and these have counts. -/
structure Bucket.Anchored (bucket : Bucket) : Prop where
  bounded : ∀ range ∈ bucket.boundary, range.url ∈ bucket.prefillWorkerUrls
  counted : ∀ url ∈ bucket.prefillWorkerUrls, bucket.charsPerUrl.contains url = true

def Policy.Anchored (policy : Policy) : Prop :=
  ∀ modelKey bucket, policy.buckets.get? modelKey = some bucket → bucket.Anchored

namespace Bucket
variable {bucket : Bucket} {url : String}

theorem anchored_new (period : Nat) : Anchored { period := period } := ⟨nofun, nofun⟩

theorem anchored_init (urls : List String) (bucket : Bucket) : (bucket.initPrefillWorkerUrls urls).Anchored := by
  have counted : ∀ url ∈ urls,
      (urls.foldl (fun chars url => chars.insert url 0) (∅ : KeyedMap String UInt64)).contains url =
        true := by
    intro url mem
    rw [KeyedMap.contains, get?_foldl_insert, if_pos mem, isSome_some]
  unfold initPrefillWorkerUrls
  dsimp only
  split
  · exact ⟨forall_mem_nil _, counted⟩
  · exact ⟨forall_mem_map.mpr fun _ listed => fst_mem_of_mem_zipIdx listed, counted⟩

theorem contains_expireLoop (now : Nat) (requests : List SequencerRequest) (removedLoad : UInt64)
    (bucket : Bucket) : (expireLoop now requests removedLoad bucket).boundary = bucket.boundary ∧
      (expireLoop now requests removedLoad bucket).prefillWorkerUrls = bucket.prefillWorkerUrls ∧
      ∀ url, bucket.charsPerUrl.contains url = true →
        (expireLoop now requests removedLoad bucket).charsPerUrl.contains url = true := by
  induction requests generalizing removedLoad bucket with
  | nil => exact ⟨rfl, rfl, fun _ held => held⟩
  | cons request rest ih =>
    unfold expireLoop
    split
    · obtain ⟨boundary, urls, kept⟩ := ih (removedLoad + request.charCnt) (bucket.dropRequest request)
      refine ⟨boundary, urls, fun url held => kept url ?_⟩
      unfold dropRequest
      dsimp only
      split
      · rw [KeyedMap.contains_insert, held, Bool.or_true]
      · exact held
    · exact ⟨rfl, rfl, fun _ held => held⟩

theorem Anchored.postProcessRequest (anchored : bucket.Anchored) (charCnt : UInt64)
    (prefillUrl id : String) (now : Nat) :
    (bucket.postProcessRequest charCnt prefillUrl id now).Anchored := by
  unfold Bucket.postProcessRequest
  dsimp only
  obtain ⟨boundary, urls, kept⟩ := contains_expireLoop now bucket.requestList 0
    { bucket with
        charsPerUrl := bucket.charsPerUrl.insert prefillUrl ((bucket.charsPerUrl.get? prefillUrl).getD 0 + charCnt) }
  constructor
  · intro range mem
    rw [urls]
    rw [boundary] at mem
    exact anchored.bounded range mem
  · intro url mem
    rw [urls] at mem
    apply kept
    rw [KeyedMap.contains_insert, anchored.counted url mem, Bool.or_true]

theorem url_of_mem_boundaryLoop {share upperBound : UInt64} {histLoad : List UInt64} {index : Nat}
    {urls : List String} {range : Boundary}
    (mem : range ∈ boundaryLoop share histLoad urls upperBound index) : range.url ∈ urls := by
  induction urls generalizing upperBound index with
  | nil => cases mem
  | cons url rest ih =>
    unfold boundaryLoop at mem
    split at mem
    · rw [mem_singleton.mp mem]
      exact mem_cons_self
    · have later {upperBound : UInt64} {index : Nat} {first : Boundary} (named : first.url = url)
          (mem : range ∈ first :: boundaryLoop share histLoad rest upperBound index) :
          range.url ∈ url :: rest := by
        rcases mem_cons.mp mem with rfl | mem
        · exact mem_cons.mpr (.inl named)
        · exact mem_cons_of_mem _ (ih mem)
      dsimp only at mem
      split at mem
      · split at mem
        · exact later rfl mem
        · exact later rfl mem
      · exact later rfl mem

theorem contains_entered (urls : List String) (chars : KeyedMap String UInt64)
    (known : chars.contains url = true ∨ url ∈ urls) :
    (urls.foldl (fun chars url => if chars.contains url then chars else chars.insert url 0)
      chars).contains url = true := by
  induction urls generalizing chars with
  | nil => simpa using known
  | cons first rest ih =>
    have entered : (if chars.contains first then chars else chars.insert first 0).contains url = true ↔
        chars.contains url = true ∨ url = first := by
      split
      · exact (or_iff_left_of_imp fun same => same ▸ ‹_›).symm
      · simp [or_comm]
    apply ih
    rw [mem_cons] at known
    rw [entered]
    tauto

theorem contains_dropped (urls known : List String) (chars : KeyedMap String UInt64)
    (mem : url ∈ known) (held : chars.contains url = true) : (urls.foldl (fun chars url =>
      if url ∉ known ∧ chars.get? url = some 0 then chars.erase url else chars) chars).contains url =
        true := by
  refine foldlRecOn (motive := fun chars : KeyedMap String UInt64 => chars.contains url = true) _ _ held
    fun chars held first _ => ?_
  split
  · next idle =>
    have other : url ≠ first := fun same => idle.1 (same ▸ mem)
    rw [contains_erase, held]
    simpa using other
  · exact held

theorem Anchored.updateWorkersCnt (anchored : bucket.Anchored) :
    bucket.updateWorkersCnt.Anchored := by
  unfold Bucket.updateWorkersCnt
  dsimp only
  exact ⟨anchored.bounded, fun url mem =>
    contains_dropped _ _ _ mem (contains_entered _ _ (.inr mem))⟩

theorem Anchored.adjustBoundary (anchored : bucket.Anchored) : bucket.adjustBoundary.Anchored := by
  unfold Bucket.adjustBoundary
  dsimp only
  split
  · exact anchored
  · have counted := anchored.updateWorkersCnt
    split
    · exact counted
    · split
      · exact counted
      · exact ⟨fun range mem => url_of_mem_boundaryLoop mem, counted.counted⟩

theorem findBoundaryLoop_mem {boundary : List Boundary} {charCount : UInt64} {left right : Nat}
    (found : findBoundaryLoop boundary charCount left right = some url) :
    ∃ range ∈ boundary, range.url = url := by
  fun_induction findBoundaryLoop boundary charCount left right with
  | case1 | case5 => cases found
  | case2 _ _ _ _ _ _ _ ih => exact ih found
  | case3 _ _ _ _ _ _ _ _ ih => exact ih found
  | case4 _ _ _ mid range held => exact ⟨range, mem_of_getElem? held, some.inj found⟩

end Bucket

/-! ### The policy -/

namespace Policy
variable {policy : Policy}

theorem anchored_new (config : BucketConfig) : Anchored { config := config } := nofun

variable (anchored : policy.Anchored) {workers : List Worker}
include anchored

theorem Anchored.setBucket {modelKey : String} {bucket : Bucket} (new : bucket.Anchored) :
    (policy.setBucket modelKey bucket).Anchored :=
  forall_insert anchored new

theorem Anchored.bucketOf (modelKey : String) : (policy.bucketOf modelKey).Anchored := by
  unfold Policy.bucketOf
  cases held : policy.buckets.get? modelKey with
  | none => exact Bucket.anchored_new _
  | some bucket => exact anchored modelKey bucket held

theorem Anchored.initPrefillWorkerUrls (workers : List Worker) : (policy.initPrefillWorkerUrls workers).Anchored := by
  unfold Policy.initPrefillWorkerUrls
  exact foldlRecOn (motive := Anchored) _ _ anchored fun policy anchored key _ =>
    anchored.setBucket (Bucket.anchored_init _ _)

theorem Anchored.addPrefillUrl (worker : Worker) : (policy.addPrefillUrl worker).Anchored := by
  unfold Policy.addPrefillUrl
  dsimp only
  split
  · exact anchored.setBucket (anchored.bucketOf _)
  · exact anchored.setBucket (Bucket.anchored_init _ _)

theorem Anchored.removePrefillUrl (worker : Worker) : (policy.removePrefillUrl worker).Anchored := by
  unfold Policy.removePrefillUrl
  dsimp only
  split
  · exact anchored
  · exact anchored.setBucket (Bucket.anchored_init _ _)

theorem Anchored.adjust : policy.adjust.Anchored := by
  unfold Policy.adjust
  refine foldlRecOn (motive := Anchored) _ _ anchored fun policy anchored key _ => ?_
  split
  · next bucket held => exact anchored.setBucket (anchored key bucket held).adjustBoundary
  · exact anchored

theorem Anchored.selectWorker (workers : List Worker) (info : SelectWorkerInfo) (moment : Moment) :
    (policy.selectWorker workers info moment).2.Anchored := by
  unfold Policy.selectWorker
  dsimp only
  split
  · exact anchored
  · split
    · next bucket held =>
      split
      · exact anchored.setBucket ((anchored _ bucket held).postProcessRequest _ _ _ _)
      · exact anchored
    · exact anchored

omit anchored

/-- The workers that have a count in the bucket of the model are all in the list. -/
def Listed (policy : Policy) (workers : List Worker) : Prop :=
  ∀ worker, workers.head? = some worker → ∀ bucket,
    policy.buckets.get? (normalizeModelKey worker.modelId) = some bucket →
      ∀ url ∈ bucket.charsPerUrl.keys, url ∈ workers.map (·.url)

/-- The URL that the state of a bucket leads to: a least loaded one, or that of the request's range. -/
def lookedUp (policy : Policy) (bucket : Bucket) (info : SelectWorkerInfo) (chance : Chance) : Option String :=
  if policy.isImbalanced bucket.charsPerUrl then minUrl bucket.charsPerUrl chance.second
  else (bucket.findBoundary (.ofNat ((info.requestText.map String.length).getD 0))).filter fun url => !url.isEmpty

/-- The URL that the bucket of the model leads to, if there is one, is that of a listed worker. -/
def Covered (policy : Policy) (workers : List Worker) (info : SelectWorkerInfo) (chance : Chance) : Prop :=
  ∀ worker, workers.head? = some worker → ∀ bucket,
    policy.buckets.get? (normalizeModelKey worker.modelId) = some bucket →
      ∀ url, policy.lookedUp bucket info chance = some url → url ∈ workers.map (·.url)

theorem minUrl_mem {chars : KeyedMap String UInt64} {draw : Nat} {url : String}
    (found : minUrl chars draw = some url) : url ∈ chars.keys := by
  unfold minUrl at found
  obtain ⟨entry, held, rfl⟩ := map_eq_some_iff.mp found
  have mem := mem_of_mem_filter (mem_of_getElem? held)
  rw [keys_eq]
  exact mem_map_of_mem mem

theorem randomUrl_mem (offered : Offered workers) (draw : Nat) : ∃ url ∈ workers.map (·.url),
      randomUrl workers (range workers.length) draw = some url := by
  obtain ⟨idx, drawn, inside⟩ := offered.selects_mod draw
  unfold randomUrl randomRange
  rw [drawn, bind_some, getElem?_eq_getElem inside]
  exact ⟨_, mem_map_of_mem (getElem_mem inside), rfl⟩

theorem lookedUp_mem {bucket : Bucket} (anchored : bucket.Anchored) {info : SelectWorkerInfo} {chance : Chance}
    {url : String} (found : policy.lookedUp bucket info chance = some url) : url ∈ bucket.charsPerUrl.keys := by
  unfold lookedUp at found
  split at found
  · exact minUrl_mem found
  · obtain ⟨found, _⟩ := filter_eq_some_iff.mp found
    obtain ⟨range, mem, rfl⟩ := Bucket.findBoundaryLoop_mem found
    exact contains_iff_mem_keys.mp (anchored.counted _ (anchored.bounded range mem))

theorem Anchored.covered (anchored : policy.Anchored) (info : SelectWorkerInfo) (chance : Chance)
    (listed : policy.Listed workers) : policy.Covered workers info chance := by
  intro worker first bucket held url found
  exact listed worker first bucket held url (lookedUp_mem (anchored _ bucket held) found)

theorem bucket_selects (offered : Offered workers) (policy : Policy) (info : SelectWorkerInfo) (moment : Moment) :
    Selects workers (policy.selectWorker workers info moment).1 ↔ policy.Covered workers info moment.chance := by
  have pos := offered.length_pos
  have first : workers.head? = some workers[0] := by rw [head?_eq_getElem?, getElem?_eq_getElem pos]
  obtain ⟨drawn, listed, random⟩ := randomUrl_mem offered moment.chance.first
  unfold Policy.selectWorker Covered
  rw [offered.healthyIndices]
  simp only [getElem?_range pos, bind_some, getElem?_eq_getElem pos, first, some.injEq, forall_eq']
  cases held : policy.buckets.get? (normalizeModelKey workers[0].modelId) with
  | none =>
    simp only [random, bind_some]
    exact iff_of_true (selects_positionOf.mpr listed) fun other none => by cases none
  | some bucket =>
    have chosen (charCount : UInt64) (count : charCount = .ofNat ((info.requestText.map String.length).getD 0)) :
        policy.chooseUrl bucket workers (range workers.length) charCount moment.chance =
          (policy.lookedUp bucket info moment.chance).or (some drawn) := by
      rw [chooseUrl, lookedUp, random, count]
      split <;> rfl
    simp only [chosen _ rfl, some.injEq, forall_eq']
    cases policy.lookedUp bucket info moment.chance with
    | none => exact iff_of_true (selects_positionOf.mpr listed) fun other none => by cases none
    | some url => exact selects_positionOf.trans (by simp only [some.injEq, forall_eq'])

end Policy
end ModelGateway.BucketPolicy

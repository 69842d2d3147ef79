import Mathlib
import ModelGateway.CyclicOrder

/-! The hash ring over the workers of one model (`worker/hash_ring.rs`).  The 64-bit position of a
string on the ring is a parameter. -/
namespace ModelGateway.WorkerRing
open CyclicOrder List
open Prod (ext fst snd)

def virtualNodesPerWorker : Nat := 150

abbrev Position := Fin (2 ^ 64)

/-- There is a position; the registry uses it too. -/
instance positions : NeZero (2 ^ 64) := inferInstance

/-- Entries of the ring, which are kept in the order of their positions. -/
structure HashRing where
  entries : List (Position × String)
  ordered : entries.Pairwise fun first second => first.1 ≤ second.1

def vnodeKey (url : String) (vnode : Nat) : String := url ++ "#" ++ toString vnode

variable (hashPosition : String → Position)

/-- The entries of one worker. -/
def virtualNodes (url : String) : List (Position × String) :=
  (range virtualNodesPerWorker).map fun vnode => (hashPosition (vnodeKey url vnode), url)

/-- All entries, in the order they are pushed. -/
def pushed (urls : List String) : List (Position × String) :=
  urls.flatMap (virtualNodes hashPosition)

namespace HashRing

def new (urls : List String) : HashRing where
  entries := inOrder fst (pushed hashPosition urls)
  ordered := pairwise_inOrder _

/-- The loop over `i`, with the URLs checked so far. -/
def findLoop (entries : List (Position × String)) (start : Nat) (isHealthy : String → Bool) :
    List Nat → List String → Option String
  | [], _ => none
  | i :: rest, checkedUrls =>
    match entries[(start + i) % entries.length]? with
    | none => none -- the position is inside the ring
    | some (_, url) =>
      if url ∈ checkedUrls then findLoop entries start isHealthy rest checkedUrls
      else if isHealthy url then some url
      else findLoop entries start isHealthy rest (url :: checkedUrls)

def findHealthyUrl (key : String) (isHealthy : String → Bool)
    (self : HashRing) : Option String :=
  if self.entries.isEmpty then none
  else
    findLoop self.entries (partitionPoint fst (hashPosition key) self.entries) isHealthy
      (range self.entries.length) []

end HashRing

/-- No two workers share a position of a virtual node. -/
def CollisionFree (urls : List String) : Prop :=
  ∀ first ∈ urls, ∀ second ∈ urls, ∀ one < virtualNodesPerWorker, ∀ other < virtualNodesPerWorker,
    hashPosition (vnodeKey first one) = hashPosition (vnodeKey second other) → first = second

section
variable {hash : String → Position} {urls : List String}

variable {entry : Position × String}

theorem mem_virtualNodes {url : String} : entry ∈ virtualNodes hash url ↔
      ∃ vnode < virtualNodesPerWorker, (hash (vnodeKey url vnode), url) = entry := by
  simp only [virtualNodes, mem_map, mem_range]

theorem mem_pushed : entry ∈ pushed hash urls ↔ entry.2 ∈ urls ∧
        ∃ vnode < virtualNodesPerWorker, hash (vnodeKey entry.2 vnode) = entry.1 := by
  simp only [pushed, mem_flatMap, mem_virtualNodes]
  constructor
  · rintro ⟨url, mem, vnode, bounded, rfl⟩
    exact ⟨mem, vnode, bounded, rfl⟩
  · rintro ⟨mem, vnode, bounded, same⟩
    exact ⟨entry.2, mem, vnode, bounded, ext same rfl⟩

theorem CollisionFree.separates (free : CollisionFree hash urls) : Separates fst (pushed hash urls) := by
  intro first mem second memberToo same
  obtain ⟨known, one, bounded, here⟩ := mem_pushed.mp mem
  obtain ⟨knownToo, other, boundedToo, there⟩ := mem_pushed.mp memberToo
  refine ext same (free _ known _ knownToo one bounded other boundedToo ?_)
  rw [here, there, same]

theorem filter_pushed (p : String → Bool) : (pushed hash urls).filter (fun entry => p entry.2) =
      pushed hash (urls.filter p) := by
  induction urls with
  | nil => rfl
  | cons url rest ih =>
    simp only [pushed, flatMap_cons, filter_append] at ih ⊢
    rw [ih]
    by_cases chosen : p url = true
    · rw [filter_cons_of_pos chosen, flatMap_cons]
      congr 1
      apply filter_eq_self.mpr
      intro entry mem
      obtain ⟨_, _, rfl⟩ := mem_virtualNodes.mp mem
      exact chosen
    · rw [filter_cons_of_neg chosen]
      have none_chosen : (virtualNodes hash url).filter (fun entry => p entry.2) = [] := by
        apply filter_eq_nil_iff.mpr
        intro entry mem
        obtain ⟨_, _, rfl⟩ := mem_virtualNodes.mp mem
        exact chosen
      rw [none_chosen, nil_append]

end

namespace HashRing

variable {isHealthy : String → Bool} {key url : String}

/-- The loop finds the first healthy URL among the entries it has still to read. -/
theorem findLoop_eq {entries : List (Position × String)} {start : Nat} (bounded : start ≤ entries.length)
    {i : Nat} {checkedUrls : List String} (count : Nat) (whole : i + count = entries.length)
    (sick : ∀ url ∈ checkedUrls, isHealthy url = false) :
    findLoop entries start isHealthy (range' i count) checkedUrls =
      (((entries.drop start ++ entries.take start).drop i).map snd).find? isHealthy := by
  induction count generalizing i checkedUrls with
  | zero =>
    rw [drop_of_length_le (by simp; omega)]
    rfl
  | succ count ih =>
    have inside : i < (entries.drop start ++ entries.take start).length := by simp; omega
    rw [range'_succ, drop_eq_getElem_cons inside, map_cons, find?_cons]
    unfold findLoop
    rw [Nat.add_comm start i, ← getElem?_rotate (by omega), rotate_eq_drop_append_take bounded,
      getElem?_eq_getElem inside]
    have later := fun checked => @ih (i + 1) checked (by omega)
    generalize (entries.drop start ++ entries.take start)[i] = entry at later ⊢
    obtain ⟨position, url⟩ := entry
    by_cases known : url ∈ checkedUrls
    · simp only [known, if_true, sick url known]
      exact later checkedUrls sick
    · cases health : isHealthy url with
      | true => simp only [known, if_false, if_true, health]
      | false =>
        simp only [known, if_false, health, Bool.false_eq_true]
        exact later _ (forall_mem_cons.mpr ⟨health, sick⟩)

theorem findHealthyUrl_eq (hash : String → Position) (key : String)
    (isHealthy : String → Bool) (self : HashRing) : self.findHealthyUrl hash key isHealthy =
      ((walk fst (hash key) self.entries).map snd).find? isHealthy := by
  unfold findHealthyUrl
  split
  · next empty => rw [isEmpty_iff.mp empty]; rfl
  · have bounded : partitionPoint fst (hash key) self.entries ≤ self.entries.length := by
      apply IsPrefix.length_le
      exact takeWhile_prefix _
    rw [range_eq_range', findLoop_eq bounded _ (by omega) (by simp), drop_zero, rotate_partitionPoint self.ordered]

theorem findHealthyUrl_spec (hash : String → Position) (key : String) (isHealthy : String → Bool) (self : HashRing) :
    ((∃ url, self.findHealthyUrl hash key isHealthy = some url) ↔ ∃ entry ∈ self.entries, isHealthy entry.2 = true) ∧
      ∀ url, self.findHealthyUrl hash key isHealthy = some url → isHealthy url = true := by
  rw [findHealthyUrl_eq]
  constructor
  · rw [← Option.isSome_iff_exists, find?_isSome]
    simp only [mem_map, mem_walk, exists_exists_and_eq_and]
  · intro url found
    exact find?_some found

variable {hash hashPosition : String → Position} {urls : List String}

theorem mem_walk_urls : url ∈ (walk fst (hash key) (new hash urls).entries).map snd ↔ url ∈ urls := by
  simp only [mem_map, mem_walk, new, mem_inOrder, mem_pushed]
  constructor
  · rintro ⟨entry, ⟨mem, _⟩, rfl⟩
    exact mem
  · intro mem
    exact ⟨(hash (vnodeKey url 0), url), ⟨mem, 0, by decide, rfl⟩, rfl⟩

theorem findHealthyUrl_mem (found : (new hash urls).findHealthyUrl hash key isHealthy = some url) :
    url ∈ urls ∧ isHealthy url = true := by
  rw [findHealthyUrl_eq] at found
  exact ⟨mem_walk_urls.mp (mem_of_find?_eq_some found), find?_some found⟩

variable (free : CollisionFree hash urls)
include free

theorem entries_filter (p : String → Bool) : (new hash (urls.filter p)).entries =
      (new hash urls).entries.filter fun entry => p entry.2 := by
  unfold new
  rw [filter_inOrder free.separates, filter_pushed]

theorem findHealthyUrl_filter (key : String) (isHealthy p : String → Bool) :
    (new hash (urls.filter p)).findHealthyUrl hash key isHealthy =
      (new hash urls).findHealthyUrl hash key fun url => p url && isHealthy url := by
  rw [findHealthyUrl_eq, findHealthyUrl_eq, entries_filter free, ← filter_walk]
  have chosen : ((walk fst (hash key) (new hash urls).entries).filter fun entry => p entry.2).map snd =
      ((walk fst (hash key) (new hash urls).entries).map snd).filter p := by
    rw [filter_map]
    rfl
  rw [chosen, find?_filter]
  simp only [Bool.decide_and, Bool.decide_eq_true]

theorem new_perm {other : List String} (perm : other.Perm urls) : new hash other = new hash urls := by
  unfold new
  congr 1
  exact inOrder_unique free.separates ((perm_inOrder _).trans (perm.flatMap_right _)) (pairwise_inOrder _)

omit free

theorem find?_passing_over (added : String) (isHealthy : String → Bool) (urls : List String) :
    urls.find? isHealthy = urls.find? (fun url => decide (url ≠ added) && isHealthy url) ∨
      urls.find? isHealthy = some added := by
  induction urls with
  | nil => exact .inl rfl
  | cons url rest ih =>
    cases health : isHealthy url with
    | false => simpa [find?_cons, health] using ih
    | true =>
      by_cases taken : url = added
      · exact .inr (by rw [find?_cons_of_pos health, taken])
      · exact .inl (by simp [health, taken])

/-- A ring without collisions finds a worker iff one is healthy, and then the one the ring of the
healthy workers alone finds.  The order of the URLs does not matter, and another worker only takes
keys over. -/
theorem find_healthy_url_consistent (free : CollisionFree hashPosition urls)
    (isHealthy : String → Bool) (key : String) :
    (((new hashPosition urls).findHealthyUrl hashPosition key isHealthy).isSome ↔
        ∃ url ∈ urls, isHealthy url = true) ∧
      (new hashPosition urls).findHealthyUrl hashPosition key isHealthy =
        (new hashPosition (urls.filter isHealthy)).findHealthyUrl hashPosition key (fun _ => true) ∧
      (∀ other : List String, other.Perm urls → (new hashPosition other).findHealthyUrl hashPosition key isHealthy =
          (new hashPosition urls).findHealthyUrl hashPosition key isHealthy) ∧
      ∀ added, added ∉ urls → CollisionFree hashPosition (added :: urls) →
        (new hashPosition (added :: urls)).findHealthyUrl hashPosition key isHealthy =
            (new hashPosition urls).findHealthyUrl hashPosition key isHealthy ∨
          (new hashPosition (added :: urls)).findHealthyUrl hashPosition key isHealthy = some added := by
  refine ⟨by simp only [findHealthyUrl_eq, find?_isSome, mem_walk_urls], ?_, fun other perm => by rw [new_perm free perm],
    fun added fresh larger => ?_⟩
  · rw [findHealthyUrl_filter free]
    simp only [Bool.and_true]
  · -- the ring without the new worker is the larger one with that worker passed over
    have pre : urls = (added :: urls).filter (· ≠ added) := by
      rw [filter_cons_of_neg (by simp)]
      apply (filter_eq_self.mpr _).symm
      intro url mem
      have other : url ≠ added := fun same => fresh (same ▸ mem)
      simpa using other
    have passed : (new hashPosition urls).findHealthyUrl hashPosition key isHealthy =
        (new hashPosition (added :: urls)).findHealthyUrl hashPosition key
          fun url => decide (url ≠ added) && isHealthy url := by
      conv_lhs => rw [pre]
      exact findHealthyUrl_filter larger key isHealthy _
    rw [passed, findHealthyUrl_eq, findHealthyUrl_eq]
    exact find?_passing_over added isHealthy _

/-- Positions that are all the first letter of the string. -/
def initialPosition (name : String) : Position :=
  Fin.ofNat (2 ^ 64) (name.toList.headD 'a').toNat

theorem two_workers_found : CollisionFree initialPosition ["a", "b"] ∧
      ((new initialPosition ["a", "b"]).findHealthyUrl initialPosition "key" (· == "b")).isSome := by
  have initial {url : String} {letter : Char} (vnode : Nat) (spelled : url.toList = [letter]) :
      initialPosition (vnodeKey url vnode) = Fin.ofNat (2 ^ 64) letter.toNat := by
    simp [initialPosition, vnodeKey, spelled]
  have apart (one other : Nat) : initialPosition (vnodeKey "a" one) ≠ initialPosition (vnodeKey "b" other) := by
    rw [initial one (by decide : "a".toList = ['a']), initial other (by decide : "b".toList = ['b'])]
    decide
  have free : CollisionFree initialPosition ["a", "b"] := by
    intro first mem second memberToo one _ other _ same
    simp only [mem_cons, not_mem_nil, or_false] at mem memberToo
    rcases mem with rfl | rfl <;> rcases memberToo with rfl | rfl
    · rfl
    · exact absurd same (apart one other)
    · exact absurd same.symm (apart other one)
    · rfl
  exact ⟨free, (find_healthy_url_consistent free (· == "b") "key").1.mpr ⟨"b", by simp, rfl⟩⟩

end HashRing

end ModelGateway.WorkerRing

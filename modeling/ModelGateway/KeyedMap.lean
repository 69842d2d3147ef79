import Mathlib

/-! Finite keyed maps: association lists with one entry per key, seen through
lookup, insertion and removal. The order of the entries is an iteration order
and nothing more. -/
namespace ModelGateway
open List Prod

theorem mem_snoc {α : Type} {list : List α} {value last : α} :
    value ∈ list ++ [last] ↔ value ∈ list ∨ last = value := by
  simp [eq_comm]

theorem forall_mem_snoc {α : Type} {p : α → Prop} {list : List α} {last : α} :
    (∀ value ∈ list ++ [last], p value) ↔ (∀ value ∈ list, p value) ∧ p last := by
  rw [forall_mem_append, forall_mem_singleton]

/-- A finite map from keys to values of one type. -/
def KeyedMap (κ ν : Type) : Type := AList (fun _ : κ => ν)

namespace KeyedMap
variable {κ ν : Type} (map : KeyedMap κ ν)

instance : EmptyCollection (KeyedMap κ ν) := ⟨(∅ : AList (fun _ : κ => ν))⟩

instance : Inhabited (KeyedMap κ ν) := ⟨∅⟩

/-- The stored keys, in iteration order. -/
def keys (map : KeyedMap κ ν) : List κ := AList.keys map

/-- The stored values, in iteration order. -/
def values (map : KeyedMap κ ν) : List ν := (AList.entries map).map Sigma.snd

/-- The stored pairs, in iteration order. -/
def toList (map : KeyedMap κ ν) : List (κ × ν) :=
  (AList.entries map).map fun entry => (entry.1, entry.2)

theorem keys_nodup : map.keys.Nodup := AList.keys_nodup map

theorem keys_eq : map.keys = map.toList.map fst := by
  simp [keys, toList, AList.keys, List.keys]

theorem values_eq : map.values = map.toList.map snd := by
  simp [values, toList]

variable [DecidableEq κ]

def get? (map : KeyedMap κ ν) (key : κ) : Option ν := AList.lookup key map

def insert (map : KeyedMap κ ν) (key : κ) (value : ν) : KeyedMap κ ν := AList.insert key value map

def erase (map : KeyedMap κ ν) (key : κ) : KeyedMap κ ν := AList.erase key map

@[simp] theorem get?_empty (key : κ) : (∅ : KeyedMap κ ν).get? key = none := rfl

theorem get?_insert (key probe : κ) (value : ν) :
    (map.insert key value).get? probe = if probe = key then some value else map.get? probe := by
  by_cases same : probe = key
  · subst probe
    rw [if_pos rfl]
    exact AList.lookup_insert map
  · rw [if_neg same]
    exact AList.lookup_insert_ne same

theorem get?_erase (key probe : κ) : (map.erase key).get? probe = if probe = key then none else map.get? probe := by
  by_cases same : probe = key
  · rw [if_pos same, same]
    exact AList.lookup_erase key map
  · rw [if_neg same]
    exact AList.lookup_erase_ne same

@[simp] theorem get?_insert_self (key : κ) (value : ν) : (map.insert key value).get? key = some value := by
  rw [get?_insert, if_pos rfl]

variable {map : KeyedMap κ ν} {key : κ} {value : ν}

theorem mem_toList_iff : (key, value) ∈ map.toList ↔ map.get? key = some value := by
  simp only [toList, mem_map, mk.injEq, Sigma.exists]
  constructor
  · rintro ⟨held, stored, mem, rfl, rfl⟩
    exact AList.mem_lookup_iff.mpr mem
  · intro found
    exact ⟨key, value, AList.mem_lookup_iff.mp found, rfl, rfl⟩

theorem toList_insert (map : KeyedMap κ ν) (key : κ) (value : ν) :
    (map.insert key value).toList = (key, value) :: (map.erase key).toList := rfl

theorem toList_perm (held : map.get? key = some value) :
    map.toList.Perm ((key, value) :: (map.erase key).toList) := by
  have nodup (map : KeyedMap κ ν) : map.toList.Nodup :=
    List.Nodup.of_map fst (by rw [← keys_eq]; exact map.keys_nodup)
  refine (perm_ext_iff_of_nodup (nodup _) (nodup_cons.mpr ⟨?_, nodup _⟩)).mpr ?_
  · rw [mem_toList_iff, get?_erase, if_pos rfl]
    nofun
  · rintro ⟨probe, stored⟩
    rw [mem_cons, mem_toList_iff, mem_toList_iff, get?_erase]
    by_cases same : probe = key
    · simp [same, held, eq_comm]
    · simp [same]

theorem mem_keys_iff : key ∈ map.keys ↔ ∃ value, map.get? key = some value := by
  simp only [keys_eq, mem_map, Prod.exists, exists_and_right, exists_eq_right, mem_toList_iff]

theorem mem_values_iff : value ∈ map.values ↔ ∃ key, map.get? key = some value := by
  simp only [values_eq, mem_map, Prod.exists, exists_eq_right, mem_toList_iff]

section Entries
variable {Holds : κ → ν → Prop} (held : ∀ key value, map.get? key = some value → Holds key value)
include held

theorem forall_insert (new : Holds key value) (probe : κ) (stored : ν)
    (found : (map.insert key value).get? probe = some stored) : Holds probe stored := by
  rw [get?_insert] at found
  split at found
  · rename_i same
    cases found
    rwa [same]
  · exact held probe stored found

theorem forall_erase (key probe : κ) (stored : ν)
    (found : (map.erase key).get? probe = some stored) : Holds probe stored := by
  rw [get?_erase] at found
  split at found
  · cases found
  · exact held probe stored found

end Entries

def contains (map : KeyedMap κ ν) (key : κ) : Bool := (map.get? key).isSome

@[simp] theorem contains_empty (key : κ) : (∅ : KeyedMap κ ν).contains key = false := rfl

@[simp] theorem contains_insert (map : KeyedMap κ ν) (key probe : κ) (value : ν) :
    (map.insert key value).contains probe = (decide (probe = key) || map.contains probe) := by
  rw [contains, get?_insert]
  by_cases same : probe = key <;> simp [same, contains]

@[simp] theorem contains_erase (map : KeyedMap κ ν) (key probe : κ) :
    (map.erase key).contains probe = (!decide (probe = key) && map.contains probe) := by
  rw [contains, get?_erase]
  by_cases same : probe = key <;> simp [same, contains]

theorem contains_iff_mem_keys : map.contains key = true ↔ key ∈ map.keys := by
  rw [contains, Option.isSome_iff_exists, mem_keys_iff]

/-- The number of stored pairs. -/
def size {κ ν : Type} (map : KeyedMap κ ν) : Nat := map.keys.length

def isEmpty {κ ν : Type} (map : KeyedMap κ ν) : Bool := map.keys.isEmpty

theorem isEmpty_iff : map.isEmpty = true ↔ ∀ key, map.get? key = none := by
  rw [isEmpty, List.isEmpty_iff, eq_nil_iff_forall_not_mem]
  simp only [mem_keys_iff, not_exists, Option.eq_none_iff_forall_ne_some]

theorem size_insert (map : KeyedMap κ ν) (key : κ) (value : ν) :
    (map.insert key value).size = if (map.get? key).isSome then map.size else map.size + 1 := by
  have keys : (map.insert key value).keys = key :: map.keys.erase key := AList.keys_insert map
  have held : (map.get? key).isSome = true ↔ key ∈ map.keys := by
    rw [mem_keys_iff, Option.isSome_iff_exists]
  rw [size, keys, length_cons, length_erase]
  split <;> split
  · have := length_pos_of_mem ‹key ∈ map.keys›
    simp only [size]
    omega
  · exact absurd ((held).mpr ‹_›) ‹_›
  · exact absurd ((held).mp ‹_›) ‹_›
  · rfl

theorem size_erase (map : KeyedMap κ ν) (key : κ) :
    (map.erase key).size = if (map.get? key).isSome then map.size - 1 else map.size := by
  have keys : (map.erase key).keys = map.keys.erase key := AList.keys_erase key map
  have held : (map.get? key).isSome = true ↔ key ∈ map.keys := by
    rw [mem_keys_iff, Option.isSome_iff_exists]
  rw [size, keys, length_erase]
  simp only [held, size]

theorem size_pos (held : map.get? key = some value) : 0 < map.size :=
  length_pos_of_mem (mem_keys_iff.mpr ⟨value, held⟩)

theorem erase_of_get?_none (vacant : map.get? key = none) : map.erase key = map := by
  have absent : key ∉ map.keys := by
    rw [mem_keys_iff, vacant]
    simp
  exact AList.ext (kerase_of_notMem_keys absent)

/-! ### Repeated updates -/

theorem get?_foldl_insert (keys : List κ) (value : ν) (map : KeyedMap κ ν) (probe : κ) :
    (keys.foldl (fun map key => map.insert key value) map).get? probe =
      if probe ∈ keys then some value else map.get? probe := by
  induction keys generalizing map with
  | nil => simp
  | cons key rest ih =>
    rw [foldl_cons, ih, get?_insert]
    by_cases later : probe ∈ rest <;> by_cases same : probe = key <;> simp [later, same]

theorem get?_foldl_erase (keys : List κ) (map : KeyedMap κ ν) (probe : κ) :
    (keys.foldl erase map).get? probe = if probe ∈ keys then none else map.get? probe := by
  induction keys generalizing map with
  | nil => simp
  | cons key rest ih =>
    rw [foldl_cons, ih, get?_erase]
    by_cases later : probe ∈ rest <;> by_cases same : probe = key <;> simp [later, same]

/-! ### Iteration by ascending key -/

section Ascending
variable {κ ν : Type} [LinearOrder κ]

/-- The stored pairs by ascending key. -/
def ascending (map : KeyedMap κ ν) : List (κ × ν) :=
  map.toList.insertionSort fun first second => first.1 ≤ second.1

theorem perm_ascending (map : KeyedMap κ ν) : map.ascending.Perm map.toList := perm_insertionSort _ _

theorem mem_ascending {map : KeyedMap κ ν} {key : κ} {value : ν} :
    (key, value) ∈ map.ascending ↔ map.get? key = some value := by
  rw [(perm_ascending map).mem_iff, mem_toList_iff]

theorem pairwise_ascending (map : KeyedMap κ ν) : map.ascending.Pairwise fun first second => first.1 < second.1 := by
  have total : Std.Total fun first second : κ × ν => first.1 ≤ second.1 :=
    ⟨fun first second => le_total first.1 second.1⟩
  have transitive : IsTrans (κ × ν) fun first second => first.1 ≤ second.1 := ⟨fun _ _ _ => le_trans⟩
  have ordered : map.ascending.Pairwise fun first second => first.1 ≤ second.1 := pairwise_insertionSort _ _
  have nodup : (map.ascending.map fst).Nodup := by
    rw [((perm_ascending map).map fst).nodup_iff, ← keys_eq]
    exact map.keys_nodup
  refine (ordered.and (pairwise_map.mp nodup)).imp ?_
  exact fun ⟨le, ne⟩ => lt_of_le_of_ne le ne

theorem eq_of_pairwise_lt {first second : List (κ × ν)}
    (ordered : first.Pairwise fun a b => a.1 < b.1) (orderedToo : second.Pairwise fun a b => a.1 < b.1)
    (same : ∀ pair, pair ∈ first ↔ pair ∈ second) : first = second := by
  have irreflexive : Std.Irrefl fun a b : κ × ν => a.1 < b.1 := ⟨fun pair => lt_irrefl pair.1⟩
  have antisymmetric : Std.Antisymm fun a b : κ × ν => a.1 < b.1 := ⟨fun _ _ lt gt => absurd gt (lt_asymm lt)⟩
  exact ordered.eq_of_mem_iff orderedToo same

end Ascending
end KeyedMap

/-- A finite set with an iteration order. -/
structure KeyedSet (κ : Type) where
  entries : KeyedMap κ Unit := ∅

namespace KeyedSet
variable {κ : Type}

instance : EmptyCollection (KeyedSet κ) := ⟨{}⟩

def toList (set : KeyedSet κ) : List κ := set.entries.keys

def size (set : KeyedSet κ) : Nat := set.entries.size

def isEmpty (set : KeyedSet κ) : Bool := set.entries.isEmpty

instance : Membership κ (KeyedSet κ) := ⟨fun set key => key ∈ set.toList⟩

theorem nodup_toList (set : KeyedSet κ) : set.toList.Nodup := set.entries.keys_nodup

variable {set : KeyedSet κ} {key probe : κ}

@[simp] theorem mem_toList : key ∈ set.toList ↔ key ∈ set := Iff.rfl

theorem isEmpty_iff : set.isEmpty = true ↔ ∀ key, key ∉ set := by
  rw [isEmpty, KeyedMap.isEmpty, List.isEmpty_iff, eq_nil_iff_forall_not_mem]
  rfl

@[simp] theorem not_mem_empty (key : κ) : key ∉ (∅ : KeyedSet κ) := not_mem_nil

variable [DecidableEq κ]

instance (set : KeyedSet κ) (key : κ) : Decidable (key ∈ set) :=
  inferInstanceAs (Decidable (key ∈ set.toList))

def insert (set : KeyedSet κ) (key : κ) : KeyedSet κ := ⟨set.entries.insert key ()⟩

def erase (set : KeyedSet κ) (key : κ) : KeyedSet κ := ⟨set.entries.erase key⟩

theorem mem_iff : key ∈ set ↔ ∃ value, set.entries.get? key = some value := KeyedMap.mem_keys_iff

@[simp] theorem mem_insert : probe ∈ set.insert key ↔ probe = key ∨ probe ∈ set := by
  simp only [mem_iff, insert, KeyedMap.get?_insert]
  by_cases same : probe = key <;> simp [same]

@[simp] theorem mem_erase : probe ∈ set.erase key ↔ probe ≠ key ∧ probe ∈ set := by
  simp only [mem_iff, erase, KeyedMap.get?_erase]
  by_cases same : probe = key <;> simp [same]

theorem size_insert_of_notMem (absent : key ∉ set) : (set.insert key).size = set.size + 1 := by
  have vacant : (set.entries.get? key).isSome = false := by
    rw [Bool.eq_false_iff, Ne, Option.isSome_iff_exists, ← mem_iff]
    exact absent
  rw [size, insert, KeyedMap.size_insert, if_neg (by simp [vacant]), size]

theorem mem_foldl_insert {keys : List κ} : probe ∈ keys.foldl insert set ↔ probe ∈ keys ∨ probe ∈ set := by
  induction keys generalizing set with
  | nil => simp
  | cons key rest ih =>
    rw [foldl_cons, ih, mem_insert, mem_cons]
    tauto

end KeyedSet
end ModelGateway

import Mathlib

/-! The entries that carry a stream value, and the batches they are sent in (`mesh/src/chunking.rs`). -/
namespace ModelGateway.StreamBatches
open List Nat

abbrev Bytes := List UInt8

structure StreamEntry where
  key : String
  generation : UInt64
  chunkIndex : UInt32
  totalChunks : UInt32
  data : Bytes
  deriving DecidableEq

structure StreamBatch where
  entries : List StreamEntry

def usizeMax : Nat := 2 ^ 64 - 1

def saturatingAdd (first second : Nat) : Nat := min (first + second) usizeMax

/-- The variables of the loop of `build_stream_batches`. -/
structure Packing where
  out : List StreamBatch := []
  current : List StreamEntry := []
  currentBytes : Nat := 0

def Packing.push (maxChunksPerBatch maxBytesPerBatch : Nat) (self : Packing) (entry : StreamEntry) : Packing :=
  let entryBytes := entry.data.length
  let atCountCap := maxChunksPerBatch ≤ self.current.length
  let wouldExceedBytes := self.current ≠ [] ∧ maxBytesPerBatch < saturatingAdd self.currentBytes entryBytes
  if atCountCap ∨ wouldExceedBytes then
    ⟨self.out ++ [⟨self.current⟩], [entry], saturatingAdd 0 entryBytes⟩
  else ⟨self.out, self.current ++ [entry], saturatingAdd self.currentBytes entryBytes⟩

def buildStreamBatches (entries : List StreamEntry) (maxChunksPerBatch maxBytesPerBatch : Nat) :
    List StreamBatch :=
  if maxChunksPerBatch = 0 ∨ maxBytesPerBatch = 0 ∨ entries = [] then []
  else
    let packed := entries.foldl (Packing.push maxChunksPerBatch maxBytesPerBatch) {}
    if packed.current = [] then packed.out else packed.out ++ [⟨packed.current⟩]

/-- The bytes that a batch carries. -/
def StreamBatch.payload (batch : StreamBatch) : Nat := (batch.entries.map (·.data.length)).sum

section Packs
variable (maxChunks maxBytes : Nat)

/-- A batch within the caps; its bytes are counted up to the greatest `usize`. -/
structure StreamBatch.Fits (batch : StreamBatch) : Prop where
  some : batch.entries ≠ []
  count : batch.entries.length ≤ maxChunks
  bytes : 1 < batch.entries.length → min batch.payload usizeMax ≤ maxBytes

/-- The first entry of a batch would have broken a cap of the one before it. -/
def StreamBatch.Full (batch later : StreamBatch) : Prop :=
  ∃ entry, later.entries.head? = some entry ∧
    (maxChunks < batch.entries.length + 1 ∨ maxBytes < batch.payload + entry.data.length)

/-- The entries are in the batches, in order, and the batches are within the caps and as full as they go. -/
structure Packs (entries : List StreamEntry) (batches : List StreamBatch) : Prop where
  whole : (batches.map (·.entries)).flatten = entries
  fits : ∀ batch ∈ batches, batch.Fits maxChunks maxBytes
  greedy : batches.IsChain (StreamBatch.Full maxChunks maxBytes)

end Packs

variable {maxChunks maxBytes : Nat} {done : List StreamEntry} {packing : Packing}

/-- What the loop has packed once it has met an entry. -/
structure Packing.Holds (maxChunks maxBytes : Nat) (done : List StreamEntry) (packing : Packing) : Prop where
  packs : Packs maxChunks maxBytes done (packing.out ++ [⟨packing.current⟩])
  counted : packing.currentBytes = min (StreamBatch.payload ⟨packing.current⟩) usizeMax

open StreamBatch

theorem Packing.Holds.push (pos : 0 < maxChunks) (holds : packing.Holds maxChunks maxBytes done)
    (entry : StreamEntry) : (packing.push maxChunks maxBytes entry).Holds maxChunks maxBytes (done ++ [entry]) := by
  obtain ⟨⟨whole, fits, greedy⟩, counted⟩ := holds
  have held := fits ⟨packing.current⟩ mem_concat_self
  unfold Packing.push saturatingAdd
  dsimp only
  split
  · next full =>
    refine ⟨⟨?_, ?_, ?_⟩, by simp [payload]⟩
    · rw [map_append, flatten_append, whole]
      rfl
    · refine forall_mem_append.mpr ⟨fits, forall_mem_singleton.mpr ?_⟩
      exact ⟨cons_ne_nil _ _, pos, fun many => absurd many (lt_irrefl 1)⟩
    · refine isChain_append.mpr ⟨greedy, isChain_singleton _, fun last isLast next isNext => ?_⟩
      cases (getLast?_concat.symm.trans isLast)
      cases isNext
      refine ⟨entry, rfl, full.imp lt_succ_of_le fun exceeds => ?_⟩
      omega
  · next room =>
    rw [not_or, not_le, not_and, not_lt] at room
    have fit := room.2 held.some
    have total : payload ⟨packing.current ++ [entry]⟩ =
        payload ⟨packing.current⟩ + entry.data.length := by simp [payload]
    refine ⟨⟨?_, ?_, ?_⟩, by dsimp only; omega⟩
    · rw [map_append, flatten_append] at whole ⊢
      simp only [map_singleton, flatten_singleton] at whole ⊢
      rw [← whole, append_assoc]
    · refine forall_mem_append.mpr ⟨(forall_mem_append.mp fits).1, forall_mem_singleton.mpr ?_⟩
      refine ⟨by simp, by simpa using succ_le_of_lt room.1, fun _ => ?_⟩
      rw [total]
      omega
    · obtain ⟨pre, -, joins⟩ := isChain_append.mp greedy
      refine isChain_append.mpr ⟨pre, isChain_singleton _, fun last isLast next isNext => ?_⟩
      obtain ⟨first, head, full⟩ := joins last isLast _ rfl
      cases isNext
      exact ⟨first, (head?_append_of_ne_nil _ held.some).trans head, full⟩

theorem Packing.Holds.run (pos : 0 < maxChunks) (holds : packing.Holds maxChunks maxBytes done)
    (entries : List StreamEntry) :
    (entries.foldl (Packing.push maxChunks maxBytes) packing).Holds maxChunks maxBytes (done ++ entries) := by
  induction entries generalizing packing done with
  | nil => rwa [append_nil]
  | cons entry rest ih =>
    rw [foldl_cons, append_cons]
    exact ih (holds.push pos entry)

/-- The batches hold the entries in order, each within the caps and as full as it goes. -/
theorem entries_batched (entries : List StreamEntry) (chunks : 0 < maxChunks) (bytes : 0 < maxBytes) :
    Packs maxChunks maxBytes entries (buildStreamBatches entries maxChunks maxBytes) := by
  cases entries with
  | nil =>
    rw [buildStreamBatches, if_pos (.inr (.inr rfl))]
    exact ⟨rfl, nofun, .nil⟩
  | cons first rest =>
    -- the first entry finds no batch to be full
    have start : Packing.push maxChunks maxBytes {} first = ⟨[], [first], saturatingAdd 0 first.data.length⟩ :=
      if_neg (by simpa using chunks.ne')
    have holds : (Packing.push maxChunks maxBytes {} first).Holds maxChunks maxBytes [first] := by
      rw [start]
      refine ⟨⟨rfl, fun batch mem => ?_, isChain_singleton _⟩, by simp [saturatingAdd, payload]⟩
      obtain rfl := mem_singleton.mp mem
      exact ⟨cons_ne_nil _ _, chunks, fun many => absurd many (lt_irrefl 1)⟩
    have packed := holds.run chunks rest
    rw [buildStreamBatches, if_neg (by simp [chunks.ne', bytes.ne']), foldl_cons]
    dsimp only
    rw [if_neg (packed.packs.fits _ mem_concat_self).some]
    exact packed.packs

theorem entries_batched_two : Packs 1 4 [⟨"k", 0, 0, 2, [1]⟩, ⟨"k", 0, 1, 2, [2]⟩]
      (buildStreamBatches [⟨"k", 0, 0, 2, [1]⟩, ⟨"k", 0, 1, 2, [2]⟩] 1 4) :=
  entries_batched _ (by decide) (by decide)

theorem batch_uncapped (entry : StreamEntry) :
    buildStreamBatches [entry, entry, entry] 3 usizeMax = [⟨[entry, entry, entry]⟩] := by
  have below (sum : Nat) : ¬ usizeMax < min sum usizeMax := (min_le_right _ _).not_gt
  simp [buildStreamBatches, Packing.push, saturatingAdd, below, show usizeMax ≠ 0 by decide]

/-- With the greatest cap, three values of the greatest length go into one batch. -/
theorem saturated_sum_passes : ∃ entries, ∃ batch ∈ buildStreamBatches entries 3 usizeMax,
    1 < batch.entries.length ∧ usizeMax < batch.payload := by
  obtain ⟨data, longest⟩ : ∃ data : Bytes, data.length = 2 ^ 63 - 1 := ⟨replicate _ 0, length_replicate⟩
  let entry : StreamEntry := ⟨"k", 0, 0, 1, data⟩
  refine ⟨[entry, entry, entry], ⟨[entry, entry, entry]⟩, ?_, one_lt_succ_succ 1, ?_⟩
  · rw [batch_uncapped]
    exact mem_singleton_self _
  · simp [payload, entry, longest, usizeMax]

end ModelGateway.StreamBatches

import ModelGateway.StreamBatches

/-! The buffer of entries for single peers (`StreamNamespace` in `mesh/src/kv.rs`). Its byte counter
is a `usize` that wraps around. -/
namespace ModelGateway
open StreamBatches List

inductive StreamRouting where
  | broadcast
  | targeted
  deriving DecidableEq

structure StreamNamespace where
  keyPrefix : String
  routing : StreamRouting
  maxBufferBytes : UInt64
  targetedBuffer : List (String × String × Bytes) := []
  targetedBufferBytes : UInt64 := 0

namespace StreamNamespace

/-- The peer, the key and the value. -/
abbrev Entry := String × String × Bytes

/-- `value.len()` as a `usize`. -/
def valueLen (entry : Entry) : UInt64 := .ofNat entry.2.2.length

/-- The loop of `publish_to`, on the buffer and the byte counter. -/
def dropOldest (maxBufferBytes : UInt64) : List Entry → UInt64 → List Entry × UInt64
  | [], bytes => ([], bytes)
  | entry :: rest, bytes =>
    if maxBufferBytes < bytes then dropOldest maxBufferBytes rest (bytes - valueLen entry)
    else (entry :: rest, bytes)

variable (self : StreamNamespace)

/-- `none` where an assertion fails. -/
def publishTo (peerId key : String) (value : Bytes) : Option StreamNamespace :=
  if self.routing = .targeted ∧ key.startsWith self.keyPrefix then
    let kept := dropOldest self.maxBufferBytes (self.targetedBuffer ++ [(peerId, key, value)])
      (self.targetedBufferBytes + valueLen (peerId, key, value))
    some { self with targetedBuffer := kept.1, targetedBufferBytes := kept.2 }
  else none

def drainTargetedBuffer : List Entry × StreamNamespace :=
  (self.targetedBuffer, { self with targetedBuffer := [], targetedBufferBytes := 0 })

inductive Call where
  | publishTo (peerId key : String) (value : Bytes)
  | drainTargetedBuffer

/-- A failed assertion leaves the namespace as it was. -/
def call : Call → StreamNamespace
  | .publishTo peerId key value => (self.publishTo peerId key value).getD self
  | .drainTargetedBuffer => self.drainTargetedBuffer.2

/-- The entries published since the last drain, after one more call. -/
def published (entries : List Entry) : Call → List Entry
  | .publishTo peerId key value =>
    if (self.publishTo peerId key value).isSome then entries ++ [(peerId, key, value)] else entries
  | .drainTargetedBuffer => []

def totalBytes (entries : List Entry) : Nat := (entries.map (·.2.2.length)).sum

/-- The longest suffix whose values fit into the limit. -/
structure LongestSuffix (maxBytes : Nat) (entries kept : List Entry) : Prop where
  suffix : kept <:+ entries
  fits : totalBytes kept ≤ maxBytes
  longest : ∀ other, other <:+ entries → totalBytes other ≤ maxBytes → other <:+ kept

/-- What is kept after the calls: the longest suffix, and its number of bytes in the counter. -/
def KeepsSuffix (calls : List Call) : Prop :=
  LongestSuffix self.maxBufferBytes.toNat (calls.foldl self.published []) (calls.foldl call self).targetedBuffer ∧
    (calls.foldl call self).targetedBufferBytes.toNat = totalBytes (calls.foldl call self).targetedBuffer

/-- The call publishes a value, and the counter wraps around with it. -/
def Overflows : Call → Prop
  | .publishTo peerId key value => (self.publishTo peerId key value).isSome ∧
      2 ^ 64 ≤ self.targetedBufferBytes.toNat + value.length
  | .drainTargetedBuffer => False

instance decidableOverflows : ∀ next, Decidable (self.Overflows next)
  | .publishTo .. => inferInstanceAs (Decidable (_ ∧ _))
  | .drainTargetedBuffer => inferInstanceAs (Decidable False)

/-- The value's length is a `usize`. -/
def Call.Sized : Call → Prop
  | .publishTo _ _ value => value.length < 2 ^ 64
  | .drainTargetedBuffer => True

variable {maxBytes : Nat} {limit : UInt64} {entries buffer kept : List Entry}

theorem totalBytes_cons (entry : Entry) (rest : List Entry) :
    totalBytes (entry :: rest) = entry.2.2.length + totalBytes rest := by
  simp [totalBytes]

theorem LongestSuffix.whole (fits : totalBytes entries ≤ maxBytes) : LongestSuffix maxBytes entries entries :=
  ⟨suffix_rfl, fits, fun _ suffix _ => suffix⟩

theorem dropOldest_longest (limit : UInt64) (fits : totalBytes entries < 2 ^ 64) :
    ∃ kept, dropOldest limit entries (.ofNat (totalBytes entries)) = (kept, .ofNat (totalBytes kept)) ∧
      LongestSuffix limit.toNat entries kept := by
  induction entries with
  | nil => exact ⟨[], rfl, .whole (Nat.zero_le _)⟩
  | cons entry rest ih =>
    have excess : limit < .ofNat (totalBytes (entry :: rest)) ↔ limit.toNat < totalBytes (entry :: rest) := by
      rw [UInt64.lt_iff_toNat_lt, UInt64.toNat_ofNat_of_lt' fits]
    rw [dropOldest]
    split
    · rename_i above
      rw [totalBytes_cons] at fits
      obtain ⟨kept, dropped, suffix, fits, longest⟩ := ih (by omega)
      have left : UInt64.ofNat (totalBytes (entry :: rest)) - valueLen entry = .ofNat (totalBytes rest) := by
        rw [totalBytes_cons, UInt64.ofNat_add, valueLen, UInt64.add_comm, UInt64.add_sub_cancel]
      rw [left]
      refine ⟨kept, dropped, suffix.trans (suffix_cons entry rest), fits, fun other suffix fits => ?_⟩
      rcases suffix_cons_iff.mp suffix with rfl | suffix
      · exact absurd fits (Nat.not_le.mpr (excess.mp above))
      · exact longest other suffix fits
    · rename_i within
      exact ⟨_, rfl, .whole (Nat.le_of_not_lt (within ∘ excess.mpr))⟩

theorem dropOldest_of_le {bytes : UInt64} (within : bytes ≤ limit) :
    dropOldest limit entries bytes = (entries, bytes) := by
  cases entries with
  | nil => rfl
  | cons entry rest => rw [dropOldest, if_neg (UInt64.not_lt.mpr within)]

theorem LongestSuffix.push (held : LongestSuffix maxBytes entries buffer) {entry : Entry}
    (pushed : LongestSuffix maxBytes (buffer ++ [entry]) kept) :
    LongestSuffix maxBytes (entries ++ [entry]) kept := by
  refine ⟨pushed.suffix.trans (suffix_append_self_iff.mpr held.suffix), pushed.fits, fun other suffix fits => ?_⟩
  rcases suffix_concat_iff.mp suffix with rfl | ⟨pre, rfl, earlier⟩
  · exact nil_suffix
  · have less : totalBytes pre ≤ maxBytes := by
      simp only [totalBytes, map_append, sum_append] at fits ⊢
      omega
    exact pushed.longest _ (suffix_append_self_iff.mpr (held.longest pre earlier less)) fits

theorem foldl_call (start : StreamNamespace) (calls : List Call) : ∃ buffer bytes,
    calls.foldl call start = { start with targetedBuffer := buffer, targetedBufferBytes := bytes } := by
  induction calls using reverseRecOn with
  | nil => exact ⟨_, _, rfl⟩
  | append_singleton calls next ih =>
    obtain ⟨buffer, bytes, post⟩ := ih
    rw [foldl_concat, post]
    cases next with
    | drainTargetedBuffer => exact ⟨_, _, rfl⟩
    | publishTo peerId key value =>
      rw [call, publishTo]
      split <;> exact ⟨_, _, rfl⟩

/-- One more call keeps the longest suffix exactly if the counter does not wrap around. -/
theorem KeepsSuffix.concat_iff {start : StreamNamespace} {calls : List Call} {next : Call}
    (keeps : start.KeepsSuffix calls) (sized : next.Sized) :
    start.KeepsSuffix (calls ++ [next]) ↔ ¬ (calls.foldl call start).Overflows next := by
  obtain ⟨buffer, bytes, post⟩ := foldl_call start calls
  unfold KeepsSuffix at keeps ⊢
  rw [foldl_concat, foldl_concat]
  rw [post] at keeps ⊢
  obtain ⟨held, counted⟩ := keeps
  dsimp only at held counted
  cases next with
  | drainTargetedBuffer => exact iff_of_true ⟨.whole (Nat.zero_le _), rfl⟩ id
  | publishTo peerId key value =>
    simp only [call, published, Overflows, publishTo]
    by_cases accepted : start.routing = .targeted ∧ key.startsWith start.keyPrefix
    · simp only [if_pos accepted, Option.isSome_some, if_true, Option.getD_some, true_and]
      have total : totalBytes (buffer ++ [(peerId, key, value)]) = bytes.toNat + value.length := by
        simp [totalBytes, counted]
      by_cases wraps : 2 ^ 64 ≤ bytes.toNat + value.length
      · refine iff_of_false (fun kept => ?_) (not_not_intro wraps)
        -- the sum is smaller than the counter was, so that nothing is dropped
        have within : bytes + valueLen (peerId, key, value) ≤ start.maxBufferBytes := by
          have fits := held.fits
          have limit := bytes.toNat_lt
          have small : value.length < 2 ^ 64 := sized
          rw [UInt64.le_iff_toNat_le, UInt64.toNat_add, valueLen, UInt64.toNat_ofNat_of_lt' small]
          omega
        have fits := kept.1.fits
        rw [dropOldest_of_le within, total] at fits
        have := start.maxBufferBytes.toNat_lt
        omega
      · refine iff_of_true ?_ wraps
        have small : totalBytes (buffer ++ [(peerId, key, value)]) < 2 ^ 64 := by omega
        obtain ⟨kept, dropped, pushed⟩ := dropOldest_longest start.maxBufferBytes small
        have sum : bytes + valueLen (peerId, key, value) = .ofNat (totalBytes (buffer ++ [(peerId, key, value)])) := by
          rw [total, UInt64.ofNat_add, UInt64.ofNat_toNat, valueLen]
        rw [sum, dropped]
        refine ⟨held.push pushed, UInt64.toNat_ofNat_of_lt' ?_⟩
        exact Nat.lt_of_le_of_lt pushed.fits start.maxBufferBytes.toNat_lt
    · simp only [if_neg accepted, Option.isSome_none, Bool.false_eq_true, if_false, Option.getD_none, false_and,
        not_false_iff, iff_true]
      exact ⟨held, counted⟩

/-- In every sequence of calls on a fresh namespace: the buffer is, after each call, the longest suffix of
the entries published since the last drain that fits into the limit, and the counter is the number of its
bytes, exactly if the counter never wraps around. -/
theorem buffer_longest_suffix (keyPrefix : String) (routing : StreamRouting) (maxBufferBytes : UInt64)
    (calls : List Call) (sized : ∀ next ∈ calls, next.Sized) :
    let start : StreamNamespace := { keyPrefix, routing, maxBufferBytes }
    (∀ done, done <+: calls → start.KeepsSuffix done) ↔
      ∀ done next, done ++ [next] <+: calls → ¬ (done.foldl call start).Overflows next := by
  intro start
  induction calls using reverseRecOn with
  | nil =>
    constructor
    · simp
    · rintro - done front
      rw [prefix_nil.mp front]
      exact ⟨.whole (Nat.zero_le _), rfl⟩
  | append_singleton calls next ih =>
    have ih := ih fun other mem => sized other (mem_append_left _ mem)
    have one := sized next (by simp)
    constructor
    · intro keeps done last front
      rcases prefix_concat_iff.mp front with same | front
      · obtain ⟨rfl, ⟨⟩⟩ := append_inj' same rfl
        exact ((keeps done (prefix_append _ _)).concat_iff one).mp (keeps _ prefix_rfl)
      · exact ih.mp (fun done front => keeps done (front.trans (prefix_append _ _))) done last front
    · intro fits done front
      have earlier := ih.mpr fun done last front => fits done last (front.trans (prefix_append _ _))
      rcases prefix_concat_iff.mp front with rfl | front
      · exact ((earlier calls prefix_rfl).concat_iff one).mpr (fits calls next prefix_rfl)
      · exact earlier done front

/-- The greatest limit. -/
def unlimited : StreamNamespace := { keyPrefix := "k", routing := .targeted, maxBufferBytes := .ofNat usizeMax }

theorem wrapped_counter_keeps : ∃ value : Bytes, value.length = 2 ^ 63 - 1 ∧
    ¬ unlimited.KeepsSuffix (replicate 3 (.publishTo "p" "k" value)) := by
  obtain ⟨value, longest⟩ : ∃ value : Bytes, value.length = 2 ^ 63 - 1 := ⟨replicate _ 0, length_replicate⟩
  refine ⟨value, longest, fun keeps => ?_⟩
  have fits := keeps.1.fits
  have accepted : "k".startsWith "k" = true := by simp
  simp [unlimited, call, publishTo, accepted, dropOldest, valueLen, longest, usizeMax, totalBytes] at fits

/-- A value that is drained, and three of which two fit. -/
def sampleCalls : List Call :=
  [.publishTo "p" "k1" [1], .drainTargetedBuffer, .publishTo "p" "k2" [2, 3], .publishTo "q" "k3" [4, 5],
    .publishTo "p" "k4" [6]]

theorem sample_keeps_suffix : StreamNamespace.KeepsSuffix { keyPrefix := "k", routing := .targeted, maxBufferBytes := 3 }
    sampleCalls := by
  refine (buffer_longest_suffix "k" .targeted 3 sampleCalls ?_).mpr ?_ sampleCalls prefix_rfl
  · simp [sampleCalls, Call.Sized]
  · rintro done next ⟨rest, whole⟩
    have all : ∀ i < 5, ∀ next ∈ sampleCalls[i]?, ¬ Overflows ((sampleCalls.take i).foldl call
        { keyPrefix := "k", routing := .targeted, maxBufferBytes := 3 }) next := by
      decide +kernel
    have inside : done.length < 5 := by
      have size := congrArg length whole
      simp only [sampleCalls, length_append, length_cons, length_nil] at size
      omega
    simpa [← whole] using all done.length inside next

end StreamNamespace
end ModelGateway

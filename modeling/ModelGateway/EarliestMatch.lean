import ModelGateway.Utf8

/-! Search for the earliest end of any of several patterns. At each end the patterns that end there
are candidates, and a rule picks among them; the rule sees the candidates only. Searching the bytes
of a text finds what searching its characters finds. -/
namespace ModelGateway.EarliestMatch
open List Option

section Search
variable {α : Type} [DecidableEq α]

variable (patterns : List (List α))

/-- The patterns the window ends with, by index. -/
def endingAt (window : List α) : List Nat :=
  (range patterns.length).filter fun i => (patterns.getD i []).isSuffixOf window

/-- The match at the end of the window: the picked pattern, and where it ends. -/
def matchAt (pick : List Nat → Nat) (patterns : List (List α)) (window : List α) : Option (Nat × Nat) :=
  if endingAt patterns window = [] then none else some (pick (endingAt patterns window), window.length)

/-- The first match at the end of the window or as the rest is read. -/
def scan (pick : List Nat → Nat) (patterns : List (List α)) (window : List α) :
    List α → Option (Nat × Nat)
  | [] => matchAt pick patterns window
  | symbol :: rest => (matchAt pick patterns window).or (scan pick patterns (window ++ [symbol]) rest)

/-- No pattern ends anywhere in the text. -/
def Clear (text : List α) : Prop :=
  ∀ pre post, text = pre ++ post → endingAt patterns pre = []

/-- The first end of a pattern in a text is after this part of it. -/
structure EndsFirst (pre : List α) : Prop where
  ends : endingAt patterns pre ≠ []
  first : ∀ shorter more, more ≠ [] → pre = shorter ++ more → endingAt patterns shorter = []

variable {patterns : List (List α)} {window : List α} {pick : List Nat → Nat} {found : Nat × Nat}
  {rest text pre : List α}

theorem mem_endingAt {index : Nat} : index ∈ endingAt patterns window ↔
      ∃ pattern, patterns[index]? = some pattern ∧ pattern <:+ window := by
  rw [endingAt, mem_filter, mem_range, isSuffixOf_iff_suffix, getD_eq_getElem?_getD]
  constructor
  · rintro ⟨bound, ends⟩
    rw [getElem?_eq_getElem bound] at ends ⊢
    exact ⟨_, rfl, ends⟩
  · rintro ⟨pattern, listed, ends⟩
    rw [listed]
    exact ⟨(List.getElem?_eq_some_iff.mp listed).1, ends⟩

theorem endingAt_eq_nil : endingAt patterns window = [] ↔ ∀ pattern ∈ patterns, ¬ pattern <:+ window := by
  rw [eq_nil_iff_forall_not_mem]
  constructor
  · intro none pattern mem ends
    obtain ⟨index, listed⟩ := mem_iff_getElem?.mp mem
    exact none index (mem_endingAt.mpr ⟨pattern, listed, ends⟩)
  · intro none index mem
    obtain ⟨pattern, listed, ends⟩ := mem_endingAt.mp mem
    exact none pattern (mem_of_getElem? listed) ends

theorem endingAt_congr {other : List α} (same : ∀ pattern ∈ patterns, pattern <:+ window ↔ pattern <:+ other) :
    endingAt patterns window = endingAt patterns other := by
  refine filter_congr fun index mem => ?_
  have bound := mem_range.mp mem
  rw [Bool.eq_iff_iff, isSuffixOf_iff_suffix, isSuffixOf_iff_suffix]
  refine same _ ?_
  rw [getD_eq_getElem?_getD, getElem?_eq_getElem bound]
  exact getElem_mem bound

theorem matchAt_eq_none : matchAt pick patterns window = none ↔ endingAt patterns window = [] := by
  rw [matchAt]
  split <;> simp_all

theorem matchAt_eq_some : matchAt pick patterns window = some found ↔
      endingAt patterns window ≠ [] ∧ found = (pick (endingAt patterns window), window.length) := by
  rw [matchAt]
  split
  · simp_all
  · rw [some.injEq, eq_comm]
    exact ⟨fun equal => ⟨‹_›, equal⟩, fun ⟨_, equal⟩ => equal⟩

theorem scan_eq_none : scan pick patterns window rest = none ↔
      ∀ pre post, rest = pre ++ post → endingAt patterns (window ++ pre) = [] := by
  induction rest generalizing window with
  | nil =>
    rw [scan, matchAt_eq_none]
    constructor
    · intro none pre post split
      rw [(append_eq_nil_iff.mp split.symm).1, append_nil]
      exact none
    · intro none
      simpa using none [] [] rfl
  | cons symbol rest ih =>
    rw [scan, or_eq_none_iff, matchAt_eq_none, ih]
    constructor
    · rintro ⟨here, later⟩ pre post split
      cases pre with
      | nil => rwa [append_nil]
      | cons first pre =>
        rw [cons_append, cons.injEq] at split
        rw [append_cons, ← split.1]
        exact later pre post split.2
    · intro none
      refine ⟨by simpa using none [] (symbol :: rest) rfl, fun pre post split => ?_⟩
      rw [append_assoc, singleton_append]
      exact none (symbol :: pre) post (by rw [split, cons_append])

theorem scan_eq_some (reported : scan pick patterns window rest = some found) :
    ∃ pre post, rest = pre ++ post ∧ endingAt patterns (window ++ pre) ≠ [] ∧
      (∀ shorter more, more ≠ [] → pre = shorter ++ more → endingAt patterns (window ++ shorter) = []) ∧
      found = (pick (endingAt patterns (window ++ pre)), (window ++ pre).length) := by
  induction rest generalizing window with
  | nil =>
    obtain ⟨ends, found⟩ := matchAt_eq_some.mp reported
    refine ⟨[], [], rfl, by rwa [append_nil], fun shorter more nonempty split => ?_, ?_⟩
    · exact absurd (append_eq_nil_iff.mp split.symm).2 nonempty
    · rw [append_nil]
      exact found
  | cons symbol rest ih =>
    rw [scan, or_eq_some_iff] at reported
    rcases reported with here | ⟨none, later⟩
    · obtain ⟨ends, found⟩ := matchAt_eq_some.mp here
      refine ⟨[], symbol :: rest, rfl, by rwa [append_nil], fun shorter more nonempty split => ?_, ?_⟩
      · exact absurd (append_eq_nil_iff.mp split.symm).2 nonempty
      · rw [append_nil]
        exact found
    · obtain ⟨pre, post, split, ends, first, found⟩ := ih later
      rw [append_assoc, singleton_append] at ends found
      refine ⟨symbol :: pre, post, by rw [split, cons_append], ends, fun shorter more nonempty parts => ?_, found⟩
      cases shorter with
      | nil =>
        rw [append_nil]
        exact matchAt_eq_none.mp none
      | cons head shorter =>
        rw [cons_append, cons.injEq] at parts
        have earlier := first shorter more nonempty parts.2
        rwa [append_assoc, singleton_append, parts.1] at earlier

theorem clear_iff : Clear patterns text ↔ ∀ pattern ∈ patterns, ¬ pattern <:+: text := by
  constructor
  · rintro clear pattern mem ⟨pre, post, rfl⟩
    exact endingAt_eq_nil.mp (clear (pre ++ pattern) post rfl) pattern mem (suffix_append _ _)
  · rintro none pre post rfl
    refine endingAt_eq_nil.mpr fun pattern mem => ?_
    rintro ⟨start, rfl⟩
    exact none pattern mem ⟨start, post, rfl⟩

theorem EndsFirst.length_le {post left right pattern : List α} (first : EndsFirst patterns pre)
    (mem : pattern ∈ patterns) (same : pre ++ post = left ++ pattern ++ right) :
    pre.length ≤ (left ++ pattern).length := by
  rcases append_eq_append_iff.mp same with ⟨more, longer, -⟩ | ⟨more, shorter, -⟩
  · rw [longer, length_append]
    exact Nat.le_add_right _ _
  · by_cases none : more = []
    · rw [shorter, none, append_nil]
    · exact absurd (suffix_append _ _) (endingAt_eq_nil.mp (first.first _ more none shorter) pattern mem)

theorem scan_of_clear (clear : Clear patterns text) : scan pick patterns [] text = none := scan_eq_none.mpr clear

theorem scan_of_endsFirst (first : EndsFirst patterns pre) (post : List α) :
    scan pick patterns [] (pre ++ post) = some (pick (endingAt patterns pre), pre.length) := by
  cases reported : scan pick patterns [] (pre ++ post) with
  | none => exact absurd (scan_eq_none.mp reported pre post rfl) first.ends
  | some found =>
    obtain ⟨other, rest, same, ends, earliest, rfl⟩ := scan_eq_some reported
    simp only [nil_append] at ends earliest ⊢
    -- both parts end at the first end
    have equal : other = pre := by
      rcases append_eq_append_iff.mp same with ⟨more, longer, -⟩ | ⟨more, shorter, -⟩
      · by_cases none : more = []
        · rw [longer, none, append_nil]
        · exact absurd (earliest pre more none longer) first.ends
      · by_cases none : more = []
        · rw [shorter, none, append_nil]
        · exact absurd (first.first other more none shorter) ends
    rw [equal]

end Search

/-! ### Searching bytes -/

section Bytes
open Utf8

theorem bytes_suffix {pattern window : List Char} (nonempty : pattern ≠ []) :
    bytes pattern <:+ bytes window ↔ pattern <:+ window := by
  constructor
  · rintro ⟨pre, same⟩
    rw [← append_nil (bytes pattern)] at same
    obtain ⟨left, right, whole, -, encoded⟩ := bytes_infix nonempty same.symm
    have nothing : right = [] := byteLen_eq_zero.mp (length_eq_zero_iff.mpr encoded)
    subst nothing
    rw [append_nil] at whole
    exact ⟨left, whole.symm⟩
  · rintro ⟨pre, rfl⟩
    rw [bytes_append]
    exact suffix_append _ _

variable {patterns : List (List Char)} {text : List Char} {pick : List Nat → Nat}

variable (nonempty : ∀ pattern ∈ patterns, pattern ≠ [])
include nonempty

theorem endingAt_bytes (window : List Char) :
    endingAt (patterns.map bytes) (bytes window) = endingAt patterns window := by
  rw [endingAt, endingAt, length_map]
  refine filter_congr fun index mem => ?_
  have bound := mem_range.mp mem
  rw [Bool.eq_iff_iff, isSuffixOf_iff_suffix, isSuffixOf_iff_suffix,
    getD_eq_getElem?_getD, getD_eq_getElem?_getD, getElem?_map,
    getElem?_eq_getElem bound]
  exact bytes_suffix (nonempty _ (getElem_mem bound))

theorem boundary_of_endingAt {pre post : List UInt8} (whole : bytes text = pre ++ post)
    (ends : endingAt (patterns.map bytes) pre ≠ []) :
    ∃ left right, text = left ++ right ∧ bytes left = pre := by
  obtain ⟨index, candidate⟩ := exists_mem_of_ne_nil _ ends
  obtain ⟨encoded, listed, start, rfl⟩ := mem_endingAt.mp candidate
  obtain ⟨pattern, mem, rfl⟩ := mem_map.mp (mem_of_getElem? listed)
  rw [append_assoc] at whole
  obtain ⟨left, right, split, rfl, -⟩ := bytes_infix (nonempty pattern mem) whole
  exact ⟨left ++ pattern, right, by rw [split, append_assoc], bytes_append _ _⟩

theorem scan_bytes_eq_none : scan pick (patterns.map bytes) [] (bytes text) = none ↔ Clear patterns text := by
  rw [scan_eq_none]
  constructor
  · intro none pre post whole
    rw [← endingAt_bytes nonempty]
    exact none (bytes pre) (bytes post) (by rw [whole, bytes_append])
  · intro clear pre post whole
    by_contra ends
    obtain ⟨left, right, text, rfl⟩ := boundary_of_endingAt nonempty whole ends
    rw [nil_append, endingAt_bytes nonempty] at ends
    exact ends (clear left right text)

theorem scan_bytes_eq_some {found : Nat × Nat}
    (reported : scan pick (patterns.map bytes) [] (bytes text) = some found) :
    ∃ pre post, text = pre ++ post ∧ EndsFirst patterns pre ∧
      found = (pick (endingAt patterns pre), byteLen pre) := by
  obtain ⟨pre, post, whole, ends, first, rfl⟩ := scan_eq_some reported
  simp only [nil_append] at ends first
  obtain ⟨left, right, text, rfl⟩ := boundary_of_endingAt nonempty whole ends
  rw [endingAt_bytes nonempty] at ends
  refine ⟨left, right, text, ⟨ends, fun shorter more nonnil split => ?_⟩, ?_⟩
  · rw [← endingAt_bytes nonempty]
    refine first (bytes shorter) (bytes more) (fun nothing => nonnil ?_) (by rw [split, bytes_append])
    exact byteLen_eq_zero.mp (length_eq_zero_iff.mpr nothing)
  · rw [nil_append, endingAt_bytes nonempty]
    rfl

end Bytes
end ModelGateway.EarliestMatch

import Mathlib.Data.Finset.Card

/-! First occurrences: what is left of a list when each value is kept only where it is first met.
Leaving a value out of the list leaves it out of the result and moves nothing else, so the first
few values change by at most one. -/
namespace ModelGateway
open List
variable {α : Type} [DecidableEq α]

/-- The values of the list that were not seen before it, each where it first occurs. -/
def firsts (seen : List α) : List α → List α
  | [] => []
  | value :: rest => if value ∈ seen then firsts seen rest else value :: firsts (value :: seen) rest

variable {seen list other : List α} {left : α} {count : Nat}

theorem mem_firsts {value : α} : value ∈ firsts seen list ↔ value ∈ list ∧ value ∉ seen := by
  induction list generalizing seen with
  | nil => simp [firsts]
  | cons head rest ih =>
    by_cases known : head ∈ seen
    · rw [firsts, if_pos known, ih, mem_cons]
      constructor
      · exact fun ⟨later, new⟩ => ⟨.inr later, new⟩
      · rintro ⟨rfl | later, new⟩
        · exact absurd known new
        · exact ⟨later, new⟩
    · rw [firsts, if_neg known, mem_cons, mem_cons, ih, mem_cons]
      by_cases same : value = head
      · simp [same, known]
      · simp [same]

theorem nodup_firsts (seen list : List α) : (firsts seen list).Nodup := by
  induction list generalizing seen with
  | nil => exact nodup_nil
  | cons head rest ih =>
    rw [firsts]
    split
    · exact ih seen
    · refine nodup_cons.mpr ⟨fun again => ?_, ih _⟩
      exact (mem_firsts.mp again).2 mem_cons_self

theorem firsts_congr (list : List α) (agree : ∀ value, value ∈ seen ↔ value ∈ other) :
    firsts seen list = firsts other list := by
  induction list generalizing seen other with
  | nil => rfl
  | cons head rest ih =>
    have grown : firsts (head :: seen) rest = firsts (head :: other) rest :=
      ih fun value => by rw [mem_cons, mem_cons, agree value]
    simp only [firsts, agree head, ih agree, grown]

theorem firsts_filter_of_agree (list : List α) (agree : ∀ value, value ≠ left → (value ∈ seen ↔ value ∈ other)) :
    firsts seen (list.filter (· ≠ left)) = (firsts other list).filter (· ≠ left) := by
  induction list generalizing seen other with
  | nil => rfl
  | cons head rest ih =>
    by_cases same : head = left
    · rw [filter_cons_of_neg (by simpa using same), firsts]
      split
      · exact ih agree
      · rw [filter_cons_of_neg (by simpa using same)]
        refine ih fun value differs => (agree value differs).trans ?_
        rw [mem_cons, or_iff_right (same ▸ differs)]
    · rw [filter_cons_of_pos (by simpa using same), firsts, firsts]
      by_cases known : head ∈ seen
      · rw [if_pos known, if_pos ((agree head same).mp known)]
        exact ih agree
      · rw [if_neg known, if_neg (mt (agree head same).mpr known), filter_cons_of_pos (by simpa using same)]
        congr 1
        refine ih fun value differs => ?_
        rw [mem_cons, mem_cons, agree value differs]

theorem length_firsts (list : List α) : (firsts [] list).length = list.toFinset.card := by
  rw [← toFinset_card_of_nodup (nodup_firsts [] list)]
  congr 1
  ext value
  simp [mem_firsts]

theorem take_filter_of_notMem (outside : left ∉ list.take count) :
    (list.filter (· ≠ left)).take count = list.take count := by
  induction count generalizing list with
  | zero => rw [take_zero, take_zero]
  | succ count ih =>
    cases list with
    | nil => rfl
    | cons head rest =>
      rw [take_succ_cons, mem_cons, not_or] at outside
      rw [filter_cons_of_pos (by simpa using Ne.symm outside.1), take_succ_cons, take_succ_cons, ih outside.2]

/-- A value among the first `count` values stands between the values that are there when it is
left out, and pushes at most the last of them out. -/
theorem take_filter_of_mem (nodup : list.Nodup) (inside : left ∈ list.take count) :
    ∃ pre post, (list.filter (· ≠ left)).take count = pre ++ post ∧
      (list.take count = pre ++ left :: post ∨ list.take count = pre ++ left :: post.dropLast) := by
  induction count generalizing list with
  | zero => simp at inside
  | succ count ih =>
    cases list with
    | nil => simp at inside
    | cons head rest =>
      obtain ⟨absent, nodup⟩ := nodup_cons.mp nodup
      by_cases same : head = left
      · subst head
        have kept : (left :: rest).filter (· ≠ left) = rest := by
          rw [filter_cons_of_neg (by simp), filter_eq_self]
          intro value mem
          simpa using fun equal : value = left => absent (equal ▸ mem)
        refine ⟨[], rest.take (count + 1), by rw [kept, nil_append], ?_⟩
        rw [take_succ_cons, nil_append, nil_append]
        rcases Nat.lt_or_ge (count + 1) rest.length with long | short
        · exact .inr (by rw [dropLast_take long, Nat.add_sub_cancel])
        · rcases Nat.lt_or_ge count rest.length with exactly | shorter
          · refine .inr ?_
            rw [take_of_length_le short, dropLast_eq_take]
            congr 2
            omega
          · exact .inl (by rw [take_of_length_le short, take_of_length_le shorter])
      · rw [take_succ_cons, mem_cons, or_iff_right (Ne.symm same)] at inside
        obtain ⟨pre, post, kept, whole⟩ := ih nodup inside
        refine ⟨head :: pre, post, ?_, ?_⟩
        · rw [filter_cons_of_pos (by simpa using same), take_succ_cons, kept, cons_append]
        · rw [take_succ_cons]
          exact whole.imp (fun equal => by rw [equal, cons_append]) (fun equal => by rw [equal, cons_append])

end ModelGateway

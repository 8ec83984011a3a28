import PolishNotation.Memo

namespace PolishNotation

namespace Memo

variable {memo next : Memo} {source : Text} {report : Report Text}

/-- A source is found, is converted and kept, or is refused and leaves the entries as they are. -/
inductive Converts (memo : Memo) (source : Text) : Report Text → Memo → Prop where
  | hit {output : Text} (known : memo.find? source = some output) :
      Converts memo source ⟨.ok output, []⟩
        ⟨memo.touch source output, memo.hits + 1, memo.misses⟩
  | miss {output : Text} (unknown : memo.find? source = none)
      (converted : toPostfix source = .ok output) :
      Converts memo source ⟨.ok output, Conversion.events source⟩
        ⟨memo.touch source output, memo.hits, memo.misses + 1⟩
  | refusal {fault : Fault} (unknown : memo.find? source = none)
      (refused : toPostfix source = .error fault) :
      Converts memo source ⟨.error fault, Conversion.events source⟩
        ⟨memo.entries, memo.hits, memo.misses + 1⟩

theorem converts_convert (memo : Memo) (source : Text) :
    memo.Converts source (memo.convert source).1 (memo.convert source).2 := by
  cases known : memo.find? source with
  | some output =>
      rw [convert_of_find?_eq_some known]
      exact .hit known
  | none =>
      have result : toPostfix source = (Conversion.report source).result.map Conversion.output := rfl
      cases converted : (Conversion.report source).result with
      | error fault =>
          rw [converted] at result
          simp only [convert, known, converted]
          exact .refusal known result
      | ok conversion =>
          rw [converted] at result
          simp only [convert, known, converted]
          exact .miss known result

/-- A source that is found reports nothing, and any other all that its conversion reports. -/
theorem Converts.events_subset (converts : memo.Converts source report next) :
    report.events ⊆ Conversion.events source := by
  cases converts with
  | hit => exact List.nil_subset _
  | miss => exact List.Subset.refl _
  | refusal => exact List.Subset.refl _

/-- A faithful memo has only entries that a conversion without it would give. -/
def IsFaithful (memo : Memo) : Prop :=
  ∀ entry ∈ memo.entries, toPostfix entry.1 = .ok entry.2

theorem isFaithful_empty : IsFaithful .empty := nofun

/-- A found output belongs to an entry. -/
theorem mem_entries_of_find? {output : Text} (known : memo.find? source = some output) :
    (source, output) ∈ memo.entries := by
  obtain ⟨front, back, entries, -⟩ := List.lookup_eq_some_iff.1 known
  rw [entries]
  exact List.mem_append_right _ List.mem_cons_self

/-- A use adds one entry at most. -/
theorem eq_or_mem_of_mem_touch {output : Text} {entry : Text × Text}
    (member : entry ∈ memo.touch source output) :
    entry = (source, output) ∨ entry ∈ memo.entries := by
  rcases List.mem_cons.1 (List.mem_of_mem_take member) with same | old
  · exact .inl same
  · exact .inr (List.mem_of_mem_eraseP old)

theorem IsFaithful.touch {output : Text} (faithful : memo.IsFaithful)
    (converted : toPostfix source = .ok output) :
    ∀ entry ∈ memo.touch source output, toPostfix entry.1 = .ok entry.2 := by
  intro entry member
  rcases eq_or_mem_of_mem_touch member with rfl | old
  · exact converted
  · exact faithful entry old

/-- A faithful memo gives the result of a conversion without it. -/
theorem IsFaithful.result_eq (faithful : memo.IsFaithful)
    (converts : memo.Converts source report next) : report.result = toPostfix source := by
  cases converts with
  | hit known => exact (faithful _ (mem_entries_of_find? known)).symm
  | miss unknown converted => exact converted.symm
  | refusal unknown refused => exact refused.symm

theorem IsFaithful.of_converts (faithful : memo.IsFaithful)
    (converts : memo.Converts source report next) : next.IsFaithful := by
  cases converts with
  | hit known => exact faithful.touch (faithful _ (mem_entries_of_find? known))
  | miss unknown converted => exact faithful.touch converted
  | refusal => exact faithful

/-- A known source is counted as a hit and reports nothing. -/
theorem Converts.of_isSome (converts : memo.Converts source report next)
    (known : (memo.find? source).isSome) :
    next.hits = memo.hits + 1 ∧ report.events = [] := by
  cases converts with
  | hit => exact ⟨rfl, rfl⟩
  | miss unknown => simp [unknown] at known
  | refusal unknown => simp [unknown] at known

/-- An unknown source is counted as a miss and reports what its conversion reports. -/
theorem Converts.of_eq_none (converts : memo.Converts source report next)
    (unknown : memo.find? source = none) :
    next.hits = memo.hits ∧ report.events = Conversion.events source := by
  cases converts with
  | hit known => simp [unknown] at known
  | miss => exact ⟨rfl, rfl⟩
  | refusal => exact ⟨rfl, rfl⟩

/-- Every conversion is counted once. -/
theorem Converts.hits_add_misses (converts : memo.Converts source report next) :
    next.hits + next.misses = memo.hits + memo.misses + 1 := by
  cases converts with
  | hit => exact Nat.add_right_comm _ _ _
  | miss => rfl
  | refusal => rfl

end Memo

end PolishNotation

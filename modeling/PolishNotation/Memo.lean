import PolishNotation.Conversion

/-! This file keeps the latest results of conversions. -/

namespace PolishNotation

/-- The entries stand in the order of their last use, the latest first. -/
structure Memo where
  entries : List (Text × Text)
  hits : Nat
  misses : Nat
  deriving DecidableEq

namespace Memo

/-- The memo keeps at most this number of entries. -/
def capacity : Nat := 128

def empty : Memo := ⟨[], 0, 0⟩

def size (memo : Memo) : Nat :=
  memo.entries.length

/-- This function looks for the result of a source. -/
def find? (memo : Memo) (source : Text) : Option Text :=
  memo.entries.lookup source

/-- A use puts an entry first and drops the entries beyond the capacity. -/
def touch (memo : Memo) (source output : Text) : List (Text × Text) :=
  ((source, output) :: memo.entries.eraseP fun entry => entry.1 = source).take capacity

/-- A hit reports no event. A miss converts the source and keeps its result unless it is a fault. -/
def convert (memo : Memo) (source : Text) : Report Text × Memo :=
  match memo.find? source with
  | some output =>
      (⟨.ok output, []⟩, ⟨memo.touch source output, memo.hits + 1, memo.misses⟩)
  | none =>
      let report := Conversion.report source
      match report.result with
      | .error fault => (⟨.error fault, report.events⟩, { memo with misses := memo.misses + 1 })
      | .ok conversion =>
          (⟨.ok conversion.output, report.events⟩,
            ⟨memo.touch source conversion.output, memo.hits, memo.misses + 1⟩)

theorem convert_of_find?_eq_some {memo : Memo} {source output : Text}
    (known : memo.find? source = some output) :
    memo.convert source =
      (⟨.ok output, []⟩, ⟨memo.touch source output, memo.hits + 1, memo.misses⟩) := by
  simp [convert, known]

end Memo

end PolishNotation

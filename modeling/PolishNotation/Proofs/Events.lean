import PolishNotation.Proofs.Conversion
import PolishNotation.Proofs.Links.Attachment
import PolishNotation.Proofs.Links.Record

namespace PolishNotation

namespace LinkTable

variable {count : Nat} {tokens : Vector Token count}

/-- The table is reported as far as the operands fill it. -/
theorem events_complete (table : LinkTable tokens) (operands : Text) :
    (table.complete operands).events = (table.attachOperands operands).1.events.toList := by
  rw [complete]
  split
  · rename_i filled fault attached
    rw [attached]
  · rename_i filled attached
    rw [attached]

end LinkTable

namespace Expression

variable {expression : Expression}

theorem construct_of_tokens_eq_nil (empty : expression.tokens = []) :
    expression.construct.events = [] := by
  rw [construct, if_pos (by simp [empty])]

/-- The construction reports every link and then every operand that has a place. -/
theorem exists_events_construct (some : expression.tokens ≠ []) :
    let tokens := expression.tokens.toArray.toVector
    ∃ (links : List (Place _ × Fin _)) (places : List (Place _)),
      expression.construct.events =
        links.map (fun link =>
          .linked (tokens.get link.2) link.1.side (tokens.get link.1.index)) ++
        (places.zip expression.operands).map (fun entry =>
          .attached [entry.2] entry.1.side (tokens.get entry.1.index)) ∧
      links.length = expression.tokens.length - 1 +
        (List.finRange _).countP (fun index => Displaces tokens index) ∧
      places.length = expression.tokens.length + 1 := by
  intro tokens
  have positive : 0 < expression.tokens.toArray.size := List.length_pos_of_ne_nil some
  obtain ⟨table, links, linked, shows, run, length⟩ :=
    LinkTable.exists_linkOperators_links tokens positive
  refine ⟨links, table.emptyPlaces, ?_, ?_, ?_⟩
  · have built : expression.construct = table.complete expression.operands := by
      rw [construct, if_neg (by simpa using some), linked]
    have recorded : table.events.toList = links.map fun link =>
        .linked (tokens.get link.2) link.1.side (tokens.get link.1.index) := by
      rw [run, LinkTable.events_fillAll, LinkTable.operatorFillings, List.map_map]
      rfl
    rw [built, LinkTable.events_complete, LinkTable.attachOperands_eq, ← recorded]
    exact table.events_storeAll table.emptyPlaces expression.operands
  · exact length
  · exact LinkTable.length_emptyPlaces shows positive

end Expression

namespace Conversion

theorem events_of_error {text : Text} {fault : Fault}
    (refused : Expression.ofText text = .error fault) : events text = [] := by
  rw [events, report, refused]

theorem events_of_ok {text : Text} {expression : Expression}
    (read : Expression.ofText text = .ok expression) :
    events text = .scanned text expression :: expression.construct.events := by
  rw [events, report, read]

/-- A text that cannot be read writes no line. Any other writes that it is read, and with operators
it writes one link less than there are tokens and one more for every token that displaces a subtree,
and after the links the letters of the text in their order. -/
theorem events_of_reading (text : Text) :
    (∀ fault, Expression.ofText text = .error fault → (events text).map Event.line = []) ∧
      ∀ expression, Expression.ofText text = .ok expression →
        let scannedLine : Text :=
          "intopo.scanner: Scanned ".toList ++ text.quoted ++ ": operands=".toList ++
            expression.operands ++ " operators=".toList ++
              " ".toList.intercalate (expression.tokens.map Token.text)
        (expression.tokens = [] → (events text).map Event.line = [scannedLine]) ∧
        (expression.tokens ≠ [] →
          let tokens := expression.tokens.toArray.toVector
          ∃ (links : List (Place _ × Fin _)) (places : List (Place _)),
            (events text).map Event.line = scannedLine ::
              (links.map (fun link =>
                "intopo.tree: Linked ".toList ++ (tokens.get link.2).text ++ " as ".toList ++
                  link.1.side.text ++ " child of ".toList ++ (tokens.get link.1.index).text) ++
              (places.zip expression.operands).map fun entry =>
                "intopo.tree: Attached operand '".toList ++ [entry.2] ++ "' as ".toList ++
                  entry.1.side.text ++ " child of ".toList ++ (tokens.get entry.1.index).text) ∧
            links.length = expression.tokens.length - 1 +
              (List.finRange _).countP (fun index => Displaces tokens index) ∧
            places.length = expression.tokens.length + 1 ∧
            expression.operands.length = expression.tokens.length + 1 ∧
            expression.operands = text.filter isLetter) := by
  refine ⟨?_, fun expression read => ⟨?_, ?_⟩⟩
  · intro fault refused
    rw [events_of_error refused, List.map_nil]
  · intro empty
    rw [events_of_ok read, Expression.construct_of_tokens_eq_nil empty, List.map_singleton,
      Event.line_scanned]
  · intro some tokens
    obtain ⟨links, places, reported, linkCount, placeCount⟩ :=
      Expression.exists_events_construct some
    refine ⟨links, places, ?_, linkCount, placeCount,
      Expression.length_operands_of_ofText read, ?_⟩
    · rw [events_of_ok read, reported, List.map_cons, List.map_append, Event.line_scanned,
        Event.map_line_linked, Event.map_line_attached]
    · rw [Expression.eq_of_ofText read]

/-- The quotient in `A+B*C/(D-E)` takes the place of the product below the sum. Its two links and
one for each of the other operators but the root are written between the text and the operands. -/
theorem events_of_reading_quotient :
    let expression : Expression := ⟨"ABCDE".toList, [.ofOperator .add 0 1,
      .ofOperator .multiply 0 3, .ofOperator .divide 0 5, .ofOperator .subtract 1 8]⟩
    Expression.ofText "A+B*C/(D-E)".toList = .ok expression ∧
      ∃ links operands : List Text,
        (events "A+B*C/(D-E)".toList).map Event.line =
          ("intopo.scanner: Scanned 'A+B*C/(D-E)': operands=ABCDE operators=" ++
            "+(depth=0, precedence=2) *(depth=0, precedence=1) " ++
            "/(depth=0, precedence=1) -(depth=1, precedence=2)").toList :: (links ++ operands) ∧
        links.length = 4 ∧ operands.length = 5 := by
  intro expression
  have read : Expression.ofText "A+B*C/(D-E)".toList = .ok expression := by rfl
  obtain ⟨links, places, reported, linkCount, placeCount, operandCount, -⟩ :=
    ((events_of_reading _).2 expression read).2 (by decide)
  have displaced : (List.finRange 4).countP (fun index =>
      Displaces expression.tokens.toArray.toVector index) = 1 := by decide
  refine ⟨read, _, _, reported.trans (congrArg (· :: _) (by decide +kernel)), ?_, ?_⟩
  · rw [List.length_map, linkCount]
    exact congrArg (3 + ·) displaced
  · rw [List.length_map, List.length_zip, placeCount, operandCount]
    rfl

end Conversion

end PolishNotation

import PackedRecord.Proofs.JsonDocuments

/-!
# Streams of values and their documents

A value becomes JSON in two ways: as a document, and piece by piece through a writer that knows
nothing of values.  Both say the same but for the order of the parts of a span.

* `Emission.toJson_float` — a writer puts down the floating point numbers that a document holds.
* `Value.sorted_streamed` — by the induction over values.
* `stream_agrees_with_document` — a stream, sorted, is the document.
-/

namespace PackedRecord

open Json

namespace Emission

/-- A writer and a document leave out the same floating point numbers. -/
theorem toJson_float (x : Double) : (float x).toJson = ofDouble x := by
  simp only [toJson, ofDouble, Double.classify, Double.isNaN, Double.isInfinite, Bool.or_eq_true,
    decide_eq_true_eq, beq_iff_eq]
  by_cases hnan : Floating.double.infinity < x.magnitude
  · rw [if_pos hnan, if_pos (.inl hnan)]
  · by_cases hinfinite : x.magnitude = Floating.double.infinity
    · rw [if_neg hnan, if_pos hinfinite, if_pos (.inr hinfinite)]
    · rw [if_neg hnan, if_neg hinfinite, if_neg (not_or.2 ⟨hnan, hinfinite⟩)]

theorem toJsonAll_nat (words : List UInt64) :
    toJsonAll (words.map nat) = words.map fun w => .integer w.toNat := by
  induction words with
  | nil => rfl
  | cons w rest ih => rw [List.map_cons, toJsonAll, ih, toJson, List.map_cons]

end Emission

namespace Value

mutual

/-- **A stream says what the document says.** -/
theorem sorted_streamed : ∀ v : Value, v.emit.toJson.sorted = v.toJson.sorted
  | null => rfl
  | bool _ => rfl
  | number (.int _) => rfl
  | number (.nat _) => rfl
  | number (.float x) => by rw [emit, Emission.toJson_float, toJson, numberJson]
  | text _ => rfl
  | choice (.known _ _) => rfl
  | choice (.unlisted _) => rfl
  | bits words => by rw [emit, Emission.toJson, Emission.toJsonAll_nat, toJson]
  | instant _ => rfl
  | span d => by
    -- The two parts are declared against the order of their names.
    rw [sorted_toJson (span d) trivial]
    simp only [emit, Emission.toJson, Emission.toJsonFields, toJson, sorted, sortedMembers,
      insertionSort_eq (ascending_spanMembers _ _) (.swap _ _ _)]
  | bytes _ => rfl
  | array _ elements => by
    rw [emit, Emission.toJson, toJson, sorted, sorted, sortedAll_streamed elements]
  | fields entries => by
    rw [emit, Emission.toJson, toJson, sorted, sorted, sortedMembers_streamed entries]

theorem sortedAll_streamed : ∀ vs : List Value,
    sortedAll (Emission.toJsonAll (emitAll vs)) = sortedAll (toJsonAll vs)
  | [] => rfl
  | v :: rest => by
    rw [emitAll, Emission.toJsonAll, toJsonAll, sortedAll, sortedAll, sorted_streamed v,
      sortedAll_streamed rest]

theorem sortedMembers_streamed : ∀ entries : List (String × Value),
    sortedMembers (Emission.toJsonFields (emitFields entries)) =
      sortedMembers (toJsonFields entries)
  | [] => rfl
  | (k, v) :: rest => by
    rw [emitFields, Emission.toJsonFields, toJsonFields, sortedMembers, sortedMembers,
      sorted_streamed v, sortedMembers_streamed rest]

end

end Value

/-- **The stream of a value and its document say the same.**  They agree once the members of every
object are sorted by name; the document of a well-formed value is sorted, so that it is the sorted
stream. -/
theorem stream_agrees_with_document (v : Value) :
    v.streamed.sorted = v.toJson.sorted ∧ (v.WellFormed → v.streamed.sorted = v.toJson) := by
  have hsame : v.streamed.sorted = v.toJson.sorted := Value.sorted_streamed v
  refine ⟨hsame, ?_⟩
  intro hformed
  rw [hsame, Value.sorted_toJson v hformed]

/-- A record of a choice without an entry, an infinite number and a span. -/
def mixedValue : Value :=
  .fields
    [("code", .choice (.unlisted (-3))), ("limit", .number (.float ⟨0x7ff0000000000000⟩)),
      ("wait", .array [1] [.span ⟨90, .minutes⟩])]

/-- The stream of a nested span lists its parts in another order than the document. -/
theorem stream_agrees_with_document_mixed :
    mixedValue.WellFormed ∧ mixedValue.streamed.sorted = mixedValue.toJson ∧
    mixedValue.toJson = .object
      [("code", .integer (-3)), ("limit", .null),
        ("wait", .array [.object [("unit", .text "Minutes"), ("value", .integer 90)]])] := by
  have hformed : mixedValue.WellFormed := by
    refine ⟨by decide, trivial, trivial, ⟨by decide, rfl, trivial, trivial⟩, trivial⟩
  exact ⟨hformed, (stream_agrees_with_document mixedValue).2 hformed, by cbv⟩

end PackedRecord

import Mathlib.Data.List.Basic
import MarketWire.Proofs.RecordRuns

/-! Field lists and element lists come back from any sequence of calls that has written them.

Calls may fail, and entries may be dropped. What is read in the end is the information about the list, an
entry for each value of the set definition, and the standard entries that were added or committed.
-/

set_option autoImplicit false

namespace MarketWire

namespace FieldList

abbrev Call := Record.Call Int16 Unit

abbrev Item := Record.Item Int16 Unit

def itemEntry (context : Context) (item : Item) : Entry :=
  match context.fieldTypes with
  | none => .ofFault item.key .noDictionary item.payload
  | some types => match types item.key with
    | none => .ofFault item.key .fieldIdNotFound item.payload
    | some type => ⟨item.key, type, .decode type item.payload, item.payload⟩

theorem entry_eq (context : Context) (item : Item) : item.entry context = itemEntry context item := by
  change Record.standardEntry Int16 context item.key none item.payload = _
  unfold Record.standardEntry itemEntry
  dsimp only [RecordFormat.typeOf]
  cases context.fieldTypes with
  | none => rfl
  | some types =>
    dsimp only
    cases types item.key <;> rfl

/-- A field list is read as its writer has been called. -/
theorem decode_ended_fields (plan : Plan) (output : Output) (calls : List Call)
    (allowed : (Record.Run.start output).allowsAll plan calls) {final : Draft}
    (ended : finish true (Record.Run.calls plan (.start output) calls).draft = .ok () final)
    (context : Context)
    (known : ∀ definition ∈ plan.activeSet, context.fieldSet? definition.id = some definition) :
    let journal := (Record.Run.calls plan (.start output) calls).journal
    journal.values.length = plan.setEntries.size ∧
      ∃ leading, decode context (final.output.toList.drop output.position) =
          .ok ⟨plan.info, plan.activeSet.map (·.id), journal.items.length,
            leading ++ journal.items.map (itemEntry context)⟩ ∧
        ∀ entries, (plan.setEntries.toList.zip journal.values).map
            (fun (expected, value) => Record.setEntry expected value) = entries.map .ok →
          leading = entries := by
  obtain ⟨complete, -, leading, decoded, read⟩ := Record.decode_calls allowed ended known
  refine ⟨complete, leading, ?_, read⟩
  rw [← funext (entry_eq context)]
  exact decoded

/-! A record of a trade behind a byte that was there before. -/

def tradeSet : SetDefinition Int16 := ⟨7, #[⟨22, .int2⟩]⟩

def tradePlan : Plan := { info := some ⟨1, 5⟩, definition := some tradeSet }

def tradeOutput : Output := ⟨#[0xAA], 60, by decide⟩

/-- Two of the calls fail, and one entry is dropped. -/
def tradeCalls : List Call :=
  [.start, .add 25 (.int 5), .add 22 (.int 5), .addEncoded 3 () [1, 2], .start, .openEntry 4 (),
    .append [9], .closeEntry false, .openEntry 4 (), .append [8], .append [7], .closeEntry true,
    .add 6 (.bytes .ascii [65])]

def tradeContext : Context :=
  { localFieldSets := some ⟨[tradeSet]⟩
    fieldTypes := some fun fid => if fid = 6 then some .ascii else none }

theorem decode_ended_fields_trade : ∃ final,
    finish true (Record.Run.calls tradePlan (.start tradeOutput) tradeCalls).draft = .ok () final ∧
      decode tradeContext (final.output.toList.drop 1) = .ok ⟨some ⟨1, 5⟩, some 7, 3,
        [⟨22, .int, .primitive (.int 5), [0, 5]⟩, .ofFault 3 .fieldIdNotFound [1, 2],
          .ofFault 4 .fieldIdNotFound [8, 7], ⟨6, .ascii, .primitive (.bytes .ascii [65]), [65]⟩]⟩ := by
  have allowed : (Record.Run.start tradeOutput).allowsAll tradePlan tradeCalls := by decide +kernel
  have journal : (Record.Run.calls tradePlan (.start tradeOutput) tradeCalls).journal =
      ⟨[.int 5], [⟨3, (), [1, 2]⟩, ⟨4, (), [8, 7]⟩, ⟨6, (), [65]⟩], none⟩ := by decide +kernel
  have ends : Program.succeeds (finish true)
      (Record.Run.calls tradePlan (.start tradeOutput) tradeCalls).draft := by decide +kernel
  have items : [⟨3, (), [1, 2]⟩, ⟨4, (), [8, 7]⟩, ⟨6, (), [65]⟩].map (itemEntry tradeContext) =
      [.ofFault 3 .fieldIdNotFound [1, 2], .ofFault 4 .fieldIdNotFound [8, 7],
        ⟨6, .ascii, .primitive (.bytes .ascii [65]), [65]⟩] := by decide +kernel
  obtain ⟨⟨⟩, final, ended⟩ := Program.exists_of_succeeds ends
  obtain ⟨-, leading, decoded, read⟩ := decode_ended_fields tradePlan tradeOutput tradeCalls allowed
    ended tradeContext (by rintro _ ⟨⟩; decide)
  rw [journal] at decoded read
  rw [read [⟨22, .int, .primitive (.int 5), [0, 5]⟩] (by decide +kernel), items] at decoded
  exact ⟨final, ended, decoded⟩

end FieldList

namespace ElementList

abbrev Call := Record.Call String DataType

abbrev Item := Record.Item String DataType

def itemEntry (item : Item) : Entry :=
  ⟨Bytes.ofString item.key, item.tag, .decode item.tag item.payload, item.payload⟩

theorem entry_eq (context : Context) (item : Item) : item.entry context = itemEntry item := by
  change Record.standardEntry String context _ (some item.tag.code) item.payload = _
  unfold Record.standardEntry itemEntry
  simp only [DataType.ofCode?_code]
  rfl

/-- An element list is read as its writer has been called; entries of the type of no data have no
payload. -/
theorem decode_ended_elements (plan : Plan) (output : Output) (calls : List Call)
    (allowed : (Record.Run.start output).allowsAll plan calls) {final : Draft}
    (ended : finish true (Record.Run.calls plan (.start output) calls).draft = .ok () final)
    (context : Context)
    (known : ∀ definition ∈ plan.activeSet, context.elementSet? definition.id = some definition) :
    let journal := (Record.Run.calls plan (.start output) calls).journal
    journal.values.length = plan.setEntries.size ∧
      (∀ item ∈ journal.items, item.tag = .noData → item.payload = []) ∧
      ∃ leading, decode context (final.output.toList.drop output.position) =
          .ok ⟨plan.info, plan.activeSet.map (·.id), journal.items.length,
            leading ++ journal.items.map itemEntry⟩ ∧
        ∀ entries, (plan.setEntries.toList.zip journal.values).map
            (fun (expected, value) => Record.setEntry expected value) = entries.map .ok →
          leading = entries := by
  obtain ⟨complete, empty, leading, decoded, read⟩ := Record.decode_calls allowed ended known
  refine ⟨complete, fun item member blank => empty item member ?_, leading, ?_, read⟩
  · change Record.hasPayload (some item.tag) = false
    rw [blank]
    rfl
  · rw [← funext (entry_eq context)]
    exact decoded

/-! A record of a quote with two entries that have no data. -/

def quoteSet : SetDefinition String := ⟨0, #[⟨"A", .uint1⟩, ⟨"B", .buffer⟩]⟩

def quotePlan : Plan := { info := some 9, definition := some quoteSet }

def quoteOutput : Output := ⟨#[1, 2], 60, by decide⟩

/-- A value of no data is refused where a value of the set definition is missing, and an entry of no data
that has been given bytes is dropped. -/
def quoteCalls : List Call :=
  [.start, .add "A" (.uint 3), .add "B" (.blank .noData), .add "B" (.bytes .buffer [7]),
    .addEncoded "N" .noData [1], .openEntry "D" .noData, .append [2], .closeEntry false,
    .openEntry "M" .noData, .closeEntry true, .add "U" (.uint 5), .openEntry "C" .fieldList, .append [4],
    .closeEntry true]

def quoteContext : Context := { localElementSets := some ⟨[quoteSet]⟩ }

theorem decode_ended_elements_quote : ∃ final,
    finish true (Record.Run.calls quotePlan (.start quoteOutput) quoteCalls).draft = .ok () final ∧
      decode quoteContext (final.output.toList.drop 2) = .ok ⟨some 9, some 0, 4,
        [⟨[65], .uint, .primitive (.uint 3), [3]⟩,
          ⟨[66], .buffer, .primitive (.bytes .buffer [7]), [1, 7]⟩,
          ⟨[78], .noData, .decode .noData [], []⟩, ⟨[77], .noData, .decode .noData [], []⟩,
          ⟨[85], .uint, .primitive (.uint 5), [5]⟩, ⟨[67], .fieldList, .decode .fieldList [4], [4]⟩]⟩ := by
  have allowed : (Record.Run.start quoteOutput).allowsAll quotePlan quoteCalls := by decide +kernel
  have journal : (Record.Run.calls quotePlan (.start quoteOutput) quoteCalls).journal =
      ⟨[.uint 3, .bytes .buffer [7]], [⟨"N", .noData, []⟩, ⟨"M", .noData, []⟩, ⟨"U", .uint, [5]⟩,
        ⟨"C", .fieldList, [4]⟩], none⟩ := by decide +kernel
  have ends : Program.succeeds (finish true)
      (Record.Run.calls quotePlan (.start quoteOutput) quoteCalls).draft := by decide +kernel
  have items : ([⟨"N", .noData, []⟩, ⟨"M", .noData, []⟩, ⟨"U", .uint, [5]⟩, ⟨"C", .fieldList, [4]⟩] :
      List Item).map itemEntry =
        [⟨[78], .noData, .decode .noData [], []⟩, ⟨[77], .noData, .decode .noData [], []⟩,
          ⟨[85], .uint, .primitive (.uint 5), [5]⟩, ⟨[67], .fieldList, .decode .fieldList [4], [4]⟩] := by
    decide +kernel
  obtain ⟨⟨⟩, final, ended⟩ := Program.exists_of_succeeds ends
  obtain ⟨-, -, leading, decoded, read⟩ := decode_ended_elements quotePlan quoteOutput quoteCalls
    allowed ended quoteContext (by rintro _ ⟨⟩; decide)
  rw [journal] at decoded read
  rw [read [⟨[65], .uint, .primitive (.uint 3), [3]⟩,
    ⟨[66], .buffer, .primitive (.bytes .buffer [7]), [1, 7]⟩] (by decide +kernel), items] at decoded
  exact ⟨final, ended, decoded⟩

end ElementList

end MarketWire

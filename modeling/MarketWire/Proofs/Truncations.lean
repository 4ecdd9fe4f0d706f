import MarketWire.Proofs.EntryReaders
import MarketWire.Proofs.Iterators

/-! Containers that are cut off behind their header.

A container that is cut off has the same header. Its entries are those that were left whole, and a single
failure stands for all that follows them.
-/

set_option autoImplicit false

namespace MarketWire

open Entries (Framed CutOff Steps Yields)

/-- A kind of containers, with what the reader of records knows beside their bytes. -/
inductive ContainerFormat where
  | fieldList (context : Context)
  | elementList (context : Context)
  | series
  | vector
  | filterList
  | itemArray

namespace ContainerFormat

@[reducible] def Head : ContainerFormat → Type
  | .fieldList _ => Record.Head FieldList.Info
  | .elementList _ => Record.Head ElementList.Info
  | .series | .vector => Table.Header
  | .filterList => FilterList.Head
  | .itemArray => ItemArray.Head

@[reducible] def Entry : ContainerFormat → Type
  | .fieldList _ => FieldList.Entry
  | .elementList _ => ElementList.Entry
  | .series => EntryValue
  | .vector => Vector.Entry
  | .filterList => FilterList.Entry
  | .itemArray => Except DecodeError Primitive

@[reducible] def Content : ContainerFormat → Type
  | .fieldList _ => FieldList.Content
  | .elementList _ => ElementList.Content
  | .series => Series.Content
  | .vector => Vector.Content
  | .filterList => FilterList.Content
  | .itemArray => ItemArray.Content

@[reducible] def Iterator : ContainerFormat → Type
  | .fieldList _ | .elementList _ => Record.Iterator
  | .series | .vector | .filterList | .itemArray => Entries.Iterator

/-! ## Parts of containers -/

def decode : (format : ContainerFormat) → Bytes → Except DecodeError format.Content
  | .fieldList context => FieldList.decode context
  | .elementList context => ElementList.decode context
  | .series => Series.decode
  | .vector => Vector.decode
  | .filterList => FilterList.decode
  | .itemArray => ItemArray.decode

def entries : {format : ContainerFormat} → format.Content → List format.Entry
  | .fieldList _, content => content.entries
  | .elementList _, content => content.entries
  | .series, content => content.entries
  | .vector, content => content.entries
  | .filterList, content => content.entries
  | .itemArray, content => content.items

def readHead : (format : ContainerFormat) → Read format.Head
  | .fieldList _ => Record.readHead Int16
  | .elementList _ => Record.readHead String
  | .series | .vector => Table.Header.read
  | .filterList => FilterList.readHead
  | .itemArray => ItemArray.readHead

def count : (format : ContainerFormat) → format.Head → Nat
  | .fieldList _, head => head.count
  | .elementList _, head => head.count
  | .series, header | .vector, header => header.count
  | .filterList, head => head.count
  | .itemArray, head => head.count

/-- The header tells where it ends: a record has standard entries, so the length of its set-defined ones is
told. -/
def TellsEnd : (format : ContainerFormat) → format.Head → Prop
  | .fieldList _, head => head.standard
  | .elementList _, head => head.standard
  | .series, _ | .vector, _ | .filterList, _ | .itemArray, _ => True

def readEntry : (format : ContainerFormat) → format.Head → Read format.Entry
  | .fieldList context, _ => Record.readEntry Int16 context
  | .elementList context, _ => Record.readEntry String context
  | .series, header => Series.readEntry header.rowType
  | .vector, header => Vector.readEntry header.rowType
  | .filterList, head => FilterList.readEntry head.type
  | .itemArray, head => ItemArray.readEntry head.type head.itemLength

def step : (format : ContainerFormat) → format.Head → Bytes → format.Entry × Option Bytes
  | .fieldList context, _ => Record.step Int16 context
  | .elementList context, _ => Record.step String context
  | .series, header => Series.step header.rowType
  | .vector, header => Vector.step header.rowType
  | .filterList, head => FilterList.step head.type
  | .itemArray, head => ItemArray.step head.type head.itemLength

def ends : (format : ContainerFormat) → format.Entry → Bool
  | .itemArray, item => !item.isOk
  | .fieldList _, _ | .elementList _, _ | .series, _ | .vector, _ | .filterList, _ => false

def Overruns : (format : ContainerFormat) → Bytes → format.Entry → Prop
  | .fieldList _, raw, entry => entry.value = .ofFault .iteratorOverrun raw
  | .elementList _, raw, entry => entry.value = .ofFault .iteratorOverrun raw
  | .series, raw, entry => entry = .ofFault .iteratorOverrun raw
  | .vector, raw, entry => entry.value = .ofFault .iteratorOverrun raw
  | .filterList, raw, entry => entry.value = .ofFault .iteratorOverrun raw
  | .itemArray, _, item => ∃ needed available, item = .error (.overrun needed available)

def content : (format : ContainerFormat) → format.Head → List format.Entry → format.Content
  | .fieldList context, head, found => head.content Int16 context found
  | .elementList context, head, found => head.content String context found
  | .series, header, found => ⟨header, found⟩
  | .vector, header, found => ⟨header, found⟩
  | .filterList, head, found => ⟨head.type, head.countHint, head.count, found⟩
  | .itemArray, head, found => head.content found

def iterator : (format : ContainerFormat) → format.Head → Bytes → format.Iterator
  | .fieldList _, head, unread => head.iterator unread
  | .elementList _, head, unread => head.iterator unread
  | .series, header, unread | .vector, header, unread => ⟨header.count, some unread⟩
  | .filterList, head, unread => ⟨head.count, some unread⟩
  | .itemArray, head, unread => ⟨head.count, some unread⟩

def next : (format : ContainerFormat) → format.Head → format.Iterator → Option format.Entry × format.Iterator
  | .fieldList context, _ => Record.Iterator.next Int16 context
  | .elementList context, _ => Record.Iterator.next String context
  | .series, header => Entries.Iterator.next (Series.step header.rowType)
  | .vector, header => Entries.Iterator.next (Vector.step header.rowType)
  | .filterList, head => Entries.Iterator.next (FilterList.step head.type)
  | .itemArray, head => Entries.Iterator.next (ItemArray.step head.type head.itemLength)

variable {format : ContainerFormat} {head : format.Head} {bytes rest : Bytes}

theorem steps (format : ContainerFormat) (head : format.Head) :
    Steps (format.step head) (format.readEntry head) format.ends format.Overruns := by
  cases format with
  | fieldList context => exact Record.steps Read.int16_delimited context
  | elementList context => exact Record.steps (Read.framed_delimited .bits15) context
  | series => exact Series.steps _
  | vector => exact Vector.steps _
  | filterList => exact FilterList.steps _
  | itemArray => exact ItemArray.steps _ _

/-- A container is its header and the entries behind it. -/
theorem decode_of_head (read : format.readHead bytes = .ok head rest) :
    format.decode bytes = .ok (format.content head (Entries.read (format.step head) (format.count head) rest)) := by
  cases format with
  | fieldList | elementList => exact Record.decode_of_head read
  | series => exact Series.decode_of_head read
  | vector => exact Vector.decode_of_head read
  | filterList => exact FilterList.decode_of_head read
  | itemArray => exact ItemArray.decode_of_head read

theorem iterator_yields (format : ContainerFormat) (head : format.Head) (unread : Bytes) :
    Yields (format.next head) (format.iterator head unread)
      (entries (format.content head (Entries.read (format.step head) (format.count head) unread))) := by
  cases format with
  | fieldList | elementList => exact Record.iterator_yields _ unread
  | series | vector | filterList | itemArray => exact Entries.iterator_yields _ _ unread

theorem readHead_take (read : format.readHead bytes = .ok head rest) (told : format.TellsEnd head) :
    ∃ header, bytes = header ++ rest ∧ ∀ k, header.length ≤ k →
      format.readHead (bytes.take k) = .ok head (rest.take (k - header.length)) := by
  cases format with
  | fieldList | elementList =>
    obtain ⟨header, joined, delimits⟩ := Record.readHead_delimits read told
    exact ⟨header, joined, delimits.take joined⟩
  | series | vector =>
    obtain ⟨header, joined, delimits⟩ := Table.Header.read_delimited.delimits read
    exact ⟨header, joined, delimits.take joined⟩
  | filterList =>
    obtain ⟨header, joined, delimits⟩ := FilterList.readHead_delimited.delimits read
    exact ⟨header, joined, delimits.take joined⟩
  | itemArray => exact ItemArray.readHead_take read

/-- A container has a header and as many entries as it declares, each of which can be told from what follows.
Wherever it is cut off behind its header, it has the same header, and in it are found, all at once or one
after another, the entries that were left whole, a single failure where one was cut off, and nothing more. -/
theorem decode_take {data body : Bytes} {pieces : List (Entries.Piece format.Entry)}
    (read : format.readHead data = .ok head body) (told : format.TellsEnd head)
    (framed : Framed (format.readEntry head) pieces body) (declared : pieces.length = format.count head) :
    ∃ header, data = header ++ body ∧ ∀ k, header.length ≤ k → ∃ unread found,
      format.readHead (data.take k) = .ok head unread ∧
      format.decode (data.take k) = .ok (format.content head found) ∧
      Yields (format.next head) (format.iterator head unread) (entries (format.content head found)) ∧
      CutOff format.ends format.Overruns pieces (k - header.length) unread found := by
  obtain ⟨header, joined, again⟩ := readHead_take read told
  refine ⟨header, joined, fun k inside => ?_⟩
  refine ⟨_, _, again k inside, decode_of_head (again k inside), format.iterator_yields head _, ?_⟩
  rw [← declared]
  exact (format.steps head).read_take framed (k - header.length)

/-- Of two elements the second one is cut off. -/
theorem decode_take_elements :
    let data : Bytes := [0x02, 0, 2, 1, 65, 3, 1, 5, 1, 66, 3, 1, 6]
    let format : ContainerFormat := .elementList {}
    ∃ first failure head unread,
      format.readHead (data.take 11) = .ok head unread ∧
      ElementList.decode {} (data.take 11) = .ok ⟨none, none, 2, [first, failure]⟩ ∧
      first.value = .primitive (.int 5) ∧ failure.value = .ofFault .iteratorOverrun [1, 66, 3] ∧
      ∀ calls, Entries.answer (format.next head) (calls + 2) (format.iterator head unread) = none := by
  intro data format
  let head : format.Head := ⟨true, none, none, 2⟩
  let pieces : List (Entries.Piece format.Entry) :=
    [⟨⟨[65], .int, .primitive (.int 5), [5]⟩, [1, 65, 3, 1, 5]⟩,
      ⟨⟨[66], .int, .primitive (.int 6), [6]⟩, [1, 66, 3, 1, 6]⟩]
  have framed : Framed (format.readEntry head) pieces [1, 65, 3, 1, 5, 1, 66, 3, 1, 6] :=
    ⟨_, rfl, rfl, _, rfl, rfl, trivial⟩
  obtain ⟨header, joined, truncated⟩ := @decode_take format head data _ pieces rfl rfl framed rfl
  obtain rfl : header = [0x02, 0, 2] := List.append_cancel_right joined.symm
  obtain ⟨unread, found, read, decoded, yields, cut⟩ := truncated 11 (by decide)
  obtain ⟨failure, raw, rfl, joined, fault⟩ := cut.failed (fun _ _ => rfl) (by decide)
  obtain rfl : [1, 65, 3, 1, 5, 1, 66, 3] = unread := by
    cases read
    rfl
  obtain rfl : [1, 66, 3] = raw := List.append_cancel_left (show [1, 65, 3, 1, 5] ++ _ = _ ++ _ from joined)
  exact ⟨_, failure, head, [1, 65, 3, 1, 5, 1, 66, 3], read, decoded, rfl, fault,
    fun calls => (yields (calls + 2)).trans rfl⟩

set_option maxRecDepth 1000 in
/-- Not always are all entries found that were left whole: nothing follows an item of an array that cannot be
read. -/
theorem unreadable_item_ends :
    ¬ ∀ (format : ContainerFormat) (head : format.Head) (data header body : Bytes)
        (pieces : List (Entries.Piece format.Entry)) (k : Nat),
      data = header ++ body → format.readHead data = .ok head body → format.TellsEnd head →
      Framed (format.readEntry head) pieces body → pieces.length = format.count head → header.length ≤ k →
        ∃ unread found, format.decode (data.take k) = .ok (format.content head found) ∧
          CutOff (fun _ => false) format.Overruns pieces (k - header.length) unread found := by
  intro all
  let item : Except DecodeError Primitive := .error (.incompleteData 3)
  let piece : Entries.Piece (Except DecodeError Primitive) := ⟨item, [3, 0xAA, 0xBB, 0xCC]⟩
  let body : Bytes := [3, 0xAA, 0xBB, 0xCC, 3, 0xAA, 0xBB, 0xCC]
  have framed : Framed (ItemArray.readEntry .date 0) [piece, piece] body :=
    ⟨_, rfl, rfl, _, rfl, rfl, trivial⟩
  have read : ItemArray.readHead ([9, 0, 0, 2] ++ body) = .ok ⟨.date, 0, 2⟩ body := rfl
  have two : [piece, piece].length = ContainerFormat.itemArray.count ⟨.date, 0, 2⟩ := rfl
  obtain ⟨unread, found, decoded, cut⟩ :=
    all .itemArray ⟨.date, 0, 2⟩ ([9, 0, 0, 2] ++ body) [9, 0, 0, 2] body [piece, piece] 10 rfl read trivial
      framed two (by decide)
  obtain ⟨failure, raw, rfl, -, -⟩ := cut.failed (fun _ _ => rfl) (by decide)
  have single : ItemArray.decode (([9, 0, 0, 2] ++ body).take 10) = .ok ⟨.date, 0, 2, [item]⟩ := rfl
  have same := congrArg (fun content => content.items.length) (Except.ok.inj (decoded.symm.trans single))
  cases same

end ContainerFormat

end MarketWire

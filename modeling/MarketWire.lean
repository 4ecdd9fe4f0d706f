import MarketWire.Bytes
import MarketWire.Bytes.Framed
import MarketWire.Bytes.Output
import MarketWire.Bytes.Reader
import MarketWire.Bytes.Varying
import MarketWire.Bytes.Width
import MarketWire.Calendar.Date
import MarketWire.Calendar.DateTime
import MarketWire.Calendar.Layout
import MarketWire.Calendar.Time
import MarketWire.Configuration
import MarketWire.Container.ElementList
import MarketWire.Container.Entries
import MarketWire.Container.FieldList
import MarketWire.Container.FilterList
import MarketWire.Container.ItemArray
import MarketWire.Container.Iterators
import MarketWire.Container.Plan
import MarketWire.Container.Record
import MarketWire.Container.Record.Reading
import MarketWire.Container.Record.Writing
import MarketWire.Container.Series
import MarketWire.Container.Session
import MarketWire.Container.Table
import MarketWire.Container.Vector
import MarketWire.Context
import MarketWire.DataType
import MarketWire.Decimal
import MarketWire.Decimal.Shortest
import MarketWire.DefinitionFile.Enums
import MarketWire.DefinitionFile.Fields
import MarketWire.DefinitionFile.Line
import MarketWire.DefinitionFile.Tag
import MarketWire.Dictionary
import MarketWire.Dictionary.Dump
import MarketWire.Dictionary.EnumTable
import MarketWire.Dictionary.Field
import MarketWire.Dictionary.Kind
import MarketWire.Dictionary.Store
import MarketWire.EntryValue
import MarketWire.Error
import MarketWire.Outline
import MarketWire.Outline.Container
import MarketWire.Outline.Dictionary
import MarketWire.Primitive
import MarketWire.Proofs.Acronyms
import MarketWire.Proofs.Additions
import MarketWire.Proofs.ArrayRuns
import MarketWire.Proofs.Arrays
import MarketWire.Proofs.BufferRuns
import MarketWire.Proofs.Buffers
import MarketWire.Proofs.Calendars
import MarketWire.Proofs.Capacities
import MarketWire.Proofs.Commuting
import MarketWire.Proofs.Containment
import MarketWire.Proofs.CutEntries
import MarketWire.Proofs.DateTexts
import MarketWire.Proofs.DateTimeTexts
import MarketWire.Proofs.Delimited
import MarketWire.Proofs.Dictionaries
import MarketWire.Proofs.DigitRuns
import MarketWire.Proofs.Drafts
import MarketWire.Proofs.Editions
import MarketWire.Proofs.Elements
import MarketWire.Proofs.EntryReaders
import MarketWire.Proofs.EnumFiles
import MarketWire.Proofs.EnumParts
import MarketWire.Proofs.EnumSlots
import MarketWire.Proofs.EnumTables
import MarketWire.Proofs.ExactDecimals
import MarketWire.Proofs.FailedCalls
import MarketWire.Proofs.FidTables
import MarketWire.Proofs.FieldFiles
import MarketWire.Proofs.FieldParts
import MarketWire.Proofs.FileOrder
import MarketWire.Proofs.FilterLists
import MarketWire.Proofs.FixedTimes
import MarketWire.Proofs.FrameTrees
import MarketWire.Proofs.Frames
import MarketWire.Proofs.Growth
import MarketWire.Proofs.InPlace
import MarketWire.Proofs.Interleaving
import MarketWire.Proofs.Iterators
import MarketWire.Proofs.LabelledEntries
import MarketWire.Proofs.LabelledRuns
import MarketWire.Proofs.LayoutRuns
import MarketWire.Proofs.Layouts
import MarketWire.Proofs.LeastWidths
import MarketWire.Proofs.LineOrder
import MarketWire.Proofs.Links
import MarketWire.Proofs.LocalSetRuns
import MarketWire.Proofs.LocalSets
import MarketWire.Proofs.Names
import MarketWire.Proofs.Numerals
import MarketWire.Proofs.Parts
import MarketWire.Proofs.Payloads
import MarketWire.Proofs.Primitives
import MarketWire.Proofs.Programs
import MarketWire.Proofs.Progress
import MarketWire.Proofs.Receipts
import MarketWire.Proofs.RecordRuns
import MarketWire.Proofs.RecordSteps
import MarketWire.Proofs.Records
import MarketWire.Proofs.Relays
import MarketWire.Proofs.Ripples
import MarketWire.Proofs.Rollbacks
import MarketWire.Proofs.Rooms
import MarketWire.Proofs.RoundTrips
import MarketWire.Proofs.RowRooms
import MarketWire.Proofs.Rows
import MarketWire.Proofs.SelfDelimiting
import MarketWire.Proofs.SetFaults
import MarketWire.Proofs.SetIndependence
import MarketWire.Proofs.SetParts
import MarketWire.Proofs.Shortages
import MarketWire.Proofs.ShortestForms
import MarketWire.Proofs.Signs
import MarketWire.Proofs.Stores
import MarketWire.Proofs.Summaries
import MarketWire.Proofs.TableRuns
import MarketWire.Proofs.Tables
import MarketWire.Proofs.Texts
import MarketWire.Proofs.TimeTexts
import MarketWire.Proofs.Tokens
import MarketWire.Proofs.Truncations
import MarketWire.Proofs.WholeValues
import MarketWire.Proofs.WholeWrites
import MarketWire.Proofs.Widths
import MarketWire.Proofs.Writers
import MarketWire.Proofs.Writing
import MarketWire.Publication
import MarketWire.Publication.Column
import MarketWire.Publication.Edition
import MarketWire.Publication.Element
import MarketWire.Publication.Enums
import MarketWire.Publication.Fields
import MarketWire.Publication.Part
import MarketWire.Publication.SetDefinitions
import MarketWire.Publication.Summary
import MarketWire.Real
import MarketWire.SetDefinition
import MarketWire.SetDefinition.Global
import MarketWire.SetDefinition.Local
import MarketWire.Text.Blank
import MarketWire.Text.Integer
import MarketWire.Text.Utf8

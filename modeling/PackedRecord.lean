import PackedRecord.Dataset
import PackedRecord.Layout.Document
import PackedRecord.Description.Document
import PackedRecord.Schema.Coverage
import PackedRecord.Store.Durable
import PackedRecord.Store.Transient
import PackedRecord.Value.Document
import PackedRecord.Proofs.Rounding
import PackedRecord.Proofs.Utf8
import PackedRecord.Proofs.Words
import PackedRecord.Proofs.SortedMaps
import PackedRecord.Proofs.BitFields
import PackedRecord.Proofs.UnitConversions
import PackedRecord.Proofs.TemporalWindows
import PackedRecord.Proofs.Heaps
import PackedRecord.Proofs.ByteRanges
import PackedRecord.Proofs.RecordRoundTrip
import PackedRecord.Proofs.NoFaults
import PackedRecord.Proofs.Delimiters
import PackedRecord.Proofs.CanonicalText
import PackedRecord.Proofs.StoredCodes
import PackedRecord.Proofs.Compatibility
import PackedRecord.Proofs.SingleValues
import PackedRecord.Proofs.EqualTexts
import PackedRecord.Proofs.SharedSchemas
import PackedRecord.Proofs.StoreAgreement
import PackedRecord.Proofs.RefusedDatasets
import PackedRecord.Proofs.MirroredStores
import PackedRecord.Proofs.SettledRecords
import PackedRecord.Proofs.Sessions
import PackedRecord.Proofs.ReentrantBuilds
import PackedRecord.Proofs.ReadableSchemas
import PackedRecord.Proofs.DurableHeaps
import PackedRecord.Proofs.CanonicalForms
import PackedRecord.Proofs.StableRecords
import PackedRecord.Proofs.OpenedSchemas
import PackedRecord.Proofs.DescribedDocuments
import PackedRecord.Proofs.RebuiltSchemas
import PackedRecord.Proofs.IssuedHandles
import PackedRecord.Proofs.FailedWrites
import PackedRecord.Proofs.EnumWindows
import PackedRecord.Proofs.InferredLayouts
import PackedRecord.Proofs.TypedRecords
import PackedRecord.Proofs.ExactNumbers
import PackedRecord.Proofs.FixedTexts
import PackedRecord.Proofs.RecordRuns
import PackedRecord.Proofs.WrittenRuns
import PackedRecord.Proofs.EnumWidths
import PackedRecord.Proofs.PositionalRecords
import PackedRecord.Proofs.RecordBytes
import PackedRecord.Proofs.MemberOrder
import PackedRecord.Proofs.ExactCoverage
import PackedRecord.Proofs.SingleReads
import PackedRecord.Proofs.DeclaredTexts
import PackedRecord.Proofs.ZeroRecords
import PackedRecord.Proofs.UnwrittenRows
import PackedRecord.Proofs.JsonDocuments
import PackedRecord.Proofs.StreamedValues
import PackedRecord.Proofs.UnambiguousTexts
import PackedRecord.Proofs.IntegerWindows
import PackedRecord.Proofs.HandleSlots

import TestCoverage.Analysis.LineMapper
import TestCoverage.Analysis.Memo
import TestCoverage.Analysis.Model
import TestCoverage.Archive.Crc32
import TestCoverage.Archive.Directory
import TestCoverage.Archive.Inflate
import TestCoverage.Archive.Member
import TestCoverage.Bytes
import TestCoverage.Bytes.Cursor
import TestCoverage.Catalog
import TestCoverage.Checksum
import TestCoverage.ClassFile.Content
import TestCoverage.ClassFile.Definition
import TestCoverage.ClassFile.Header
import TestCoverage.ClassFile.Minimal
import TestCoverage.ClassFile.Pool
import TestCoverage.ClassFile.Reader
import TestCoverage.Collect.Dispatch
import TestCoverage.Collect.Event
import TestCoverage.Collect.PerTest
import TestCoverage.Collect.TestCases
import TestCoverage.Collect.TestList
import TestCoverage.Collect.WholeSuite
import TestCoverage.Discovery.Listing
import TestCoverage.Discovery.Search
import TestCoverage.Discovery.Survey
import TestCoverage.Dump
import TestCoverage.Dump.Block
import TestCoverage.Dump.File
import TestCoverage.Dump.Payload
import TestCoverage.Files.Path
import TestCoverage.Files.Tree
import TestCoverage.Files.Walk
import TestCoverage.Json.Reader
import TestCoverage.Json.Record
import TestCoverage.Json.Writer
import TestCoverage.KeyOrder
import TestCoverage.Lines.LineSet
import TestCoverage.Lines.SourceLines
import TestCoverage.Location
import TestCoverage.Location.Pattern
import TestCoverage.Location.Rules
import TestCoverage.OrderedMap
import TestCoverage.Probe.Record
import TestCoverage.Probe.Session
import TestCoverage.Probe.Store
import TestCoverage.Proofs.Analysis.LineMapper
import TestCoverage.Proofs.Analysis.Omissions
import TestCoverage.Proofs.Analysis.Requests
import TestCoverage.Proofs.Archive.Inflate
import TestCoverage.Proofs.Archive.Member
import TestCoverage.Proofs.Attribution.Arrivals
import TestCoverage.Proofs.Attribution.Contributions
import TestCoverage.Proofs.Attribution.Credits
import TestCoverage.Proofs.Attribution.Durations
import TestCoverage.Proofs.Attribution.Gathering
import TestCoverage.Proofs.Attribution.Growth
import TestCoverage.Proofs.Attribution.Interleaving
import TestCoverage.Proofs.Attribution.Repeats
import TestCoverage.Proofs.Attribution.Stores
import TestCoverage.Proofs.Bytes.Cursor
import TestCoverage.Proofs.Checksum
import TestCoverage.Proofs.Checksum.Window
import TestCoverage.Proofs.ClassFile.Header
import TestCoverage.Proofs.ClassFile.Layout
import TestCoverage.Proofs.ClassFile.Minimal
import TestCoverage.Proofs.ClassFile.Pool
import TestCoverage.Proofs.ClassFile.Prefix
import TestCoverage.Proofs.ClassFile.Sequence
import TestCoverage.Proofs.Collect.ArrivalOrder
import TestCoverage.Proofs.Collect.Attempts
import TestCoverage.Proofs.Collect.Events
import TestCoverage.Proofs.Collect.TestCases
import TestCoverage.Proofs.Collect.TestList
import TestCoverage.Proofs.Collect.Union
import TestCoverage.Proofs.Discovery.Depth
import TestCoverage.Proofs.Discovery.Listing
import TestCoverage.Proofs.Discovery.Survey
import TestCoverage.Proofs.Discovery.Versions
import TestCoverage.Proofs.Dump.Block
import TestCoverage.Proofs.Dump.File
import TestCoverage.Proofs.Dump.Grammar
import TestCoverage.Proofs.Dump.Offsets
import TestCoverage.Proofs.Dump.Payload
import TestCoverage.Proofs.Dump.Reading
import TestCoverage.Proofs.Dump.Sessions
import TestCoverage.Proofs.Dump.Writing
import TestCoverage.Proofs.Files.Write
import TestCoverage.Proofs.Json.RoundTrip
import TestCoverage.Proofs.Lines.Ranges
import TestCoverage.Proofs.Lines.Runs
import TestCoverage.Proofs.Lines.SourceLines
import TestCoverage.Proofs.Location.Combination
import TestCoverage.Proofs.Location.Lines
import TestCoverage.Proofs.Location.Pattern
import TestCoverage.Proofs.Location.Remarks
import TestCoverage.Proofs.Location.Rules
import TestCoverage.Proofs.Location.Segments
import TestCoverage.Proofs.Probe.Merge
import TestCoverage.Proofs.Probe.Session
import TestCoverage.Proofs.Probe.Store
import TestCoverage.Proofs.Report.Calls
import TestCoverage.Proofs.Report.PerTest
import TestCoverage.Proofs.Report.Reading
import TestCoverage.Proofs.Report.TestSuite
import TestCoverage.Proofs.Report.WellFormed
import TestCoverage.Proofs.Reporter
import TestCoverage.Proofs.Reporter.Analyses
import TestCoverage.Proofs.Reporter.Conversion
import TestCoverage.Proofs.Reporter.Durations
import TestCoverage.Proofs.Reporter.History
import TestCoverage.Proofs.Reporter.Omissions
import TestCoverage.Proofs.Text.ModifiedUtf8
import TestCoverage.Proofs.Text.Utf8
import TestCoverage.Proofs.Xml.Grammar
import TestCoverage.Proofs.Xml.Reading
import TestCoverage.Report.Document
import TestCoverage.Report.PerTest
import TestCoverage.Report.TestSuite
import TestCoverage.Report.WholeSuite
import TestCoverage.Reporter
import TestCoverage.Settings
import TestCoverage.Sink
import TestCoverage.Test.Attribution
import TestCoverage.Test.Details
import TestCoverage.Test.Execution
import TestCoverage.Test.Kind
import TestCoverage.Test.Outcome
import TestCoverage.Text.Blank
import TestCoverage.Text.Cut
import TestCoverage.Text.ModifiedUtf8
import TestCoverage.Text.Utf8
import TestCoverage.Time
import TestCoverage.Xml.Markup

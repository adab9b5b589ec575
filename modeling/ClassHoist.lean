import ClassHoist.Hoist
import ClassHoist.Main
import ClassHoist.Report
import ClassHoist.Run
import ClassHoist.Proofs.Closing
import ClassHoist.Proofs.ByteOffsets
import ClassHoist.Proofs.ReachedPlaces
import ClassHoist.Proofs.Usages
import ClassHoist.Proofs.Reading
import ClassHoist.Proofs.ReadRun
import ClassHoist.Proofs.DirectiveOffsets
import ClassHoist.Proofs.Edits
import ClassHoist.Proofs.Hoisting
import ClassHoist.Proofs.Splice
import ClassHoist.Proofs.Matches
import ClassHoist.Proofs.Renaming
import ClassHoist.Proofs.Copies
import ClassHoist.Proofs.Positions
import ClassHoist.Proofs.Segments
import ClassHoist.Proofs.Names
import ClassHoist.Proofs.Tracing
import ClassHoist.Proofs.Lexing
import ClassHoist.Proofs.Quoting
import ClassHoist.Proofs.Unquoted
import ClassHoist.Proofs.Attributes
import ClassHoist.Proofs.ClassValueSlots
import ClassHoist.Proofs.Tags
import ClassHoist.Proofs.Contents
import ClassHoist.Proofs.Outlines
import ClassHoist.Proofs.RenamedConstructs
import ClassHoist.Proofs.Elements
import ClassHoist.Proofs.TopLevel
import ClassHoist.Proofs.Endings
import ClassHoist.Proofs.Replays
import ClassHoist.Proofs.Histories
import ClassHoist.Proofs.Origins
import ClassHoist.Proofs.Bytewise
import ClassHoist.Proofs.Inquiries
import ClassHoist.Proofs.Reordering
import ClassHoist.Proofs.Refusals
import ClassHoist.Proofs.Lookups
import ClassHoist.Proofs.Rendering
import ClassHoist.Proofs.Groups
import ClassHoist.Proofs.Layout
import ClassHoist.Proofs.Tiling
import ClassHoist.Proofs.Directives
import ClassHoist.Proofs.Parts
import ClassHoist.Proofs.Enclosure
import ClassHoist.Proofs.Promotion
import ClassHoist.Proofs.Synthesis
import ClassHoist.Proofs.Untouched
import ClassHoist.Proofs.Targets
import ClassHoist.Proofs.Followed
import ClassHoist.Proofs.Joined
import ClassHoist.Proofs.Balanced
import ClassHoist.Proofs.PrintedTags
import ClassHoist.Proofs.Roundtrip
import ClassHoist.Proofs.Outputs
import ClassHoist.Proofs.Divided
import ClassHoist.Proofs.Remains
import ClassHoist.Proofs.Restored
import ClassHoist.Proofs.Rehoisting
import ClassHoist.Proofs.Sites
import ClassHoist.Proofs.LeadingScripts
import ClassHoist.Proofs.Paths
import ClassHoist.Proofs.Destinations
import ClassHoist.Proofs.PathOrder
import ClassHoist.Proofs.FileTrees
import ClassHoist.Proofs.SecondRuns
import ClassHoist.Proofs.Schedules
import ClassHoist.Proofs.Failures
import ClassHoist.Proofs.Seams
import ClassHoist.Proofs.ByteScanAgreement
import ClassHoist.Proofs.FeedAgreement
import ClassHoist.Proofs.FeedTagAgreement
import ClassHoist.Proofs.FeedContentAgreement
import ClassHoist.Proofs.SessionAgreement
import ClassHoist.Proofs.Progress
import ClassHoist.Proofs.Verbatim
import ClassHoist.Proofs.VerbatimDrafts
import ClassHoist.Proofs.WrittenValues
import ClassHoist.Proofs.FaultPlaces
import ClassHoist.Proofs.QuotedValues
import ClassHoist.Proofs.TaggedNodes
import ClassHoist.Proofs.Walks
import ClassHoist.Proofs.LineStarts
import ClassHoist.Proofs.Recordings
import ClassHoist.Proofs.MarkedColons
import ClassHoist.Proofs.SegmentCounts
import ClassHoist.Proofs.Locality
import ClassHoist.Proofs.LongestTokens
import ClassHoist.Proofs.TokenLayout
import ClassHoist.Proofs.TidyPaths
import ClassHoist.Proofs.SelectedFiles

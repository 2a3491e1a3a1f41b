import CommentTags.Git.Record
import CommentTags.Main
import CommentTags.Proofs.CommandLine.Documents
import CommentTags.Proofs.CommandLine.KindRows
import CommentTags.Proofs.CommandLine.OptionOrder
import CommentTags.Proofs.CommandLine.Stopped
import CommentTags.Proofs.Files.WholeWalk
import CommentTags.Proofs.Files.Extension
import CommentTags.Proofs.Git.Discovery
import CommentTags.Proofs.Git.Record
import CommentTags.Proofs.Git.RelativePath
import CommentTags.Proofs.Report.Dated
import CommentTags.Proofs.Report.HeadingColumn
import CommentTags.Proofs.Report.Styled
import CommentTags.Proofs.Search.Blamed
import CommentTags.Proofs.Search.Complete
import CommentTags.Proofs.Scan.Bytes
import CommentTags.Proofs.Scan.Recorded
import CommentTags.Proofs.Scan.Answers
import CommentTags.Proofs.Scan.Failing
import CommentTags.Proofs.Scan.History
import CommentTags.Proofs.Scan.Rewritten
import CommentTags.Proofs.Scan.Suspended
import CommentTags.Proofs.Scan.Trimmed
import CommentTags.Proofs.Scan.Urls
import CommentTags.Proofs.Search.Enriched
import CommentTags.Proofs.Search.IgnoreQueries
import CommentTags.Proofs.Search.LineOwners
import CommentTags.Proofs.Search.Overwritten
import CommentTags.Proofs.Search.Resumed
import CommentTags.Proofs.Search.Switches
import CommentTags.Proofs.Search.Unreadable

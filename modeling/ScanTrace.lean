import ScanTrace.Program
import ScanTrace.Tag.Document
import ScanTrace.Proofs.Hosted.Parity
import ScanTrace.Proofs.Hosted.Verbatim
import ScanTrace.Proofs.Reentry.Exit
import ScanTrace.Proofs.Reentry.Held
import ScanTrace.Proofs.Reentry.Place
import ScanTrace.Proofs.Tracing.Levels
import ScanTrace.Proofs.Hosted.Apart
import ScanTrace.Proofs.Hosted.Delivered
import ScanTrace.Proofs.Json.Lexing
import ScanTrace.Proofs.Json.RoundTrip
import ScanTrace.Proofs.Tag.RoundTrip
import ScanTrace.Proofs.Config.Settled
import ScanTrace.Proofs.Config.Switching
import ScanTrace.Proofs.Config.Documents
import ScanTrace.Proofs.Installation.Handles
import ScanTrace.Proofs.Installation.Once
import ScanTrace.Proofs.Fields.Letters
import ScanTrace.Proofs.Tag.Entry
import ScanTrace.Proofs.Hosted.LastFlush
import ScanTrace.Proofs.Hosted.Flushes
import ScanTrace.Proofs.Tracing.Echo
import ScanTrace.Proofs.Hosted.Taken
import ScanTrace.Proofs.Tag.Shape
import ScanTrace.Proofs.Config.RoundTrip
import ScanTrace.Proofs.Tracing.Whole
import ScanTrace.Proofs.Levels.Membership
import ScanTrace.Proofs.Names.Lookup
import ScanTrace.Proofs.Config.Construction
import ScanTrace.Proofs.Config.Headers
import ScanTrace.Proofs.Tracing.Nesting
import ScanTrace.Proofs.Utf8.Rounds

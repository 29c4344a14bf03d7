import ImapSearch.Client
import ImapSearch.Proofs.Command.Containment
import ImapSearch.Proofs.Framing.Chunks
import ImapSearch.Proofs.InFlight.Resolution
import ImapSearch.Proofs.SearchKey.RoundTrip
import ImapSearch.Proofs.InFlight.Addressed
import ImapSearch.Proofs.SequenceSet.Normal
import ImapSearch.Proofs.Session.Addressed
import ImapSearch.Proofs.Scan.Ensures
import ImapSearch.Proofs.Session.Pipeline
import ImapSearch.Proofs.Scan.Reads
import ImapSearch.Proofs.Response.Completion
import ImapSearch.Proofs.Response.Extension
import ImapSearch.Proofs.Response.ExtendedResult
import ImapSearch.Proofs.Command.Unambiguous
import ImapSearch.Proofs.SequenceSet.Ranges
import ImapSearch.Proofs.Session.LiteralGate
import ImapSearch.Proofs.Response.Literals
import ImapSearch.Proofs.SequenceSet.Union
import ImapSearch.Proofs.SequenceSet.RoundTrip
import ImapSearch.Proofs.Response.ResultRoundTrip
import ImapSearch.Proofs.Scan.Atom
import ImapSearch.Proofs.Response.Remark
import ImapSearch.Proofs.Response.RoundTrip
import ImapSearch.Proofs.InFlight.Data
import ImapSearch.Proofs.SequenceSet.Nums
import ImapSearch.Proofs.Session.Results
import ImapSearch.Proofs.Response.FirstToken
import ImapSearch.Proofs.Session.Tags
import ImapSearch.Proofs.Client.Run
import ImapSearch.Proofs.Framing.Later
import ImapSearch.Proofs.Session.Closed
import ImapSearch.Proofs.Client.Teardown
import ImapSearch.Proofs.Session.Sent
import ImapSearch.Proofs.Client.Wire
import ImapSearch.Proofs.Framing.Responses
import ImapSearch.Proofs.Client.Malformed
import ImapSearch.Proofs.Framing.LineLimit
import ImapSearch.Proofs.Framing.LiteralLimit
import ImapSearch.Proofs.SequenceSet.Grammar
import ImapSearch.Proofs.Response.SearchLine
import ImapSearch.Proofs.Scan.Argument
import ImapSearch.Proofs.Response.Code
import ImapSearch.Proofs.Session.Announcement
import ImapSearch.Proofs.Scan.Faults
import ImapSearch.Proofs.Response.Faults
import ImapSearch.Proofs.Scan.Written
import ImapSearch.Proofs.Scan.Stable
import ImapSearch.Proofs.Response.BrokenSet
import ImapSearch.Proofs.Scan.Tokens
import ImapSearch.Proofs.Scan.Discard
import ImapSearch.Proofs.Scan.Operations

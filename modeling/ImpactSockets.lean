import ImpactSockets.Rfc.Base64Encoding
import ImpactSockets.Rfc.Base64Strict
import ImpactSockets.Rfc.Base64RoundTrip
import ImpactSockets.Sockets.AsyncPipeline.Accounting
import ImpactSockets.Sockets.AsyncPipeline.Notification
import ImpactSockets.Sockets.AsyncPipeline.RequestOrder
import ImpactSockets.Sockets.AsyncPipeline.UpdateHandles
import ImpactSockets.Sockets.AsyncPipeline.EmptyPoll
import ImpactSockets.Sockets.BasicSocket.Ownership
import ImpactSockets.Sockets.SocketStream
import ImpactSockets.Sockets.SocketStream.Output
import ImpactSockets.Rfc.Uri
import ImpactSockets.Library.Abnf
import ImpactSockets.Library.AbnfPrefixes
import ImpactSockets.Rfc.Uri.Grammar
import ImpactSockets.Rfc.Uri.Triplets
import ImpactSockets.Rfc.Uri.PathNormal
import ImpactSockets.Rfc.Uri.Reading
import ImpactSockets.Rfc.Uri.Components
import ImpactSockets.Rfc.Uri.AuthorityParts
import ImpactSockets.Rfc.Uri.AuthorityScan
import ImpactSockets.Rfc.Uri.Authority
import ImpactSockets.Rfc.Uri.HierPart
import ImpactSockets.Rfc.Uri.Parts
import ImpactSockets.Rfc.Uri.Completeness
import ImpactSockets.Rfc.Uri.Ipv6Grammar
import ImpactSockets.Rfc.Uri.IpLiteralParser
import ImpactSockets.Rfc.Uri.CleanLiteral
import ImpactSockets.Rfc.Uri.Words
import ImpactSockets.Rfc.Uri.Soundness
import ImpactSockets.Rfc.Uri.LiteralCase
import ImpactSockets.Rfc.Uri.RoundTrip
import ImpactSockets.Rfc.Utf8
import ImpactSockets.Rfc.Utf8RoundTrip
import ImpactSockets.Rfc.Utf8Strict
import ImpactSockets.Rfc.Utf8Failure
import ImpactSockets.Rfc.Utf8Serialize
import ImpactSockets.Sockets.SocketStream.Input
import ImpactSockets.Sockets.SocketStream.ShortSends
import ImpactSockets.Sockets.SocketStream.Hangup
import ImpactSockets.Rfc.Uri.SchemeRegistry
import ImpactSockets.Rfc.Uri.Ipv6Completeness
import ImpactSockets.Rfc.Uri.PathOffsets
import ImpactSockets.Rfc.Uri.DotSegments
import ImpactSockets.Library.Total
import ImpactSockets.Rfc.Uri.LiteralTotal
import ImpactSockets.Rfc.Uri.AuthorityCuts
import ImpactSockets.Rfc.Uri.AuthorityEffect
import ImpactSockets.Rfc.Uri.ParseEffect
import ImpactSockets.Rfc.Uri.ErrorReport
import ImpactSockets.Rfc.Uri.ResultHistory
import ImpactSockets.Rfc.Uri.Equivalence
import ImpactSockets.Rfc.Uri.PercentExact
import ImpactSockets.Rfc.Uri.StoredTriplets
import ImpactSockets.Rfc.Uri.Observers
import ImpactSockets.Rfc.Uri.DefaultPort
import ImpactSockets.Rfc.Uri.AuthorityLossless
import ImpactSockets.Rfc.Uri.DecOctets
import ImpactSockets.Rfc.Uri.DottedAddress
import ImpactSockets.Rfc.Uri.DottedCompleteness
import ImpactSockets.Rfc.Uri.Indexed
import ImpactSockets.Rfc.Uri.IndexedLiteral
import ImpactSockets.Rfc.Uri.Access
import ImpactSockets.Library.BlockStream
import ImpactSockets.Rfc.Md5
import ImpactSockets.Rfc.Md5Reference
import ImpactSockets.Rfc.Md5WordType
import ImpactSockets.Rfc.Sha1
import ImpactSockets.Rfc.Sha1Streaming
import ImpactSockets.Utils.LostWakeup
import ImpactSockets.Sockets.Networking.DefaultRoute
import ImpactSockets.Sockets.Networking.NetlinkSocket
import ImpactSockets.Sockets.Networking.SockaddrToString
import ImpactSockets.Library.Fuelled
import ImpactSockets.AbnfParser.Istream
import ImpactSockets.AbnfParser.Recognisers
import ImpactSockets.AbnfParser.Acts
import ImpactSockets.AbnfParser.Grammar
import ImpactSockets.AbnfParser.Recursive
import ImpactSockets.AbnfParser.Numerals
import ImpactSockets.AbnfParser.Fuel
import ImpactSockets.AbnfParser.Runs
import ImpactSockets.AbnfParser.Termination
import ImpactSockets.AbnfParser.Openings
import ImpactSockets.AbnfParser.TextProductions
import ImpactSockets.AbnfParser.Elements
import ImpactSockets.AbnfParser.PlainTexts
import ImpactSockets.AbnfParser.Correctness
import ImpactSockets.AbnfParser.Concatenations
import ImpactSockets.AbnfParser.Alternations
import ImpactSockets.AbnfParser.Matching
import ImpactSockets.Library.Monitor
import ImpactSockets.Sockets.AsyncPipeline.LockProgress
import ImpactSockets.Utils.Shutdown
import ImpactSockets.Rfc.Sha1Reference
import ImpactSockets.Rfc.Base64Canonical
import ImpactSockets.Sockets.Networking.RouteReply
import ImpactSockets.Sockets.SocketStream.Link
import ImpactSockets.Sockets.Networking.LinuxInterfaces
import ImpactSockets.Sockets.Networking.AppleInterfaces
import ImpactSockets.Sockets.Networking.WindowsAdapters
import ImpactSockets.Sockets.Networking.KernelSocket
import ImpactSockets.Sockets.Networking.AppleRoute
import ImpactSockets.Sockets.Networking.WindowsRoute
import ImpactSockets.Sockets.RawSocket.Sharing
import ImpactSockets.Rfc.Utf8Chunks
import ImpactSockets.Rfc.Utf8Shortest
import ImpactSockets.Rfc.Uri.Meaning

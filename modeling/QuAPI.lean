import QuAPI.Memory
import QuAPI.Decimal
import QuAPI.Message
import QuAPI.IntToStr
import QuAPI.Runtime
import QuAPI.Runtime.Printing
import QuAPI.Runtime.Encoder
import QuAPI.Runtime.Reader
import QuAPI.Library
import QuAPI.Machine
import QuAPI.Gate
import QuAPI.Qbf
import QuAPI.Session
import QuAPI.Prefix
import QuAPI.Text
import QuAPI.Rendering
import QuAPI.Matrix
import QuAPI.Header
import QuAPI.SharedPipe
import QuAPI.Stream
import QuAPI.Clearing
import QuAPI.Reset
import QuAPI.ForkProtocol
import QuAPI.Attribution
import QuAPI.Termination
import QuAPI.Refinement
import QuAPI.Verdict
import QuAPI.EndOfInput
import QuAPI.Fitting
import QuAPI.Processes
import QuAPI.Feeding
import QuAPI.Children
import QuAPI.Quapify.Parse
import QuAPI.Quapify.Tokens
import QuAPI.Quapify.RoundTrip
import QuAPI.MixedRadix
import QuAPI.Quapify.Intsplits
import QuAPI.Quapify.Main
import QuAPI.Bytes
import QuAPI.PagePipe
import QuAPI.ZeroCopy
import QuAPI.Framing
import QuAPI.Transfer
import QuAPI.Filler
import QuAPI.ReadSizes
import QuAPI.Handshakes
import QuAPI.Fragments
import QuAPI.Stdio
import QuAPI.Lines
import QuAPI.Wire
import QuAPI.Decoding
import QuAPI.Quapify.Counting
import QuAPI.Quapify.Formula
import QuAPI.Answers
import QuAPI.Quapify.Rounds
import QuAPI.Quapify.Solving
import QuAPI.Progress
import QuAPI.Turns
import QuAPI.Splitting
import QuAPI.Quapify.Combining
import QuAPI.Quapify.CommandLine
import QuAPI.Descriptors
import QuAPI.Plumbing

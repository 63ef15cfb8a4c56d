import Udtfs.Lib.NulString
import Udtfs.Lib.Decimal
import Udtfs.Lib.Content
import Udtfs.Lib.Run
import Udtfs.AcceptLoop
import Udtfs.Listing
import Udtfs.Client
import Udtfs.Receives
import Udtfs.Framing
import Udtfs.Spill
import Udtfs.WriteFidelity
import Udtfs.TruncateTarget
import Udtfs.CachedRead
import Udtfs.Sessions
import Udtfs.Coherence
import Udtfs.Callbacks
import Udtfs.Threads
import Udtfs.Mixing
import Udtfs.Consumption
import Udtfs.ReplyNet
import Udtfs.ReplyMatching
import Udtfs.ChildSignals
import Udtfs.Lib.LexicalPath
import Udtfs.Lib.ShellWords
import Udtfs.Shell
import Udtfs.Confinement
import Udtfs.Attributes
import Udtfs.CutReplies
import Udtfs.FailedFetch
import Udtfs.ReturnValues
import Udtfs.Lib.ChunkedSource
import Udtfs.Lib.RingPosition
import Udtfs.SegmentTransfer
import Udtfs.SendBuffer
import Udtfs.OpenSlot
import Udtfs.LockDiscipline
import Udtfs.ReceiveBuffers
import Udtfs.SendfileOverloads
import Udtfs.OpenRace
import Udtfs.ConcurrentReads
import Udtfs.HandlerPrograms
import Udtfs.IncompleteRequests
import Udtfs.LongPaths
import Udtfs.UnopenableFiles
import Udtfs.Touch
import Udtfs.Lib.SerialNumber
import Udtfs.Lib.Loop
import Udtfs.Lib.Spans
import Udtfs.Lib.LinkedSlots
import Udtfs.Transport.SeqNo
import Udtfs.Lib.RingSlot
import Udtfs.Lib.Calls
import Udtfs.Lib.ByteOrder
import Udtfs.Lib.Pieces
import Udtfs.Transport.LossArrays
import Udtfs.Transport.SndLossList
import Udtfs.Transport.RcvLossList
import Udtfs.Transport.LossReport
import Udtfs.Transport.RcvBuffer
import Udtfs.Transport.SndBlocks
import Udtfs.Transport.AckWindow
import Udtfs.Transport.Sender
import Udtfs.Transport.Receiver
import Udtfs.Transport.Connection
import Udtfs.Transport.Linked
import Udtfs.Transport.Handshake
import Udtfs.Transport.Progress
import Udtfs.Transport.Packet
import Udtfs.Lib.ChangingContent
import Udtfs.Transport.SegmentStream

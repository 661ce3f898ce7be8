import Iostreams.Foundation.BitPacking
import Iostreams.Serial.RoundTrip
import Iostreams.Serial.BitStream
import Iostreams.Serial.BlockAlignment
import Iostreams.Serial.BitBlocks
import Iostreams.Serial.BitReads
import Iostreams.Serial.Resumable
import Iostreams.Serial.Splice
import Iostreams.Serial.FurthestExtent
import Iostreams.Serial.Interleaving
import Iostreams.Serial.StreamBits
import Iostreams.Serial.AnyRoundTrip
import Iostreams.Serial.BufferBounds
import Iostreams.Serial.WriteReturns
import Iostreams.Serial.ShortReads
import Iostreams.Serial.TruncatedLength
import Iostreams.Serial.ContainerBounds
import Iostreams.Serial.ValueQueue
import Iostreams.Tcp.Segmentation
import Iostreams.Tcp.Server
import Iostreams.Tcp.Closing
import Iostreams.Net.Endpoints
import Iostreams.Tcp.Positions
import Iostreams.CApi.ServerClients
import Iostreams.CApi.TcpWrites
import Iostreams.CApi.HeadersJson
import Iostreams.CApi.Results
import Iostreams.Udp.FailedReceive
import Iostreams.Udp.Descriptor
import Iostreams.Udp.Exchange
import Iostreams.Memory.Streambuf
import Iostreams.Counting.Seeking
import Iostreams.Ring.Fifo
import Iostreams.Ring.Concurrent
import Iostreams.Ring.Rewind
import Iostreams.Ring.Characters
import Iostreams.Ring.OneThread
import Iostreams.Ring.Programs
import Iostreams.Ring.TypedMessages
import Iostreams.Http.FieldNames
import Iostreams.Http.Hostile
import Iostreams.Http.Request
import Iostreams.Http.RestSync
import Iostreams.Http.AsyncThreads
import Iostreams.Http.Exchange
import Iostreams.Archive.Reading
import Iostreams.Archive.Writing
import Iostreams.Archive.RoundTrip
import Iostreams.Archive.Handles
import Iostreams.Ssl.Programs
import Iostreams.Ssl.Factory
import Iostreams.Net.Ipv4

import Haka.Container.List2
import Haka.Container.Vector
import Haka.Tcp.Sequence
import Haka.Tcp.Completeness
import Haka.Tcp.Ack
import Haka.Ipv4.Network
import Haka.Ipv4.Order
import Haka.Ipv4.Table
import Haka.Ipv4.Checksum
import Haka.Tcp.Dropped
import Haka.Timer.Ticks
import Haka.Stream.Retain
import Haka.Stream.Segmentation
import Haka.Dns.Sections
import Haka.Tcp.Unwrap
import Haka.Tcp.Fin
import Haka.Tcp.Refused
import Haka.Stream.Refill
import Haka.Vbuffer.Transparent
import Haka.Vbuffer.Inside
import Haka.Vbuffer.AllOrNothing
import Haka.StateMachine.Timeouts
import Haka.StateMachine.Finish
import Haka.StateMachine.Dispatch
import Haka.Grammar.Arrays
import Haka.Grammar.Unions
import Haka.Grammar.Marks
import Haka.Vbuffer.Replace

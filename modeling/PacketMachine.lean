import PacketMachine.Lib.Run
import PacketMachine.Lib.Returns
import PacketMachine.Channel.RingBuffer
import PacketMachine.Channel.MsgQueue
import PacketMachine.Machine.Kernel
import PacketMachine.Machine.Dispatch
import PacketMachine.Machine.Deferred
import PacketMachine.Machine.Shutdown
import PacketMachine.Tcp.Session
import PacketMachine.Tcp.Replay
import PacketMachine.Tcp.LifeCycle
import PacketMachine.Tcp.Reassembly
import PacketMachine.Tcp.Direction
import PacketMachine.Tcp.Conservation
import PacketMachine.Decode.Payload
import PacketMachine.Decode.Label
import PacketMachine.Decode.Value
import PacketMachine.Decode.Property
import PacketMachine.Decode.Lookup
import PacketMachine.Decode.Pool
import PacketMachine.Decode.Within
import PacketMachine.Decode.NameService
import PacketMachine.Decode.Modules
import PacketMachine.Decode.TcpModule
import PacketMachine.Decode.Decoder
import PacketMachine.Decode.Same
import PacketMachine.Decode.Read
import PacketMachine.Decode.Reading
import PacketMachine.Decode.Loop
import PacketMachine.Decode.Visit
import PacketMachine.Decode.Reuse
import PacketMachine.Decode.Bounds
import PacketMachine.Decode.Ends
import PacketMachine.Decode.Keys
import PacketMachine.Decode.Data
import PacketMachine.Decode.Header
import PacketMachine.Decode.Slots
import PacketMachine.Decode.RoundTrip
import PacketMachine.Decode.PairKey
import PacketMachine.Decode.SessionId
import PacketMachine.Decode.Shift
import PacketMachine.Decode.Carry
import PacketMachine.Decode.Vlan
import PacketMachine.Tcp.Wrap
import PacketMachine.Tcp.Accounting
import PacketMachine.Decode.Transfer
import PacketMachine.Decode.Classify
import PacketMachine.Decode.Delimit
import PacketMachine.Decode.Options
import PacketMachine.Decode.Name
import PacketMachine.Decode.Records
import PacketMachine.Decode.Rdata
import PacketMachine.Decode.Message
import PacketMachine.Decode.Cursor
import PacketMachine.Decode.SessionTable
import PacketMachine.Channel.MsgCalls
import PacketMachine.Machine.Clearing
import PacketMachine.Lib.Tables
import PacketMachine.Setup.Init
import PacketMachine.Setup.Build
import PacketMachine.Setup.Names
import PacketMachine.Setup.Routing
import PacketMachine.Setup.Property
import PacketMachine.Setup.Absence
import PacketMachine.Setup.Minor
import PacketMachine.Setup.Builtin
import PacketMachine.Lib.Bytes
import PacketMachine.Lib.Heap
import PacketMachine.Lib.Dotted
import PacketMachine.Values.Object
import PacketMachine.Values.Number
import PacketMachine.Values.Address
import PacketMachine.Values.Refine
import PacketMachine.Source.Packet
import PacketMachine.Source.Pcap
import PacketMachine.Source.Pipeline
import PacketMachine.Source.Input
import PacketMachine.Source.Progress
import PacketMachine.Machine.Thread
import PacketMachine.Tcp.Record
import PacketMachine.Tcp.Rtt
import PacketMachine.Decode.Paths
import PacketMachine.Decode.Demux
import PacketMachine.Decode.Transparent
import PacketMachine.Decode.Extend
import PacketMachine.Decode.Trailer
import PacketMachine.Lib.Objects
import PacketMachine.Machine.Facade
import PacketMachine.Machine.Protocol
import PacketMachine.Machine.Refused

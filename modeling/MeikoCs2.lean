import MeikoCs2.Packet
import MeikoCs2.Ring
import MeikoCs2.Runs
import MeikoCs2.Roster
import MeikoCs2.Node
import MeikoCs2.Spsc
import MeikoCs2.PktRings
import MeikoCs2.Console
import MeikoCs2.Ringbuf
import MeikoCs2.Objects
import MeikoCs2.Replies
import MeikoCs2.Ownership
import MeikoCs2.OpenFd
import MeikoCs2.Driver
import MeikoCs2.Tty
import MeikoCs2.ConsoleLog
import MeikoCs2.Session
import MeikoCs2.Queues
import MeikoCs2.Interrupts
import MeikoCs2.InqProducers
import MeikoCs2.Transmit
import MeikoCs2.SentLog
import MeikoCs2.ConsoleStream
import MeikoCs2.AckTimer
import MeikoCs2.Stall
import MeikoCs2.BottomHalf
import MeikoCs2.Discipline
import MeikoCs2.Reboot
import MeikoCs2.Consobj
import MeikoCs2.Promiscuous
import MeikoCs2.FanOut
import MeikoCs2.Programs
import MeikoCs2.Cancon
import MeikoCs2.Crew
import MeikoCs2.ForceDisconn
import MeikoCs2.Protocols
import MeikoCs2.Network
import MeikoCs2.Effects
import MeikoCs2.Correlation
import MeikoCs2.Disconnect
import MeikoCs2.ConnectPhases
import MeikoCs2.ConnectAgreement
import MeikoCs2.FailedConnect
import MeikoCs2.AckBuf
import MeikoCs2.Keystrokes
import MeikoCs2.ConsoleInput
import MeikoCs2.ResetIo
import MeikoCs2.FirstFit
import MeikoCs2.Iommu
import MeikoCs2.Dvma
import MeikoCs2.Translation
import MeikoCs2.Routing
import MeikoCs2.Timer
import MeikoCs2.Outgoing
import MeikoCs2.Sleepers
import MeikoCs2.Memory
import MeikoCs2.TtyReader
import MeikoCs2.Outchars
import MeikoCs2.OptionReads
import MeikoCs2.Heist
import MeikoCs2.Accounting
import MeikoCs2.Snoop
import MeikoCs2.Unload
import MeikoCs2.Scanf
import MeikoCs2.Tables
import MeikoCs2.Lookups
import MeikoCs2.Canctrl
import MeikoCs2.Irq
import MeikoCs2.CrossCall
import MeikoCs2.CrossCallSerial
import MeikoCs2.CrossCallEnds
import MeikoCs2.Circle
import MeikoCs2.SmpBoot
import MeikoCs2.Testrw
import MeikoCs2.PingRounds
import MeikoCs2.Canping
import MeikoCs2.ConsoleWire
import MeikoCs2.ConsoleTrip
import MeikoCs2.ConsoleOutput
import MeikoCs2.Heartbeat
import MeikoCs2.Loading
import MeikoCs2.Retries
import MeikoCs2.KeyRounds
import MeikoCs2.Keyboard
import MeikoCs2.Bargraph
import MeikoCs2.AtomicNode
import MeikoCs2.AtomicRuns

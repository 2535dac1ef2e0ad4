import Switchboard.Codec.Mapped
import Switchboard.Delay.Mailbox
import Switchboard.Handler.Sum
import Switchboard.Listener.Feed
import Switchboard.Packet.Stamped
import Switchboard.Proofs.AnyChunks
import Switchboard.Proofs.DeflateRoundTrip
import Switchboard.Proofs.DelayOrder
import Switchboard.Proofs.DelayedTurns
import Switchboard.Proofs.Delivery
import Switchboard.Proofs.Framing
import Switchboard.Proofs.ListenersInStep
import Switchboard.Proofs.RoomSilence
import Switchboard.Server.Simulation
import Switchboard.Proofs.InflateCourse
import Switchboard.Proofs.InflatedStreams
import Switchboard.Proofs.InflatedPackets
import Switchboard.Proofs.LineRecords
import Switchboard.Proofs.CharsetRoundTrip
import Switchboard.Proofs.LineRoundTrip
import Switchboard.Proofs.BuildableListeners
import Switchboard.Proofs.InflateFrugal
import Switchboard.Proofs.DelayAccount
import Switchboard.Proofs.Lifetime
import Switchboard.Proofs.Credentials
import Switchboard.Proofs.FedListeners
import Switchboard.Proofs.FileReplica
import Switchboard.Proofs.Chatting
import Switchboard.Proofs.RoomEffects
import Switchboard.Proofs.RoomHolders
import Switchboard.Proofs.RoomRelay
import Switchboard.Proofs.DrainedCodecs
import Switchboard.Proofs.DrainedInterest
import Switchboard.Proofs.EchoedRecords
import Switchboard.Proofs.ListenersReadBack
import Switchboard.Proofs.DelayApart
import Switchboard.Proofs.ClosedCodecs
import Switchboard.Proofs.DelayDeadline
import Switchboard.Proofs.LimitedFraming
import Switchboard.Proofs.ValueWire
import Switchboard.Proofs.WrittenPackets
import Switchboard.Proofs.SnapshotChanges
import Switchboard.Proofs.GateSecrets
import Switchboard.Proofs.DistinctIds
import Switchboard.Proofs.CharsetPolicies
import Switchboard.Proofs.WellFormedOctets
import Switchboard.Proofs.NeededWorker
import Switchboard.Proofs.PacketOrigins
import Switchboard.Proofs.GuardedScan
import Switchboard.Proofs.UpdatesInPlace

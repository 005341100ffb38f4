import RacKun.Wire.Framing
import RacKun.Wire.Accepted
import RacKun.Wire.Splitting
import RacKun.Group.Views
import RacKun.Group.Connections
import RacKun.Group.Agreement
import RacKun.Network.Markers
import RacKun.Network.Neighbours
import RacKun.Network.Token
import RacKun.Network.Disconnect
import RacKun.Network.Removal
import RacKun.Network.LocalGroup
import RacKun.Network.Once
import RacKun.Network.Stamps
import RacKun.Network.Failure
import RacKun.Network.Relaying
import RacKun.Network.Reset
import RacKun.Network.Hops
import RacKun.Network.AckOrder
import RacKun.Network.OwnPlace
import RacKun.Network.GroupTable
import RacKun.Network.ReadyOrder
import RacKun.System.Broadcast
import RacKun.System.Completion
import RacKun.Lib.Record
import RacKun.Network.Targets
import RacKun.System.Identity
import RacKun.System.Accounts
import RacKun.System.Shown
import RacKun.Lib.Load
import RacKun.Network.Costs
import RacKun.System.Silence

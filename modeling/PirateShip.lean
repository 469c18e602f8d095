import PirateShip.Staging.Delivery
import PirateShip.LogServer.Mirror
import PirateShip.Engines.Schedule
import PirateShip.ForkReceiver.Nack
import PirateShip.Rpc.Client
import PirateShip.Rpc.Closing
import PirateShip.Rpc.Accept
import PirateShip.RequestPath.Counters
import PirateShip.RequestPath.Probes
import PirateShip.Pacemaker.Malformed
import PirateShip.ForkReceiver.Backfill
import PirateShip.Thresholds
import PirateShip.Staging.QcCreation
import PirateShip.Staging.Rejected
import PirateShip.Staging.LastQc
import PirateShip.Staging.StableView
import PirateShip.Smallbank.Conservation
import PirateShip.Kms.OwnKeys
import PirateShip.Svr3.Locked
import PirateShip.BlockSequencer.Stream
import PirateShip.Extra2pc.Replication
import PirateShip.Engines.Results
import PirateShip.Pacemaker.OldViews
import PirateShip.BatchProposal.Placement
import PirateShip.RequestPath.ReplyBuffers
import PirateShip.Staging.Replication
import PirateShip.Staging.ForkStats
import PirateShip.LogServer.Refilled
import PirateShip.Engines.CompareAndSwap
import PirateShip.ForkReceiver.Cut

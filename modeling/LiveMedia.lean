import LiveMedia.Codec.Scripted
import LiveMedia.Main
import LiveMedia.Session.Statistics
import LiveMedia.Transport.Recorder
import LiveMedia.Worker.Alone
import LiveMedia.Proofs.JitterBuffer.Order
import LiveMedia.Proofs.Player.PlayoutOrder
import LiveMedia.Proofs.Player.KeyframeWait
import LiveMedia.Proofs.Publisher.Run
import LiveMedia.Proofs.Publisher.Numbering
import LiveMedia.Proofs.Publisher.StreamCalls
import LiveMedia.Proofs.Codec.Faultless
import LiveMedia.Proofs.EndToEnd
import LiveMedia.Proofs.JitterBuffer.StableOrder
import LiveMedia.Proofs.JitterBuffer.Tolerance
import LiveMedia.Proofs.JitterBuffer.PriorityQueue
import LiveMedia.Proofs.Player.RestartIsolation
import LiveMedia.Proofs.Session.Scheduled
import LiveMedia.Proofs.Session.Routing
import LiveMedia.Proofs.Publisher.Attribution
import LiveMedia.Proofs.Publisher.NothingLost
import LiveMedia.Proofs.Publisher.Dealings
import LiveMedia.Proofs.Publisher.EncoderHistory
import LiveMedia.Proofs.Publisher.LatestInstance
import LiveMedia.Proofs.Publisher.KeyframeCadence
import LiveMedia.Proofs.Publisher.ConfigurationInForce
import LiveMedia.Proofs.Publisher.KeyframeSpacing
import LiveMedia.Proofs.Publisher.SentTimes
import LiveMedia.Proofs.Player.Accounting
import LiveMedia.Proofs.Player.SenderTimestamps
import LiveMedia.Proofs.Publisher.DriversAgree
import LiveMedia.Proofs.Publisher.ClockReadings
import LiveMedia.Proofs.Transport.EpochOrder
import LiveMedia.Proofs.Player.Draining
import LiveMedia.Proofs.CaptureClock
import LiveMedia.Proofs.Transport.Traffic
import LiveMedia.Proofs.Transport.PairSwapping
import LiveMedia.Proofs.Transport.AbandonedCalls
import LiveMedia.Proofs.PendingCaptures
import LiveMedia.Proofs.BitrateMeter
import LiveMedia.Proofs.PayloadText
import LiveMedia.Proofs.Event
import LiveMedia.Proofs.Codec.Closure
import LiveMedia.Proofs.Simulator.Pacing

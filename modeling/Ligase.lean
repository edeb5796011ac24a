import Ligase.Uid.Snowflake
import Ligase.Token.Caveats
import Ligase.Common.Msgdef
import Ligase.Common.Rpc
import Ligase.Crypto.ClaimAlgorithm
import Ligase.Crypto.Upload
import Ligase.DbUpdates.Batch
import Ligase.Cache.Local
import Ligase.Cache.Lock
import Ligase.Fed.Delivery
import Ligase.Fed.Gaps
import Ligase.FedMissing.Pages
import Ligase.FedBackfill.Process
import Ligase.FedSender.NoSkip
import Ligase.FedSender.Trim
import Ligase.Auth.Levels
import Ligase.Room.Reload
import Ligase.Room.Failed
import Ligase.Room.Records
import Ligase.Room.Refs
import Ligase.Client.Redact
import Ligase.Rcs.Glare
import Ligase.Rcs.Failing
import Ligase.Rcs.Announced
import Ligase.Rcs.Legal
import Ligase.Rcs.OnceJoined
import Ligase.Sync.Leave
import Ligase.Sync.PosToken
import Ligase.Sync.StartToken
import Ligase.Sync.Shared
import Ligase.Sync.Arrival
import Ligase.Sync.Canonical
import Ligase.Sync.Online
import Ligase.Sync.StateLine
import Ligase.Feed.MinStream
import Ligase.Feed.Paths
import Ligase.Aggregate.JoinRooms
import Ligase.Aggregate.Rounds
import Ligase.Push.Insert
import Ligase.Push.GlobMeaning
import Ligase.Push.Evaluate
import Ligase.Receipt.Broadcast
import Ligase.Receipt.Latest
import Ligase.Receipt.ReadCount
import Ligase.Stream.Persist
import Ligase.Stream.TimeLineRepo

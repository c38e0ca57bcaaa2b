import Crosslink.Tenderlink.Agreement
import Crosslink.Consensus.StakingPanics
import Crosslink.State.Signatures
import Crosslink.State.Timeline
import Crosslink.Tenderlink.CatchUp
import Crosslink.Bft.Proposing
import Crosslink.Transport.Robust
import Crosslink.Bft.Pointers
import Crosslink.Bft.Rosters
import Crosslink.State.Distribution
import Crosslink.State.Replay
import Crosslink.Bft.Headers
import Crosslink.Tenderlink.NeedRanges
import Crosslink.Staking.Encoding
import Crosslink.Staking.Fee
import Crosslink.NewNet.Grouping
import Crosslink.NewNet.Heaviest
import Crosslink.Staking.DiskFormat
import Crosslink.State.Queue
import Crosslink.NewNet.StatusRoundTrip
import Crosslink.Transport.Channel
import Crosslink.Transport.Handshakes
import Crosslink.NewNet.InFlight
import Crosslink.Tenderlink.Counts
import Crosslink.Tenderlink.YesVotes

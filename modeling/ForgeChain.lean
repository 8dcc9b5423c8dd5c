import ForgeChain.Reorg
import ForgeChain.Replay
import ForgeChain.Supply
import ForgeChain.CatchUp
import ForgeChain.Validity
import ForgeChain.Verdict
import ForgeChain.PeerInput
import ForgeChain.Arrival
import ForgeChain.Descendants
import ForgeChain.Sync
import ForgeChain.Registration
import ForgeChain.Authenticity
import ForgeChain.Outcomes
import ForgeChain.Persistence
import ForgeChain.Batch
import ForgeChain.Relay
import ForgeChain.Transfer
import ForgeChain.Rollback
import ForgeChain.Nonces
import ForgeChain.Reinsertion
import ForgeChain.Leases
import ForgeChain.AddressBook
import ForgeChain.Boundary
import ForgeChain.Sessions
import ForgeChain.RunningNode
import ForgeChain.Discovery
import ForgeChain.Announce
import ForgeChain.RpcServer
import ForgeChain.Ranks
import ForgeChain.ChainTime
import ForgeChain.Epochs
import ForgeChain.Locators
import ForgeChain.TopK
import ForgeChain.FeeOrder
import ForgeChain.Fifo
import ForgeChain.OrphanOrder
import ForgeChain.Representation
import ForgeChain.Rewind
import ForgeChain.Residence
import ForgeChain.Target
import ForgeChain.PoolWalks
import ForgeChain.Loops
import ForgeChain.MineLoop
import ForgeChain.Metering
import ForgeChain.Allocation
import ForgeChain.Dialing
import ForgeChain.Endpoints
import ForgeChain.CommandLine
import ForgeChain.Flood
import ForgeChain.Network
import ForgeChain.Spreading
import ForgeChain.Custody
import ForgeChain.Origins
import ForgeChain.Settling
import ForgeChain.Integrity
import ForgeChain.Journal
import ForgeChain.Durability
import ForgeChain.Outages
import ForgeChain.Download
import ForgeChain.Heads
import ForgeChain.Turns
import ForgeChain.Agreement
import ForgeChain.Serial
import ForgeChain.Stalls
import ForgeChain.Words
import ForgeChain.Payments
import ForgeChain.MiningRace
import ForgeChain.WalletSession
import ForgeChain.Contacts

import NearFetch.Lists
import NearFetch.EffectProgram
import NearFetch.Interleaving
import NearFetch.FifoLock
import NearFetch.TicketCounter
import NearFetch.RoundRobin
import NearFetch.MachineSum
import NearFetch.DeferredErrors
import NearFetch.Primitives
import NearFetch.Rpc
import NearFetch.Effects
import NearFetch.RotationCounter
import NearFetch.Signer
import NearFetch.Client
import NearFetch.CacheLookup
import NearFetch.SendPaths
import NearFetch.CacheInvalidation
import NearFetch.Outcome
import NearFetch.GasBurnt
import NearFetch.OutcomeWalks
import NearFetch.Operations
import NearFetch.Queries
import NearFetch.Submissions
import NearFetch.CalmTasks
import NearFetch.NonceProtocol
import NearFetch.NonceLock
import NearFetch.NonceTrace
import NearFetch.NonceEpochs
import NearFetch.NonceCounter
import NearFetch.HonestChain
import NearFetch.NonceReuse
import NearFetch.KeyRotation
import NearFetch.KeyRaces
import NearFetch.RotationWindows
import NearFetch.NamedAccounts
import NearFetch.SignerAccounts
import NearFetch.RetryLoop
import NearFetch.HandleNames
import NearFetch.BatchChains
import NearFetch.ArgumentSetters
import NearFetch.Polling
import NearFetch.WaitLevels
import NearFetch.SoloClient
import NearFetch.CacheHealing
import NearFetch.HealingSessions
import NearFetch.Tasks
import NearFetch.Inevitability
import NearFetch.Completion
import NearFetch.WireNonces
import NearFetch.RemovalCauses
import NearFetch.FreshBlocks
import NearFetch.AccessKeyQueries
import NearFetch.Overtaking
import NearFetch.SoleSender
import NearFetch.Traces
import NearFetch.Costs
import NearFetch.Budgets
import NearFetch.SigningTurns
import NearFetch.SoleRotation
import NearFetch.RetryBehaviour
import NearFetch.Decoding
import NearFetch.Observation
import NearFetch.Views
import NearFetch.Snapshots
import NearFetch.Panics

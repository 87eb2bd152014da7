import MnoVerify.GrantLedgerSound
import MnoVerify.Ledger
import MnoVerify.LedgerClock
import MnoVerify.LedgerScope
import MnoVerify.LedgerShared
import MnoVerify.Decommission
import MnoVerify.GrantLedger
import MnoVerify.SnapshotSound
import MnoVerify.MembersTree
import MnoVerify.Registration
import MnoVerify.SeasonSound
import MnoVerify.SeasonStore
import MnoVerify.RegistrationFlow
import MnoVerify.RegistrationFlowSound
import MnoVerify.Season
import MnoVerify.Utf8
import MnoVerify.Snapshot
import MnoVerify.Field
import MnoVerify.Pratt
import MnoVerify.FieldPrime
import MnoVerify.Coerce
import MnoVerify.PaddedTree
import MnoVerify.JsonTorn
import MnoVerify.NullifierStore
import MnoVerify.VerifierSound
import MnoVerify.GatewaySound
import MnoVerify.TimeGuardSound
import MnoVerify.Bits
import MnoVerify.Bytes
import MnoVerify.HashTree
import MnoVerify.DmlCommitment
import MnoVerify.SmlRootSound
import MnoVerify.ReaderSound
import MnoVerify.PartialTree
import MnoVerify.PartialTreeSound
import MnoVerify.DmlBindingSound
import MnoVerify.QuorumCommitment
import MnoVerify.QuorumSound
import MnoVerify.DecommissionSound
import MnoVerify.RootWindow
import MnoVerify.RootWindowSound
import MnoVerify.Refresh
import MnoVerify.RefreshSound
import MnoVerify.RootWindowRuns
import MnoVerify.MembersObject
import MnoVerify.MembersObjectSound
import MnoVerify.PaddedPath
import MnoVerify.MerklePath
import MnoVerify.MerklePathSound
import MnoVerify.DiscordAccess
import MnoVerify.DiscordAccessSound
import MnoVerify.OracleLeaves
import MnoVerify.OracleLeavesSound
import MnoVerify.Base64
import MnoVerify.OracleSig
import MnoVerify.OracleSigSound
import MnoVerify.RoomPrivacy
import MnoVerify.RoomPrivacySound
import MnoVerify.JsonIndent
import MnoVerify.SecretFile
import MnoVerify.SecretFileSound
import MnoVerify.RegistrationEngines
import MnoVerify.RegistrationEnginesSound
import MnoVerify.Semaphore
import MnoVerify.ChallengeStore
import MnoVerify.ChallengeStoreSound
import MnoVerify.RateLimiter
import MnoVerify.RateLimiterSound
import MnoVerify.RateLimiterRuns
import MnoVerify.RateLimiterOrder
import MnoVerify.NullifierRefinement
import MnoVerify.Codec
import MnoVerify.CoinbaseSound
import MnoVerify.PartialTreeBranch
import MnoVerify.ServiceSound
import MnoVerify.Lines
import MnoVerify.RegistrationFile
import MnoVerify.RegistrationIndexSound
import MnoVerify.RegistrationFileSound
import MnoVerify.HashPreimages
import MnoVerify.FieldSignals
import MnoVerify.ProofOfWork
import MnoVerify.RegistrationJournal
import MnoVerify.ShaTree
import MnoVerify.DiffSnapshot
import MnoVerify.RunChain
import MnoVerify.Dft
import MnoVerify.Simd
import MnoVerify.SimdSound
import MnoVerify.Gf256
import MnoVerify.Groestl
import MnoVerify.GroestlTables
import MnoVerify.GroestlSound
import MnoVerify.Ripemd160
import MnoVerify.RipemdCircuit
import MnoVerify.RipemdSound
import MnoVerify.Circuits
import MnoVerify.CircuitsSound
import MnoVerify.Prover
import MnoVerify.ProverSound
import MnoVerify.Admission
import MnoVerify.Durable
import MnoVerify.RegistrationBackend
import MnoVerify.RegistrationBackendSound
import MnoVerify.RegistrationBackendRuns
import MnoVerify.RegistrationBackendSafe
import MnoVerify.RegistrationBackendRecovery

import Ironlock.Lib.Effect
import Ironlock.Lib.ByteOrder
import Ironlock.Lib.Utf8
import Ironlock.Path
import Ironlock.Error
import Ironlock.Crypto
import Ironlock.StreamIo
import Ironlock.StreamCrypto
import Ironlock.Delivery
import Ironlock.StreamLayout
import Ironlock.Encoding
import Ironlock.Decoding
import Ironlock.RoundTrip
import Ironlock.Tampering
import Ironlock.FileSystem
import Ironlock.Walk
import Ironlock.Resolution
import Ironlock.Calls
import Ironlock.System
import Ironlock.Runs
import Ironlock.SecureFs.Paths
import Ironlock.SecureFs.PathFacts
import Ironlock.SecureFs.Keys
import Ironlock.SecureFs.AtomicOutput
import Ironlock.SecureFs.OutputFacts
import Ironlock.SecureFs.OutputStages
import Ironlock.SecureFs.OutputRuns
import Ironlock.SecureFs.OutputWrites
import Ironlock.SecureFs.Shred
import Ironlock.SecureFs.Encrypt
import Ironlock.SecureFs.Decrypt
import Ironlock.Restoration
import Ironlock.CrashPoints
import Ironlock.SecureFs.Names
import Ironlock.SecureFs.Planning
import Ironlock.SecureFs.GuardFacts
import Ironlock.Lookup
import Ironlock.DecryptionBatch
import Ironlock.LegacyFormat
import Ironlock.Lib.Lockstep
import Ironlock.Lib.Chunks
import Ironlock.Fragmentation
import Ironlock.LegacyStream
import Ironlock.Truncation
import Ironlock.VerifiedOutput
import Ironlock.SecureFs.ShredFacts
import Ironlock.ShredFailure
import Ironlock.Interference
import Ironlock.Quarantine
import Ironlock.NoClobber
import Ironlock.Shredding
import Ironlock.EncryptShred
import Ironlock.Tree
import Ironlock.Answers
import Ironlock.Traversal
import Ironlock.Collection
import Ironlock.EncryptionPlan
import Ironlock.DecryptionPlan
import Ironlock.RecoveredName
import Ironlock.Asked
import Ironlock.Nonces
import Ironlock.NonceReuse
import Ironlock.WorkLimits
import Ironlock.Spelling
import Ironlock.Lib.Lossy
import Ironlock.LossyKeys
import Ironlock.OutputAliases
import Ironlock.Lib.Gauge
import Ironlock.Handles
import Ironlock.HandleCounts
import Ironlock.Faults
import Ironlock.EncryptionRuns
import Ironlock.EncryptionBatch
import Ironlock.EncryptionOutputs
import Ironlock.EncryptionEffects
import Ironlock.CommandLine
import Ironlock.ExitCodes
import Ironlock.EncryptCommand
import Ironlock.PartialOutput
import Ironlock.Pipes
import Ironlock.Restored
import Ironlock.Recoverable
import Ironlock.Consent
import Ironlock.Footprint
import Ironlock.Lib.Transfer
import Ironlock.Completion
import Ironlock.Store
import Ironlock.EncryptionCompletion
import Ironlock.DecryptionCompletion
import Ironlock.TreeRoundTrip
import Ironlock.OutputEntries
import Ironlock.Respelled
import Ironlock.SourceSpelling

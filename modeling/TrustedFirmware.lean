import TrustedFirmware.Lib.Device
import TrustedFirmware.Lib.Word32
import TrustedFirmware.Lib.BlockFlash
import TrustedFirmware.Lib.FlashDriver
import TrustedFirmware.Lib.EraseDiscipline
import TrustedFirmware.Lib.Tiling
import TrustedFirmware.Lib.ObjectMap
import TrustedFirmware.Lib.Ring
import TrustedFirmware.Lib.BoundedIteration
import TrustedFirmware.Sst.Config
import TrustedFirmware.Sst.Records
import TrustedFirmware.Sst.Flash
import TrustedFirmware.Sst.Core.Meta
import TrustedFirmware.Sst.Core.Object
import TrustedFirmware.Sst.Core.Store
import TrustedFirmware.Sst.Proofs.Tables
import TrustedFirmware.Sst.Proofs.Reads
import TrustedFirmware.Sst.Proofs.Layout
import TrustedFirmware.Sst.Proofs.Assembly
import TrustedFirmware.Sst.Proofs.Commit
import TrustedFirmware.Sst.Proofs.Create
import TrustedFirmware.Sst.Proofs.Write
import TrustedFirmware.Sst.Proofs.Delete
import TrustedFirmware.Sst.Proofs.Step
import TrustedFirmware.Sst.Proofs.Programs
import TrustedFirmware.Sst.Proofs.Content
import TrustedFirmware.Sst.Proofs.Objects
import TrustedFirmware.Sst.Proofs.Mount
import TrustedFirmware.Sst.Proofs.Wipe
import TrustedFirmware.Sst.Proofs.Settled
import TrustedFirmware.Sst.Proofs.Remount
import TrustedFirmware.Sst.Proofs.Faults
import TrustedFirmware.Lib.FaultAtomicity
import TrustedFirmware.Lib.FaultWitness
import TrustedFirmware.Sst.Proofs.ReadFaults
import TrustedFirmware.Sst.Proofs.Advances
import TrustedFirmware.Sst.Properties.LayoutInvariant
import TrustedFirmware.Sst.Properties.Recovery
import TrustedFirmware.Sst.Properties.Refinement
import TrustedFirmware.Sst.Properties.Durability
import TrustedFirmware.Sst.Properties.Deletion
import TrustedFirmware.Sst.Properties.PowerFailure
import TrustedFirmware.Sst.Properties.EraseBeforeProgram
import TrustedFirmware.Sst.Properties.ProgramUnit
import TrustedFirmware.Sst.Properties.WipeAll
import TrustedFirmware.AuditLog.Core
import TrustedFirmware.AuditLog.Entries
import TrustedFirmware.AuditLog.Runs
import TrustedFirmware.AuditLog.Retrieve
import TrustedFirmware.Lib.LinkedStack
import TrustedFirmware.Spm.Core
import TrustedFirmware.Spm.CallChain
import TrustedFirmware.Spm.Runs
import TrustedFirmware.Spm.Nesting
import TrustedFirmware.Spm.Unregistered
import TrustedFirmware.Spm.Init
import TrustedFirmware.Spm.InitFailure
import TrustedFirmware.Spm.MemoryCheck
import TrustedFirmware.Sst.Assets
import TrustedFirmware.Sst.AssetManagement
import TrustedFirmware.Sst.Proofs.Permissions
import TrustedFirmware.Sst.ObjectSystem
import TrustedFirmware.Sst.Proofs.Buffers
import TrustedFirmware.Sst.Proofs.ObjectLayer
import TrustedFirmware.Sst.ObjectStore
import TrustedFirmware.Sst.Proofs.ObjectCalls
import TrustedFirmware.Sst.Properties.UniqueIds
import TrustedFirmware.Sst.ObjectLock
import TrustedFirmware.Sst.Properties.LockBalance
import TrustedFirmware.Lib.Base64Url
import TrustedFirmware.Jwt.Json
import TrustedFirmware.Jwt.Builder
import TrustedFirmware.Jwt.TokenText
import TrustedFirmware.Jwt.Token
import TrustedFirmware.Jwt.Sign
import TrustedFirmware.Jwt.SignedToken
import TrustedFirmware.Tools.KeywordSubstitution
import TrustedFirmware.Tools.Choices
import TrustedFirmware.Tools.Groups
import TrustedFirmware.Tools.Expansion
import TrustedFirmware.Tools.BrokenLines
import TrustedFirmware.Tools.TemplateExpansion
import TrustedFirmware.Sst.Proofs.AssetStore
import TrustedFirmware.Sst.Properties.ByteArrays
import TrustedFirmware.Sst.Properties.AccessControl
import TrustedFirmware.Sst.Properties.Confidentiality
import TrustedFirmware.Lib.CrashLogic
import TrustedFirmware.Lib.LinearFlash
import TrustedFirmware.Boot.FlashMap
import TrustedFirmware.Boot.Trailer
import TrustedFirmware.Boot.ImageValidate
import TrustedFirmware.Boot.Loader
import TrustedFirmware.Boot.Image
import TrustedFirmware.Boot.Proofs.Areas
import TrustedFirmware.Boot.Proofs.Sectors
import TrustedFirmware.Boot.Proofs.Status
import TrustedFirmware.Boot.Proofs.Trailers
import TrustedFirmware.Boot.Proofs.FreshTrailer
import TrustedFirmware.Boot.Proofs.SwapJob
import TrustedFirmware.Boot.Proofs.SwapStages
import TrustedFirmware.Boot.Proofs.SwapSteps
import TrustedFirmware.Boot.Proofs.SwapLoop
import TrustedFirmware.Boot.Proofs.Images
import TrustedFirmware.Boot.Proofs.BootGo
import TrustedFirmware.Boot.Proofs.Resume
import TrustedFirmware.Boot.Properties.SwapRecovery
import TrustedFirmware.Boot.Proofs.Acceptance
import TrustedFirmware.Boot.Properties.Pss
import TrustedFirmware.Boot.Properties.ValidatedBoot

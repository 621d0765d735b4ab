import SpaceVerifier.Verifier.SpacesVerify
import SpaceVerifier.Metatheory.ConflictFree
import SpaceVerifier.Metatheory.ConflictList
import SpaceVerifier.Metatheory.MemoryPolicy
import SpaceVerifier.Metatheory.DecoderAgreement
import SpaceVerifier.Metatheory.ReaderAgreement
import SpaceVerifier.Metatheory.FixtureRoundTrip
import SpaceVerifier.Metatheory.BitcpyExact
import SpaceVerifier.Metatheory.BitcpyReads
import SpaceVerifier.Metatheory.InitLayout
import SpaceVerifier.Metatheory.Handshake
import SpaceVerifier.Metatheory.InputHandshake
import SpaceVerifier.Metatheory.OutputHandshake
import SpaceVerifier.Metatheory.TickSafety
import SpaceVerifier.Metatheory.TickFrame
import SpaceVerifier.Metatheory.TickDiagnosis
import SpaceVerifier.Metatheory.HookTrace
import SpaceVerifier.Metatheory.HaltAbsorbing
import SpaceVerifier.Metatheory.CodeImmutable
import SpaceVerifier.Metatheory.VerifiedRun
import SpaceVerifier.Metatheory.Rounds
import SpaceVerifier.Metatheory.RoundSemantics
import SpaceVerifier.Metatheory.TraceCheck
import SpaceVerifier.Metatheory.VerifiedRounds
import SpaceVerifier.Metatheory.DrivenRun
import SpaceVerifier.Metatheory.ContractIsolation
import SpaceVerifier.Metatheory.ProgramRoute
import SpaceVerifier.Metatheory.FirstViolation
import SpaceVerifier.Metatheory.ReportMerge
import SpaceVerifier.Metatheory.ReportAccounts
import SpaceVerifier.Metatheory.ShippedConfig
import SpaceVerifier.Metatheory.PolicyOrder
import SpaceVerifier.Metatheory.VerifyThenRun
import SpaceVerifier.Metatheory.ReportRepair
import SpaceVerifier.Metatheory.FixturePipeline
import SpaceVerifier.Metatheory.BootLoader
import SpaceVerifier.Metatheory.LayerChain
import SpaceVerifier.Metatheory.CoreMachine
import SpaceVerifier.Metatheory.HostSession
import SpaceVerifier.Metatheory.InputStream
import SpaceVerifier.Metatheory.Checkpoint
import SpaceVerifier.Metatheory.Reverify
import SpaceVerifier.Metatheory.LoaderVerdict
import SpaceVerifier.Metatheory.EncoderAgreement
import SpaceVerifier.Metatheory.StrictAlign
import SpaceVerifier.Metatheory.AlignDiagnosis
import SpaceVerifier.Metatheory.ExitCodes

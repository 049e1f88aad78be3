import LogPipeline.Intake
import LogPipeline.Main
import LogPipeline.Pipeline.Registry
import LogPipeline.Sync.Gathering
import LogPipeline.Sync.SpinMutex
import LogPipeline.Proofs.SwitchFile
import LogPipeline.Proofs.FinalFlush
import LogPipeline.Proofs.Dump.Lines
import LogPipeline.Proofs.Reconfiguration
import LogPipeline.Proofs.EndOfDumping
import LogPipeline.Proofs.PromptStop
import LogPipeline.Proofs.Cycle
import LogPipeline.Proofs.ThresholdWake
import LogPipeline.Proofs.Event.Protocol
import LogPipeline.Proofs.Archive.Series
import LogPipeline.Proofs.Config.Partial
import LogPipeline.Proofs.Application
import LogPipeline.Proofs.Session.Outcome
import LogPipeline.Proofs.Transcript
import LogPipeline.Proofs.Exclusion
import LogPipeline.Proofs.Retention
import LogPipeline.Proofs.Dump.Cap
import LogPipeline.Proofs.Dump.Rounds
import LogPipeline.Proofs.Archive.Reading
import LogPipeline.Proofs.Queue
import LogPipeline.Proofs.Containment
import LogPipeline.Proofs.Filter
import LogPipeline.Proofs.Markers
import LogPipeline.Proofs.Message
import LogPipeline.Proofs.Acquisition

import EnumNames.Disk.FileTree
import EnumNames.Main
import EnumNames.Schedule.WorkerPool
import EnumNames.Proofs.ClassFile.ClassForm
import EnumNames.Proofs.ClassFile.ClassGrammar
import EnumNames.Proofs.ClassFile.PoolExtension
import EnumNames.Proofs.ClassFile.CodeForm
import EnumNames.Proofs.Bytes.Stands
import EnumNames.Proofs.Bytecode.Decoding
import EnumNames.Proofs.Bytecode.Branch
import EnumNames.Proofs.Bytecode.Emission
import EnumNames.Proofs.Bytecode.Placement
import EnumNames.Proofs.Bytecode.RelocatedCode
import EnumNames.Proofs.Bytecode.SwitchEmission
import EnumNames.Proofs.Bytecode.SwitchForm
import EnumNames.Proofs.EnumUnit.Patching
import EnumNames.Proofs.EnumUnit.RepairedCode
import EnumNames.Proofs.EnumUnit.Observation
import EnumNames.Proofs.EnumUnit.Run
import EnumNames.Proofs.Bytecode.AttributeGrowth
import EnumNames.Proofs.EnumUnit.StaticInitializer
import EnumNames.Proofs.EnumUnit.RepairedAttribute
import EnumNames.Proofs.EnumUnit.RepairedClass
import EnumNames.Proofs.EnumUnit.RepairedNames
import EnumNames.Proofs.EnumUnit.RepairAgain
import EnumNames.Proofs.EnumUnit.RepairFrame
import EnumNames.Proofs.ClassFile.InternedPool
import EnumNames.Proofs.ClassFile.MinimalInterning
import EnumNames.Proofs.EnumUnit.Acceptance
import EnumNames.Proofs.EnumUnit.ConstructionOrder
import EnumNames.Proofs.Bytes.InRange
import EnumNames.Proofs.Bytecode.RelocationOrder
import EnumNames.Proofs.ClassFile.InsideClass
import EnumNames.Proofs.Bytecode.InsideCode
import EnumNames.Proofs.EnumUnit.RepairInRange
import EnumNames.Proofs.Schedule.Forecast
import EnumNames.Proofs.Schedule.Assurance
import EnumNames.Proofs.Schedule.Ownership
import EnumNames.Proofs.Schedule.Handover
import EnumNames.Proofs.Disk.Walk
import EnumNames.Proofs.Disk.Canonical
import EnumNames.Proofs.Disk.Write
import EnumNames.Proofs.Disk.Removal
import EnumNames.Proofs.Run.BackupSteps
import EnumNames.Proofs.Run.Gathering
import EnumNames.Proofs.Run.FirstFailure
import EnumNames.Proofs.Run.SupervisedRun
import EnumNames.Proofs.Run.Undisturbed
import EnumNames.Proofs.Run.AnySchedule
import EnumNames.Proofs.Run.BackupSurvival
import EnumNames.Proofs.Disk.Arrival
import EnumNames.Proofs.Disk.Bystander
import EnumNames.Proofs.Run.Conclusion
import EnumNames.Proofs.Run.FailedRun
import EnumNames.Proofs.EnumUnit.MatchingLiterals
import EnumNames.Proofs.Archive.ReadBack
import EnumNames.Proofs.Text.PlainUtf8
import EnumNames.Proofs.Text.UnitForm
import EnumNames.Proofs.Text.Readings
import EnumNames.Proofs.Text.LoneSurrogate
import EnumNames.Proofs.Text.CanonicalText
import EnumNames.Proofs.Archive.Fields
import EnumNames.Proofs.Archive.WrittenRecord
import EnumNames.Proofs.Archive.StoredBlocks
import EnumNames.Proofs.Archive.WrittenDirectory
import EnumNames.Proofs.Archive.WrittenArchive
import EnumNames.Proofs.Run.Processing
import EnumNames.Proofs.Run.Passthrough
import EnumNames.Proofs.Run.Reproduction
import EnumNames.Proofs.Run.SecondRun
import EnumNames.Proofs.Bytecode.Relocatable
import EnumNames.Proofs.Schedule.Chronicle
import EnumNames.Proofs.Schedule.Completion
import EnumNames.Proofs.Schedule.Roster
import EnumNames.Proofs.Schedule.LostTask
import EnumNames.Proofs.Schedule.Settlement
import EnumNames.Proofs.Run.WaitedFailures
import EnumNames.Proofs.Schedule.Undivided
import EnumNames.Proofs.Schedule.Accounting
import EnumNames.Proofs.Schedule.PoolAgreement
import EnumNames.Proofs.Schedule.Balance
import EnumNames.Proofs.Bytes.FailsWithin
import EnumNames.Proofs.Bytes.Counted
import EnumNames.Proofs.Bytecode.Boundaries
import EnumNames.Proofs.Bytecode.TableRows
import EnumNames.Proofs.Bytecode.FrameForm
import EnumNames.Proofs.Bytecode.MovedRanges
import EnumNames.Proofs.Bytecode.MovedFrames
import EnumNames.Proofs.Bytecode.AttributeOffsets
import EnumNames.Proofs.Bytecode.InstructionText
import EnumNames.Proofs.Bytecode.InPlaceRelocation
import EnumNames.Proofs.ClassFile.FailedInterning
import EnumNames.Proofs.Bytecode.InstructionGrammar
import EnumNames.Proofs.Bytecode.Partition
import EnumNames.Proofs.ClassFile.InternedStrings
import EnumNames.Proofs.EnumUnit.StringGrowth
import EnumNames.Proofs.EnumUnit.ExactNumbers
import EnumNames.Proofs.EnumUnit.FrontOnly
import EnumNames.Proofs.EnumUnit.CodeGrammar
import EnumNames.Proofs.EnumUnit.ChangedBytes
import EnumNames.Proofs.Run.ReportExactness
import EnumNames.Proofs.Disk.PathText
import EnumNames.Proofs.Disk.Directories
import EnumNames.Proofs.Run.Validation
import EnumNames.Proofs.Bytes.WholeReads
import EnumNames.Proofs.EnumUnit.ContinuedFeeding
import EnumNames.Proofs.Bytecode.BoundaryIsomorphism
import EnumNames.Proofs.EnumUnit.UnorderedPatches

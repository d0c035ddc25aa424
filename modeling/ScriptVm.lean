import ScriptVm.Fallible
import ScriptVm.Main
import ScriptVm.Session
import ScriptVm.Proofs.ShapeTrie
import ScriptVm.Proofs.ShapeHistory
import ScriptVm.Proofs.ShapedObject
import ScriptVm.Proofs.ObjectHistory
import ScriptVm.Proofs.PlainCode
import ScriptVm.Proofs.PlainOperations
import ScriptVm.Proofs.PlainInstructions
import ScriptVm.Proofs.Lockstep
import ScriptVm.Proofs.CacheUse
import ScriptVm.Proofs.HostOperations
import ScriptVm.Proofs.CacheTransparency
import ScriptVm.Proofs.StackEffects
import ScriptVm.Proofs.CapturedVariables
import ScriptVm.Proofs.Entries
import ScriptVm.Proofs.StackLayers
import ScriptVm.Proofs.ConfinedRuns
import ScriptVm.Proofs.CallIsolation
import ScriptVm.Proofs.CarefulRuns
import ScriptVm.Proofs.OpenCells
import ScriptVm.Proofs.NamedArguments
import ScriptVm.Proofs.CallsAndRegions
import ScriptVm.Proofs.RequiredParameters
import ScriptVm.Proofs.ProtectedRegions
import ScriptVm.Proofs.CallbackContainment
import ScriptVm.Proofs.TableHistory
import ScriptVm.Proofs.Resemblance
import ScriptVm.Proofs.Mirrors
import ScriptVm.Proofs.MirroredOperations
import ScriptVm.Proofs.MirroredInstructions
import ScriptVm.Proofs.MirroredRuns
import ScriptVm.Proofs.MirroredSessions
import ScriptVm.Proofs.LogLevels
import ScriptVm.Proofs.SuperCalls
import ScriptVm.Proofs.Renumbering
import ScriptVm.Proofs.RenumberedMachines
import ScriptVm.Proofs.FreshMachines
import ScriptVm.Proofs.ScriptsAtRest
import ScriptVm.Proofs.CautiousCode
import ScriptVm.Proofs.CautiousOperations
import ScriptVm.Proofs.FailedInstructions
import ScriptVm.Proofs.InstructionHistory
import ScriptVm.Proofs.ErrorReports
import ScriptVm.Proofs.ConstantFields
import ScriptVm.Proofs.Equality
import ScriptVm.Proofs.ArgumentOrder
import ScriptVm.Proofs.SharedVariables
import ScriptVm.Proofs.ClassReferences
import ScriptVm.Proofs.GroundedWorlds
import ScriptVm.Proofs.GroundedOperations
import ScriptVm.Proofs.GroundedInstructions
import ScriptVm.Proofs.GroundedRuns
import ScriptVm.Proofs.TableNumbers
import ScriptVm.Proofs.ClassChains
import ScriptVm.Proofs.ClassGraph
import ScriptVm.Proofs.SplitTexts
import ScriptVm.Proofs.WorkshopLaws
import ScriptVm.Proofs.FieldLayout
import ScriptVm.Proofs.Iterations
import ScriptVm.Proofs.ClassWrites
import ScriptVm.Proofs.StaticCells
import ScriptVm.Proofs.StaticHistory
import ScriptVm.Proofs.StaticFields
import ScriptVm.Proofs.Operands
import ScriptVm.Proofs.IntegerArithmetic
import ScriptVm.Proofs.SequenceLimits
import ScriptVm.Proofs.Characters
import ScriptVm.Proofs.PatchedJumps
import ScriptVm.Proofs.Transcripts
import ScriptVm.Proofs.Interning
import ScriptVm.Proofs.ConstantPools
import ScriptVm.Proofs.CacheHistory
import ScriptVm.Proofs.ListingLines

import Classmith.ClassFile.Annotation
import Classmith.ClassFile.Basic
import Classmith.ClassFile.Constant
import Classmith.ClassFile.Decode
import Classmith.ClassFile.Encode
import Classmith.ClassFile.Instruction
import Classmith.Collections
import Classmith.Command.Args
import Classmith.Command.Run
import Classmith.Descriptor
import Classmith.Error
import Classmith.Files.Failure
import Classmith.Files.FileError
import Classmith.Files.Loading
import Classmith.Files.Tree
import Classmith.Hierarchy.Basic
import Classmith.Hierarchy.Query
import Classmith.Hierarchy.Subclasses
import Classmith.Json.Basic
import Classmith.Json.Decode
import Classmith.Json.Reader
import Classmith.Json.Writer
import Classmith.Main
import Classmith.Mapping.Basic
import Classmith.Mapping.Tiny
import Classmith.MemberTable
import Classmith.Name
import Classmith.Number.Binary
import Classmith.Number.Numeral
import Classmith.Number.Shortest
import Classmith.Platform
import Classmith.Pool
import Classmith.Proofs.Rename.Mentions
import Classmith.Proofs.Rename.References
import Classmith.Proofs.Signature.Grammar
import Classmith.Proofs.Signature.Renaming
import Classmith.Proofs.Tables
import Classmith.Rename.Inherited
import Classmith.Rename.InnerClasses
import Classmith.Rename.Remapper
import Classmith.Rename.Renaming
import Classmith.Signature.Basic
import Classmith.Signature.Parser
import Classmith.Signature.Rename
import Classmith.Simulation.Effect
import Classmith.Simulation.Fault
import Classmith.Simulation.Frames
import Classmith.Simulation.State
import Classmith.Simulation.Step
import Classmith.Simulation.Value
import Classmith.Simulation.Walk
import Classmith.Table
import Classmith.Text.Blank
import Classmith.Text.Cut
import Classmith.Text.Lines
import Classmith.Proofs.Rename.Members
import Classmith.Proofs.Hierarchy.Subclasses
import Classmith.Proofs.Rename.Inheritance
import Classmith.Proofs.Descriptors
import Classmith.Proofs.Rename.Undoing
import Classmith.Proofs.Mapping.Registering
import Classmith.Proofs.Mapping.RoundTrip
import Classmith.Proofs.Simulation.Renaming
import Classmith.Proofs.Simulation.Tracking
import Classmith.Proofs.Simulation.Steps
import Classmith.Proofs.Simulation.Walks
import Classmith.Proofs.Signature.Substitution
import Classmith.Proofs.Rename.Operations
import Classmith.Proofs.Rename.Propagation
import Classmith.Proofs.Simulation.Profiles
import Classmith.Proofs.Simulation.Declarations
import Classmith.Proofs.Simulation.Expansion
import Classmith.Proofs.Hierarchy.Closures
import Classmith.Proofs.Hierarchy.Memory
import Classmith.Proofs.Hierarchy.Assignability
import Classmith.Proofs.Hierarchy.Joins
import Classmith.Proofs.Pools
import Classmith.Proofs.Hierarchy.Correspondence
import Classmith.Proofs.Hierarchy.Renaming
import Classmith.Proofs.Simulation.Shuffles
import Classmith.Proofs.Simulation.Reach
import Classmith.Proofs.Simulation.Locals
import Classmith.Proofs.Simulation.Placeholders
import Classmith.Proofs.Simulation.Integers
import Classmith.Proofs.Simulation.Origins
import Classmith.Proofs.Signature.BinaryNames
import Classmith.Proofs.Rename.Freshness
import Classmith.Proofs.Mapping.Reversing
import Classmith.Proofs.Text
import Classmith.Proofs.Signature.Characters
import Classmith.Proofs.Mapping.Written
import Classmith.Proofs.ClassFile.RoundTrip
import Classmith.Proofs.Json.Reading
import Classmith.Proofs.Command.Remap
import Classmith.Proofs.PoolOperations
import Classmith.Proofs.Rename.Visibility
import Classmith.Proofs.Simulation.Accesses
import Classmith.Proofs.Simulation.Identities
import Classmith.Proofs.Rename.Untouched
import Classmith.Proofs.Rename.InnerNames
import Classmith.Proofs.Hierarchy.Totals
import Classmith.Proofs.Collections.Trackers
import Classmith.Proofs.Collections.Guesses
import Classmith.Proofs.Collections.Orders
import Classmith.Proofs.Hierarchy.Rounds
import Classmith.Proofs.Hierarchy.Searches
import Classmith.Proofs.Hierarchy.Chains
import Classmith.Proofs.Hierarchy.Gaps
import Classmith.Proofs.Rename.Following
import Classmith.Proofs.Rename.Collisions
import Classmith.Proofs.MemberOperations
import Classmith.Proofs.DescriptorGrammar
import Classmith.Proofs.Simulation.Layouts
import Classmith.Proofs.Simulation.StackPrograms
import Classmith.Proofs.Simulation.StackTops
import Classmith.Proofs.Simulation.Entries
import Classmith.Proofs.Mapping.Contradictions
import Classmith.Proofs.Collections.ReturnTypes
import Classmith.Proofs.Hierarchy.Descents
import Classmith.Proofs.Simulation.DeclaredSlots

import ControlFiles.Text.Blank
import ControlFiles.Text.Basic
import ControlFiles.Text.CaseTable
import ControlFiles.Text.Case
import ControlFiles.Text.Replace
import ControlFiles.Number.Binary64
import ControlFiles.Number.Shortest
import ControlFiles.Digest
import ControlFiles.Path
import ControlFiles.Glob
import ControlFiles.Table
import ControlFiles.Template
import ControlFiles.Variables
import ControlFiles.Scope
import ControlFiles.Layer
import ControlFiles.Kind
import ControlFiles.Line
import ControlFiles.Fault
import ControlFiles.Statement
import ControlFiles.Block.Stack
import ControlFiles.ControlFile.Read
import ControlFiles.ControlFile.Write
import ControlFiles.ControlFile.Names
import ControlFiles.ControlFile.Load
import ControlFiles.ControlFile.Variants
import ControlFiles.ControlFile.Edit
import ControlFiles.ControlFile.Version
import ControlFiles.Run.Events
import ControlFiles.Run.Arguments
import ControlFiles.Run.Context
import ControlFiles.Run.Fault
import ControlFiles.Run.State
import ControlFiles.Run.Resolve
import ControlFiles.Arrangement
import ControlFiles.Files.Access
import ControlFiles.Files.Store
import ControlFiles.Files.Walk
import ControlFiles.Files.Disk
import ControlFiles.Profile.Token
import ControlFiles.Profile.Read
import ControlFiles.Profile.Context
import ControlFiles.Output.Json
import ControlFiles.Output.Encode
import ControlFiles.Program.Invocation
import ControlFiles.Program.Perform
import ControlFiles.Main
import ControlFiles.Reference.Search
import ControlFiles.Reference.Assignment
import ControlFiles.Proofs.Except
import ControlFiles.Proofs.Block.Outline
import ControlFiles.Proofs.Text.Parts
import ControlFiles.Proofs.Block.Reading
import ControlFiles.Proofs.ControlFile.Statements
import ControlFiles.Proofs.Scope
import ControlFiles.Proofs.Run.Branching
import ControlFiles.Proofs.Text.Tokens
import ControlFiles.Proofs.Run.Resolution
import ControlFiles.Proofs.Run.Tokens
import ControlFiles.Proofs.Block.Levels
import ControlFiles.Proofs.Block.Pruning
import ControlFiles.Proofs.ControlFile.Writing
import ControlFiles.Proofs.ControlFile.WrittenOutline
import ControlFiles.Proofs.ControlFile.RoundTrip
import ControlFiles.Proofs.Block.Headers
import ControlFiles.Proofs.Block.Reopening
import ControlFiles.Proofs.ControlFile.Rereading
import ControlFiles.Proofs.Run.Exclusion
import ControlFiles.Proofs.Run.Removal
import ControlFiles.Proofs.ControlFile.Undoing
import ControlFiles.Proofs.Run.Inactive
import ControlFiles.Proofs.Block.Spans
import ControlFiles.Proofs.Run.Exclusive
import ControlFiles.Proofs.Block.Generated
import ControlFiles.Proofs.Block.Sourceless
import ControlFiles.Proofs.Block.Following
import ControlFiles.Proofs.ControlFile.Moving
import ControlFiles.Proofs.ControlFile.Mirroring
import ControlFiles.Proofs.ControlFile.Regenerated
import ControlFiles.Proofs.ControlFile.Grammar
import ControlFiles.Proofs.Files.Store
import ControlFiles.Proofs.ControlFile.Loading
import ControlFiles.Proofs.ControlFile.Chains
import ControlFiles.Proofs.ControlFile.Findings
import ControlFiles.Proofs.Path
import ControlFiles.Proofs.Glob
import ControlFiles.Proofs.Reference.Pattern
import ControlFiles.Proofs.Reference.Searching
import ControlFiles.Proofs.Run.Visiting
import ControlFiles.Proofs.Run.Selecting
import ControlFiles.Proofs.ControlFile.HeaderLines
import ControlFiles.Proofs.ControlFile.LostLines
import ControlFiles.Proofs.Run.Confinement
import ControlFiles.Proofs.Run.Reading
import ControlFiles.Proofs.Run.Assigning
import ControlFiles.Proofs.Arrangement
import ControlFiles.Proofs.Reference.Values
import ControlFiles.Proofs.Reference.Assigning
import ControlFiles.Proofs.Glob.Exact
import ControlFiles.Proofs.Reference.Known
import ControlFiles.Proofs.Path.Below
import ControlFiles.Proofs.Run.Naming
import ControlFiles.Proofs.Run.Lookup
import ControlFiles.Proofs.Reference.Binding
import ControlFiles.Proofs.Glob.Forms
import ControlFiles.Proofs.Reference.Confined
import ControlFiles.Proofs.ControlFile.Variants
import ControlFiles.Proofs.Text.Numerals
import ControlFiles.Proofs.Path.FileNames
import ControlFiles.Proofs.ControlFile.Versions
import ControlFiles.Proofs.Run.Events
import ControlFiles.Proofs.Run.Extending
import ControlFiles.Proofs.Line.Composing
import ControlFiles.Proofs.ControlFile.Rewording
import ControlFiles.Proofs.ControlFile.Updating
import ControlFiles.Proofs.ControlFile.Exchanging
import ControlFiles.Proofs.ControlFile.CommentedOut
import ControlFiles.Proofs.Block.Refusing
import ControlFiles.Proofs.ControlFile.Identities
import ControlFiles.Proofs.Run.Arguments
import ControlFiles.Proofs.Block.Mentions
import ControlFiles.Proofs.ControlFile.Names
import ControlFiles.Proofs.Path.Keys
import ControlFiles.Proofs.Run.Layers
import ControlFiles.Proofs.Scope.Exploding
import ControlFiles.Proofs.Run.BareFlags
import ControlFiles.Proofs.Path.Stepwise
import ControlFiles.Proofs.Text.SpelledOut
import ControlFiles.Proofs.Text.Bytes
import ControlFiles.Proofs.Text.Replacing

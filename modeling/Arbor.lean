import Arbor.Attributes
import Arbor.Build.Cache
import Arbor.Build.Compiler
import Arbor.Build.Config
import Arbor.Build.Disk
import Arbor.Build.Error
import Arbor.Build.Path
import Arbor.Build.Project
import Arbor.Build.Session
import Arbor.CType.Basic
import Arbor.CType.Conversion
import Arbor.Command.Options
import Arbor.Command.Run
import Arbor.Decimal.Notation
import Arbor.Decimal.Shortest
import Arbor.Document.CType
import Arbor.Document.Node
import Arbor.Document.Record
import Arbor.Document.Tree
import Arbor.Document.Value
import Arbor.Floating
import Arbor.Fold
import Arbor.Hash.Sha256
import Arbor.Json.Basic
import Arbor.Json.Numeral
import Arbor.Json.Reader
import Arbor.Json.Writer
import Arbor.Link.Call
import Arbor.Link.Library
import Arbor.Link.Module
import Arbor.Main
import Arbor.Node
import Arbor.Operator
import Arbor.Registry
import Arbor.Render.Literal
import Arbor.Render.Parens
import Arbor.Render.Rules
import Arbor.Render.Source
import Arbor.Table
import Arbor.Text.Blank
import Arbor.Text.Printable
import Arbor.Text.Quoted
import Arbor.Tree.Basic
import Arbor.Tree.Builder
import Arbor.Tree.Edit
import Arbor.Tree.Walk
import Arbor.Tree.WellFormed
import Arbor.Typing.Declare
import Arbor.Typing.Infer
import Arbor.Typing.Scope
import Arbor.Value
import Arbor.Proofs.Sequences
import Arbor.Proofs.Region
import Arbor.Proofs.Validation
import Arbor.Proofs.Slots
import Arbor.Proofs.RebuiltLinks
import Arbor.Proofs.ParentLinks
import Arbor.Proofs.Levels
import Arbor.Proofs.Acyclic
import Arbor.Proofs.Spelling
import Arbor.Proofs.Rendering
import Arbor.Proofs.Renumbering
import Arbor.Proofs.Annotation
import Arbor.Proofs.Grammar.Expression
import Arbor.Proofs.Grammar.Printed
import Arbor.Proofs.ReadBack
import Arbor.Proofs.Grammar.Statement
import Arbor.Proofs.StatementsReadBack
import Arbor.Proofs.JsonText
import Arbor.Proofs.Document
import Arbor.Proofs.Reload
import Arbor.Proofs.Visit
import Arbor.Proofs.WriteOnce
import Arbor.Proofs.Identity
import Arbor.Proofs.DeclarationOrder
import Arbor.Proofs.UnitFiles
import Arbor.Proofs.Freshness
import Arbor.Proofs.Refill
import Arbor.Proofs.Recompile
import Arbor.Proofs.SlotEdits
import Arbor.Proofs.Rebuilds
import Arbor.Proofs.FailedBuild
import Arbor.Proofs.Copying
import Arbor.Proofs.FoldRules
import Arbor.Proofs.FoldedEffects
import Arbor.Proofs.FoldedType
import Arbor.Proofs.FoldedValue
import Arbor.Proofs.StringLiteral
import Arbor.Proofs.SoundTerm
import Arbor.Proofs.FoldedRegion
import Arbor.Proofs.NormalForm
import Arbor.Proofs.FillFrame
import Arbor.Proofs.Binding
import Arbor.Proofs.IdIndependence
import Arbor.Proofs.SingleDeclaration
import Arbor.Proofs.Grammar.Brackets
import Arbor.Proofs.StatementPosition
import Arbor.Proofs.Grammar.Parts
import Arbor.Proofs.Grammar.Outline
import Arbor.Proofs.Grammar.MissingParens
import Arbor.Proofs.NodeLayout
import Arbor.Proofs.MinimalParens
import Arbor.Proofs.IndependentCopy
import Arbor.Proofs.Declarator
import Arbor.Tree.InPlace
import Arbor.Proofs.RejectedEdits
import Arbor.Proofs.ParallelAssignment
import Arbor.Proofs.PinnedArtifacts
import Arbor.Proofs.ClosingState
import Arbor.Proofs.CallTypes
import Arbor.Proofs.UnboundReads
import Arbor.Proofs.Grammar.Comments
import Arbor.Proofs.CommentedStatements
import Arbor.Proofs.ArgumentPassing
import Arbor.Proofs.TypeSpelling
import Arbor.Proofs.UnitFrame
import Arbor.Proofs.GeneratedNames
import Arbor.Proofs.IntegerResults
import Arbor.Proofs.WalkOrder
import Arbor.Proofs.Registrations
import Arbor.Proofs.SettingLayers
import Arbor.Proofs.IntegerLiteral

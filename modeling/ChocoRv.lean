import ChocoRv.Analysis.Basic
import ChocoRv.Analysis.Declarations
import ChocoRv.Analysis.Typing
import ChocoRv.Asm.Basic
import ChocoRv.Asm.Check
import ChocoRv.Asm.Listing
import ChocoRv.Asm.Pool
import ChocoRv.Codegen.ClassLayout
import ChocoRv.Codegen.Emit
import ChocoRv.Codegen.Expr
import ChocoRv.Codegen.Frame
import ChocoRv.Codegen.Program
import ChocoRv.Codegen.Stmt
import ChocoRv.CommandLine
import ChocoRv.Compiler
import ChocoRv.Config.Basic
import ChocoRv.Config.Read
import ChocoRv.Diagnostic
import ChocoRv.Files
import ChocoRv.Main
import ChocoRv.Markdown.Basic
import ChocoRv.Markdown.Blocks
import ChocoRv.Markdown.Emphasis
import ChocoRv.Markdown.Html
import ChocoRv.Markdown.Inline
import ChocoRv.Markdown.Leaf
import ChocoRv.Markdown.Link
import ChocoRv.Number.Double
import ChocoRv.Parser.Basic
import ChocoRv.Parser.Expr
import ChocoRv.Parser.Precedence
import ChocoRv.Parser.Program
import ChocoRv.Parser.Stmt
import ChocoRv.Proofs.Acceptance
import ChocoRv.Proofs.Accepted
import ChocoRv.Proofs.ArgumentPassing
import ChocoRv.Proofs.Assignability
import ChocoRv.Proofs.BlockStructure
import ChocoRv.Proofs.Boxing
import ChocoRv.Proofs.CallCode
import ChocoRv.Proofs.CallSites
import ChocoRv.Proofs.CallSteps
import ChocoRv.Proofs.Callees
import ChocoRv.Proofs.CallingConvention
import ChocoRv.Proofs.Chains
import ChocoRv.Proofs.Checking
import ChocoRv.Proofs.CheckingPrograms
import ChocoRv.Proofs.ClassLayouts
import ChocoRv.Proofs.ClassTree
import ChocoRv.Proofs.CleanDeclarations
import ChocoRv.Proofs.Climbing
import ChocoRv.Proofs.Comments
import ChocoRv.Proofs.ConstantPool
import ChocoRv.Proofs.Constants
import ChocoRv.Proofs.Contexts
import ChocoRv.Proofs.ControlFlow
import ChocoRv.Proofs.Conversions
import ChocoRv.Proofs.CoreExprs
import ChocoRv.Proofs.CoreLanguage
import ChocoRv.Proofs.CorePreservation
import ChocoRv.Proofs.CoreRuns
import ChocoRv.Proofs.CoreStmts
import ChocoRv.Proofs.CoreWords
import ChocoRv.Proofs.DataSection
import ChocoRv.Proofs.Decimals
import ChocoRv.Proofs.Declared
import ChocoRv.Proofs.Deliveries
import ChocoRv.Proofs.Deriving
import ChocoRv.Proofs.Dispatch
import ChocoRv.Proofs.Displacement
import ChocoRv.Proofs.DumpReaders
import ChocoRv.Proofs.DumpShapes
import ChocoRv.Proofs.Dumps
import ChocoRv.Proofs.Emitting
import ChocoRv.Proofs.Erasure
import ChocoRv.Proofs.Extraction
import ChocoRv.Proofs.Faults
import ChocoRv.Proofs.Finishing
import ChocoRv.Proofs.FloorDivision
import ChocoRv.Proofs.FrameCode
import ChocoRv.Proofs.FrameSlots
import ChocoRv.Proofs.FreshLabels
import ChocoRv.Proofs.Generation
import ChocoRv.Proofs.Grammar
import ChocoRv.Proofs.Grouping
import ChocoRv.Proofs.ImplicitReturns
import ChocoRv.Proofs.Indentation
import ChocoRv.Proofs.Inheritance
import ChocoRv.Proofs.Joins
import ChocoRv.Proofs.Labels
import ChocoRv.Proofs.LayoutNoise
import ChocoRv.Proofs.Lexemes
import ChocoRv.Proofs.Lexical
import ChocoRv.Proofs.Lines
import ChocoRv.Proofs.Linking
import ChocoRv.Proofs.Listings
import ChocoRv.Proofs.Lookahead
import ChocoRv.Proofs.Machine
import ChocoRv.Proofs.Meanings
import ChocoRv.Proofs.Nesting
import ChocoRv.Proofs.Nonlocals
import ChocoRv.Proofs.ObjectLayouts
import ChocoRv.Proofs.Offside
import ChocoRv.Proofs.OrderIndependence
import ChocoRv.Proofs.Overriding
import ChocoRv.Proofs.Places
import ChocoRv.Proofs.Progress
import ChocoRv.Proofs.Quoting
import ChocoRv.Proofs.Recognition
import ChocoRv.Proofs.ReorderedScopes
import ChocoRv.Proofs.Reordering
import ChocoRv.Proofs.Representations
import ChocoRv.Proofs.ReturnPaths
import ChocoRv.Proofs.Routines
import ChocoRv.Proofs.SExpressions
import ChocoRv.Proofs.Scanning
import ChocoRv.Proofs.ScopeAgreement
import ChocoRv.Proofs.Segments
import ChocoRv.Proofs.Sites
import ChocoRv.Proofs.Slots
import ChocoRv.Proofs.StackDiscipline
import ChocoRv.Proofs.StackWrites
import ChocoRv.Proofs.StaticLinks
import ChocoRv.Proofs.Steady
import ChocoRv.Proofs.Subtyping
import ChocoRv.Proofs.Totality
import ChocoRv.Proofs.Trails
import ChocoRv.Proofs.Typed
import ChocoRv.Proofs.Units
import ChocoRv.Proofs.Walks
import ChocoRv.Proofs.WellDeclared
import ChocoRv.Scope
import ChocoRv.Scope.Forest
import ChocoRv.TestCase
import ChocoRv.Text.Basic
import ChocoRv.Text.Class
import ChocoRv.Text.Fold
import ChocoRv.Text.Graphic
import ChocoRv.Text.Printable
import ChocoRv.Text.Punctuation
import ChocoRv.Text.Quoted
import ChocoRv.Text.Trim
import ChocoRv.Token.Basic
import ChocoRv.Token.Lexer
import ChocoRv.Tree.Basic
import ChocoRv.Tree.Dump
import ChocoRv.Tree.Slot
import ChocoRv.Tree.Walk
import ChocoRv.Ty.Basic
import ChocoRv.Ty.Hierarchy
import ChocoRv.Yaml.Decode
import ChocoRv.Yaml.Error
import ChocoRv.Yaml.Node.Basic
import ChocoRv.Yaml.Node.Parse
import ChocoRv.Yaml.Scalar
import ChocoRv.Yaml.Scalar.Date
import ChocoRv.Yaml.Scalar.Number
import ChocoRv.Yaml.Text
import ChocoRv.Yaml.Token.Basic
import ChocoRv.Yaml.Token.Next
import ChocoRv.Yaml.Token.Property
import ChocoRv.Yaml.Token.Scalar
import ChocoRv.Yaml.Token.Scanner
import ChocoRv.Yaml.Token.Space
import ChocoRv.Yaml.Value

import FacadeStubs.Analysis
import FacadeStubs.Candidate
import FacadeStubs.ClassIndex
import FacadeStubs.CommandLine.Arguments
import FacadeStubs.CommandLine.Program
import FacadeStubs.CommandLine.Template
import FacadeStubs.Config
import FacadeStubs.ConfigFile
import FacadeStubs.Decimal.Integer
import FacadeStubs.Decimal.Number
import FacadeStubs.Decimal.Shortest
import FacadeStubs.Declaration
import FacadeStubs.Error
import FacadeStubs.Export.Fold
import FacadeStubs.Export.Scalar
import FacadeStubs.Export.Text
import FacadeStubs.Facade
import FacadeStubs.FileTree.Basic
import FacadeStubs.FileTree.Changes
import FacadeStubs.FileTree.Disk
import FacadeStubs.Generation
import FacadeStubs.Glob.Match
import FacadeStubs.Glob.Pattern
import FacadeStubs.Literal
import FacadeStubs.Main
import FacadeStubs.NameScope
import FacadeStubs.Path
import FacadeStubs.Php.Arrays
import FacadeStubs.Php.Constant
import FacadeStubs.Php.Declarations
import FacadeStubs.Php.Expression
import FacadeStubs.Php.Heredoc
import FacadeStubs.Php.Lexical
import FacadeStubs.Php.Notation
import FacadeStubs.Php.Objects
import FacadeStubs.Php.Operand
import FacadeStubs.Php.Operators
import FacadeStubs.Php.Parameters
import FacadeStubs.Php.Parse
import FacadeStubs.Php.Reader
import FacadeStubs.Php.Reference
import FacadeStubs.Php.Statement
import FacadeStubs.Php.Strings
import FacadeStubs.Php.Tree
import FacadeStubs.Php.Types
import FacadeStubs.Php.Variables
import FacadeStubs.Proofs.Decimal.Digits
import FacadeStubs.Proofs.Export.ArrayKeys
import FacadeStubs.Proofs.Export.ArrayRereading
import FacadeStubs.Proofs.Export.ArrayText
import FacadeStubs.Proofs.Export.Defaults
import FacadeStubs.Proofs.Export.Entries
import FacadeStubs.Proofs.Export.Exactness
import FacadeStubs.Proofs.Export.Grouping
import FacadeStubs.Proofs.Export.Kept
import FacadeStubs.Proofs.Export.Maps
import FacadeStubs.Proofs.Export.Meaning
import FacadeStubs.Proofs.Export.Numbering
import FacadeStubs.Proofs.Export.Parentheses
import FacadeStubs.Proofs.Export.Rereading
import FacadeStubs.Proofs.Export.Restarts
import FacadeStubs.Proofs.Export.Scalars
import FacadeStubs.Proofs.Export.Termination
import FacadeStubs.Proofs.Facts.ClassWords
import FacadeStubs.Proofs.Facts.Namespaces
import FacadeStubs.Proofs.Facts.Placement
import FacadeStubs.Proofs.FailedRun
import FacadeStubs.Proofs.FileTree.Operations
import FacadeStubs.Proofs.FileTree.Routes
import FacadeStubs.Proofs.FileTree.Sight
import FacadeStubs.Proofs.FileTree.Walk
import FacadeStubs.Proofs.Index.Additions
import FacadeStubs.Proofs.Index.Growth
import FacadeStubs.Proofs.Index.Likeness
import FacadeStubs.Proofs.InheritedAccessor
import FacadeStubs.Proofs.Keys
import FacadeStubs.Proofs.Layout.Declarations
import FacadeStubs.Proofs.Layout.Expressions
import FacadeStubs.Proofs.Layout.Parameters
import FacadeStubs.Proofs.Layout.Rules
import FacadeStubs.Proofs.Layout.Statements
import FacadeStubs.Proofs.MethodTable
import FacadeStubs.Proofs.MissingNames
import FacadeStubs.Proofs.Names.Comments
import FacadeStubs.Proofs.Names.Disturbance
import FacadeStubs.Proofs.Names.NotedClauses
import FacadeStubs.Proofs.Names.NotedGroups
import FacadeStubs.Proofs.Names.NotedLists
import FacadeStubs.Proofs.Names.Reading
import FacadeStubs.Proofs.Names.Resolution
import FacadeStubs.Proofs.Names.Syntax
import FacadeStubs.Proofs.Names.Written
import FacadeStubs.Proofs.Reader.Arrays
import FacadeStubs.Proofs.Reader.Atoms
import FacadeStubs.Proofs.Reader.Calls
import FacadeStubs.Proofs.Reader.Classes
import FacadeStubs.Proofs.Reader.Constants
import FacadeStubs.Proofs.Reader.Files
import FacadeStubs.Proofs.Reader.Methods
import FacadeStubs.Proofs.Reader.Operands
import FacadeStubs.Proofs.Reader.Operations
import FacadeStubs.Proofs.Reader.Parts
import FacadeStubs.Proofs.Reader.Reading
import FacadeStubs.Proofs.Reader.Regrouping
import FacadeStubs.Proofs.Reader.Rows
import FacadeStubs.Proofs.Reader.Runs
import FacadeStubs.Proofs.Reader.Steps
import FacadeStubs.Proofs.Reader.Tokens
import FacadeStubs.Proofs.Reader.TypeShapes
import FacadeStubs.Proofs.Reader.Types
import FacadeStubs.Proofs.Run.Autowiring
import FacadeStubs.Proofs.Run.Decision
import FacadeStubs.Proofs.Run.Facts
import FacadeStubs.Proofs.Run.Grouping
import FacadeStubs.Proofs.Run.Helper
import FacadeStubs.Proofs.Run.Rerun
import FacadeStubs.Proofs.SelfBinding
import FacadeStubs.Proofs.Stub.Drafts
import FacadeStubs.Proofs.Stub.Layout
import FacadeStubs.Proofs.Stub.RelativeTypes
import FacadeStubs.Proofs.Stub.ReturnTypes
import FacadeStubs.Proofs.Stub.Signatures
import FacadeStubs.Proofs.Supertypes
import FacadeStubs.Proofs.Text.ByteOrder
import FacadeStubs.Proofs.Text.Utf8
import FacadeStubs.Proofs.Worklist
import FacadeStubs.Registry
import FacadeStubs.ReportText
import FacadeStubs.Scan
import FacadeStubs.Stub.Basic
import FacadeStubs.Stub.Writer
import FacadeStubs.Text.Blank
import FacadeStubs.Text.Quoted
import FacadeStubs.Text.Segments
import FacadeStubs.Text.Utf8
import FacadeStubs.Text.Word
import FacadeStubs.TypeHint
import FacadeStubs.Yaml.Node
import FacadeStubs.Yaml.Scalar
import FacadeStubs.Yaml.Text
import FacadeStubs.Yaml.Token
import FacadeStubs.Proofs.Index.InterfaceMethods
import FacadeStubs.Proofs.Run.Writing
import FacadeStubs.Proofs.CandidateGuess
import FacadeStubs.Proofs.Run.ProperTrees
import FacadeStubs.Proofs.Notation.Integers
import FacadeStubs.Proofs.Notation.Escapes
import FacadeStubs.Proofs.Facts.Rewriting
import FacadeStubs.Proofs.Facts.Interpolation
import FacadeStubs.Proofs.ReferenceDepth

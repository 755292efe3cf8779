import BatchCompiler.CommandLine
import BatchCompiler.Compile
import BatchCompiler.Error
import BatchCompiler.Files.IoError
import BatchCompiler.Files.Path
import BatchCompiler.Files.Tree
import BatchCompiler.Generate.Array
import BatchCompiler.Generate.Assignment
import BatchCompiler.Generate.Builtin
import BatchCompiler.Generate.Control
import BatchCompiler.Generate.Include
import BatchCompiler.Generate.Node
import BatchCompiler.Generate.Operator
import BatchCompiler.Generate.Part
import BatchCompiler.Generate.Routine
import BatchCompiler.Generate.State
import BatchCompiler.Integer
import BatchCompiler.Main
import BatchCompiler.Parse.Cursor
import BatchCompiler.Parse.Grammar
import BatchCompiler.Proofs.Action
import BatchCompiler.Proofs.Compilation
import BatchCompiler.Proofs.Contract
import BatchCompiler.Proofs.Cursor
import BatchCompiler.Proofs.Growth
import BatchCompiler.Proofs.IntegerExpression
import BatchCompiler.Proofs.Isolation
import BatchCompiler.Proofs.Label
import BatchCompiler.Proofs.Lexeme
import BatchCompiler.Proofs.Likeness
import BatchCompiler.Proofs.Naming
import BatchCompiler.Proofs.Nesting
import BatchCompiler.Proofs.Operand
import BatchCompiler.Proofs.Overwrite
import BatchCompiler.Proofs.Printing
import BatchCompiler.Proofs.Reading
import BatchCompiler.Proofs.Relocation
import BatchCompiler.Proofs.Scoping
import BatchCompiler.Proofs.Separator
import BatchCompiler.Proofs.Sequel
import BatchCompiler.Proofs.Shell
import BatchCompiler.Proofs.Spelling
import BatchCompiler.Proofs.Splice
import BatchCompiler.Proofs.Stack
import BatchCompiler.Proofs.Structure
import BatchCompiler.Proofs.Template
import BatchCompiler.Scope.Chain
import BatchCompiler.Scope.Variable
import BatchCompiler.Script.Line
import BatchCompiler.Script.Name
import BatchCompiler.Script.Segments
import BatchCompiler.Script.Text
import BatchCompiler.Source.Location
import BatchCompiler.Source.Offset
import BatchCompiler.Token.Basic
import BatchCompiler.Token.Quoted
import BatchCompiler.Token.Scan
import BatchCompiler.Tree.Fold
import BatchCompiler.Tree.Node
import BatchCompiler.Tree.Operator
import BatchCompiler.Proofs.Coupling
import BatchCompiler.Proofs.Raising
import BatchCompiler.Proofs.Layout
import BatchCompiler.Proofs.Folding
import BatchCompiler.Proofs.Builtin
import BatchCompiler.Proofs.Definition
import BatchCompiler.Proofs.Effect
import BatchCompiler.Proofs.Ledger
import BatchCompiler.Proofs.Typing
import BatchCompiler.Proofs.Parameter
import BatchCompiler.Proofs.Munch
import BatchCompiler.Proofs.Lvalue
import BatchCompiler.Proofs.LineBreak
import BatchCompiler.Proofs.ValidPrefix
import BatchCompiler.Proofs.NormalForm
import BatchCompiler.Proofs.Respacing
import BatchCompiler.Proofs.Concatenation
import BatchCompiler.Proofs.Literal
import BatchCompiler.Proofs.Constant
import BatchCompiler.Proofs.Progress
import BatchCompiler.Proofs.Position
import BatchCompiler.Proofs.Escaping
import BatchCompiler.Proofs.History
import BatchCompiler.Proofs.Trace
import BatchCompiler.Proofs.Freshness

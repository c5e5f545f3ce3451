import Lox.CommandLine
import Lox.Disk
import Lox.Machine.Stock
import Lox.Main
import Lox.Proofs.Machine.VariantStep
import Lox.Proofs.Scope.Relabel
import Lox.Proofs.Session.Agreement
import Lox.Proofs.Session.LexicalScope
import Lox.Proofs.Token.Newline
import Lox.Value.Describe
import Lox.Proofs.Machine.CallDepth
import Lox.Proofs.Parse.Relabel
import Lox.Proofs.Session.Restored
import Lox.Proofs.Machine.VariantRun
import Lox.Proofs.Session.Renaming
import Lox.Proofs.Session.Rejected
import Lox.Proofs.Machine.Execution
import Lox.Proofs.Session.Concatenation
import Lox.Proofs.Session.File
import Lox.Proofs.Grammar.Regular
import Lox.Proofs.Scope.Legal
import Lox.Proofs.Dispatch.Basic
import Lox.Proofs.Dispatch.Place
import Lox.Proofs.Dispatch.Step
import Lox.Proofs.Session.Dispatch
import Lox.Proofs.Scope.Innermost
import Lox.Proofs.Token.Lexeme
import Lox.Proofs.Token.Partition
import Lox.Proofs.Machine.Awaited
import Lox.Proofs.Scope.Premature
import Lox.Proofs.Heap.Basic
import Lox.Proofs.Heap.Step
import Lox.Proofs.Session.Undefined
import Lox.Proofs.Session.Heap
import Lox.Proofs.Machine.Printed
import Lox.Proofs.Session.FullSink
import Lox.Proofs.Parse.Cursor
import Lox.Proofs.Parse.FirstMissing
import Lox.Proofs.Loop.Desugared
import Lox.Proofs.Scope.Findings
import Lox.Proofs.Scope.Resolver
import Lox.Proofs.Store.Chain
import Lox.Proofs.Session.ClassDeclaration
import Lox.Proofs.Machine.Return
import Lox.Proofs.Session.Moment
import Lox.Proofs.Session.Construction
import Lox.Proofs.Token.Lines
import Lox.Proofs.Token.Rescan
import Lox.Proofs.Session.SourceLines
import Lox.Proofs.Scope.Returning
import Lox.Proofs.Machine.Orderly
import Lox.Proofs.Machine.Returning
import Lox.Proofs.Session.Returning
import Lox.Proofs.Parse.Fresh
import Lox.Proofs.Number.Nearest
import Lox.Proofs.Number.Numeral
import Lox.Proofs.Grammar.Spelled
import Lox.Proofs.Number.Display
import Lox.Proofs.Tree.Form
import Lox.Proofs.Tree.Reading

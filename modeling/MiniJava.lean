import MiniJava.Text.Blank
import MiniJava.Text.Bytes
import MiniJava.Text.Decimal
import MiniJava.Text.Numeral
import MiniJava.Text.Printable
import MiniJava.Text.Quoted
import MiniJava.Source.Message
import MiniJava.Source.Span
import MiniJava.Token.Scan
import MiniJava.Token.Scanner
import MiniJava.Token.Symbol
import MiniJava.Syntax.Dump
import MiniJava.Syntax.Library
import MiniJava.Syntax.Outline
import MiniJava.Syntax.Parser
import MiniJava.Syntax.Precedence
import MiniJava.Syntax.Shape
import MiniJava.Syntax.Site
import MiniJava.Syntax.Tree
import MiniJava.Syntax.Walk
import MiniJava.Scope.Resolve
import MiniJava.Scope.Journal
import MiniJava.Scope.Table
import MiniJava.Scope.Unbound
import MiniJava.Typing.Check
import MiniJava.Typing.Ty
import MiniJava.Machine.Channel
import MiniJava.Machine.Instr
import MiniJava.Machine.State
import MiniJava.Machine.Step
import MiniJava.Machine.Word
import MiniJava.Listing.Assembly
import MiniJava.Listing.Operand
import MiniJava.Listing.Print
import MiniJava.Object.File
import MiniJava.Layout.Classes
import MiniJava.Layout.Frame
import MiniJava.Generate.Item
import MiniJava.Generate.Phrase
import MiniJava.Generate.Program
import MiniJava.Generate.Emit
import MiniJava.Compile
import MiniJava.Command.Files
import MiniJava.Command.Flags
import MiniJava.Command.Host
import MiniJava.Command.Tools
import MiniJava.Main
import MiniJava.Proofs.Sequence
import MiniJava.Proofs.Scope.Setting
import MiniJava.Proofs.Scope.Lexical
import MiniJava.Proofs.Scope.Resolved
import MiniJava.Proofs.Scope.Declared
import MiniJava.Proofs.Scope.Duplicates
import MiniJava.Proofs.Scope.Journal
import MiniJava.Proofs.Syntax.Grouping
import MiniJava.Proofs.Syntax.Splitting
import MiniJava.Proofs.Syntax.Viable
import MiniJava.Proofs.Syntax.Lookahead
import MiniJava.Proofs.Syntax.Faults
import MiniJava.Proofs.Syntax.Grammar
import MiniJava.Proofs.Syntax.Reading
import MiniJava.Proofs.Syntax.Sound
import MiniJava.Proofs.Syntax.Complete
import MiniJava.Proofs.Syntax.Recognized
import MiniJava.Proofs.Syntax.Declarations
import MiniJava.Proofs.Token.Text
import MiniJava.Proofs.Token.Lexeme
import MiniJava.Proofs.Token.Spaced
import MiniJava.Proofs.Token.Split
import MiniJava.Proofs.Token.Reading
import MiniJava.Proofs.Token.Calls
import MiniJava.Proofs.Lines.Nested
import MiniJava.Proofs.Lines.Expressions
import MiniJava.Proofs.Lines.Standing
import MiniJava.Proofs.Lines.Program
import MiniJava.Proofs.Diagnostics
import MiniJava.Proofs.Syntax.Print
import MiniJava.Proofs.Syntax.Literals
import MiniJava.Proofs.Scope.Bound
import MiniJava.Proofs.Scope.History
import MiniJava.Proofs.Scope.Restored
import MiniJava.Proofs.Scope.Selection
import MiniJava.Proofs.Typing.Rules
import MiniJava.Proofs.Typing.Accepted
import MiniJava.Proofs.Typing.Cascade
import MiniJava.Proofs.Layout.Slots
import MiniJava.Proofs.Generate.Emission
import MiniJava.Proofs.Generate.Complete
import MiniJava.Proofs.Generate.Scoped
import MiniJava.Proofs.Generate.Parts
import MiniJava.Proofs.Machine.View
import MiniJava.Proofs.Machine.Effect
import MiniJava.Proofs.Machine.Invariant
import MiniJava.Proofs.Machine.OffStack
import MiniJava.Proofs.Machine.Apart
import MiniJava.Proofs.Machine.Heap
import MiniJava.Proofs.Machine.Return
import MiniJava.Proofs.Machine.Allocation
import MiniJava.Proofs.Machine.Arithmetic
import MiniJava.Proofs.Machine.Shift
import MiniJava.Proofs.Machine.Silent
import MiniJava.Proofs.Semantics.Evaluator
import MiniJava.Proofs.Semantics.Encoding
import MiniJava.Proofs.Semantics.Typed
import MiniJava.Proofs.Simulation.State
import MiniJava.Proofs.Simulation.Path
import MiniJava.Proofs.Simulation.Instructions
import MiniJava.Proofs.Simulation.Primitives
import MiniJava.Proofs.Simulation.Blocks
import MiniJava.Proofs.Simulation.Lookup
import MiniJava.Proofs.Simulation.Calls
import MiniJava.Proofs.Simulation.Expressions
import MiniJava.Proofs.Simulation.Statements
import MiniJava.Proofs.Simulation.Program
import MiniJava.Proofs.Simulation.Behaviour
import MiniJava.Proofs.Simulation.Safety
import MiniJava.Proofs.Generate.Frames
import MiniJava.Proofs.Generate.Linked
import MiniJava.Proofs.Generate.Control
import MiniJava.Proofs.Generate.Heights
import MiniJava.Proofs.Generate.Discipline
import MiniJava.Proofs.Generate.Range
import MiniJava.Proofs.Generate.Fits
import MiniJava.Proofs.Simulation.Objects
import MiniJava.Proofs.Text.Words
import MiniJava.Proofs.Listing.Lines
import MiniJava.Proofs.Listing.Reread
import MiniJava.Proofs.Listing.Labels
import MiniJava.Proofs.Object.Codec
import MiniJava.Proofs.Places.Erase
import MiniJava.Proofs.Places.Resolve
import MiniJava.Proofs.Places.Check
import MiniJava.Proofs.Places.Generate
import MiniJava.Proofs.Places.Compile
import MiniJava.Proofs.Places.Print
import MiniJava.Proofs.Order.Resolve
import MiniJava.Proofs.Order.Rearranged
import MiniJava.Proofs.Order.Accepted
import MiniJava.Proofs.Generate.Crowded
import MiniJava.Proofs.Formats
import MiniJava.Proofs.Command.Files
import MiniJava.Proofs.Command.Kinds
import MiniJava.Proofs.Command.Compiler

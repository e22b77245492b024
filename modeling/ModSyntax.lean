import ModSyntax.Position
import ModSyntax.Token.Kind
import ModSyntax.Token.Basic
import ModSyntax.Diagnostic
import ModSyntax.Scan.Comment
import ModSyntax.Scan.Piece
import ModSyntax.Scan.Item
import ModSyntax.Scan.Lexer
import ModSyntax.Tree.Operator
import ModSyntax.Tree.Name
import ModSyntax.Tree.Expr
import ModSyntax.Tree.Statement
import ModSyntax.Tree.Module
import ModSyntax.Parse.Report
import ModSyntax.Parse.Cursor
import ModSyntax.Parse.Parser
import ModSyntax.Parse.Rule
import ModSyntax.Parse.Progress
import ModSyntax.Error
import ModSyntax.Parse.Literal
import ModSyntax.Parse.Recovery
import ModSyntax.Parse.Expr
import ModSyntax.Parse.Statement
import ModSyntax.Parse.Declaration
import ModSyntax.Parse.Module
import ModSyntax.Parse.Equations
import ModSyntax.TokenParser.State
import ModSyntax.TokenParser.Expr
import ModSyntax.TokenParser.Statement
import ModSyntax.TokenParser.Module
import ModSyntax.Token.Identifier
import ModSyntax.Print.Layout
import ModSyntax.Print.Expr
import ModSyntax.Print.Module
import ModSyntax.Print.Dump
import ModSyntax.SourceFile
import ModSyntax.CommandLine
import ModSyntax.Main
import ModSyntax.Proofs.Tree.Paths
import ModSyntax.Proofs.Acceptance
import ModSyntax.Proofs.Print.Checks
import ModSyntax.Proofs.Print.Spelling
import ModSyntax.Proofs.Print.Scanned
import ModSyntax.Proofs.Reading.Canonical
import ModSyntax.Proofs.Reading.Yield
import ModSyntax.Proofs.Formatting
import ModSyntax.Proofs.Termination
import ModSyntax.Proofs.FirstReport
import ModSyntax.Proofs.MissingSemicolon
import ModSyntax.Proofs.SourceOrder
import ModSyntax.Proofs.Scan.Tiling
import ModSyntax.Proofs.Scan.Separated
import ModSyntax.Proofs.Scan.Skipping
import ModSyntax.Proofs.Scan.Digits
import ModSyntax.Proofs.Scan.Lines
import ModSyntax.Proofs.Scan.Identifier
import ModSyntax.Proofs.Scan.Restart
import ModSyntax.Proofs.Damage
import ModSyntax.Proofs.Provenance
import ModSyntax.Proofs.Simulation.Module
import ModSyntax.Proofs.Placement
import ModSyntax.Proofs.Verdict
import ModSyntax.Proofs.Truncation
import ModSyntax.Proofs.Stray
import ModSyntax.Proofs.MissingEnd
import ModSyntax.Proofs.DamagedDeclaration
import ModSyntax.Proofs.LiteralRange

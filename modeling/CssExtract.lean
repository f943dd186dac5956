import CssExtract.Command.Footprint
import CssExtract.Command.Line
import CssExtract.Command.Run
import CssExtract.Digest.Sha1
import CssExtract.Entries
import CssExtract.Eval.Evaluator
import CssExtract.Eval.Graph
import CssExtract.Eval.Value
import CssExtract.Files.Path
import CssExtract.Files.Tree
import CssExtract.Glob.Brace
import CssExtract.Glob.Match
import CssExtract.Glob.Pattern
import CssExtract.Json.Read
import CssExtract.Json.Write
import CssExtract.Main
import CssExtract.Number.Base36
import CssExtract.Number.Decimal
import CssExtract.Number.Render
import CssExtract.Package.Manifest
import CssExtract.Package.Mask
import CssExtract.Package.Resolution
import CssExtract.Proofs.Accounting
import CssExtract.Proofs.Assignment
import CssExtract.Proofs.Barrier
import CssExtract.Proofs.Bindings
import CssExtract.Proofs.BraceExpansion
import CssExtract.Proofs.Building
import CssExtract.Proofs.Builds
import CssExtract.Proofs.CallShapes
import CssExtract.Proofs.Chain
import CssExtract.Proofs.ClassNames
import CssExtract.Proofs.CommentedHeads
import CssExtract.Proofs.Concatenation
import CssExtract.Proofs.ConstantValues
import CssExtract.Proofs.Declarations
import CssExtract.Proofs.ErrorPlaces
import CssExtract.Proofs.Evaluation
import CssExtract.Proofs.Exec
import CssExtract.Proofs.ExtendsChain
import CssExtract.Proofs.FailedBuild
import CssExtract.Proofs.HeadAgreement
import CssExtract.Proofs.HeadGrammar
import CssExtract.Proofs.Idempotence
import CssExtract.Proofs.Identifiers
import CssExtract.Proofs.ImportClauses
import CssExtract.Proofs.ImportedNames
import CssExtract.Proofs.Links
import CssExtract.Proofs.LiteralTokens
import CssExtract.Proofs.Lookup
import CssExtract.Proofs.MaskScope
import CssExtract.Proofs.MetadataWalk
import CssExtract.Proofs.Modes
import CssExtract.Proofs.NumberRange
import CssExtract.Proofs.PatternIds
import CssExtract.Proofs.PatternText
import CssExtract.Proofs.Patterns
import CssExtract.Proofs.Positions
import CssExtract.Proofs.PrintedImports
import CssExtract.Proofs.Reference
import CssExtract.Proofs.Relocation
import CssExtract.Proofs.Rendering
import CssExtract.Proofs.Resolution
import CssExtract.Proofs.ResolutionOrder
import CssExtract.Proofs.RulesKept
import CssExtract.Proofs.ScanBounds
import CssExtract.Proofs.Serializable
import CssExtract.Proofs.SiteScan
import CssExtract.Proofs.SlugDigits
import CssExtract.Proofs.Splice
import CssExtract.Proofs.Stages
import CssExtract.Proofs.StringLiterals
import CssExtract.Proofs.Substitution
import CssExtract.Proofs.TemplatePieces
import CssExtract.Proofs.Totality
import CssExtract.Proofs.Transparency
import CssExtract.Proofs.VariableAgreement
import CssExtract.Proofs.VariableBook
import CssExtract.Proofs.VariableIds
import CssExtract.Script.Constants
import CssExtract.Script.Head
import CssExtract.Script.Imports
import CssExtract.Script.Literal
import CssExtract.Script.Node
import CssExtract.Script.Print
import CssExtract.Script.Site
import CssExtract.Script.Skip
import CssExtract.Script.Skip.Lemmas
import CssExtract.Script.Template
import CssExtract.Script.Token
import CssExtract.Styled.CallSite
import CssExtract.Styled.Component
import CssExtract.Styled.Diagnostic
import CssExtract.Styled.Element
import CssExtract.Styled.Extraction
import CssExtract.Styled.Generator
import CssExtract.Styled.Interpolation
import CssExtract.Styled.Naming
import CssExtract.Styled.Options
import CssExtract.Styled.Param
import CssExtract.Styled.Processor
import CssExtract.Styled.Reference
import CssExtract.Styled.Rule
import CssExtract.Styled.Variable
import CssExtract.Text.Blank
import CssExtract.Text.CodePoint
import CssExtract.Text.Cut
import CssExtract.Text.Digit
import CssExtract.Text.Lines
import CssExtract.Text.Lower
import CssExtract.Text.Position
import CssExtract.Text.Printable
import CssExtract.Text.Quoted
import CssExtract.Text.Utf8
import CssExtract.Text.Word

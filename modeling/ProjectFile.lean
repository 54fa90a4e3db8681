import ProjectFile.Text.Class
import ProjectFile.Source.LineIndex
import ProjectFile.Markup.Piece
import ProjectFile.Markup.Problem
import ProjectFile.Markup.Outline
import ProjectFile.Markup.View
import ProjectFile.Expression.Reading
import ProjectFile.Editor.Completion
import ProjectFile.Editor.Embedded
import ProjectFile.Evaluation.Evaluator
import ProjectFile.Evaluation.Locator
import ProjectFile.Evaluation.Diagnostic
import ProjectFile.Workspace.Settings
import ProjectFile.Workspace.Directory
import ProjectFile.Features.Symbols
import ProjectFile.Features.Definition
import ProjectFile.Features.Hover
import ProjectFile.Features.Folding
import ProjectFile.Features.Links
import ProjectFile.Proofs.Markup.EndTags
import ProjectFile.Proofs.Markup.Lossless
import ProjectFile.Proofs.Markup.RoundTrip
import ProjectFile.Proofs.Markup.Alone
import ProjectFile.Proofs.Editor.Insertion
import ProjectFile.Proofs.Editor.Typing
import ProjectFile.Proofs.Expression.Limit
import ProjectFile.Proofs.Expression.Parsed
import ProjectFile.Proofs.Expression.Precedence
import ProjectFile.Proofs.Expression.Formula
import ProjectFile.Proofs.Evaluation.Histories
import ProjectFile.Proofs.Evaluation.Secluded
import ProjectFile.Proofs.Evaluation.Escaped
import ProjectFile.Proofs.Evaluation.Writings
import ProjectFile.Proofs.Evaluation.Regions
import ProjectFile.Proofs.Evaluation.Substituted
import ProjectFile.Proofs.Evaluation.Metadata
import ProjectFile.Proofs.Evaluation.Comments
import ProjectFile.Proofs.Workspace.Ledger
import ProjectFile.Proofs.Workspace.Independence
import ProjectFile.Proofs.Features.Reference
import ProjectFile.Proofs.Source.Terminators
import ProjectFile.Proofs.Expression.Lists
import ProjectFile.Proofs.Evaluation.Indexed
import ProjectFile.Proofs.Expression.Separate
import ProjectFile.Proofs.Editor.Innermost
import ProjectFile.Proofs.Markup.Rows
import ProjectFile.Proofs.Markup.Paths
import ProjectFile.Proofs.Markup.Runs
import ProjectFile.Proofs.Markup.Tiles
import ProjectFile.Proofs.Evaluation.Expanded
import ProjectFile.Proofs.Evaluation.Imports
import ProjectFile.Proofs.Features.Links
import ProjectFile.Proofs.Workspace.Files
import ProjectFile.Proofs.Workspace.Publishing
import ProjectFile.Proofs.Features.Folding
import ProjectFile.Proofs.Features.ItemLists
import ProjectFile.Proofs.Json.Grammar
import ProjectFile.Proofs.Source.Extension
import ProjectFile.Proofs.Json.Scalars
import ProjectFile.Proofs.Json.Values
import ProjectFile.Proofs.Json.Written
import ProjectFile.Proofs.Workspace.Configuration

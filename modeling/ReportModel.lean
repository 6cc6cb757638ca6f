import ReportModel.Document.Dump
import ReportModel.Document.Queries
import ReportModel.Workspace
import ReportModel.Proofs.Arena
import ReportModel.Proofs.Element
import ReportModel.Proofs.Tree.Ascent
import ReportModel.Proofs.Tree.Forest
import ReportModel.Proofs.Tree.Link
import ReportModel.Proofs.Tree.Growth
import ReportModel.Proofs.Tree.Index
import ReportModel.Proofs.Tree.WellFormed
import ReportModel.Proofs.Editor.Growth
import ReportModel.Proofs.Editor.History
import ReportModel.Proofs.Tree.NamePlan
import ReportModel.Proofs.Editor.Outcome
import ReportModel.Proofs.Editor.Transaction
import ReportModel.Proofs.Editor.Content
import ReportModel.Proofs.Editor.Properties
import ReportModel.Proofs.Editor.Sheets
import ReportModel.Proofs.Module.Step
import ReportModel.Proofs.Module.Invariants
import ReportModel.Proofs.Module.Transaction
import ReportModel.Proofs.Module.Recovery
import ReportModel.Proofs.Module.Discard
import ReportModel.Proofs.Document.Grounded
import ReportModel.Proofs.Document.Chains
import ReportModel.Proofs.Editor.Visits
import ReportModel.Proofs.Editor.Bases
import ReportModel.Proofs.Module.Bases
import ReportModel.Proofs.Document.Depth
import ReportModel.Proofs.Module.Depth
import ReportModel.Proofs.Workspace
import ReportModel.Proofs.Css.Specificity
import ReportModel.Proofs.Css.Cascade
import ReportModel.Proofs.Css.Reading
import ReportModel.Proofs.Css.Printing
import ReportModel.Proofs.Css.StyleNames
import ReportModel.Proofs.Css.Importance
import ReportModel.Proofs.Css.Matching
import ReportModel.Proofs.Css.IdNames
import ReportModel.Proofs.Css.Quoting
import ReportModel.Proofs.Css.Colons
import ReportModel.Proofs.Css.Counting
import ReportModel.Proofs.Css.Completeness
import ReportModel.Proofs.Css.Literals
import ReportModel.Proofs.Css.Stability
import ReportModel.Proofs.Lineage
import ReportModel.Proofs.Listing
import ReportModel.Proofs.Document.Links
import ReportModel.Proofs.Module.Conforms
import ReportModel.Proofs.Module.Uniform
import ReportModel.Proofs.Module.Inheritance
import ReportModel.Proofs.Module.Rounds
import ReportModel.Proofs.Editor.Mirror
import ReportModel.Proofs.Module.Mirror
import ReportModel.Proofs.Editor.Effects
import ReportModel.Proofs.Module.Grouping
import ReportModel.Proofs.Module.Renaming
import ReportModel.Proofs.Module.Numbering
import ReportModel.Proofs.Module.Walks
import ReportModel.Proofs.Module.Locks
import ReportModel.Proofs.Module.Moving
import ReportModel.Proofs.Module.Allocation
import ReportModel.Proofs.Module.Locality
import ReportModel.Proofs.Module.Audience
import ReportModel.Proofs.Module.Importing
import ReportModel.Proofs.Module.Inclusions
import ReportModel.Proofs.Module.Sheets
import ReportModel.Proofs.Module.Queries

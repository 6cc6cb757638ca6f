import ReportModel.Document.Basic
import ReportModel.Tree.Queries

/-!
# Queries of a document

What a report shows besides its content, and the items made from templates.
-/

namespace ReportModel.Document

variable (d : Document)

def bookmarks : List String :=
  d.tree.collect Vocabulary.bodySlot Vocabulary.bookmarkProperty

/-- The entries of the table of contents of the items in the body. -/
def contentsEntries : List String :=
  d.tree.collect Vocabulary.bodySlot Vocabulary.tocProperty

/-- The outermost items made from templates in the body and on the pages. -/
def templateItems : List ElementId :=
  d.tree.templateItems [Vocabulary.bodySlot, Vocabulary.pageSetupSlot]

end ReportModel.Document

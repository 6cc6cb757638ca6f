import ReportModel.Css.Reading
import ReportModel.Dictionary.Basic
import ReportModel.Arena

/-!
# Errors

Why an operation on a module fails. An operation that fails has taken back what it had changed.
-/

namespace ReportModel

/-- Why an element cannot be put where it should go. -/
inductive ContentError where
  | wrongType (slot typeName : String)
  | slotFull (slot : String)
  | unknownSlot (slot typeName : String)
  | alreadyContained
  | detachedContainer
  | wouldCycle
  | indexOutOfRange (index length : Nat)
  | notContained
deriving DecidableEq, Repr

def ContentError.message : ContentError → String
  | .wrongType slot typeName =>
    "slot '" ++ slot ++ "' does not accept elements of type " ++ typeName
  | .slotFull slot => "slot '" ++ slot ++ "' can hold only one element"
  | .unknownSlot slot typeName => "element type " ++ typeName ++ " has no slot '" ++ slot ++ "'"
  | .alreadyContained => "element is already contained in the design"
  | .detachedContainer => "target container is detached from the design"
  | .wouldCycle => "element cannot be added inside its own subtree"
  | .indexOutOfRange index length =>
    "index " ++ toString index ++ " out of range for slot of length " ++ toString length
  | .notContained => "element is not contained in any slot"

/-- The operations that do not go inside a transaction. -/
inductive Exclusive where
  | undo
  | redo
  | discard
  | cacheValues
deriving DecidableEq, Repr

def Exclusive.text : Exclusive → String
  | .undo => "undo"
  | .redo => "redo"
  | .discard => "discard element"
  | .cacheValues => "cache values"

/-- Why an operation on a module fails. -/
inductive DesignError where
  | elementNotFound (id : ElementId)
  | unknownElementType (typeName : String)
  | nameConflict (name : String)
  | content (error : ContentError)
  | lockedProperty (id : ElementId) (property : String)
  | cyclicBase (reference : String)
  /-- A listener tried to change the module that it was told about. -/
  | reentrantMutation
  | nothingToUndo
  | nothingToRedo
  | property (error : PropertyError)
  | noOpenTransaction
  | transactionOpen (operation : Exclusive)
  | unresolvedBase (reference : String)
  | baseTypeMismatch (typeName baseType : String)
  | notHost (id : ElementId)
  | sheetNotFound (fileName : String)
  | sheetAlreadyIncluded (fileName : String)
  | sheetInUse (fileName style : String)
  | libraryNotFound (nameSpace : String)
  | libraryAlreadyIncluded (nameSpace : String)
  | notLibrary (nameSpace : String)
  | fileNotFound (fileName : String)
  | parse (error : Css.ParseError)
  /-- A counter ran over in ranking a selector. The program stops here and returns no error. -/
  | overflow
deriving DecidableEq, Repr

/-- The text of an error. -/
def DesignError.message : DesignError → String
  | .elementNotFound id => "element " ++ id.describe ++ " not found"
  | .unknownElementType typeName => "unknown or abstract element type: " ++ typeName
  | .nameConflict name => "name '" ++ name ++ "' is already in use"
  | .content error => error.message
  | .lockedProperty id name =>
    "property '" ++ name ++ "' is locked on element " ++ id.describe
  | .cyclicBase reference => "extends reference to '" ++ reference ++ "' would form a cycle"
  | .reentrantMutation => "module mutated while listeners are being notified"
  | .nothingToUndo => "nothing to undo"
  | .nothingToRedo => "nothing to redo"
  | .property error => error.message
  | .noOpenTransaction => "no open transaction"
  | .transactionOpen operation => "cannot " ++ operation.text ++ " while a transaction is open"
  | .unresolvedBase reference => "extends target '" ++ reference ++ "' does not resolve"
  | .baseTypeMismatch typeName baseType =>
    "element of type " ++ typeName ++ " cannot extend " ++ baseType
  | .notHost id => "element " ++ id.describe ++ " cannot include stylesheets"
  | .sheetNotFound fileName => "stylesheet '" ++ fileName ++ "' is not included"
  | .sheetAlreadyIncluded fileName => "stylesheet '" ++ fileName ++ "' is already included"
  | .sheetInUse fileName style =>
    "stylesheet '" ++ fileName ++ "' still provides style '" ++ style ++ "'"
  | .libraryNotFound nameSpace => "no library included under namespace '" ++ nameSpace ++ "'"
  | .libraryAlreadyIncluded nameSpace =>
    "a library is already included under namespace '" ++ nameSpace ++ "'"
  | .notLibrary nameSpace => "module included as '" ++ nameSpace ++ "' is not a library"
  | .fileNotFound fileName => "resource not found: " ++ fileName
  | .parse error => error.message
  | .overflow => ""

end ReportModel

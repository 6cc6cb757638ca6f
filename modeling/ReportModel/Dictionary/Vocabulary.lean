import ReportModel.Dictionary.Basic

/-!
# The vocabulary of report designs

The element types of report designs and libraries, and the names of the properties, slots and name
spaces that the model itself reads.
-/

namespace ReportModel.Vocabulary

/-- The type that every module root derives from. -/
def moduleType : String := "Module"

def libraryType : String := "Library"

def styleType : String := "Style"

def stylesSlot : String := "styles"

def themesSlot : String := "themes"

def bodySlot : String := "body"

def pageSetupSlot : String := "pageSetup"

def styleProperty : String := "style"

def themeProperty : String := "theme"

def bookmarkProperty : String := "bookmark"

def tocProperty : String := "toc"

/-- The property that marks an item made from a template. -/
def templateProperty : String := "templateParameter"

def enableAccessProperty : String := "enableACL"

def accessRuleProperty : String := "aclExpression"

/-- The property that passes an access rule down. -/
def cascadeAccessProperty : String := "cascadeACL"

def elementSpace : String := "element"

def styleSpace : String := "style"

def themeSpace : String := "theme"

def masterPageSpace : String := "masterPage"

private def whole (n : Nat) : Number := Format.double.ofInt n

private def text (name : String) : PropertyDef := { name, kind := .string }

private def script (name : String) : PropertyDef := { name, kind := .expression }

private def length (name : String) : PropertyDef := { name, kind := .dimension }

private def oneOf (name : String) (names : List String) (first : String) : PropertyDef :=
  { name, kind := .choice names, default := some (.choice first) }

private def styled (p : PropertyDef) : PropertyDef := { p with style := true }

private def measured (name : String) (points : Nat) : PropertyDef :=
  { name, kind := .dimension, default := some (.dimension ⟨whole points, "pt"⟩), style := true }

private def lineStyle (name : String) : PropertyDef :=
  styled (oneOf name ["none", "solid", "dotted", "dashed", "double"] "none")

/-- The properties of the cascade, shared by styles and report items. -/
def styleProperties : List PropertyDef :=
  [{ name := "color", kind := .color, default := some (.color "black"), style := true },
    { name := "backgroundColor", kind := .color, style := true },
    { name := "fontFamily", kind := .string, default := some (.string "serif"), style := true },
    measured "fontSize" 10,
    styled (oneOf "fontWeight" ["normal", "bold"] "normal"),
    styled (oneOf "fontStyle" ["normal", "italic"] "normal"),
    styled (oneOf "textAlign" ["left", "center", "right", "justify"] "left"),
    styled (oneOf "verticalAlign" ["top", "middle", "bottom", "baseline"] "baseline"),
    lineStyle "borderTopStyle",
    lineStyle "borderBottomStyle",
    lineStyle "borderLeftStyle",
    lineStyle "borderRightStyle",
    measured "paddingTop" 1,
    measured "paddingBottom" 1,
    measured "paddingLeft" 1,
    measured "paddingRight" 1,
    styled (oneOf "display" ["block", "inline", "none"] "block")]

/-- The properties of access control, shared by module roots and report items. -/
def accessProperties : List PropertyDef :=
  [{ name := enableAccessProperty, kind := .boolean, default := some (.boolean false) },
    script accessRuleProperty,
    { name := cascadeAccessProperty, kind := .boolean, default := some (.boolean true) }]

private def freeSlot (name : String) (allowed : List String) : SlotDef :=
  { name, allowed, scope := .none }

def reportTypes : List TypeDef :=
  [{ name := "DesignElement"
     isAbstract := true
     properties := [text "comments"] },
    { name := moduleType
      parent := some "DesignElement"
      isAbstract := true
      hostsSheets := true
      properties :=
        [text "title", text "author", text "displayName", text "displayNameKey", text "iconFile",
          text "cheatSheet", { name := "thumbnail", kind := .bytes }, text themeProperty,
          { name := "createdBy", kind := .string, locked := true }] ++ accessProperties },
    { name := "ReportDesign"
      parent := some moduleType
      properties :=
        [script "beforeFactory", script "afterFactory", script "beforeRender",
          script "afterRender", text "base", { name := "refreshRate", kind := .integer },
          oneOf "layoutPreference" ["fixed layout", "auto layout"] "auto layout",
          oneOf "bidiOrientation" ["ltr", "rtl"] "ltr", { name := "imageDPI", kind := .integer }]
      slots :=
        [{ name := stylesSlot, allowed := [styleType] },
          { name := "components", allowed := ["ReportItem"] },
          { name := bodySlot, allowed := ["ReportItem"] },
          { name := "scratchPad", allowed := ["ReportItem"] },
          { name := pageSetupSlot, allowed := ["MasterPage"] }] },
    { name := libraryType
      parent := some moduleType
      slots :=
        [{ name := themesSlot, allowed := ["Theme"] },
          { name := "components", allowed := ["ReportItem"] },
          { name := pageSetupSlot, allowed := ["MasterPage"] }] },
    { name := styleType
      parent := some "DesignElement"
      nameRequired := true
      nameSpace := some styleSpace
      properties := styleProperties },
    { name := "Theme"
      parent := some "DesignElement"
      nameRequired := true
      nameSpace := some themeSpace
      hostsSheets := true
      slots := [{ name := stylesSlot, allowed := [styleType], scope := .slot }] },
    { name := "ReportItem"
      parent := some "DesignElement"
      isAbstract := true
      nameSpace := some elementSpace
      properties :=
        [text styleProperty, script bookmarkProperty, script tocProperty, text templateProperty,
          length "width", length "height"] ++ accessProperties ++ styleProperties },
    { name := "Label"
      parent := some "ReportItem"
      properties := [text "text", text "textID"] },
    { name := "Text"
      parent := some "ReportItem"
      properties := [text "content", oneOf "contentType" ["auto", "plain", "html"] "auto"] },
    { name := "Data"
      parent := some "ReportItem"
      properties := [text "resultSetColumn", script "valueExpr"] },
    { name := "Image"
      parent := some "ReportItem"
      properties :=
        [oneOf "source" ["url", "file", "embed", "expr"] "url", script "uri", text "imageName"] },
    { name := "Grid"
      parent := some "ReportItem"
      slots := [freeSlot "rows" ["Row"]] },
    { name := "Table"
      parent := some "ReportItem"
      properties := [text "dataSet", { name := "columnBindings", kind := .structList }]
      slots :=
        [freeSlot "header" ["Row"], freeSlot "detail" ["Row"], freeSlot "footer" ["Row"]] },
    { name := "Row"
      parent := some "DesignElement"
      properties := [length "height", text styleProperty]
      slots := [freeSlot "cells" ["Cell"]] },
    { name := "Cell"
      parent := some "DesignElement"
      properties :=
        [{ name := "colSpan", kind := .integer, default := some (.integer 1) },
          { name := "rowSpan", kind := .integer, default := some (.integer 1) }]
      slots := [{ name := "content", allowed := ["ReportItem"] }] },
    { name := "MasterPage"
      parent := some "DesignElement"
      isAbstract := true
      nameRequired := true
      nameSpace := some masterPageSpace
      properties := [oneOf "orientation" ["auto", "portrait", "landscape"] "auto"] },
    { name := "SimpleMasterPage"
      parent := some "MasterPage"
      slots :=
        [{ name := "pageHeader", allowed := ["ReportItem"] },
          { name := "pageFooter", allowed := ["ReportItem"] }] }]

def reports : Dictionary := ⟨reportTypes⟩

end ReportModel.Vocabulary

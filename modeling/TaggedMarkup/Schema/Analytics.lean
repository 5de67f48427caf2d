import TaggedMarkup.Schema
/-!
# Schemas of analytics definitions

Datasets and workbooks share the types of labels, field references, formulas and criteria. A
workbook holds its own data under `Workbook` beside four lists of visualizations, whose charts and
pivots keep their bodies as text of another format.
-/
namespace TaggedMarkup.Analytics

/-- The kind of dataset definitions. -/
def dataset : String := "dataset"

/-- The kind of workbook definitions. -/
def workbook : String := "workbook"

def object (name : String) (fields : Entries Field) (tag : Option String) : TypeDef :=
  .object { name := name, fields := fields, tag := tag }

/-- A variant whose cases have the names of their types. -/
def variant (name : String) (cases : List String) : TypeDef :=
  .variant { name := name, cases := cases.map fun c => (c, .named c) }

/-- A string field with a default. -/
def stringOr (text : String) : Field :=
  { schema := .string, defaultValue := some (.string text) }

/-- Text of another format, kept as it is and never filled in. -/
def foreignText : Field := { schema := .string, verbatim := true, optional := true }

/-- The criterion of a definition that has none: all of no conditions. -/
def emptyCondition : Value :=
  .object [("condition", .object [
    ("children", .list []),
    ("operator", .object [("code", .string "AND")]),
    ("targetFieldContext", .object [("name", .string "DEFAULT")]),
    ("meta", .null),
    ("field", .null),
    ("fieldStateName", .null)])]

def sharedTypes : List TypeDef := [
  object "translation" [("translationScriptId", Schema.string)] none,
  object "audience" [
    ("AudienceItems", Schema.list .unknown),
    ("isPublic", { schema := .boolean, defaultValue := some (.bool false) })] none,
  object "baseRecord" [("id", Schema.string), ("label", Schema.string)] none,
  object "join" [("id", Schema.string), ("targetRecordType", Schema.string)] none,
  object "joinTrail" [
    ("baseRecord", Schema.named "baseRecord"),
    ("joins", Schema.list (.named "join"))] none,
  object "fieldReference" [
    ("id", Schema.string),
    ("joinTrail", Schema.named "joinTrail"),
    ("label", Schema.string),
    ("uniqueId", Schema.string),
    ("fieldValidityState", { schema := .string, optional := true })] none,
  object "formulaDefinition" [
    ("dataType", Schema.string),
    ("formulaSQL", Schema.string),
    ("id", Schema.string),
    ("label", Schema.named "translation"),
    ("uniqueId", Schema.string)] none,
  .variant { name := "formula", cases := [("formula", .named "formulaDefinition")], isInline := true },
  object "dataSetFormula" [
    ("fields", Schema.list (.named "fieldOrFormula")),
    ("formula", Schema.named "formula")] none,
  variant "fieldOrFormula" ["fieldReference", "dataSetFormula"],
  object "operator" [("code", stringOr "AND")] none,
  object "targetFieldContext" [("name", stringOr "DEFAULT")] none,
  object "meta" [("selectorType", Schema.unknown), ("subType", Schema.string)] none,
  object "expressionValue" [("type", Schema.string), ("value", Schema.unknown)] none,
  object "expression" [
    ("label", Schema.string),
    ("subType", Schema.unknown),
    ("uiData", Schema.list .string),
    ("value", Schema.named "expressionValue")] none,
  object "filter" [
    ("caseSensitive", Schema.boolean),
    ("expressions", Schema.list (.named "expression")),
    ("operator", Schema.named "operator"),
    ("targetFieldContext", Schema.named "targetFieldContext"),
    ("field", Schema.named "fieldOrFormula"),
    ("fieldStateName", Schema.string),
    ("meta", Schema.named "meta")] none,
  object "condition" [
    ("children", Schema.list (.named "criterion")),
    ("operator", Schema.named "operator"),
    ("targetFieldContext", Schema.named "targetFieldContext"),
    ("meta", Schema.named "meta"),
    ("field", Schema.named "fieldOrFormula"),
    ("fieldStateName", Schema.string)] none,
  .variant {
    name := "criterion"
    cases := [("condition", .named "condition"), ("filter", .named "filter")]
    defaultValue := some emptyCondition }]

def datasetTypes : List TypeDef := [
  object "datasetColumn" [
    ("alias", Schema.string),
    ("columnId", Schema.number),
    ("field", Schema.named "fieldOrFormula"),
    ("label", Schema.named "translation")] none,
  object "dataSet" [
    ("applicationId", Schema.unknown),
    ("audience", Schema.named "audience"),
    ("baseRecord", Schema.named "baseRecord"),
    ("columns", Schema.list (.named "datasetColumn")),
    ("criteria", Schema.named "criterion"),
    ("description", Schema.named "translation"),
    ("formulas", Schema.list (.named "formula")),
    ("id", Schema.unknown),
    ("name", Schema.named "translation"),
    ("ownerId", Schema.number),
    ("scriptId", Schema.unknown),
    ("version", Schema.string)] (some "dataSet")]

def conditionalFormatTypes : List TypeDef := [
  object "rgbColor" [
    ("blue", Schema.number), ("green", Schema.number), ("red", Schema.number)] none,
  variant "color" ["rgbColor"],
  variant "backgroundColor" ["rgbColor"],
  object "icon" [("color", Schema.named "color"), ("image", Schema.string)] none,
  object "style" [
    ("backgroundColor", Schema.named "backgroundColor"), ("icon", Schema.named "icon")] none,
  object "conditionalFormatFilter" [
    ("expressions", Schema.named "expressionValue"), ("operator", Schema.named "operator")] none,
  variant "formatRuleFilter" ["conditionalFormatFilter"],
  object "conditionalFormatRule" [
    ("filter", Schema.named "formatRuleFilter"),
    ("id", Schema.string),
    ("style", Schema.named "style")] none,
  variant "formatRule" ["conditionalFormatRule"],
  object "cellConditionalFormat" [
    ("formatRules", Schema.list (.named "formatRule")), ("id", Schema.string)] none,
  variant "conditionalFormat" ["cellConditionalFormat"]]

/-- The fields that every visualization starts with. -/
def visualizationFields : Entries Field := [
  ("id", Schema.unknown),
  ("scriptId", Schema.unknown),
  ("applicationId", Schema.unknown),
  ("version", Schema.string),
  ("name", Schema.named "translation"),
  ("workbook", Schema.string),
  ("datasets", Schema.list .string)]

def visualization (name : String) (fields : Entries Field) : TypeDef :=
  object name (visualizationFields ++ fields) none

def workbookTypes : List TypeDef := [
  object "sorting" [
    ("caseSensitive", Schema.boolean),
    ("direction", Schema.string),
    ("localeId", Schema.string),
    ("nullFirst", Schema.boolean),
    ("order", Schema.number)] none,
  object "workbookColumn" [
    ("conditionalFormat", Schema.list (.named "conditionalFormat")),
    ("criterion", Schema.named "criterion"),
    ("customLabel", Schema.named "translation"),
    ("dataSetColumnId", Schema.number),
    ("datasetScriptId", Schema.string),
    ("fieldStateName", Schema.string),
    ("sorting", Schema.named "sorting"),
    ("targetFieldContext", Schema.named "targetFieldContext"),
    ("width", Schema.number)] none,
  visualization "chartOrPivot" [
    ("format", foreignText),
    ("order", Schema.number),
    ("definition", foreignText),
    ("datasetLink", Schema.string)],
  visualization "dsLink" [("mapping", foreignText)],
  visualization "dataView" [
    ("columns", Schema.list (.named "workbookColumn")),
    ("order", Schema.number)],
  .variant {
    name := "visualization"
    cases := [
      ("chart", .named "chartOrPivot"), ("dsLink", .named "dsLink"),
      ("dataView", .named "dataView"), ("pivot", .named "chartOrPivot")] },
  object "innerWorkbook" [
    ("id", Schema.unknown),
    ("scriptId", Schema.unknown),
    ("applicationId", Schema.unknown),
    ("version", Schema.string),
    ("name", Schema.named "translation"),
    ("audience", Schema.named "audience"),
    ("ownerId", Schema.number),
    ("description", Schema.named "translation"),
    ("dataViewIDs", Schema.list .string),
    ("pivotIDs", Schema.list .string),
    ("chartIDs", Schema.list .string)] (some "workbook"),
  object "workbookDefinition" [
    ("charts", Schema.list (.named "visualization")),
    ("datasetLinks", Schema.list (.named "visualization")),
    ("dataViews", Schema.list (.named "visualization")),
    ("pivots", Schema.list (.named "visualization")),
    ("Workbook", Schema.named "innerWorkbook")] none]

/-- The types and documents of datasets and workbooks. -/
def registry : Registry where
  types := sharedTypes ++ datasetTypes ++ conditionalFormatTypes ++ workbookTypes
  documents := [(dataset, .named "dataSet"), (workbook, .named "workbookDefinition")]

end TaggedMarkup.Analytics

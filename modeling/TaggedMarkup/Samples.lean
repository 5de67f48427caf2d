import TaggedMarkup.Profile
import TaggedMarkup.Reference.Collection
/-!
# Sample definitions

A dataset and a workbook in the layout that the writer gives them, a store with the collections they
refer to, and a small registry whose variant cases carry labels.
-/
namespace TaggedMarkup.Samples

/-- A dataset with every field, in the order of its schema. -/
def datasetText : String := "<root>
  <applicationId type=\"null\"></applicationId>
  <audience>
    <AudienceItems type=\"array\"></AudienceItems>
    <isPublic type=\"boolean\">false</isPublic>
  </audience>
  <baseRecord>
    <id>customer</id>
    <label>Customer</label>
  </baseRecord>
  <columns type=\"array\">
    <_ITEM_>
      <alias>id</alias>
      <columnId>1</columnId>
      <field>
        <_T_>fieldReference</_T_>
        <id>id</id>
        <joinTrail>
          <baseRecord>
            <id>customer</id>
            <label>Customer</label>
          </baseRecord>
          <joins type=\"array\"></joins>
        </joinTrail>
        <label>Internal ID</label>
        <uniqueId>id</uniqueId>
      </field>
      <label type=\"null\"></label>
    </_ITEM_>
  </columns>
  <criteria>
    <_T_>condition</_T_>
    <children type=\"array\"></children>
    <operator>
      <code>AND</code>
    </operator>
    <targetFieldContext>
      <name>DEFAULT</name>
    </targetFieldContext>
    <meta type=\"null\"></meta>
    <field type=\"null\"></field>
    <fieldStateName type=\"null\"></fieldStateName>
  </criteria>
  <description type=\"null\"></description>
  <formulas type=\"array\"></formulas>
  <id type=\"null\"></id>
  <name>
    <translationScriptId>custcollectiontranslations_dataset_1.dataset_name</translationScriptId>
  </name>
  <ownerId>5</ownerId>
  <scriptId type=\"null\"></scriptId>
  <version type=\"string\">0.1</version>
  <_T_>dataSet</_T_>
</root>
"

/-- A workbook with one chart and one table. -/
def workbookText : String := "<root>
  <charts type=\"array\">
    <_ITEM_>
      <_T_>chart</_T_>
      <id type=\"null\"></id>
      <scriptId>custview_chart1</scriptId>
      <applicationId type=\"null\"></applicationId>
      <version type=\"string\">0.1</version>
      <name>
        <translationScriptId>custcollectiontranslations_workbook_1.chart_name</translationScriptId>
      </name>
      <workbook>custworkbook1</workbook>
      <datasets type=\"array\">
        <_ITEM_>custdataset1</_ITEM_>
      </datasets>
      <format><![CDATA[\x7b\"type\":\"bar\",\"stacked\":false\x7d]]></format>
      <order>0</order>
      <definition><![CDATA[\x7b\"series\":[\x7b\"x\":\"a < b\"\x7d]\x7d]]></definition>
      <datasetLink type=\"null\"></datasetLink>
    </_ITEM_>
  </charts>
  <datasetLinks type=\"array\"></datasetLinks>
  <dataViews type=\"array\">
    <_ITEM_>
      <_T_>dataView</_T_>
      <id type=\"null\"></id>
      <scriptId>custview_table1</scriptId>
      <applicationId type=\"null\"></applicationId>
      <version type=\"string\">0.1</version>
      <name type=\"null\"></name>
      <workbook>custworkbook1</workbook>
      <datasets type=\"array\">
        <_ITEM_>custdataset1</_ITEM_>
      </datasets>
      <columns type=\"array\">
        <_ITEM_>
          <conditionalFormat type=\"array\">
            <_ITEM_>
              <_T_>cellConditionalFormat</_T_>
              <formatRules type=\"array\">
                <_ITEM_>
                  <_T_>conditionalFormatRule</_T_>
                  <filter>
                    <_T_>conditionalFormatFilter</_T_>
                    <expressions>
                      <type>NUMBER</type>
                      <value>100</value>
                    </expressions>
                    <operator>
                      <code>GREATER</code>
                    </operator>
                  </filter>
                  <id>rule_1</id>
                  <style>
                    <backgroundColor>
                      <_T_>rgbColor</_T_>
                      <blue>0</blue>
                      <green>128</green>
                      <red>255</red>
                    </backgroundColor>
                    <icon type=\"null\"></icon>
                  </style>
                </_ITEM_>
              </formatRules>
              <id>format_1</id>
            </_ITEM_>
          </conditionalFormat>
          <criterion type=\"null\"></criterion>
          <customLabel type=\"null\"></customLabel>
          <dataSetColumnId>1</dataSetColumnId>
          <datasetScriptId>custdataset1</datasetScriptId>
          <fieldStateName>DISPLAY</fieldStateName>
          <sorting type=\"null\"></sorting>
          <targetFieldContext>
            <name>DEFAULT</name>
          </targetFieldContext>
          <width type=\"null\"></width>
        </_ITEM_>
      </columns>
      <order>1</order>
    </_ITEM_>
  </dataViews>
  <pivots type=\"array\"></pivots>
  <Workbook>
    <id type=\"null\"></id>
    <scriptId>custworkbook1</scriptId>
    <applicationId type=\"null\"></applicationId>
    <version type=\"string\">0.1</version>
    <name>
      <translationScriptId>custcollectiontranslations_workbook_1.workbook_name</translationScriptId>
    </name>
    <audience>
      <AudienceItems type=\"array\"></AudienceItems>
      <isPublic type=\"boolean\">false</isPublic>
    </audience>
    <ownerId>5</ownerId>
    <description type=\"null\"></description>
    <dataViewIDs type=\"array\">
      <_ITEM_>custview_table1</_ITEM_>
    </dataViewIDs>
    <pivotIDs type=\"array\"></pivotIDs>
    <chartIDs type=\"array\">
      <_ITEM_>custview_chart1</_ITEM_>
    </chartIDs>
    <_T_>workbook</_T_>
  </Workbook>
</root>
"

/-- The collections that the two definitions refer to. -/
def store (c : Convention) : Store :=
  .ofList [
    c.collection "custcollectiontranslations_dataset_1" ["dataset_name"],
    c.collection "custcollectiontranslations_workbook_1" ["workbook_name", "chart_name"]]

/-- A document of a text, a list and a variant that is titled or captioned by a label. -/
def variantRegistry : Registry where
  types := [
    .object { name := "label", fields := [("translationScriptId", Schema.string)] },
    .object { name := "titled", fields := [("title", Schema.named "label")] },
    .object { name := "captioned", fields := [("caption", Schema.named "label")] },
    .variant {
      name := "wrapper"
      cases := [("titled", .named "titled"), ("captioned", .named "captioned")] },
    .object {
      name := "doc"
      fields := [
        ("x", Schema.string),
        ("y", Schema.list .number),
        ("wrapper", Schema.named "wrapper")] }]
  documents := [("doc", .named "doc")]

end TaggedMarkup.Samples

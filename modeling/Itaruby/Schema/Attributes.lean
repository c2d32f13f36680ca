import Itaruby.Index.PassRules
import Itaruby.Schema.SchemaRb
import Itaruby.Walker.Methods

/-!
The attributes that a schema gives to the models of a project: a reader and a writer for each
column of the model's table, where the model does not write the method itself.
-/

set_option autoImplicit false
set_option relaxedAutoImplicit false

namespace Itaruby

open KeyedWrites SchemaRb

/-! ### A schema -/

/-- The schema of a build holds the tables that a text was read as. The columns of a table come in
the order of a hash map, which is any order. -/
structure Schema.ReadFrom (schema : Schema) (cases : CaseTable) (index : SchemaIndex) : Prop where
  lists : ∀ name columns, schema.tables.lookup name = some columns →
    ∃ table, index.lookup name = some table ∧
      columns.Perm (table.entries.map fun entry ↦ (entry.1, entry.2))
  hasTable : ∀ name table, index.lookup name = some table →
    ∃ columns, schema.tables.lookup name = some columns
  deriveTableName : schema.deriveTableName = SchemaRb.deriveTableName cases
  colRbsTy : schema.colRbsTy = SchemaRb.colRbsTy

/-- The schema of a text, in the order of its tables. -/
def SchemaRb.schemaOf (cases : CaseTable) (file : SourceFile) (index : SchemaIndex) : Schema where
  file
  tables := index.entries.foldr
    (fun entry tables ↦
      AList.insert entry.1 (entry.2.entries.map fun column ↦ (column.1, column.2)) tables)
    (∅ : AList fun _ : String ↦ List (String × SchemaColumn))
  deriveTableName := SchemaRb.deriveTableName cases
  colRbsTy := SchemaRb.colRbsTy

theorem SchemaRb.schemaOf_readFrom (cases : CaseTable) (file : SourceFile) (index : SchemaIndex) :
    (schemaOf cases file index).ReadFrom cases index := by
  have htables (name : String) : (schemaOf cases file index).tables.lookup name =
      (index.lookup name).map fun table ↦ table.entries.map fun column ↦ (column.1, column.2) := by
    change (index.entries.foldr (fun entry tables ↦ AList.insert entry.1
      (entry.2.entries.map fun column ↦ (column.1, column.2)) tables)
        (∅ : AList fun _ : String ↦ List (String × SchemaColumn))).lookup name =
          (index.entries.dlookup name).map _
    induction index.entries with
    | nil => rfl
    | cons entry rest ih =>
      rw [List.foldr_cons]
      by_cases hname : name = entry.1
      · subst hname
        rw [AList.lookup_insert, List.dlookup_cons_eq]
        rfl
      · rw [AList.lookup_insert_ne hname, ih, List.dlookup_cons_ne _ _ hname]
  refine ⟨fun name columns h ↦ ?_, fun name table h ↦ ?_, rfl, rfl⟩
  · rw [htables] at h
    obtain ⟨table, htable, rfl⟩ := Option.map_eq_some_iff.mp h
    exact ⟨table, htable, List.Perm.refl _⟩
  · exact ⟨_, by rw [htables, h]; rfl⟩

/-- `schema.rb` fixes the table of a class by its name or by a plain `self.table_name =`. -/
structure ClassDef.ModelOf (cases : CaseTable) (c : ClassDef) (tableName : String) : Prop where
  isClass : c.isModule = false
  isRecord : c.superclass = some ["ApplicationRecord"] ∨
    c.superclass = some ["ActiveRecord", "Base"]
  named : c.tableName = some (.literal tableName) ∨
    c.tableName = none ∧ deriveTableName cases c.path = tableName

theorem schemaTableOf_eq {cases : CaseTable} {index : SchemaIndex} {schema : Schema}
    (hschema : schema.ReadFrom cases index) {c : ClassDef} {tableName : String}
    (hmodel : c.ModelOf cases tableName) :
    schemaTableOf schema c = schema.tables.lookup tableName := by
  unfold schemaTableOf
  rw [hmodel.isClass, if_neg Bool.false_ne_true, if_pos hmodel.isRecord]
  rcases hmodel.named with hname | ⟨hname, hderived⟩
  · rw [hname]
  · rw [hname, hschema.deriveTableName, hderived]

/-! ### The attributes of one class -/

def readerSig (schema : Schema) (column : SchemaColumn) : MethodSig :=
  { required := 0, optional := 0, rest := false, keywords := [], kwrest := false
    sig := some { params := [], ret := schema.colRbsTy column.typeName, typeParams := [] }
    sorbetRet := none, arityUnknown := false, abstractStub := false, file := schema.file
    defSpan := column.span, nameSpan := column.span, schemaColType := none }

def writerSig (schema : Schema) (column : SchemaColumn) : MethodSig :=
  { required := 1, optional := 0, rest := false, keywords := [], kwrest := false
    sig := some { params := [], ret := .simple "void", typeParams := [] }
    sorbetRet := none, arityUnknown := false, abstractStub := false, file := schema.file
    defSpan := column.span, nameSpan := column.span, schemaColType := some column.typeName }

def attributesOf (schema : Schema) (columns : List (String × SchemaColumn)) :
    List (String × MethodSig) :=
  columns.flatMap fun column ↦
    [(column.1, readerSig schema column.2), (column.1 ++ "=", writerSig schema column.2)]

theorem insertNew_eq (methods : MethodTable) (name : String) (sig : MethodSig) :
    insertNew methods name sig = fillOne methods (name, sig) := by
  unfold insertNew fillOne
  cases methods.lookup name with
  | none => rfl
  | some old => rfl

theorem foldl_addColumn (schema : Schema) (columns : List (String × SchemaColumn))
    (methods : MethodTable) :
    columns.foldl (addColumn schema) methods = fill methods (attributesOf schema columns) := by
  induction columns generalizing methods with
  | nil => rfl
  | cons column rest ih =>
    have hone : addColumn schema methods column =
        fill methods (attributesOf schema [column]) := by
      unfold addColumn
      rw [insertNew_eq, insertNew_eq]
      rfl
    rw [List.foldl_cons, ih, hone, ← fill_append]
    rfl

theorem addSchemaAttributes_methods {schema : Schema} {c : ClassDef}
    {columns : List (String × SchemaColumn)} (h : schemaTableOf schema c = some columns) :
    (addSchemaAttributes schema c).methods = fill c.methods (attributesOf schema columns) := by
  unfold addSchemaAttributes
  rw [h, ← foldl_addColumn]

theorem mem_attributesOf {schema : Schema} {columns : List (String × SchemaColumn)} {name : String}
    {sig : MethodSig} :
    (name, sig) ∈ attributesOf schema columns ↔
      (∃ column, (name, column) ∈ columns ∧ sig = readerSig schema column) ∨
        ∃ colName column, (colName, column) ∈ columns ∧ name = colName ++ "=" ∧
          sig = writerSig schema column := by
  unfold attributesOf
  simp only [List.mem_flatMap, List.mem_cons, List.not_mem_nil, or_false, Prod.mk.injEq]
  constructor
  · rintro ⟨⟨colName, column⟩, hmem, ⟨rfl, rfl⟩ | ⟨rfl, rfl⟩⟩
    · exact .inl ⟨column, hmem, rfl⟩
    · exact .inr ⟨colName, column, hmem, rfl, rfl⟩
  · rintro (⟨column, hmem, rfl⟩ | ⟨colName, column, hmem, rfl, rfl⟩)
    · exact ⟨(name, column), hmem, .inl ⟨rfl, rfl⟩⟩
    · exact ⟨(colName, column), hmem, .inr ⟨rfl, rfl⟩⟩

theorem reader_mem_attributesOf (schema : Schema) {columns : List (String × SchemaColumn)}
    {name : String} {column : SchemaColumn} (h : (name, column) ∈ columns) :
    (name, readerSig schema column) ∈ attributesOf schema columns :=
  mem_attributesOf.mpr (.inl ⟨column, h, rfl⟩)

theorem writer_mem_attributesOf (schema : Schema) {columns : List (String × SchemaColumn)}
    {name : String} {column : SchemaColumn} (h : (name, column) ∈ columns) :
    (name ++ "=", writerSig schema column) ∈ attributesOf schema columns :=
  mem_attributesOf.mpr (.inr ⟨name, column, h, rfl, rfl⟩)

/-- The columns of a table are those that its last `create_table` wrote, each as it was written
last. -/
theorem Schema.ReadFrom.mem_columns_iff {cases : CaseTable} {root : Node} {schema : Schema}
    (hschema : schema.ReadFrom cases (parseSchema root)) {tableName : String} {call : CallSite}
    {body : Node} (hcreates : CreatesLast root tableName call body)
    {columns : List (String × SchemaColumn)}
    (hcolumns : schema.tables.lookup tableName = some columns) {name : String}
    {column : SchemaColumn} :
    (name, column) ∈ columns ↔ LastWrite (writtenColumns call body) name column := by
  obtain ⟨table, htable, hperm⟩ := hschema.lists tableName columns hcolumns
  have hcreated := lookup_parseSchema_eq_some_iff.mpr ⟨call, body, hcreates, rfl⟩
  obtain rfl := Option.some.inj (hcreated.symm.trans htable)
  rw [hperm.mem_iff, ← lookup_column_iff, ← Option.mem_def, AList.mem_lookup_iff, List.mem_map]
  constructor
  · rintro ⟨entry, hentry, heq⟩
    obtain ⟨rfl, rfl⟩ := Prod.mk.inj heq
    exact hentry
  · exact fun hentry ↦ ⟨⟨name, column⟩, hentry, rfl⟩

section FirstWrites

variable {schema : Schema} {written columns : List (String × SchemaColumn)}
  (hmem : ∀ name column, (name, column) ∈ columns ↔ LastWrite written name column)
  {colName : String} {column : SchemaColumn} (hcolumn : LastWrite written colName column)

include hmem hcolumn

theorem firstWrite_reader (halone : ∀ write ∈ written, colName ≠ write.1 ++ "=") :
    FirstWrite (attributesOf schema columns) colName (readerSig schema column) := by
  refine firstWrite_of_mem (reader_mem_attributesOf schema ((hmem _ _).mpr hcolumn))
    fun other hother ↦ ?_
  rcases mem_attributesOf.mp hother with ⟨column', hcol, rfl⟩ | ⟨other, column', hcol, heq, -⟩
  · rw [((hmem _ _).mp hcol).unique hcolumn]
  · exact absurd heq (halone _ ((hmem _ _).mp hcol).mem)

theorem firstWrite_writer (halone : ∀ write ∈ written, write.1 ≠ colName ++ "=") :
    FirstWrite (attributesOf schema columns) (colName ++ "=") (writerSig schema column) := by
  refine firstWrite_of_mem (writer_mem_attributesOf schema ((hmem _ _).mpr hcolumn))
    fun other hother ↦ ?_
  rcases mem_attributesOf.mp hother with ⟨column', hcol, -⟩ | ⟨other, column', hcol, heq, rfl⟩
  · exact absurd rfl (halone _ ((hmem _ _).mp hcol).mem)
  · obtain rfl : other = colName := (String.append_left_inj "=").mp heq.symm
    rw [((hmem _ _).mp hcol).unique hcolumn]

end FirstWrites

/-! ### The passes after the schema -/

/-- The class as a model: what makes it one stays, and so does each of its methods. -/
structure ClassDef.KeepsModel (c c' : ClassDef) : Prop where
  path : c'.path = c.path
  isModule : c'.isModule = c.isModule
  superclass : c'.superclass = c.superclass
  tableName : c'.tableName = c.tableName
  methods : ∀ name sig, c.methods.lookup name = some sig → c'.methods.lookup name = some sig

theorem lookup_insertNew_of_some {methods : MethodTable} {name : String} {sig : MethodSig}
    (h : methods.lookup name = some sig) (other : String) (new : MethodSig) :
    (insertNew methods other new).lookup name = some sig := by
  rw [insertNew_eq, lookup_fillOne, h, Option.some_or]

theorem lookup_installHooks_of_some {methods : MethodTable} {name : String} {sig : MethodSig}
    (h : methods.lookup name = some sig) (installs : List (String × Span × SourceFile)) :
    (ProjectIndex.installHooks methods installs).lookup name = some sig := by
  unfold ProjectIndex.installHooks
  induction installs generalizing methods with
  | nil => exact h
  | cons install rest ih => exact ih (lookup_insertNew_of_some h _ _)

theorem keepsModel_rule : PassRule ClassDef.KeepsModel where
  refl _ := ⟨rfl, rfl, rfl, rfl, fun _ _ h ↦ h⟩
  trans h h' := ⟨h'.path.trans h.path, h'.isModule.trans h.isModule,
    h'.superclass.trans h.superclass, h'.tableName.trans h.tableName,
    fun name sig hsig ↦ h'.methods name sig (h.methods name sig hsig)⟩
  opened _ _ := ⟨rfl, rfl, rfl, rfl, fun _ _ h ↦ h⟩
  extended _ _ := ⟨rfl, rfl, rfl, rfl, fun _ _ h ↦ h⟩
  listed _ _ := ⟨rfl, rfl, rfl, rfl, fun _ _ h ↦ h⟩
  patched _ _ _ := ⟨rfl, rfl, rfl, rfl, fun _ _ h ↦ h⟩
  installed _ _ := ⟨rfl, rfl, rfl, rfl, fun _ _ h ↦ lookup_installHooks_of_some h _⟩

theorem ClassDef.KeepsModel.modelOf {c c' : ClassDef} (h : c.KeepsModel c') {cases : CaseTable}
    {tableName : String} (hmodel : c'.ModelOf cases tableName) : c.ModelOf cases tableName where
  isClass := h.isModule ▸ hmodel.isClass
  isRecord := h.superclass ▸ hmodel.isRecord
  named := by
    rw [← h.tableName, ← h.path]
    exact hmodel.named

theorem addSchemaAttributes_keepsModel (schema : Schema) (c : ClassDef) :
    c.KeepsModel (addSchemaAttributes schema c) := by
  cases h : schemaTableOf schema c with
  | none =>
    have hsame : addSchemaAttributes schema c = c := by
      unfold addSchemaAttributes
      rw [h]
    rw [hsame]
    exact keepsModel_rule.refl c
  | some columns =>
    have hfilled (name : String) (sig : MethodSig) (hsig : c.methods.lookup name = some sig) :
        (addSchemaAttributes schema c).methods.lookup name = some sig := by
      rw [addSchemaAttributes_methods h, lookup_fill_eq_some_iff]
      exact .inl hsig
    unfold addSchemaAttributes at hfilled ⊢
    rw [h] at hfilled ⊢
    exact ⟨rfl, rfl, rfl, rfl, hfilled⟩

namespace ProjectIndex

/-- The model of a table in a built index has what its files write in it, and the attributes of
the table where they write nothing. -/
theorem buildIndex_attributes {cases : CaseTable} {index : SchemaIndex} {schema : Schema}
    (hschema : schema.ReadFrom cases index) {input : BuildInput}
    (hinput : input.schema = some schema) {merged ix : ProjectIndex}
    (hmerged : (mergeInput input).reconcileSuperclasses.Returns merged)
    (h : (buildIndex input).Returns ix) {id : ClassId} {tableName : String}
    (hmodel : (ix.classOf id).ModelOf cases tableName)
    {columns : List (String × SchemaColumn)}
    (hcolumns : schema.tables.lookup tableName = some columns) {name : String} {sig : MethodSig}
    (hsig : (fill (merged.classOf id).methods (attributesOf schema columns)).lookup name =
      some sig) :
    (ix.classOf id).methods.lookup name = some sig := by
  obtain ⟨merged', hmerged', hbuild⟩ := Fueled.returns_bind.mp h
  obtain rfl := hmerged.unique hmerged'
  obtain ⟨edges, -, hbuild⟩ := Fueled.returns_bind.mp hbuild
  obtain rfl := Fueled.returns_pure.mp hbuild
  have hpasses := Relates.applyPasses keepsModel_rule input merged id
  change ((applyPasses input merged).classOf id).ModelOf cases tableName at hmodel
  change ((applyPasses input merged).classOf id).methods.lookup name = some sig
  refine hpasses.methods name sig ?_
  have hbefore := hpasses.modelOf hmodel
  rw [hinput, classOf_mergeSchemaDeclarations] at hbefore ⊢
  split_ifs at hbefore ⊢ with hlt
  · have hstart := (addSchemaAttributes_keepsModel schema _).modelOf hbefore
    rw [addSchemaAttributes_methods ((schemaTableOf_eq hschema hstart).trans hcolumns)]
    exact hsig
  · -- beyond the table there is only the default class, which is no record
    have hdefault : merged.classOf id = { path := [] } := by
      unfold ProjectIndex.classOf
      rw [List.getD_eq_getElem?_getD, List.getElem?_eq_none (Nat.le_of_not_lt hlt)]
      rfl
    rw [hdefault] at hbefore
    rcases hbefore.isRecord with hrecord | hrecord
    · cases hrecord
    · cases hrecord

/-- The columns that a `create_table` writes are read and written on the table's model: by the
methods of the model itself where it has them, else by the attributes, and no lookup that reads the
model misses them. -/
theorem columns_answered {cases : CaseTable} {root : Node} {schema : Schema}
    (hschema : schema.ReadFrom cases (parseSchema root)) {input : BuildInput}
    (hinput : input.schema = some schema) {ix : ProjectIndex} (h : (buildIndex input).Returns ix)
    {id : ClassId} {tableName : String} (hmodel : (ix.classOf id).ModelOf cases tableName)
    {call : CallSite} {body : Node} (hcreates : CreatesLast root tableName call body)
    {colName : String} {column : SchemaColumn}
    (hcolumn : LastWrite (writtenColumns call body) colName column) :
    ∃ merged, (mergeInput input).reconcileSuperclasses.Returns merged ∧
      (∀ name sig, (merged.classOf id).methods.lookup name = some sig →
        (ix.classOf id).methods.lookup name = some sig) ∧
      ((merged.classOf id).methods.lookup colName = none →
        (∀ write ∈ writtenColumns call body, colName ≠ write.1 ++ "=") →
        (ix.classOf id).methods.lookup colName = some (readerSig schema column)) ∧
      ((merged.classOf id).methods.lookup (colName ++ "=") = none →
        (∀ write ∈ writtenColumns call body, write.1 ≠ colName ++ "=") →
        (ix.classOf id).methods.lookup (colName ++ "=") = some (writerSig schema column)) ∧
      ∀ d, ix.Consults d false id false →
        ¬ (ix.lookupMethod d colName).Returns .notFound ∧
          ¬ (ix.lookupMethod d (colName ++ "=")).Returns .notFound := by
  obtain ⟨merged, hmerged, -⟩ := Fueled.returns_bind.mp h
  obtain ⟨columns, hcolumns⟩ := hschema.hasTable tableName _
    (lookup_parseSchema_eq_some_iff.mpr ⟨call, body, hcreates, rfl⟩)
  have hmem (name : String) (other : SchemaColumn) :
      (name, other) ∈ columns ↔ LastWrite (writtenColumns call body) name other :=
    hschema.mem_columns_iff hcreates hcolumns
  have hattributes (name : String) (sig : MethodSig)
      (hsig : (fill (merged.classOf id).methods (attributesOf schema columns)).lookup name =
        some sig) : (ix.classOf id).methods.lookup name = some sig :=
    buildIndex_attributes hschema hinput hmerged h hmodel hcolumns hsig
  -- whichever method comes first, the model has one
  have hfound {name : String} {sig : MethodSig} (hsig : (name, sig) ∈ attributesOf schema columns)
      (d : ClassId) (hconsults : ix.Consults d false id false) :
      ¬ (ix.lookupMethod d name).Returns .notFound := by
    intro hlookup
    have htrack : (ix.lookupTrack false d name).Returns .notFound := hlookup
    have hlacks := (lacks_of_notFound htrack hconsults).2
    obtain ⟨sig', hsig'⟩ : ∃ sig', (ix.classOf id).methods.lookup name = some sig' := by
      cases hown : (merged.classOf id).methods.lookup name with
      | some own => exact ⟨own, hattributes name own (lookup_fill_eq_some_iff.mpr (.inl hown))⟩
      | none =>
        obtain ⟨first, hfirst⟩ := exists_firstWrite hsig
        exact ⟨first, hattributes name first (lookup_fill_eq_some_iff.mpr (.inr ⟨hown, hfirst⟩))⟩
    rw [if_neg Bool.false_ne_true, ClassDef.defines, hsig'] at hlacks
    cases hlacks
  have hreader := reader_mem_attributesOf schema ((hmem colName column).mpr hcolumn)
  have hwriter := writer_mem_attributesOf schema ((hmem colName column).mpr hcolumn)
  refine ⟨merged, hmerged, fun name sig hsig ↦ ?_, fun hown halone ↦ ?_, fun hown halone ↦ ?_,
    fun d hconsults ↦ ⟨hfound hreader d hconsults, hfound hwriter d hconsults⟩⟩
  · exact hattributes name sig (lookup_fill_eq_some_iff.mpr (.inl hsig))
  · exact hattributes colName _ (lookup_fill_eq_some_iff.mpr
      (.inr ⟨hown, firstWrite_reader hmem hcolumn halone⟩))
  · exact hattributes (colName ++ "=") _ (lookup_fill_eq_some_iff.mpr
      (.inr ⟨hown, firstWrite_writer hmem hcolumn halone⟩))

/-- `t.string "name"` -/
def nameCall : Node :=
  .callNode (30, 45) (some (.localVariableReadNode (30, 31) "t")) "string"
    [.stringNode (39, 45) "name"] none

def usersBody : Node := .statementsNode (30, 45) [nameCall]

def usersBlock : Node :=
  .blockNode (21, 49) (some { requireds := [some "t"] }) [] (some usersBody)

/-- `create_table "users" do |t| .. end` -/
def usersCall : Node :=
  .callNode (0, 49) none "create_table" [.stringNode (13, 20) "users"] (some usersBlock)

def usersSite : CallSite where
  loc := (0, 49)
  receiver := none
  name := "create_table"
  arguments := [.stringNode (13, 20) "users"]
  block := some usersBlock

def usersTree : Node := .programNode (0, 49) (.statementsNode (0, 49) [usersCall])

def asciiCases : CaseTable where
  isUppercase := Char.isUpper
  isLowercase := Char.isLower
  toLowercase c := [c.toLower]

/-- `class User < ApplicationRecord` with the schema. -/
def usersInput : BuildInput where
  files := [("user.rb",
    { fragments := [{ path := ["User"], nesting := [["User"]], isModule := false,
                      superclass := some ["ApplicationRecord"] }] })]
  schema := some (schemaOf asciiCases "schema.rb" (parseSchema usersTree))

def usersIndex : ProjectIndex := ((buildIndex usersInput).run 20).getD {}

set_option maxRecDepth 2000 in
theorem users_built : (buildIndex usersInput).Returns usersIndex := ⟨20, by rfl⟩

theorem users_consulted : usersIndex.Consults 0 false 0 false :=
  .chain (show (usersIndex.ancestorChain 0).Returns [0] from ⟨20, by rfl⟩) List.mem_cons_self

theorem users_modelOf : (usersIndex.classOf 0).ModelOf asciiCases "users" where
  isClass := by decide +kernel
  isRecord := by decide +kernel
  named := by decide +kernel

theorem users_createsLast : CreatesLast usersTree "users" usersSite usersBody := by
  have hpreorder : usersTree.preorder = [usersTree, .statementsNode (0, 49) [usersCall]] ++
      usersCall :: [.stringNode (13, 20) "users", usersBlock, usersBody, nameCall,
        .localVariableReadNode (30, 31) "t", .stringNode (39, 45) "name"] := rfl
  refine ⟨_, usersCall, _, hpreorder, ⟨rfl, rfl, ⟨_, rfl⟩, rfl⟩, fun m hm call body hcreates ↦ ?_⟩
  simp only [List.mem_cons, List.not_mem_nil, or_false] at hm
  rcases hm with rfl | rfl | rfl | rfl | rfl | rfl
  · cases hcreates.isCall
  · cases hcreates.isCall
  · cases hcreates.isCall
  · obtain rfl := Option.some.inj hcreates.isCall
    exact absurd hcreates.name (by decide)
  · cases hcreates.isCall
  · cases hcreates.isCall

/-- `User` answers `name` and `name=`. -/
theorem user_name_answered :
    usersIndex.Consults 0 false 0 false ∧
      ¬ (usersIndex.lookupMethod 0 "name").Returns .notFound ∧
      ¬ (usersIndex.lookupMethod 0 "name=").Returns .notFound := by
  have hcolumn : LastWrite (writtenColumns usersSite usersBody) "name"
      { typeName := "string", span := (30, 45) } :=
    ⟨[("id", { typeName := "integer", span := (0, 49) })], [], rfl,
      fun _ hwrite ↦ absurd hwrite List.not_mem_nil⟩
  obtain ⟨merged, -, -, -, -, hanswered⟩ := columns_answered
    (schemaOf_readFrom asciiCases "schema.rb" (parseSchema usersTree)) rfl users_built
    users_modelOf users_createsLast hcolumn
  exact ⟨users_consulted, hanswered 0 users_consulted⟩

end ProjectIndex

end Itaruby

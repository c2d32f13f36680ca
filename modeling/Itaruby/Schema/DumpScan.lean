import Itaruby.Schema.DumpLines

/-!
The scan of a whole dump: which tables are read, and with which columns.
-/

set_option autoImplicit false
set_option relaxedAutoImplicit false

namespace Itaruby.StructureSql

/-! ### The text of a dump -/

section Lines

variable {start : ℕ} {line : Text} {lines : List Text}

theorem rowsFrom_append (h : OnOneLine line) (rest : Text) {before : Text}
    (hbefore : '\r' ∉ before) :
    rowsFrom start before (line ++ '\n' :: rest) =
      ⟨before.reverse ++ line, start⟩ ::
        rowsFrom (start + (before.length + line.length) + 1) [] rest := by
  induction line generalizing before with
  | nil =>
    have hkept : before.dropWhile (fun c ↦ decide (c = '\r')) = before := by
      cases before with
      | nil => rfl
      | cons c before =>
        refine List.dropWhile_cons_of_neg ?_
        simpa using Ne.symm (List.ne_of_not_mem_cons hbefore)
    rw [List.nil_append, rowsFrom, hkept, List.append_nil]
    rfl
  | cons c line ih =>
    obtain ⟨hnewline, hreturn⟩ := h
    rw [List.mem_cons, not_or] at hnewline hreturn
    rw [List.cons_append, rowsFrom, ih ⟨hnewline.2, hreturn.2⟩ (by simp [hbefore, hreturn.1])]
    · simp only [List.reverse_cons, List.append_assoc, List.singleton_append, List.length_cons]
      congr 2
      omega
    · exact fun heq ↦ hnewline.1 heq.symm

/-- The rows of a text are its lines, each at its offset. -/
theorem rowsFrom_unlines (h : ∀ line ∈ lines, OnOneLine line) :
    rowsFrom start [] (unlines lines) = place start lines := by
  induction lines generalizing start with
  | nil => rfl
  | cons line lines ih =>
    have hline := h line List.mem_cons_self
    change rowsFrom start [] ((line ++ ['\n']) ++ unlines lines) = _
    rw [List.append_assoc, List.singleton_append, rowsFrom_append hline _ List.not_mem_nil,
      ih fun other hother ↦ h other (List.mem_cons_of_mem _ hother)]
    simp [place]

theorem unlines_append (lines lines' : List Text) :
    unlines (lines ++ lines') = unlines lines ++ unlines lines' := List.flatMap_append

theorem place_append (lines lines' : List Text) :
    place start (lines ++ lines') = place start lines ++ place (after start lines) lines' := by
  induction lines generalizing start with
  | nil => rfl
  | cons line lines ih =>
    rw [List.cons_append, place, ih, place, List.cons_append]
    congr 3
    unfold after unlines
    simp only [List.flatMap_cons, List.length_append, List.length_cons, List.length_nil]
    omega

/-- Every line of a text stands at its start or after it. -/
theorem le_start_of_mem_place {row : Row} (hrow : row ∈ place start lines) :
    start ≤ row.start ∧ row.start < after start lines ∧ row.text ∈ lines := by
  induction lines generalizing start with
  | nil => cases hrow
  | cons line lines ih =>
    have hafter : after start (line :: lines) = after (start + line.length + 1) lines := by
      unfold after unlines
      simp only [List.flatMap_cons, List.length_append, List.length_cons, List.length_nil]
      omega
    rcases List.mem_cons.mp hrow with rfl | hlater
    · refine ⟨Nat.le_refl _, ?_, List.mem_cons_self⟩
      rw [hafter]
      unfold after
      simp only
      omega
    · obtain ⟨hle, hlt, hmem⟩ := ih hlater
      refine ⟨by omega, ?_, List.mem_cons_of_mem _ hmem⟩
      rw [hafter]
      exact hlt

theorem eq_of_start_eq {row other : Row} (hrow : row ∈ place start lines)
    (hother : other ∈ place start lines) (heq : row.start = other.start) : row = other := by
  induction lines generalizing start with
  | nil => cases hrow
  | cons line lines ih =>
    rcases List.mem_cons.mp hrow with rfl | hrow
    · rcases List.mem_cons.mp hother with rfl | hother
      · rfl
      · have hle := (le_start_of_mem_place hother).1
        simp only at heq
        omega
    · rcases List.mem_cons.mp hother with rfl | hother
      · have hle := (le_start_of_mem_place hrow).1
        simp only at heq
        omega
      · exact ih hrow hother

end Lines

/-! ### The columns that are read in a body -/

section Columns

variable {items : List Item} {rows : List Row} {name : Text} {table : SchemaTable}

/-- The row has the line of the item. -/
def Prints (item : Item) (row : Row) : Prop :=
  row.text = item.line ∨ row.text = item.line ++ [',']

theorem itemLines_prints (start : ℕ) (items : List Item) :
    List.Forall₂ Prints items (place start (itemLines items)) := by
  induction items generalizing start with
  | nil => exact .nil
  | cons item items ih =>
    cases items with
    | nil => exact .cons (.inl rfl) .nil
    | cons next items => exact .cons (.inr rfl) (ih _)

theorem spans_addColumn (table : SchemaTable) (row : Row) (name : Text) :
    spans (addColumn table row) name =
      if (parseColumnLine row.text).map Prod.fst = some name then some row.span
      else spans table name := by
  unfold addColumn spans
  cases parseColumnLine row.text with
  | none => rfl
  | some read =>
    obtain ⟨column, type⟩ := read
    by_cases hname : column = name
    · subst hname
      simp
    · simp [Function.update_of_ne (Ne.symm hname), hname]

/-- A column of a table that is read stands where a line names it. -/
theorem exists_row_of_spans {span : Span}
    (h : spans (rows.foldl addColumn table) name = some span) :
    spans table name = some span ∨
      ∃ row ∈ rows, (parseColumnLine row.text).map Prod.fst = some name ∧ row.span = span := by
  induction rows generalizing table with
  | nil => exact .inl h
  | cons row rows ih =>
    rcases ih h with hnow | ⟨later, hlater, hspan⟩
    · rw [spans_addColumn] at hnow
      split at hnow
      next hread => exact .inr ⟨row, List.mem_cons_self, hread, Option.some.inj hnow⟩
      next => exact .inl hnow
    · exact .inr ⟨later, List.mem_cons_of_mem _ hlater, hspan⟩

theorem columnOf_cons (item : Item) (row : Row) :
    columnOf (item :: items) (row :: rows) name =
      if item.columnName = some name then some row.span else columnOf items rows name := by
  unfold columnOf
  rw [List.zip_cons_cons, List.find?_cons]
  by_cases hname : item.columnName = some name
  · simp [hname]
  · simp [hname]

theorem columnOf_eq_none (hname : name ∉ items.filterMap Item.columnName) :
    columnOf items rows name = none := by
  unfold columnOf
  rw [Option.map_eq_none_iff, List.find?_eq_none]
  intro entry hentry hcolumn
  exact hname (List.mem_filterMap.mpr
    ⟨entry.1, (List.of_mem_zip hentry).1, of_decide_eq_true hcolumn⟩)

theorem distinct_tail {item : Item} (h : ((item :: items).filterMap Item.columnName).Nodup) :
    (items.filterMap Item.columnName).Nodup ∧
      ∀ name, item.columnName = some name → name ∉ items.filterMap Item.columnName := by
  cases hcolumn : item.columnName with
  | none =>
    rw [List.filterMap_cons_none hcolumn] at h
    exact ⟨h, nofun⟩
  | some column =>
    rw [List.filterMap_cons_some hcolumn, List.nodup_cons] at h
    refine ⟨h.2, fun name hname ↦ ?_⟩
    cases hname
    exact h.1

/-- Lines that all read as their items give the columns of these. -/
theorem spans_foldl_addColumn (hrows : List.Forall₂ Prints items rows)
    (hreadable : ∀ item ∈ items, item.Readable)
    (hdistinct : (items.filterMap Item.columnName).Nodup) :
    spans (rows.foldl addColumn table) name =
      (columnOf items rows name).or (spans table name) := by
  induction hrows generalizing table with
  | nil => rfl
  | @cons item row items rows hprints hrows ih =>
    obtain ⟨htail, hnew⟩ := distinct_tail hdistinct
    have hread := (parse_item hprints).mpr (hreadable item List.mem_cons_self)
    rw [List.foldl_cons, ih (fun other hother ↦ hreadable other (List.mem_cons_of_mem _ hother))
      htail, spans_addColumn, hread, columnOf_cons]
    by_cases hname : item.columnName = some name
    · rw [if_pos hname, if_pos hname, columnOf_eq_none (hnew name hname)]
      rfl
    · rw [if_neg hname, if_neg hname]

/-- An item with its row: the column of the item stands there. -/
theorem exists_row_of_item (hrows : List.Forall₂ Prints items rows)
    (hdistinct : (items.filterMap Item.columnName).Nodup) {item : Item} (hitem : item ∈ items)
    (hname : item.columnName = some name) :
    ∃ row ∈ rows, Prints item row ∧ columnOf items rows name = some row.span := by
  induction hrows with
  | nil => cases hitem
  | @cons first row items rows hprints hrows ih =>
    obtain ⟨htail, hnew⟩ := distinct_tail hdistinct
    rcases List.mem_cons.mp hitem with rfl | hlater
    · refine ⟨row, List.mem_cons_self, hprints, ?_⟩
      rw [columnOf_cons, if_pos hname]
    · obtain ⟨found, hfound, hprinted, hcolumn⟩ := ih htail hlater
      refine ⟨found, List.mem_cons_of_mem _ hfound, hprinted, ?_⟩
      rw [columnOf_cons, if_neg, hcolumn]
      intro hfirst
      exact hnew name hfirst (List.mem_filterMap.mpr ⟨item, hlater, hname⟩)

/-- The table that is read in the body of a block. -/
def Block.readAt (b : Block) (start : ℕ) : SchemaTable :=
  (b.bodyAt start).foldl addColumn fun _ ↦ none

/-- The body of a block reads as its columns exactly when each of its items is readable. -/
theorem spans_readAt_iff (b : Block) (start : ℕ) :
    spans (b.readAt start) = b.columnsAt start ↔ ∀ item ∈ b.items, item.Readable := by
  have hrows := itemLines_prints (start + b.header.length + 1) b.items
  constructor
  · intro heq item hitem
    cases hcolumn : item.columnName with
    | none =>
      cases item with
      | column => cases hcolumn
      | constraint => trivial
    | some name =>
      obtain ⟨row, hrow, hprints, hspan⟩ := exists_row_of_item hrows b.distinct hitem hcolumn
      have hread : spans (b.readAt start) name = some row.span :=
        (congrFun heq name).trans hspan
      rcases exists_row_of_spans hread with hnone | ⟨other, hother, hnames, hsame⟩
      · cases hnone
      · obtain rfl := eq_of_start_eq hother hrow (congrArg Prod.fst hsame)
        exact (parse_item hprints).mp (hnames.trans hcolumn.symm)
  · intro hreadable
    funext name
    have hspans : spans (b.readAt start) name =
        (columnOf b.items (b.bodyAt start) name).or none :=
      spans_foldl_addColumn hrows hreadable b.distinct
    exact hspans.trans (Option.or_none)

end Columns

/-! ### The scan of a dump -/

section Scanning

variable {tables : SchemaIndex} {table : SchemaTable} {name : Text} {rows : List Row}

/-- While no line closes it, the open table takes the columns. -/
theorem foldl_scanRow_inside (h : ∀ row ∈ rows, closesTable row.text = false) :
    rows.foldl scanRow ⟨tables, some (name, table)⟩ =
      ⟨tables, some (name, rows.foldl addColumn table)⟩ := by
  induction rows generalizing table with
  | nil => rfl
  | cons row rows ih =>
    have hscan : scanRow ⟨tables, some (name, table)⟩ row =
        ⟨tables, some (name, addColumn table row)⟩ := by
      simp [scanRow, h row List.mem_cons_self]
    rw [List.foldl_cons, hscan, ih fun other hother ↦ h other (List.mem_cons_of_mem _ hother)]
    rfl

theorem foldl_scanRow_outside (h : ∀ row ∈ rows, openedTable row.text = none) :
    rows.foldl scanRow ⟨tables, none⟩ = ⟨tables, none⟩ := by
  induction rows with
  | nil => rfl
  | cons row rows ih =>
    have hscan : scanRow ⟨tables, none⟩ row = ⟨tables, none⟩ := by
      simp [scanRow, h row List.mem_cons_self]
    rw [List.foldl_cons, hscan]
    exact ih fun other hother ↦ h other (List.mem_cons_of_mem _ hother)

theorem exists_item_of_row {items : List Item} (hrows : List.Forall₂ Prints items rows) {row : Row}
    (hrow : row ∈ rows) : ∃ item, Prints item row := by
  induction hrows with
  | nil => cases hrow
  | @cons item first items rows hprints hrows ih =>
    rcases List.mem_cons.mp hrow with rfl | hlater
    · exact ⟨item, hprints⟩
    · exact ih hlater

theorem closesTable_body {b : Block} {start : ℕ} {row : Row} (hrow : row ∈ b.bodyAt start) :
    closesTable row.text = false := by
  obtain ⟨item, hprints⟩ := exists_item_of_row (itemLines_prints _ b.items) hrow
  exact closesTable_item hprints

/-- The offset of the lines after the body. -/
def Block.endAt (b : Block) (start : ℕ) : ℕ :=
  after (start + b.header.length + 1) (itemLines b.items)

theorem Block.endAt_le_after (b : Block) (start : ℕ) : b.endAt start ≤ after start b.lines := by
  unfold Block.endAt Block.lines after
  rw [List.cons_append]
  unfold unlines
  simp only [List.flatMap_cons, List.flatMap_append, List.length_append, List.length_cons,
    List.length_nil]
  omega

theorem place_block (b : Block) (start : ℕ) :
    place start b.lines =
      ⟨b.header, start⟩ :: (b.bodyAt start ++ place (b.endAt start) b.endLines) := by
  unfold Block.lines
  rw [List.cons_append, place, place_append]
  rfl

/-- The header opens the table, and the body fills it. -/
theorem scan_body {b : Block} (htitled : b.Titled) (start : ℕ) :
    (place start b.lines).foldl scanRow ⟨tables, none⟩ =
      (place (b.endAt start) b.endLines).foldl scanRow
        ⟨tables, some (b.name.name, b.readAt start)⟩ := by
  have hheader : scanRow ⟨tables, none⟩ ⟨b.header, start⟩ =
      ⟨tables, some (b.name.name, fun _ ↦ none)⟩ := by
    simp [scanRow, openedTable_header htitled]
  rw [place_block, List.foldl_cons, hheader, List.foldl_append,
    foldl_scanRow_inside fun row hrow ↦ closesTable_body hrow]
  rfl

theorem scan_block_closed {b : Block} (htitled : b.Titled) (hclauses : b.clauses = [])
    (start : ℕ) :
    (place start b.lines).foldl scanRow ⟨tables, none⟩ =
      ⟨Function.update tables b.name.name (some (b.readAt start)), none⟩ := by
  have hend : b.endLines = [");".toList] := by
    unfold Block.endLines
    rw [hclauses]
  rw [scan_body htitled, hend]
  have hcloses : closesTable [')', ';'] = true := by decide
  simp [place, scanRow, hcloses]

/-- The tables of blocks that are all closed. -/
def readAll (tables : SchemaIndex) (entries : List (ℕ × Block)) : SchemaIndex :=
  entries.foldl (fun tables entry ↦
    Function.update tables entry.2.name.name (some (entry.2.readAt entry.1))) tables

variable {dump : List Statement} {start : ℕ}

theorem scan_closed (hlegible : ∀ statement ∈ dump, statement.Legible)
    (hclosed : ∀ statement ∈ dump, statement.Closed) :
    (place start (dump.flatMap Statement.lines)).foldl scanRow ⟨tables, none⟩ =
      ⟨readAll tables (blocksAt start dump), none⟩ := by
  induction dump generalizing start tables with
  | nil => rfl
  | cons statement dump ih =>
    have hfirst := hlegible statement List.mem_cons_self
    have hlater : ∀ (tables : SchemaIndex) (start : ℕ),
        (place start (dump.flatMap Statement.lines)).foldl scanRow ⟨tables, none⟩ =
          ⟨readAll tables (blocksAt start dump), none⟩ := fun tables start ↦ ih
      (fun other hother ↦ hlegible other (List.mem_cons_of_mem _ hother))
      (fun other hother ↦ hclosed other (List.mem_cons_of_mem _ hother))
    rw [List.flatMap_cons, place_append, List.foldl_append]
    cases statement with
    | block b =>
      rw [Statement.lines, scan_block_closed hfirst (hclosed _ List.mem_cons_self), hlater]
      rfl
    | other lines oneLine =>
      have houtside : (place start lines).foldl scanRow ⟨tables, none⟩ = ⟨tables, none⟩ :=
        foldl_scanRow_outside fun row hrow ↦ hfirst _ (le_start_of_mem_place hrow).2.2
      rw [Statement.lines, houtside, hlater]
      rfl

theorem map_blocksAt (start : ℕ) (dump : List Statement) :
    (blocksAt start dump).map (fun entry ↦ entry.2.name.name) = tableNames dump := by
  induction dump generalizing start with
  | nil => rfl
  | cons statement dump ih =>
    cases statement with
    | block b => exact congrArg (b.name.name :: ·) (ih _)
    | other lines oneLine => exact ih _

theorem readAll_of_notMem {entries : List (ℕ × Block)}
    (h : name ∉ entries.map fun entry ↦ entry.2.name.name) :
    readAll tables entries name = tables name := by
  induction entries generalizing tables with
  | nil => rfl
  | cons entry entries ih =>
    rw [List.map_cons, List.mem_cons, not_or] at h
    exact (ih h.2).trans (Function.update_of_ne h.1 _ _)

theorem readAll_of_mem {entries : List (ℕ × Block)}
    (hdistinct : (entries.map fun entry ↦ entry.2.name.name).Nodup) {entry : ℕ × Block}
    (hentry : entry ∈ entries) :
    readAll tables entries entry.2.name.name = some (entry.2.readAt entry.1) := by
  induction entries generalizing tables with
  | nil => cases hentry
  | cons first entries ih =>
    rw [List.map_cons, List.nodup_cons] at hdistinct
    rcases List.mem_cons.mp hentry with rfl | hlater
    · exact (readAll_of_notMem hdistinct.1).trans (Function.update_self _ _ _)
    · exact ih hdistinct.2 hlater

theorem mem_blocksAt {entry : ℕ × Block} (h : entry ∈ blocksAt start dump) :
    .block entry.2 ∈ dump := by
  induction dump generalizing start with
  | nil => cases h
  | cons statement dump ih =>
    cases statement with
    | block b =>
      rcases List.mem_cons.mp h with rfl | hlater
      · exact List.mem_cons_self
      · exact List.mem_cons_of_mem _ (ih hlater)
    | other lines oneLine => exact List.mem_cons_of_mem _ (ih h)

theorem exists_mem_blocksAt {b : Block} (h : .block b ∈ dump) (start : ℕ) :
    ∃ offset, (offset, b) ∈ blocksAt start dump := by
  induction dump generalizing start with
  | nil => cases h
  | cons statement dump ih =>
    rcases List.mem_cons.mp h with rfl | hlater
    · exact ⟨start, List.mem_cons_self⟩
    · cases statement with
      | block first =>
        obtain ⟨offset, hoffset⟩ := ih hlater _
        exact ⟨offset, List.mem_cons_of_mem _ hoffset⟩
      | other lines oneLine => exact ih hlater _

/-- When every block is closed, a dump is read exactly when its columns are readable and its tables
have different names. -/
theorem exact_readAll_iff :
    Exact (readAll (fun _ ↦ none) (blocksAt 0 dump)) dump ↔
      (∀ statement ∈ dump, statement.Readable) ∧ (tableNames dump).Nodup := by
  constructor
  · intro hexact
    refine ⟨fun statement hstatement ↦ ?_, hexact.distinct⟩
    cases statement with
    | other => trivial
    | block b =>
      obtain ⟨offset, hentry⟩ := exists_mem_blocksAt hstatement 0
      have hcolumns := hexact.columns _ hentry
      rw [readAll_of_mem (by rw [map_blocksAt]; exact hexact.distinct) hentry] at hcolumns
      exact (spans_readAt_iff b offset).mp (Option.some.inj hcolumns)
  · rintro ⟨hreadable, hdistinct⟩
    refine ⟨hdistinct, ?_, ?_⟩
    · intro name table hname
      by_contra hmem
      rw [readAll_of_notMem (by rwa [map_blocksAt])] at hname
      cases hname
    · intro entry hentry
      have hitems := hreadable _ (mem_blocksAt hentry)
      rw [readAll_of_mem (by rwa [map_blocksAt]) hentry]
      exact congrArg some ((spans_readAt_iff entry.2 entry.1).mpr hitems)

end Scanning

/-! ### A block whose end is not seen -/

section Unclosed

variable {offset : ℕ} {word name : Text} {table : SchemaTable} {rows : List Row} {s : Scan}
  {dump : List Statement} {start : ℕ}

/-- The table has a column from a line at the offset or after it. -/
def Bleeds (offset : ℕ) (word : Text) (table : SchemaTable) : Prop :=
  ∃ span, spans table word = some span ∧ offset ≤ span.1

theorem Bleeds.addColumn (h : Bleeds offset word table) {row : Row} (hrow : offset ≤ row.start) :
    Bleeds offset word (addColumn table row) := by
  unfold Bleeds
  rw [spans_addColumn]
  split
  · exact ⟨row.span, rfl, hrow⟩
  · exact h

theorem Bleeds.foldl (h : Bleeds offset word table) (hrows : ∀ row ∈ rows, offset ≤ row.start) :
    Bleeds offset word (rows.foldl StructureSql.addColumn table) :=
  List.foldlRecOn _ _ h fun _ htable row hrow ↦ htable.addColumn (hrows row hrow)

/-- The table of the name is not right, whether it is open or closed. -/
structure Scan.Spoilt (s : Scan) (offset : ℕ) (word name : Text) : Prop where
  current : ∀ table, s.current = some (name, table) → Bleeds offset word table
  closed : ∀ table, s.tables name = some table → Bleeds offset word table

theorem Scan.Spoilt.scanRow (h : s.Spoilt offset word name) {row : Row}
    (hrow : offset ≤ row.start) (hopens : s.current = none → openedTable row.text ≠ some name) :
    (scanRow s row).Spoilt offset word name := by
  obtain ⟨tables, current⟩ := s
  unfold StructureSql.scanRow
  cases current with
  | none =>
    refine ⟨fun table htable ↦ ?_, h.closed⟩
    obtain ⟨opened, hopened, heq⟩ := Option.map_eq_some_iff.mp htable
    cases heq
    exact absurd hopened (hopens rfl)
  | some opened =>
    obtain ⟨other, table⟩ := opened
    simp only
    split
    · refine ⟨nofun, fun found hfound ↦ ?_⟩
      simp only [Function.update_apply] at hfound
      split at hfound
      next heq =>
        cases hfound
        exact h.current table (by rw [heq])
      next => exact h.closed found hfound
    · refine ⟨fun found hfound ↦ ?_, h.closed⟩
      cases hfound
      exact (h.current table rfl).addColumn hrow

theorem Scan.Spoilt.outside (h : s.Spoilt offset word name)
    (hrows : ∀ row ∈ rows, offset ≤ row.start ∧ openedTable row.text = none) :
    (rows.foldl StructureSql.scanRow s).Spoilt offset word name :=
  List.foldlRecOn (motive := fun s : Scan ↦ s.Spoilt offset word name) rows
    StructureSql.scanRow h fun _ hs row hrow ↦
      hs.scanRow (hrows row hrow).1 fun _ hopened ↦ by
        rw [(hrows row hrow).2] at hopened
        cases hopened

/-- Lines that do not close the table leave it open. -/
theorem Scan.Spoilt.inside (h : s.Spoilt offset word name) (hopen : s.current ≠ none)
    (hrows : ∀ row ∈ rows, offset ≤ row.start ∧ closesTable row.text = false) :
    (rows.foldl StructureSql.scanRow s).Spoilt offset word name ∧
      (rows.foldl StructureSql.scanRow s).current ≠ none := by
  refine List.foldlRecOn (motive := fun s : Scan ↦ s.Spoilt offset word name ∧ s.current ≠ none)
    rows StructureSql.scanRow ⟨h, hopen⟩ fun s hs row hrow ↦ ?_
  obtain ⟨hspoilt, hcurrent⟩ := hs
  obtain ⟨hstart, hcloses⟩ := hrows row hrow
  refine ⟨hspoilt.scanRow hstart fun hnone ↦ absurd hnone hcurrent, ?_⟩
  obtain ⟨tables, current⟩ := s
  cases current with
  | none => exact absurd rfl hcurrent
  | some => simp [StructureSql.scanRow, hcloses]

theorem mem_clauseLines {clauses : List Clause} {line : Text} (h : line ∈ clauseLines clauses) :
    ∃ clause : Clause, line = clause.line ∨ line = clause.line ++ [';'] := by
  induction clauses with
  | nil => cases h
  | cons clause clauses ih =>
    cases clauses with
    | nil => exact ⟨clause, .inr (List.mem_singleton.mp h)⟩
    | cons next clauses =>
      rcases List.mem_cons.mp h with rfl | hlater
      · exact ⟨clause, .inl rfl⟩
      · exact ih hlater

/-- The lines after the body: one that closes the table, or none. -/
theorem endLines_cases (b : Block) :
    b.endLines = [");".toList] ∨ ∀ line ∈ b.endLines, closesTable line = false := by
  unfold Block.endLines
  cases b.clauses with
  | nil => exact .inl rfl
  | cons clause clauses =>
    refine .inr fun line hline ↦ ?_
    rcases List.mem_cons.mp hline with rfl | hclause
    · decide
    · obtain ⟨clause, hclause⟩ := mem_clauseLines hclause
      exact closesTable_clause hclause

theorem Scan.Spoilt.block (h : s.Spoilt offset word name) {b : Block} (htitled : b.Titled)
    (hname : b.name.name ≠ name) (hstart : offset ≤ start) :
    ((place start b.lines).foldl StructureSql.scanRow s).Spoilt offset word name := by
  have hrows : ∀ row ∈ place start b.lines, offset ≤ row.start := fun row hrow ↦
    hstart.trans (le_start_of_mem_place hrow).1
  rw [place_block] at hrows ⊢
  have hopens : openedTable b.header ≠ some name := by
    rw [openedTable_header htitled]
    exact fun heq ↦ hname (Option.some.inj heq)
  have hheader := h.scanRow (hrows _ List.mem_cons_self) fun _ ↦ hopens
  have hopen : (StructureSql.scanRow s ⟨b.header, start⟩).current ≠ none := by
    obtain ⟨tables, current⟩ := s
    cases current with
    | none => simp [StructureSql.scanRow, openedTable_header htitled]
    | some => simp [StructureSql.scanRow, closesTable_header b]
  rw [List.foldl_cons, List.foldl_append]
  obtain ⟨hbody, hstill⟩ := hheader.inside hopen fun row hrow ↦
    ⟨hrows row (List.mem_cons_of_mem _ (List.mem_append_left _ hrow)), closesTable_body hrow⟩
  have hend : ∀ row ∈ place (b.endAt start) b.endLines, offset ≤ row.start := fun row hrow ↦
    hrows row (List.mem_cons_of_mem _ (List.mem_append_right _ hrow))
  rcases endLines_cases b with hlast | hlines
  · rw [hlast] at hend ⊢
    exact hbody.scanRow (hend _ List.mem_cons_self) fun hnone ↦ absurd hnone hstill
  · refine (hbody.inside hstill fun row hrow ↦ ⟨hend row hrow, ?_⟩).1
    exact hlines _ (le_start_of_mem_place hrow).2.2

/-- Once a table is spoilt, no later statement mends it. -/
theorem Scan.Spoilt.statements (h : s.Spoilt offset word name)
    (hlegible : ∀ statement ∈ dump, statement.Legible) (hname : name ∉ tableNames dump)
    (hstart : offset ≤ start) :
    ((place start (dump.flatMap Statement.lines)).foldl StructureSql.scanRow s).Spoilt
      offset word name := by
  induction dump generalizing start s with
  | nil => exact h
  | cons statement dump ih =>
    have hlater : ∀ other ∈ dump, other.Legible := fun other hother ↦
      hlegible other (List.mem_cons_of_mem _ hother)
    have hafter : offset ≤ after start statement.lines := hstart.trans (Nat.le_add_right _ _)
    rw [List.flatMap_cons, place_append, List.foldl_append]
    cases statement with
    | block b =>
      have hne : name ≠ b.name.name ∧ name ∉ tableNames dump := by
        simpa [tableNames] using hname
      exact ih (h.block (hlegible _ List.mem_cons_self) (Ne.symm hne.1) hstart) hlater hne.2 hafter
    | other lines oneLine =>
      have hquiet : ∀ line ∈ lines, openedTable line = none := hlegible _ List.mem_cons_self
      refine ih (h.outside fun row hrow ↦ ?_) hlater hname hafter
      obtain ⟨hle, -, hmem⟩ := le_start_of_mem_place hrow
      exact ⟨hstart.trans hle, hquiet _ hmem⟩

/-- The first clause line becomes a column of the table. -/
theorem spoilt_of_clause {b : Block} {clause : Clause} {clauses : List Clause}
    (hclauses : b.clauses = clause :: clauses) (htitled : b.Titled) {tables : SchemaIndex}
    (hnew : tables b.name.name = none) (start : ℕ) :
    ∃ word, ((place start b.lines).foldl scanRow ⟨tables, none⟩).Spoilt (b.endAt start) word
      b.name.name := by
  have hfirst : ∃ line lines, clauseLines b.clauses = line :: lines ∧
      (line = clause.line ∨ line = clause.line ++ [';']) := by
    rw [hclauses]
    cases clauses with
    | nil => exact ⟨_, [], rfl, .inr rfl⟩
    | cons next clauses => exact ⟨_, _, rfl, .inl rfl⟩
  obtain ⟨line, lines, hlines, hline⟩ := hfirst
  have hend : b.endLines = [')'] :: line :: lines := by
    rw [← hlines]
    unfold Block.endLines
    rw [hclauses]
  have hcloses : ∀ row ∈ place (b.endAt start) b.endLines, closesTable row.text = false := by
    rcases endLines_cases b with hlast | hall
    · rw [hend] at hlast
      cases hlast
    · exact fun row hrow ↦ hall _ (le_start_of_mem_place hrow).2.2
  rw [scan_body htitled, foldl_scanRow_inside hcloses]
  refine ⟨clause.word, fun table htable ↦ ?_, fun table htable ↦ ?_⟩
  · cases htable
    have hclause : Bleeds (b.endAt start) clause.word
        (addColumn (addColumn (b.readAt start) ⟨[')'], b.endAt start⟩)
          ⟨line, b.endAt start + 1 + 1⟩) := by
      refine ⟨(b.endAt start + 1 + 1, b.endAt start + 1 + 1 + line.length), ?_, by omega⟩
      rw [spans_addColumn, if_pos (parse_clause hline)]
      rfl
    rw [hend]
    refine hclause.foldl fun row hrow ↦ ?_
    have hle := (le_start_of_mem_place hrow).1
    omega
  · rw [show tables b.name.name = some table from htable] at hnew
    cases hnew

/-- The columns of a block stand before its end. -/
theorem lt_endAt_of_columnsAt {b : Block} {span : Span}
    (h : b.columnsAt start name = some span) : span.1 < b.endAt start := by
  unfold Block.columnsAt columnOf at h
  obtain ⟨entry, hentry, rfl⟩ := Option.map_eq_some_iff.mp h
  have hmem := (List.of_mem_zip (List.mem_of_find?_eq_some hentry)).2
  exact (le_start_of_mem_place hmem).2.1

end Unclosed

/-! ### When a dump is read as it stands -/

section Reads

variable {dump : List Statement}

theorem blocksAt_append (start : ℕ) (before rest : List Statement) :
    blocksAt start (before ++ rest) =
      blocksAt start before ++ blocksAt (after start (before.flatMap Statement.lines)) rest := by
  induction before generalizing start with
  | nil => rfl
  | cons statement before ih =>
    have hafter : after (after start statement.lines) (before.flatMap Statement.lines) =
        after start ((statement :: before).flatMap Statement.lines) := by
      unfold after
      rw [List.flatMap_cons, unlines_append, List.length_append]
      omega
    cases statement with
    | block b =>
      rw [List.cons_append, blocksAt, blocksAt, ih, List.cons_append, ← hafter]
      rfl
    | other lines oneLine =>
      rw [List.cons_append, blocksAt, blocksAt, ih, ← hafter]
      rfl

theorem tableNames_append (before rest : List Statement) :
    tableNames (before ++ rest) = tableNames before ++ tableNames rest := List.filterMap_append

/-- Before the first block that ends with a clause, all are closed. -/
theorem exists_first_unclosed (h : ¬ ∀ statement ∈ dump, statement.Closed) :
    ∃ before b clause clauses rest, dump = before ++ .block b :: rest ∧
      (∀ statement ∈ before, statement.Closed) ∧ b.clauses = clause :: clauses := by
  induction dump with
  | nil => exact absurd nofun h
  | cons statement dump ih =>
    by_cases hfirst : statement.Closed
    · have hrest : ¬ ∀ other ∈ dump, other.Closed := fun hall ↦
        h (List.forall_mem_cons.mpr ⟨hfirst, hall⟩)
      obtain ⟨before, b, clause, clauses, rest, rfl, hbefore, hclauses⟩ := ih hrest
      exact ⟨statement :: before, b, clause, clauses, rest, rfl,
        List.forall_mem_cons.mpr ⟨hfirst, hbefore⟩, hclauses⟩
    · cases statement with
      | other => exact absurd trivial hfirst
      | block b =>
        cases hclauses : b.clauses with
        | nil => exact absurd hclauses hfirst
        | cons clause clauses => exact ⟨[], b, clause, clauses, dump, rfl, nofun, hclauses⟩

/-- A dump with a block that ends with a clause is not read as it stands. -/
theorem not_exact_of_unclosed (hlegible : ∀ statement ∈ dump, statement.Legible)
    (hclosed : ¬ ∀ statement ∈ dump, statement.Closed) :
    ¬ Exact ((place 0 (dump.flatMap Statement.lines)).foldl scanRow ⟨fun _ ↦ none, none⟩).tables
      dump := by
  intro hexact
  obtain ⟨before, b, clause, clauses, rest, rfl, hbefore, hclauses⟩ :=
    exists_first_unclosed hclosed
  have hdistinct := hexact.distinct
  rw [tableNames_append] at hdistinct
  obtain ⟨-, hrest, hapart⟩ := List.nodup_append.mp hdistinct
  have hnames : tableNames (.block b :: rest) = b.name.name :: tableNames rest := rfl
  rw [hnames] at hrest hapart
  have hfresh : b.name.name ∉ tableNames before := fun hmem ↦
    hapart _ hmem _ List.mem_cons_self rfl
  have htitled : b.Titled := hlegible (.block b) (by simp)
  have hnew : readAll (fun _ ↦ none) (blocksAt 0 before) b.name.name = none :=
    readAll_of_notMem (by rwa [map_blocksAt])
  have hscan : (place 0 (before.flatMap Statement.lines)).foldl scanRow ⟨fun _ ↦ none, none⟩ =
      ⟨readAll (fun _ ↦ none) (blocksAt 0 before), none⟩ := scan_closed
    (fun statement hstatement ↦ hlegible statement (List.mem_append_left _ hstatement)) hbefore
  obtain ⟨word, hspoilt⟩ := spoilt_of_clause hclauses htitled hnew
    (after 0 (before.flatMap Statement.lines))
  have hfinal := hspoilt.statements
    (fun statement hstatement ↦ hlegible statement (by simp [hstatement]))
    (List.nodup_cons.mp hrest).1 (b.endAt_le_after _)
  have htext : place 0 ((before ++ .block b :: rest).flatMap Statement.lines) =
      place 0 (before.flatMap Statement.lines) ++
        (place (after 0 (before.flatMap Statement.lines)) b.lines ++
          place (after (after 0 (before.flatMap Statement.lines)) b.lines)
            (rest.flatMap Statement.lines)) := by
    rw [List.flatMap_append, List.flatMap_cons, place_append, place_append]
    rfl
  have hentry : (after 0 (before.flatMap Statement.lines), b) ∈
      blocksAt 0 (before ++ .block b :: rest) := by
    rw [blocksAt_append]
    exact List.mem_append_right _ List.mem_cons_self
  rw [htext, List.foldl_append, List.foldl_append, hscan] at hexact
  obtain ⟨table, htable, hspans⟩ := Option.map_eq_some_iff.mp (hexact.columns _ hentry)
  obtain ⟨span, hspan, hle⟩ := hfinal.closed table htable
  rw [hspans] at hspan
  exact absurd (lt_endAt_of_columnsAt hspan) (Nat.not_lt.mpr hle)

theorem Ident.oneLine_print (ident : Ident) : OnOneLine ident.print := by
  constructor
  all_goals
    intro hmem
    rcases Ident.mem_print hmem with hquote | hname
    · cases hquote
  · exact ident.oneLine.1 hname
  · exact ident.oneLine.2 hname

theorem OnOneLine.append {text other : Text} (h : OnOneLine text) (hother : OnOneLine other) :
    OnOneLine (text ++ other) := by
  constructor
  · intro hmem
    exact (List.mem_append.mp hmem).elim h.1 hother.1
  · intro hmem
    exact (List.mem_append.mp hmem).elim h.2 hother.2

theorem Block.oneLine_header (b : Block) : OnOneLine b.header := by
  have hcreate : OnOneLine "CREATE TABLE ".toList := by unfold OnOneLine; decide
  have hparen : OnOneLine " (".toList := by unfold OnOneLine; decide
  have hdot : OnOneLine ['.'] := by unfold OnOneLine; decide
  refine hcreate.append (OnOneLine.append ?_ hparen)
  unfold Block.qualified
  cases b.schema with
  | none => exact b.name.oneLine_print
  | some schema => exact (schema.oneLine_print.append hdot).append b.name.oneLine_print

theorem exists_item_of_line {items : List Item} {line : Text} (h : line ∈ itemLines items) :
    ∃ item : Item, line = item.line ∨ line = item.line ++ [','] := by
  induction items with
  | nil => cases h
  | cons item items ih =>
    cases items with
    | nil => exact ⟨item, .inl (List.mem_singleton.mp h)⟩
    | cons next items =>
      rcases List.mem_cons.mp h with rfl | hlater
      · exact ⟨item, .inr rfl⟩
      · exact ih hlater

theorem Item.oneLine (item : Item) : OnOneLine item.line := by
  have hindent : OnOneLine "    ".toList := by unfold OnOneLine; decide
  have hblank : OnOneLine [' '] := by unfold OnOneLine; decide
  cases item with
  | column name definition =>
    exact hindent.append (name.oneLine_print.append (hblank.append definition.oneLine))
  | constraint c => exact hindent.append c.oneLine

theorem Clause.oneLine (clause : Clause) : OnOneLine clause.line := by
  have hparen : OnOneLine [')'] := by unfold OnOneLine; decide
  cases clause with
  | inherits parents oneLine =>
    have hword : OnOneLine "INHERITS (".toList := by unfold OnOneLine; decide
    exact (hword.append oneLine).append hparen
  | partitionBy key oneLine ends =>
    have hword : OnOneLine "PARTITION BY ".toList := by unfold OnOneLine; decide
    exact hword.append oneLine
  | storage options oneLine =>
    have hword : OnOneLine "WITH (".toList := by unfold OnOneLine; decide
    exact (hword.append oneLine).append hparen

/-- No line of a dump has a line end in it. -/
theorem Statement.oneLine (statement : Statement) : ∀ line ∈ statement.lines, OnOneLine line := by
  cases statement with
  | other lines oneLine => exact oneLine
  | block b =>
    intro line hline
    have hcomma : OnOneLine [','] := by unfold OnOneLine; decide
    have hsemicolon : OnOneLine [';'] := by unfold OnOneLine; decide
    rcases List.mem_append.mp hline with hheader | hend
    · rcases List.mem_cons.mp hheader with rfl | hitem
      · exact b.oneLine_header
      · obtain ⟨item, hprints⟩ := exists_item_of_line hitem
        rcases hprints with rfl | rfl
        · exact item.oneLine
        · exact item.oneLine.append hcomma
    · unfold Block.endLines at hend
      split at hend
      · rw [List.mem_singleton.mp hend]
        unfold OnOneLine
        decide
      · rcases List.mem_cons.mp hend with rfl | hclause
        · unfold OnOneLine
          decide
        · obtain ⟨clause, rfl | rfl⟩ := mem_clauseLines hclause
          · exact clause.oneLine
          · exact clause.oneLine.append hsemicolon

theorem parse_dumpText (dump : List Statement) :
    parseStructureSqlText (dumpText dump) =
      ((place 0 (dump.flatMap Statement.lines)).foldl scanRow ⟨fun _ ↦ none, none⟩).tables := by
  unfold parseStructureSqlText rows dumpText
  rw [rowsFrom_unlines]
  intro line hline
  obtain ⟨statement, hstatement, hmem⟩ := List.mem_flatMap.mp hline
  exact statement.oneLine line hmem

end Reads

/-! ### A table with its partitions -/

section Partitions

/-- A bare identifier. -/
def bareIdent (name : Text) (h : IsBare name) (hline : OnOneLine name) : Ident where
  name := name
  quoted := false
  nonempty := by
    obtain ⟨⟨c, rest, rfl, -⟩, -⟩ := h
    exact List.cons_ne_nil _ _
  oneLine := hline
  bare _ := h

def integerType : Definition where
  text := "integer".toList
  oneLine := by unfold OnOneLine; decide
  starts := ⟨'i', _, rfl, by decide⟩
  ends := ⟨"intege".toList, 'r', rfl, by decide, by decide⟩
  typed := by decide

/-- `CREATE TABLE m ( id integer )`, with what follows it. -/
def tableOfIds (clauses : List Clause) : Block where
  schema := none
  name := bareIdent ['m'] ⟨⟨'m', [], rfl, by decide⟩, List.forall_mem_singleton.mpr (by decide)⟩
    (by unfold OnOneLine; decide)
  items := [.column
    (bareIdent ['i', 'd'] ⟨⟨'i', ['d'], rfl, by decide⟩,
      List.forall_mem_cons.mpr ⟨by decide, List.forall_mem_singleton.mpr (by decide)⟩⟩
      (by unfold OnOneLine; decide))
    integerType]
  clauses := clauses
  distinct := List.nodup_singleton _

theorem tableOfIds_titled (clauses : List Clause) : (tableOfIds clauses).Titled := by
  have hname : '.' ∉ ['m'] ∧ '(' ∉ ['m'] ∧ '"' ∉ ['m'] := by decide
  exact ⟨hname.1, hname.2.1, hname.2.2, nofun⟩

end Partitions

end Itaruby.StructureSql

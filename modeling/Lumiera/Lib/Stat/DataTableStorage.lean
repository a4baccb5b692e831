import Lumiera.Lib.Stat.DataTableRows

/-! # Saving a table and loading it again

The rows saved are found again, in their order, when all the values are legible; the same holds for
the lines rendered, as long as the rows can be counted by the loop. Only a character is illegible at
times. A line which is not well formed is another matter: a row has been added already when the
exception is raised, and for some of these lines there is no exception. -/

namespace Lumiera.Lib.Stat

open List

open Parse (isSpace)

/-- A text has no quotes and no line breaks. -/
def PlainText (s : Text) : Prop := ∀ c ∈ s, isUnquoted c = true ∧ (c == '\n') = false

instance (s : Text) : Decidable (PlainText s) :=
  List.decidableBAll _ s

/-- The values which are considered: texts are without quotes and line breaks. -/
def PlainValue : (type : ValueType) → type.Value → Prop
  | .text, s => PlainText s
  | _, _ => True

instance : ∀ (type : ValueType) (val : type.Value), Decidable (PlainValue type val)
  | .integral _, _ => .isTrue trivial
  | .character, _ => .isTrue trivial
  | .boolean, _ => .isTrue trivial
  | .text, s => inferInstanceAs (Decidable (PlainText s))

namespace DataTable

variable {t u : DataTable}

/-! ## What is required -/

/-- **The tables considered**: headers and texts are without quotes and line breaks. -/
def Plain (t : DataTable) : Prop :=
  (∀ col ∈ t.columns, PlainText col.header) ∧ ∀ cells ∈ t.rows, ∀ cell ∈ cells, PlainValue cell.1 cell.2

instance (t : DataTable) : Decidable t.Plain :=
  inferInstanceAs (Decidable ((∀ col ∈ t.columns, PlainText col.header) ∧
    ∀ cells ∈ t.rows, ∀ cell ∈ cells, PlainValue cell.1 cell.2))

/-- A new table with the same columns. -/
def initial (t : DataTable) : DataTable :=
    { t with columns := t.columns.map fun col => { col with data := [] } }

/-- **What is saved is found again**: the newest rows up to the limit, in their order. -/
def RoundTrips (t : DataTable) (lineLimit : ℕ) : Prop :=
  ∃ content t', t.saveData lineLimit = .ok content ∧
    t.initial.loadData ⟨true, some content, true⟩ = (t', none) ∧
    t'.form = t.form ∧ t'.rows = t.rows.drop (t.size - min lineLimit t.size)

/-- **The rows rendered are reproduced**, behind the rows of the table they are appended to. -/
def Reproduces (t u : DataTable) : Prop :=
  ∃ rounds csv u', t.renderCSV rounds = some (.ok csv) ∧ u.appendFrom csv = (u', none) ∧
    u'.form = u.form ∧ u'.rows = u.rows ++ t.rows

/-- **A malformed line is reported** and adds no row. -/
def RejectsMalformed (u : DataTable) (line : Text) : Prop :=
  ¬ WellFormed u.types line → ∃ u' e, u.appendRowFromCSV line = (u', some e) ∧ u'.rows = u.rows

/-- All the values in these rows are legible. -/
def LegibleRows (rows : List (List Cell)) : Prop := ∀ cells ∈ rows, ∀ cell ∈ cells, Legible cell.1 cell.2

instance (rows : List (List Cell)) : Decidable (LegibleRows rows) :=
  inferInstanceAs (Decidable (∀ cells ∈ rows, ∀ cell ∈ cells, Legible cell.1 cell.2))

/-! ## The header -/

/-- The header of a column, as a value. -/
def headerCell (col : Column) : Cell := ⟨.text, col.header⟩

theorem generateHeaderSpec_of_form (h : u.form = t.form) : u.generateHeaderSpec = t.generateHeaderSpec := by
  have hmap := congrArg (List.map fun f : Text × ValueType => (⟨.text, f.1⟩ : Cell)) h
  rw [form, form, map_map, map_map] at hmap
  exact congrArg csvLine hmap

/-- The header is verified in the line rendered for these columns. -/
theorem verifyHeaders_rendered (path : FilePath) {cols : List Column} {col : Column} {csv : CsvParser}
    (h : ∀ c ∈ col :: cols, PlainText c.header)
    (hstanding : csv.Standing (format4Csv .text col.header ++ furtherFields (cols.map headerCell))) :
    verifyHeaders path (col :: cols) csv = .ok () := by
  induction cols generalizing col csv with
  | nil =>
    have hlegible : Legible .text col.header := fun c hc => (h col (mem_cons_self ..) c hc).1
    have hlead := (field_format4Csv hlegible).1.leading (atDelimiter_furtherFields [])
    obtain ⟨csv', hnext, -⟩ := hstanding.next_nil (congrArg Prod.snd hlead)
    have hfound : (leadingField (format4Csv .text col.header ++ furtherFields ([].map headerCell))).1 =
        col.header := congrArg Prod.fst hlead
    rw [verifyHeaders, hstanding.field]
    dsimp only
    rw [if_neg (not_not_intro hfound), hnext]
    rfl
  | cons next cols ih =>
    have hlegible : Legible .text col.header := fun c hc => (h col (mem_cons_self ..) c hc).1
    have hlead := (field_format4Csv hlegible).1.leading
      (atDelimiter_furtherFields (headerCell next :: cols.map headerCell))
    obtain ⟨csv', hnext, hstanding'⟩ := hstanding.next_delimiter (congrArg Prod.snd hlead) rfl
    have hfound : (leadingField (format4Csv .text col.header ++
        furtherFields ((next :: cols).map headerCell))).1 = col.header := congrArg Prod.fst hlead
    rw [verifyHeaders, hstanding.field]
    dsimp only
    rw [if_neg (not_not_intro hfound), hnext]
    exact ih (fun c hc => h c (mem_cons_of_mem col hc)) hstanding'

theorem verifyHeaderSpec_generate (h : u.form = t.form) (hplain : ∀ col ∈ t.columns, PlainText col.header) :
    u.verifyHeaderSpec t.generateHeaderSpec = .ok () := by
  have hheaders : ∀ col ∈ u.columns, PlainText col.header := by
    intro col hcol
    have hmem : (col.header, col.type) ∈ t.form := h ▸ mem_map_of_mem hcol
    obtain ⟨c, hc, heq⟩ := mem_map.mp hmem
    have hheader : c.header = col.header := congrArg Prod.fst heq
    exact hheader ▸ hplain c hc
  rw [← generateHeaderSpec_of_form h, verifyHeaderSpec]
  cases hcols : u.columns with
  | nil => rfl
  | cons col cols =>
    have hline : u.generateHeaderSpec = format4Csv .text col.header ++ furtherFields
        (cols.map headerCell) := by
      rw [generateHeaderSpec, hcols]
      exact csvLine_cons (headerCell col) (cols.map headerCell)
    rw [hline]
    exact verifyHeaders_rendered u.filename_ (hcols ▸ hheaders) (CsvParser.standing_ofLine _)

/-! ## The lines of a file -/

theorem rawLines_line {line : Text} (h : ∀ c ∈ line, (c == '\n') = false) (rest : Text) :
    rawLines (line ++ '\n' :: rest) = line :: rawLines rest := by
  induction line with
  | nil => rfl
  | cons c line ih =>
    obtain ⟨hc, hline⟩ := forall_mem_cons.mp h
    rw [cons_append, rawLines, hc, if_neg Bool.false_ne_true, ih hline]

/-- The lines written are the lines read, when there is no line break within. -/
theorem rawLines_flatMap {lines : List Text} (h : ∀ line ∈ lines, ∀ c ∈ line, (c == '\n') = false) :
    rawLines (lines.flatMap (· ++ ['\n'])) = lines := by
  induction lines with
  | nil => rfl
  | cons line lines ih =>
    obtain ⟨hline, hlines⟩ := forall_mem_cons.mp h
    rw [flatMap_cons, append_assoc]
    exact (rawLines_line hline _).trans (congrArg _ (ih hlines))

theorem rows_take_succ {n : ℕ} (hn : n < t.size) : t.rows.take (n + 1) = t.rows.take n ++ [t.row n] := by
  rw [take_add_one, rows, getElem?_map, getElem?_range hn]
  rfl

theorem saveRows_eq (lineLimit : ℕ) {n : ℕ} (hn : n ≤ t.size) : t.saveRows lineLimit n =
    .ok ((((t.rows.take n).drop lineLimit).reverse.map csvLine).flatMap (· ++ ['\n'])) := by
  induction n with
  | zero => simp [saveRows]
  | succ n ih =>
    have hlength : (t.rows.take n).length = n := by
      rw [length_take, length_rows]
      omega
    rw [saveRows]
    by_cases hlimit : lineLimit < n + 1
    · rw [if_pos hlimit, formatCSVRow_eq hn, ih (Nat.le_of_succ_le hn), rows_take_succ hn,
        drop_append_of_le_length (by omega), reverse_append, map_append, flatMap_append]
      simp [Except.map]
    · rw [if_neg hlimit, drop_eq_nil_of_le
        (by rw [rows_take_succ hn, length_append, hlength]; simp; omega)]
      rfl

/-- The content of the file: the header, and the rows in reverse order. -/
theorem saveData_eq (lineLimit : ℕ) : t.saveData lineLimit = .ok (t.generateHeaderSpec ++ '\n' ::
    ((t.rows.drop (t.size - lineLimit)).reverse.map csvLine).flatMap (· ++ ['\n'])) := by
  have htake : t.rows.take t.size = t.rows := by rw [← length_rows, take_length]
  rw [saveData]
  dsimp only
  cases hempty : t.empty with
  | true =>
    have hsize : t.rows = [] := by
      rw [← length_eq_zero_iff, length_rows]
      simpa [empty] using hempty
    rw [hsize]
    simp
  | false =>
    have hlimit : (if lineLimit < t.size then t.size - lineLimit else 0) = t.size - lineLimit := by
      split <;> omega
    rw [hlimit, saveRows_eq _ le_rfl, htake]
    simp [Except.map]

/-! ## Legible rows -/

variable {cells : List Cell}

theorem ne_nil_of_mem_rows (h : cells ∈ t.rows) : cells ≠ [] := by
  rintro rfl
  have htypes : [] = t.columns.map Column.type := types_of_mem_rows h
  have hcolumns : t.columns = [] := map_eq_nil_iff.mp htypes.symm
  have hsize := length_rows t
  rw [size_of_columns_eq_nil hcolumns, length_eq_zero_iff] at hsize
  rw [hsize] at h
  cases h

theorem csvLine_ne_nil (h : cells ≠ []) : csvLine cells ≠ [] := by
  obtain ⟨cell, cells, rfl⟩ := exists_cons_of_ne_nil h
  rw [csvLine_cons]
  exact append_ne_nil_of_left_ne_nil (format4Csv_ne_nil cell.1 cell.2) _

/-- Some of the rows of a table. -/
def Kept (t : DataTable) (kept : List (List Cell)) : Prop := ∀ cells ∈ kept, cells ∈ t.rows

/-- Legible rows are read from the lines rendered. -/
theorem forall₂_of_legible {kept : List (List Cell)} (hkept : t.Kept kept) (h : LegibleRows kept) :
    List.Forall₂ (fun line row => line ≠ [] ∧ readRow t.types (.field line) = some row)
      (kept.map csvLine) kept := by
  rw [List.forall₂_map_left_iff, List.forall₂_same]
  intro cells hcells
  have hmem := hkept cells hcells
  refine ⟨csvLine_ne_nil (ne_nil_of_mem_rows hmem), ?_⟩
  rw [← types_of_mem_rows hmem]
  exact readRow_csvLine (ne_nil_of_mem_rows hmem) (h cells hcells)

variable {type : ValueType} {val : type.Value}

theorem quotable_of_plainValue (h : PlainValue type val) : Quotable type val := by
  cases type with
  | text => exact fun c hc => (h c hc).1
  | integral ty => trivial
  | character => trivial
  | boolean => trivial

/-- **Only legible rows are read** from the lines rendered, when no blanks and quotes are among the
characters. -/
theorem legible_of_forall₂ {kept read : List (List Cell)} (hkept : t.Kept kept) (hplain : t.Plain)
    (hclean : ∀ cells ∈ kept, ∀ cell ∈ cells, Clean cell.1 cell.2)
    (h : List.Forall₂ (fun line row => readRow t.types (.field line) = some row)
      ((kept.map csvLine).filter (· ≠ [])) read) : LegibleRows kept := by
  intro cells hcells
  have hmem := hkept cells hcells
  have hline : csvLine cells ∈ (kept.map csvLine).filter (· ≠ []) :=
    mem_filter.mpr ⟨mem_map_of_mem hcells, by simpa using csvLine_ne_nil (ne_nil_of_mem_rows hmem)⟩
  obtain ⟨row, hrow⟩ : ∃ row, readRow t.types (.field (csvLine cells)) = some row := by
    generalize (kept.map csvLine).filter (· ≠ []) = lines at h hline
    induction h with
    | nil => cases hline
    | @cons _ row _ _ hread _ ih =>
      obtain rfl | hline := mem_cons.mp hline
      · exact ⟨row, hread⟩
      · exact ih hline
  rw [← types_of_mem_rows hmem] at hrow
  exact legible_of_readRow_csvLine (hclean cells hcells)
    (fun cell hcell => quotable_of_plainValue (hplain.2 cells hmem cell hcell)) hrow

theorem clean_of_forall₂ {types : List ValueType} {lines : List Text} {read : List (List Cell)}
    (h : List.Forall₂ (fun line row => readRow types (.field line) = some row) lines read) :
    ∀ cells ∈ read, ∀ cell ∈ cells, Clean cell.1 cell.2 := by
  induction h with
  | nil => exact nofun
  | cons hread _ ih => exact forall_mem_cons.mpr ⟨clean_of_readRow hread, ih⟩

theorem clean_of_legible (h : Legible type val) : Clean type val := by
  cases type with
  | character =>
    obtain ⟨-, hquote, hspace⟩ := isTokenChar_iff.mp h
    exact ⟨hspace, by simpa [isUnquoted] using hquote⟩
  | integral ty => trivial
  | boolean => trivial
  | text => trivial

theorem format4Csv_unbroken (hplain : PlainValue type val) (hclean : Clean type val) :
    ∀ c ∈ format4Csv type val, (c == '\n') = false := by
  have hspace {c : Char} (hc : isSpace c = false) : (c == '\n') = false := by
    refine beq_false_of_ne fun h => ?_
    rw [h] at hc
    cases hc
  cases type with
  | integral ty => exact fun c hc => hspace (isTokenChar_iff.mp (isTokenChar_of_mem_showInteger c hc)).2.2
  | character =>
    intro c hc
    obtain rfl : c = val := mem_singleton.mp hc
    exact hspace hclean.1
  | boolean => exact fun c hc => hspace (isTokenChar_iff.mp (isTokenChar_of_mem_showBool c hc)).2.2
  | text =>
    intro c hc
    obtain rfl | hc := mem_cons.mp hc
    · rfl
    · obtain hc | hc := mem_append.mp hc
      · exact (hplain c hc).2
      · obtain rfl := mem_singleton.mp hc
        rfl

theorem csvLine_unbroken (hplain : ∀ cell ∈ cells, PlainValue cell.1 cell.2)
    (hclean : ∀ cell ∈ cells, Clean cell.1 cell.2) : ∀ c ∈ csvLine cells, (c == '\n') = false := by
  cases cells with
  | nil => exact nofun
  | cons cell cells =>
    intro c hc
    rw [csvLine_cons] at hc
    obtain hc | hc := mem_append.mp hc
    · exact format4Csv_unbroken (hplain cell (mem_cons_self ..))
        (hclean cell (mem_cons_self ..)) c hc
    · obtain ⟨next, hnext, hc⟩ := mem_flatMap.mp hc
      obtain rfl | hc := mem_cons.mp hc
      · rfl
      · exact format4Csv_unbroken (hplain next (mem_cons_of_mem cell hnext))
          (hclean next (mem_cons_of_mem cell hnext)) c hc

theorem headerLine_unbroken (hplain : ∀ col ∈ t.columns, PlainText col.header) :
    ∀ c ∈ t.generateHeaderSpec, (c == '\n') = false := by
  apply csvLine_unbroken
  · intro cell hcell
    obtain ⟨col, hcol, rfl⟩ := mem_map.mp hcell
    exact hplain col hcol
  · intro cell hcell
    obtain ⟨col, -, rfl⟩ := mem_map.mp hcell
    trivial

/-! ## Saving and loading -/

theorem initial_form (t : DataTable) : t.initial.form = t.form := by simp [form, initial, Function.comp_def]

theorem initial_rows (t : DataTable) : t.initial.rows = [] := by
  rw [← length_eq_zero_iff, length_rows]
  by_cases hne : t.initial.columns = []
  · exact size_of_columns_eq_nil hne
  · apply size_eq hne
    intro col hcol
    obtain ⟨c, -, rfl⟩ := mem_map.mp hcol
    rfl

theorem loadData_eq (hplain : ∀ col ∈ t.columns, PlainText col.header) (rest : Text) :
    t.initial.loadData ⟨true, some (t.generateHeaderSpec ++ '\n' :: rest), true⟩ =
      t.initial.appendRows (rawLines rest).reverse := by
  rw [loadData, Bool.or_true, Bool.not_true, if_neg Bool.false_ne_true]
  dsimp only
  rw [if_neg Bool.false_ne_true, rawLines_line (headerLine_unbroken hplain)]
  dsimp only
  rw [verifyHeaderSpec_generate (initial_form t) hplain]

theorem drop_min (t : DataTable) (lineLimit : ℕ) :
    t.rows.drop (t.size - min lineLimit t.size) = t.rows.drop (t.size - lineLimit) := by
  congr 1
  omega

/-- A table is found again after saving it if and only if the rows saved are legible. -/
theorem roundTrips_iff (hplain : t.Plain) (lineLimit : ℕ) :
    RoundTrips t lineLimit ↔ LegibleRows (t.rows.drop (t.size - lineLimit)) := by
  have hkept : t.Kept (t.rows.drop (t.size - lineLimit)) := fun cells hcells => mem_of_mem_drop hcells
  have htypes : t.initial.types = t.types := types_of_form (initial_form t)
  generalize hrows : t.rows.drop (t.size - lineLimit) = kept at hkept
  -- the lines of the file, unless a character breaks them
  have hlines (hclean : ∀ cells ∈ kept, ∀ cell ∈ cells, Clean cell.1 cell.2) :
      (rawLines ((kept.reverse.map csvLine).flatMap (· ++ ['\n']))).reverse = kept.map csvLine := by
    rw [rawLines_flatMap, ← map_reverse, reverse_reverse]
    intro line hline
    obtain ⟨cells, hcells, rfl⟩ := mem_map.mp hline
    have hmem := mem_reverse.mp hcells
    exact csvLine_unbroken (hplain.2 cells (hkept cells hmem)) (hclean cells hmem)
  constructor
  · rintro ⟨content, t', hsave, hload, -, ht'⟩
    rw [saveData_eq, hrows] at hsave
    rw [drop_min, hrows] at ht'
    rw [← Except.ok.inj hsave, loadData_eq hplain.1] at hload
    obtain ⟨cells, hcells, hread⟩ := appendRows_ok hload
    rw [initial_rows, ht'] at hcells
    subst hcells
    have hclean := clean_of_forall₂ hread
    rw [hlines hclean, htypes] at hread
    exact legible_of_forall₂ hkept hplain hclean hread
  · intro hlegible
    have hclean : ∀ cells ∈ kept, ∀ cell ∈ cells, Clean cell.1 cell.2 := fun cells hcells cell hcell =>
      clean_of_legible (hlegible cells hcells cell hcell)
    have hforall := forall₂_of_legible hkept hlegible
    rw [← htypes] at hforall
    obtain ⟨t', happend, hrows', hform⟩ := appendRows_of_some hforall
    refine ⟨_, t', saveData_eq lineLimit, ?_, hform.trans (initial_form t), ?_⟩
    · rw [loadData_eq hplain.1, hrows, hlines hclean, happend]
    · rw [drop_min, hrows, hrows', initial_rows, nil_append]

/-! ## Rendering and appending -/

theorem renderRows_eq (hsize : t.size < 2 ^ 32) (rounds : ℕ) {i : ℕ} (hi : i ≤ t.size)
    (hrounds : t.size < i + rounds) : t.renderRows rounds i = some (.ok ((t.rows.drop i).map csvLine)) := by
  induction rounds generalizing i with
  | zero => omega
  | succ rounds ih =>
    rw [renderRows]
    by_cases hlt : i < t.size
    · have hrow : t.rows.drop i = t.row i :: t.rows.drop (i + 1) := by
        rw [drop_eq_getElem_cons (by rw [length_rows]; exact hlt)]
        simp [rows]
      rw [if_pos hlt, formatCSVRow_eq hlt]
      rw [Nat.mod_eq_of_lt (by omega), ih hlt (by omega), hrow]
      rfl
    · have hnil : t.rows.drop i = [] := drop_eq_nil_of_le (by rw [length_rows]; omega)
      rw [if_neg hlt, hnil]
      rfl

theorem renderRows_of_some (hsize : t.size < 2 ^ 32) {rounds : ℕ} {i : ℕ} (hi : i ≤ t.size)
    {lines : Except Error (List Text)} (h : t.renderRows rounds i = some lines) :
    lines = .ok ((t.rows.drop i).map csvLine) := by
  induction rounds generalizing i lines with
  | zero => cases h
  | succ rounds ih =>
    rw [renderRows] at h
    by_cases hlt : i < t.size
    · have hrow : t.rows.drop i = t.row i :: t.rows.drop (i + 1) := by
        rw [drop_eq_getElem_cons (by rw [length_rows]; exact hlt)]
        simp [rows]
      rw [if_pos hlt, formatCSVRow_eq hlt] at h
      rw [Nat.mod_eq_of_lt (by omega)] at h
      obtain ⟨others, hothers, rfl⟩ := Option.map_eq_some_iff.mp h
      rw [ih hlt hothers, hrow]
      rfl
    · have hnil : t.rows.drop i = [] := drop_eq_nil_of_le (by rw [length_rows]; omega)
      rw [if_neg hlt] at h
      rw [← Option.some.inj h, hnil]
      rfl

theorem renderRows_eq_none (hsize : 2 ^ 32 ≤ t.size) (rounds : ℕ) {i : ℕ} (hi : i < 2 ^ 32) :
    t.renderRows rounds i = none := by
  induction rounds generalizing i with
  | zero => rfl
  | succ rounds ih =>
    have hlt : i < t.size := by omega
    rw [renderRows, if_pos hlt, formatCSVRow_eq hlt]
    rw [ih (Nat.mod_lt _ (by decide))]
    rfl

/-- The rows rendered are reproduced if and only if they are legible and can be counted. -/
theorem reproduces_iff (hplain : t.Plain) (hform : u.form = t.form) :
    Reproduces t u ↔ t.size < 2 ^ 32 ∧ LegibleRows t.rows := by
  have hkept : t.Kept t.rows := fun _ h => h
  have htypes : u.types = t.types := types_of_form hform
  have happendFrom : u.appendFrom (t.generateHeaderSpec :: t.rows.map csvLine) =
      u.appendRows (t.rows.map csvLine) := by
    rw [appendFrom, verifyHeaderSpec_generate hform hplain.1]
  constructor
  · rintro ⟨rounds, csv, u', hrender, happend, -, hrows⟩
    obtain ⟨lines, hlines, hcsv⟩ := Option.map_eq_some_iff.mp hrender
    have hsize : t.size < 2 ^ 32 := by
      by_contra hge
      rw [renderRows_eq_none (Nat.not_lt.mp hge) rounds (by decide)] at hlines
      cases hlines
    rw [renderRows_of_some hsize (Nat.zero_le _) hlines] at hcsv
    rw [← Except.ok.inj hcsv] at happend
    obtain ⟨cells, hcells, hread⟩ := appendRows_ok (happendFrom.symm.trans happend)
    obtain rfl := append_cancel_left (hrows.symm.trans hcells)
    rw [htypes] at hread
    exact ⟨hsize, legible_of_forall₂ hkept hplain (clean_of_forall₂ hread) hread⟩
  · rintro ⟨hsize, hlegible⟩
    have hforall := forall₂_of_legible hkept hlegible
    rw [← htypes] at hforall
    obtain ⟨u', happend, hrows, hu'⟩ := appendRows_of_some hforall
    refine ⟨t.size + 1, t.generateHeaderSpec :: t.rows.map csvLine, u', ?_,
      happendFrom.trans happend, hu', hrows⟩
    rw [renderCSV, renderRows_eq hsize _ (Nat.zero_le _) (by omega)]
    rfl

/-! ## Malformed lines -/

/-- No malformed line is rejected without adding a row, in a table with columns. -/
theorem rejectsMalformed_iff (u : DataTable) (line : Text) :
    RejectsMalformed u line ↔ WellFormed u.types line ∨ u.columns = [] := by
  constructor
  · intro h
    by_contra hnot
    obtain ⟨hmalformed, hne⟩ := not_or.mp hnot
    obtain ⟨u', e, happend, hrows⟩ := h hmalformed
    cases hread : readRow u.types (.field line) with
    | some cells =>
      obtain ⟨v, hv, -⟩ := appendRowFromCSV_of_some hread
      rw [hv] at happend
      cases happend
    | none =>
      obtain ⟨v, e', hv, -, hsize⟩ := appendRowFromCSV_of_none hread
      obtain rfl : v = u' := congrArg Prod.fst (hv.symm.trans happend)
      have hlength := congrArg List.length hrows
      rw [length_rows, length_rows, hsize hne] at hlength
      omega
  · rintro (hline | hcolumns) hmalformed
    · exact absurd hline hmalformed
    · have htypes : u.types = [] := by rw [types, hcolumns]; rfl
      have hread : readRow u.types (.field line) = none := by rw [htypes]; rfl
      obtain ⟨u', e, happend, hform, -⟩ := appendRowFromCSV_of_none hread
      refine ⟨u', e, happend, ?_⟩
      have hcolumns' : u'.columns = [] := by
        rw [form, form, hcolumns] at hform
        exact map_eq_nil_iff.mp hform
      rw [rows, rows, size_of_columns_eq_nil hcolumns, size_of_columns_eq_nil hcolumns']
      rfl

/-! ## The storage as a whole -/

/-- **Rows are stored as CSV data and found again** if and only if the values are legible, and can
be counted when they are rendered; a malformed line is rejected only by a table without columns. -/
theorem csvStorage_iff (hplain : t.Plain) (hform : u.form = t.form) (lineLimit : ℕ) (line : Text) :
    (RoundTrips t lineLimit ↔ LegibleRows (t.rows.drop (t.size - lineLimit))) ∧
      (Reproduces t u ↔ t.size < 2 ^ 32 ∧ LegibleRows t.rows) ∧
      (RejectsMalformed u line ↔ WellFormed u.types line ∨ u.columns = []) :=
  ⟨roundTrips_iff hplain lineLimit, reproduces_iff hplain hform, rejectsMalformed_iff u line⟩

/-- Names and numbers; one of the names is empty. -/
def names : DataTable :=
  ⟨⟨[], "names.csv".toList⟩, [⟨"the name".toList, .text, ["a, b;".toList, []]⟩,
    ⟨"n".toList, .integral ⟨16, true⟩, [⟨-5, by decide⟩, ⟨7, by decide⟩]⟩]⟩

theorem wellFormed_names : WellFormed names.types "x; 3".toList := by
  refine ⟨["x".toList, "3".toList], ?_, .cons trivial (.cons ?_ .nil)⟩
  · have hname : Field ['x'] ['x'] := field_token (all_eq_true.mp (by decide))
    have hnumber : Field ([' '] ++ (['3'] ++ [])) ['3'] :=
      .token (all_eq_true.mp (by decide)) (all_eq_true.mp (by decide)) nofun
    exact .more hname (by decide) (.last hnumber)
  · exact ⟨[], ['3'], [], rfl, nofun, nofun, false, ['3'],
      .inl ⟨rfl, rfl⟩, by decide, all_eq_true.mp (by decide), by decide, by decide⟩

theorem csvStorage_iff_names : RoundTrips names 1 ∧ Reproduces names names.initial ∧
    RejectsMalformed names.initial "x; 3".toList := by
  have hplain : names.Plain := by decide
  have hform : names.initial.form = names.form := rfl
  obtain ⟨hsaved, hrendered, hline⟩ := csvStorage_iff hplain hform 1 "x; 3".toList
  exact ⟨hsaved.mpr (by decide), hrendered.mpr (by decide), hline.mpr (.inl wellFormed_names)⟩

/-- A single column of numbers, without rows. -/
def counters : DataTable := ⟨⟨[], []⟩, [⟨"n".toList, .integral ⟨32, true⟩, []⟩]⟩

/-- A single column of characters, with a comma. -/
def letters : DataTable := ⟨⟨[], []⟩, [⟨"c".toList, .character, [',']⟩]⟩

theorem field_of_wellFormed {line : Text} (h : WellFormed [type] line) :
    (leadingField line).2 = [] ∧ Denotes type (leadingField line).1 := by
  obtain ⟨fields, hline, hdenotes⟩ := h
  cases hdenotes with
  | cons hfield hrest =>
    cases hrest
    obtain ⟨hcontent, ⟨hend, -⟩ | ⟨d, rest, -, -, hmore⟩⟩ := line_cons_iff.mp hline
    · exact ⟨hend, hcontent ▸ hfield⟩
    · exact absurd hmore (not_line_nil rest)

theorem mem_of_denotes_integral {ty : IntegralType} {content : Text} (h : Denotes (.integral ty) content) :
    ∀ c ∈ content, isSpace c = true ∨ c = '+' ∨ c = '-' ∨ c.isDigit = true := by
  obtain ⟨before, s, after, rfl, hbefore, hafter, negative, digits, hs, -, hdigits, -⟩ := h
  intro c hc
  obtain hc | hc := mem_append.mp hc
  · exact .inl (hbefore c hc)
  obtain hc | hc := mem_append.mp hc
  · obtain ⟨rfl, -⟩ | ⟨rfl, -⟩ | ⟨rfl, -⟩ := hs
    · exact .inr (.inr (.inr (hdigits c hc)))
    · obtain rfl | hc := mem_cons.mp hc
      · exact .inr (.inl rfl)
      · exact .inr (.inr (.inr (hdigits c hc)))
    · obtain rfl | hc := mem_cons.mp hc
      · exact .inr (.inr (.inl rfl))
      · exact .inr (.inr (.inr (hdigits c hc)))
  · exact .inl (hafter c hc)

/-- **A line with an excess field** leaves a row behind; a number with something else behind it is
not reported; and a comma is not found again as a character. -/
theorem not_csvStorage : (counters.Plain ∧ ¬ RejectsMalformed counters "5,6".toList) ∧
    (¬ WellFormed counters.types "5x".toList ∧ (counters.appendRowFromCSV "5x".toList).2 = none) ∧
    letters.Plain ∧ ¬ RoundTrips letters 1 := by
  refine ⟨⟨by decide, ?_⟩, ⟨?_, ?_⟩, by decide, ?_⟩
  · rw [rejectsMalformed_iff]
    rintro (h | h)
    · exact absurd (field_of_wellFormed h).1 (by decide)
    · cases h
  · intro h
    have hmem := mem_of_denotes_integral (field_of_wellFormed h).2 'x' (by decide)
    revert hmem
    decide
  · have hread : readRow counters.types (.field "5x".toList) =
        some [⟨.integral ⟨32, true⟩, ⟨5, by decide⟩⟩] := rfl
    obtain ⟨t', happend, -⟩ := appendRowFromCSV_of_some hread
    rw [happend]
  · rw [roundTrips_iff (by decide)]
    decide

end DataTable

end Lumiera.Lib.Stat

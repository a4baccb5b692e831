import Lumiera.Lib.Stat.DataTable

/-! # The rows of a data table

What appending a line does to the rows: when a row can be read from the line, then this row is added
behind the others, which stay as they are. Otherwise there is an exception, and yet the table has
got one more row. -/

namespace Lumiera.Lib.Stat

open List

namespace DataTable

variable {t : DataTable}

/-- The types of the columns. -/
def types (t : DataTable) : List ValueType := t.columns.map Column.type

/-- Headers and types of the columns, which are fixed in the program. -/
def form (t : DataTable) : List (Text × ValueType) := t.columns.map fun col => (col.header, col.type)

/-- **The rows of the table.** -/
def rows (t : DataTable) : List (List Cell) := (List.range t.size).map t.row

theorem length_rows (t : DataTable) :
    t.rows.length = t.size := by rw [rows, length_map, length_range]

theorem types_of_form {u : DataTable} (h : t.form = u.form) : t.types = u.types := by
  have hmap := congrArg (List.map Prod.snd) h
  simpa [form, types, Function.comp_def] using hmap

/-! ## The size -/

theorem foldl_min_le (cols : List Column) (n : ℕ) : cols.foldl (fun rowCnt col => min rowCnt col.data.length) n ≤ n ∧
    ∀ col ∈ cols, cols.foldl (fun rowCnt col => min rowCnt col.data.length) n ≤ col.data.length := by
  induction cols generalizing n with
  | nil => exact ⟨le_rfl, nofun⟩
  | cons col cols ih =>
    obtain ⟨hinit, hcols⟩ := ih (min n col.data.length)
    refine ⟨hinit.trans (min_le_left _ _), forall_mem_cons.mpr ⟨hinit.trans (min_le_right _ _), hcols⟩⟩

variable {cols : List Column} {n : ℕ}

theorem foldl_min_eq (h : ∀ col ∈ cols, col.data.length = n) :
    cols.foldl (fun rowCnt col => min rowCnt col.data.length) n = n := by
  induction cols with
  | nil => rfl
  | cons col cols ih =>
    rw [foldl_cons, h col (mem_cons_self ..), min_self]
    exact ih fun c hc => h c (mem_cons_of_mem col hc)

variable {col : Column}

theorem size_le (h : col ∈ t.columns) : t.size ≤ col.data.length := by
  obtain ⟨filename_, columns⟩ := t
  cases columns with
  | nil => cases h
  | cons first cols =>
    obtain ⟨hfirst, hcols⟩ := foldl_min_le cols first.data.length
    obtain rfl | hmem := mem_cons.mp h
    · exact hfirst
    · exact hcols col hmem

theorem size_eq (hne : t.columns ≠ []) (h : ∀ col ∈ t.columns, col.data.length = n) : t.size = n := by
  obtain ⟨filename_, columns⟩ := t
  cases columns with
  | nil => exact absurd rfl hne
  | cons first cols =>
    obtain ⟨hfirst, hcols⟩ := forall_mem_cons.mp h
    change cols.foldl (fun rowCnt col => min rowCnt col.data.length) first.data.length = n
    rw [hfirst]
    exact foldl_min_eq hcols

theorem size_of_columns_eq_nil (h : t.columns = []) : t.size = 0 := by
  rw [size, h]

theorem map_fst_row {i : ℕ} (hi : i < t.size) : (t.row i).map Sigma.fst = t.types := by
  have hlength : ∀ col ∈ t.columns, i < col.data.length := fun col hcol => hi.trans_le (size_le hcol)
  rw [row, types]
  generalize t.columns = cols at hlength
  induction cols with
  | nil => rfl
  | cons col cols ih =>
    obtain ⟨hcol, hcols⟩ := forall_mem_cons.mp hlength
    rw [filterMap_cons_some (b := ⟨col.type, col.data[i]⟩) (by simp [hcol]), map_cons,
      map_cons,
      ih hcols]

variable {cells : List Cell}

theorem types_of_mem_rows (h : cells ∈ t.rows) : cells.map Sigma.fst = t.types := by
  obtain ⟨i, hi, rfl⟩ := mem_map.mp h
  exact map_fst_row (mem_range.mp hi)

theorem formatCSVRow_eq {i : ℕ} (hi : i < t.size) : t.formatCSVRow i = .ok (csvLine (t.row i)) := by
  have hempty : t.empty = false := by simpa [empty] using (Nat.zero_lt_of_lt hi).ne'
  rw [formatCSVRow, hempty, if_neg Bool.false_ne_true, if_neg (Nat.not_le.mpr hi)]

/-! ## A new row -/

theorem length_resize (col : Column) (siz : ℕ) : (col.resize siz).data.length = siz := by
  simp [Column.resize]
  omega

theorem newRow_form (t : DataTable) : t.newRow.form = t.form := by
  simp [form, newRow, Column.resize]

theorem length_newRow (h : col ∈ t.newRow.columns) : col.data.length = t.size + 1 := by
  obtain ⟨c, -, rfl⟩ := mem_map.mp h
  exact length_resize c _

/-- Everything of a column but the values. -/
def shape (col : Column) : Text × ValueType × ℕ := (col.header, col.type, col.data.length)

/-- A value is set in the last row of each column. -/
inductive Assigned : List Column → List Cell → List Column → Prop
  | nil : Assigned [] [] []
  | cons {cols cols' : List Column} {cells : List Cell} (col : Column) (val : col.type.Value)
      (hrest : Assigned cols cells cols') :
      Assigned (col :: cols) (⟨col.type, val⟩ :: cells)
        ({ col with data := col.data.dropLast ++ [val] } :: cols')

theorem assign_eq (hne : col.data ≠ []) (val : col.type.Value) :
    col.assign val = .ok { col with data := col.data.dropLast ++ [val] } := by
  rw [Column.assign, isEmpty_eq_false_iff.mpr hne, if_neg Bool.false_ne_true]

theorem shape_assigned (hne : col.data ≠ []) (val : col.type.Value) :
    shape { col with data := col.data.dropLast ++ [val] } = shape col := by
  have hpos := length_pos_of_ne_nil hne
  simp [shape]
  omega

/-- Where the parser is about to go on. -/
def Ahead (csv : CsvParser) : Following → Prop
  | .finished => csv.Finished
  | .field s => csv.Standing s
  | .garbage => False

variable {csv : CsvParser}

/-- One step of the parser, to what follows after the field. -/
theorem next_ahead {s : Text} (h : csv.Standing s) :
    (∃ csv', csv.next = .ok csv' ∧ Ahead csv' (following (leadingField s).2)) ∨
      (∃ e, csv.next = .error e) ∧ following (leadingField s).2 = .garbage := by
  cases hrest : (leadingField s).2 with
  | nil => exact .inl (h.next_nil hrest)
  | cons d rest =>
    cases hd : isDelimiter d with
    | true =>
      rw [following_of_isDelimiter hd]
      exact .inl (h.next_delimiter hrest hd)
    | false => exact .inr ⟨h.next_garbage hrest hd, if_neg (by rw [hd]; exact Bool.false_ne_true)⟩

theorem readRow_garbage (types : List ValueType) : readRow types .garbage = none := by
  cases types <;> rfl

/-- The columns keep their shape, whatever is read. -/
theorem map_shape_fillColumns (n : ℕ) (line : Text) (cols : List Column) (csv : CsvParser) :
    (fillColumns n line cols csv).1.map shape = cols.map shape := by
  induction cols generalizing csv with
  | nil => rfl
  | cons col cols ih =>
    rw [fillColumns]
    split
    · cases csv.field with
      | error e => rfl
      | ok content =>
        dsimp only
        cases parseAs col.type content with
        | error e => rfl
        | ok val =>
          dsimp only
          by_cases hne : col.data = []
          · rw [Column.assign, hne]
            rfl
          · rw [assign_eq hne]
            cases csv.next with
            | error e => rw [map_cons, shape_assigned hne, map_cons]
            | ok csv' =>
              rw [map_cons, shape_assigned hne, ih, map_cons]
    · split <;> rfl

/-- All the columns are filled when a row can be read. -/
theorem fillColumns_of_some (n : ℕ) (line : Text) {ahead : Following} (hahead : Ahead csv ahead)
    (hdata : ∀ col ∈ cols, col.data ≠ []) (h : readRow (cols.map Column.type) ahead = some cells) : ∃ cols' csv',
    fillColumns n line cols csv = (cols', .ok csv') ∧ csv'.Finished ∧ Assigned cols cells cols' := by
  induction cols generalizing csv ahead cells with
  | nil =>
    cases ahead with
    | finished =>
      cases h
      exact ⟨[], csv, rfl, hahead, .nil⟩
    | field s => cases h
    | garbage => cases h
  | cons col cols ih =>
    obtain ⟨hcol, hcols⟩ := forall_mem_cons.mp hdata
    cases ahead with
    | finished => cases h
    | garbage => cases h
    | field s =>
      have hstanding : csv.Standing s := hahead
      cases hval : parseAs col.type (leadingField s).1 with
      | error e =>
        rw [map_cons, readRow_cons_of_error hval] at h
        cases h
      | ok val =>
        rw [map_cons, readRow_cons_of_ok hval] at h
        obtain ⟨others, hothers, rfl⟩ := Option.map_eq_some_iff.mp h
        obtain ⟨csv', hnext, hahead'⟩ | ⟨-, hgarbage⟩ := next_ahead hstanding
        · obtain ⟨cols', csv'', hfill, hfinished, hassigned⟩ := ih hahead' hcols hothers
          refine ⟨_, csv'', ?_, hfinished, .cons col val hassigned⟩
          rw [fillColumns, if_pos hstanding.isValid, hstanding.field]
          dsimp only
          rw [hval]
          dsimp only
          rw [assign_eq hcol, hnext]
          dsimp only
          rw [hfill]
        · rw [hgarbage, readRow_garbage] at hothers
          cases hothers

/-- Otherwise there is an exception, or there is another field left. -/
theorem fillColumns_of_none (n : ℕ) (line : Text) {csv' : CsvParser} {ahead : Following}
    (hahead : Ahead csv ahead) (hdata : ∀ col ∈ cols, col.data ≠ []) (h : readRow (cols.map Column.type) ahead = none)
    (hfill : (fillColumns n line cols csv).2 = .ok csv') : csv'.isValid = true := by
  induction cols generalizing csv ahead with
  | nil =>
    obtain rfl := Except.ok.inj hfill
    cases ahead with
    | finished => cases h
    | field s =>
      have hstanding : csv.Standing s := hahead
      exact hstanding.isValid
    | garbage => cases hahead
  | cons col cols ih =>
    obtain ⟨hcol, hcols⟩ := forall_mem_cons.mp hdata
    cases ahead with
    | garbage => cases hahead
    | finished =>
      have hfinished : csv.Finished := hahead
      rw [fillColumns, if_neg (by rw [hfinished.isValid]; exact Bool.false_ne_true),
        if_neg (by rw [hfinished.isParseFail]; exact Bool.false_ne_true)] at hfill
      cases hfill
    | field s =>
      have hstanding : csv.Standing s := hahead
      rw [fillColumns, if_pos hstanding.isValid, hstanding.field] at hfill
      dsimp only at hfill
      cases hval : parseAs col.type (leadingField s).1 with
      | error e =>
        rw [hval] at hfill
        cases hfill
      | ok val =>
        rw [hval] at hfill
        dsimp only at hfill
        rw [assign_eq hcol] at hfill
        obtain ⟨next, hnext, hahead'⟩ | ⟨⟨e, he⟩, -⟩ := next_ahead hstanding
        · rw [hnext] at hfill
          rw [map_cons, readRow_cons_of_ok hval, Option.map_eq_none_iff] at h
          exact ih hahead' hcols h hfill
        · rw [he] at hfill
          cases hfill

/-! ## Appending one row -/

/-- The value of a column in one row. -/
def cellAt (col : Column) (i : ℕ) : Option Cell := col.data[i]?.map (⟨col.type, ·⟩)

theorem take_resize {A : Type} (data : List A) (init : A) (h : n ≤ data.length) :
    (data.take (n + 1) ++ List.replicate (n + 1 - data.length) init).dropLast = data.take n := by
  have hlength : (data.take (n + 1) ++ List.replicate (n + 1 - data.length) init).length = n + 1 := by
    simp
    omega
  rw [dropLast_eq_take, hlength, Nat.add_sub_cancel,
    take_append_of_le_length (by rw [length_take]; omega), take_take, min_eq_left
      (Nat.le_succ n)]

theorem cellAt_assigned (col : Column) (h : n ≤ col.data.length)
    (val : (col.resize (n + 1)).type.Value) :
    cellAt { col.resize (n + 1) with data := (col.resize (n + 1)).data.dropLast ++ [val] } n =
        some ⟨(col.resize (n + 1)).type, val⟩ ∧
      ∀ i < n, cellAt { col.resize (n + 1) with data := (col.resize (n + 1)).data.dropLast ++ [val] } i =
        cellAt col i := by
  obtain ⟨header, type, data⟩ := col
  change type.Value at val
  change cellAt ⟨header, type, (data.take (n + 1) ++ List.replicate
    (n + 1 - data.length) type.init).dropLast ++
      [val]⟩ n = some ⟨type, val⟩ ∧
    ∀ i < n, cellAt ⟨header, type, (data.take (n + 1) ++ List.replicate
      (n + 1 - data.length) type.init).dropLast ++
      [val]⟩ i = cellAt ⟨header, type, data⟩ i
  have htake : (data.take n).length = n := by
    rw [length_take]
    exact min_eq_left h
  rw [take_resize data type.init h]
  constructor
  · rw [cellAt, getElem?_append_right htake.le, htake, Nat.sub_self]
    rfl
  · intro i hi
    rw [cellAt, cellAt, getElem?_append_left (by rw [htake]; exact hi), getElem?_take_of_lt hi]

/-- The new row has the values assigned, and the rows before stay as they are. -/
theorem filterMap_cellAt_assigned {cols' : List Column} (hlength : ∀ col ∈ cols, n ≤ col.data.length)
    (h : Assigned (cols.map (·.resize (n + 1))) cells cols') : cols'.filterMap (cellAt · n) = cells ∧ ∀ i < n,
    cols'.filterMap (cellAt · i) = cols.filterMap (cellAt · i) := by
  induction cols generalizing cells cols' with
  | nil =>
    cases h
    exact ⟨rfl, fun _ _ => rfl⟩
  | cons col cols ih =>
    obtain ⟨hcol, hcols⟩ := forall_mem_cons.mp hlength
    cases h with
    | cons _ val hrest =>
      obtain ⟨hnew, hold⟩ := ih hcols hrest
      obtain ⟨hval, hsame⟩ := cellAt_assigned col hcol val
      constructor
      · exact (filterMap_cons_some (f := (cellAt · n)) hval).trans (congrArg _ hnew)
      · intro i hi
        have hsame := hsame i hi
        have hold := hold i hi
        cases hcell : cellAt col i with
        | none =>
          rw [filterMap_cons_none (f := (cellAt · i)) hcell, ← hold]
          exact filterMap_cons_none (f := (cellAt · i)) (hsame.trans hcell)
        | some cell =>
          rw [filterMap_cons_some (f := (cellAt · i)) hcell, ← hold]
          exact filterMap_cons_some (f := (cellAt · i)) (hsame.trans hcell)

theorem filled_spec (h : cols.map shape = t.newRow.columns.map shape) :
    ({ t.newRow with columns := cols } : DataTable).form = t.form ∧
      (t.columns ≠ [] → ({ t.newRow with columns := cols } : DataTable).size = t.size + 1) := by
  constructor
  · have hform := congrArg (List.map fun s : Text × ValueType × ℕ => (s.1, s.2.1)) h
    rw [map_map, map_map] at hform
    exact hform.trans (newRow_form t)
  · intro hne
    apply size_eq
    · rintro rfl
      have hnil := map_eq_nil_iff.mp (map_eq_nil_iff.mp h.symm)
      exact hne hnil
    · intro col hcol
      obtain ⟨c, hc, hshape⟩ := mem_map.mp (h ▸ mem_map_of_mem hcol)
      exact (congrArg (fun s : Text × ValueType × ℕ => s.2.2) hshape).symm.trans (length_newRow hc)

theorem data_ne_nil_of_mem_newRow (h : col ∈ t.newRow.columns) : col.data ≠ [] := by
  intro hnil
  have hlength := length_newRow h
  rw [hnil] at hlength
  cases hlength

/-- A row which can be read is added behind the others. -/
theorem appendRowFromCSV_of_some {line : Text} (h : readRow t.types (.field line) = some cells) :
    ∃ t', t.appendRowFromCSV line = (t', none) ∧ t'.rows = t.rows ++ [cells] ∧ t'.form = t.form := by
  have htypes : t.newRow.columns.map Column.type = t.types := types_of_form (newRow_form t)
  have hne : t.columns ≠ [] := by
    intro hnil
    rw [types, hnil] at h
    cases h
  have hahead : Ahead (.ofLine line) (.field line) := CsvParser.standing_ofLine line
  obtain ⟨cols', csv', hfill, hfinished, hassigned⟩ := fillColumns_of_some t.newRow.columnCnt line hahead
    (fun col hcol => data_ne_nil_of_mem_newRow hcol) (htypes ▸ h)
  have hshape := map_shape_fillColumns t.newRow.columnCnt line t.newRow.columns (.ofLine line)
  rw [hfill] at hshape
  obtain ⟨hform, hsize⟩ := filled_spec hshape
  obtain ⟨hnew, hold⟩ := filterMap_cellAt_assigned (fun col hcol => size_le hcol) hassigned
  refine ⟨{ t.newRow with columns := cols' }, ?_, ?_, hform⟩
  · rw [appendRowFromCSV]
    rw [hfill]
    dsimp only
    rw [if_neg (by rw [hfinished.isValid]; exact Bool.false_ne_true)]
  · rw [rows, hsize hne, range_succ, map_append]
    have hbefore : (List.range t.size).map (DataTable.row { t.newRow with columns := cols' }) = t.rows :=
      map_congr_left fun i hi => hold i (mem_range.mp hi)
    rw [hbefore]
    exact congrArg (t.rows ++ [·]) hnew

/-- Otherwise there is an exception, and the table has got one more row. -/
theorem appendRowFromCSV_of_none {line : Text} (h : readRow t.types (.field line) = none) :
    ∃ t' e, t.appendRowFromCSV line = (t', some e) ∧ t'.form = t.form ∧
      (t.columns ≠ [] → t'.size = t.size + 1) := by
  have htypes : t.newRow.columns.map Column.type = t.types := types_of_form (newRow_form t)
  have hahead : Ahead (.ofLine line) (.field line) := CsvParser.standing_ofLine line
  have hshape := map_shape_fillColumns t.newRow.columnCnt line t.newRow.columns (.ofLine line)
  have hvalid (csv' : CsvParser)
      (hfill : (fillColumns t.newRow.columnCnt line t.newRow.columns (.ofLine line)).2 = .ok csv') :
      csv'.isValid = true :=
    fillColumns_of_none t.newRow.columnCnt line hahead (fun col hcol => data_ne_nil_of_mem_newRow hcol)
      (htypes ▸ h) hfill
  rw [appendRowFromCSV]
  generalize fillColumns t.newRow.columnCnt line t.newRow.columns (.ofLine line) = filled at hshape hvalid
  obtain ⟨cols', result⟩ := filled
  obtain ⟨hform, hsize⟩ := filled_spec hshape
  cases result with
  | error e => exact ⟨_, e, rfl, hform, hsize⟩
  | ok csv' =>
    dsimp only
    rw [if_pos (hvalid csv' rfl)]
    exact ⟨_, _, rfl, hform, hsize⟩

/-! ## Appending several rows -/

/-- Lines which can all be read are added as rows, in this order. -/
theorem appendRows_of_some {lines : List Text} {cells : List (List Cell)}
    (h : List.Forall₂ (fun line row => line ≠ [] ∧ readRow t.types (.field line) = some row) lines cells) :
    ∃ t', t.appendRows lines = (t', none) ∧ t'.rows = t.rows ++ cells ∧ t'.form = t.form := by
  generalize htypes : t.types = types at h
  induction h generalizing t with
  | nil => exact ⟨t, rfl, (append_nil _).symm, rfl⟩
  | @cons line row lines cells hline _ ih =>
    obtain ⟨u, hu, hrows, hform⟩ := appendRowFromCSV_of_some (htypes ▸ hline.2)
    obtain ⟨v, hv, hvrows, hvform⟩ := ih ((types_of_form hform).trans htypes)
    refine ⟨v, ?_, ?_, hvform.trans hform⟩
    · rw [appendRows, isEmpty_eq_false_iff.mpr hline.1, hu]
      exact hv
    · rw [hvrows, hrows, append_assoc]
      rfl

/-- **Without an exception**, each line which is not empty has been read, and there are these rows
in addition. -/
theorem appendRows_ok {lines : List Text} {t' : DataTable} (h : t.appendRows lines = (t', none)) : ∃ cells,
    t'.rows = t.rows ++ cells ∧ List.Forall₂ (fun line row => readRow t.types (.field line) = some row)
    (lines.filter (· ≠ [])) cells := by
  induction lines generalizing t with
  | nil =>
    obtain rfl : t = t' := congrArg Prod.fst h
    exact ⟨[], (append_nil _).symm, .nil⟩
  | cons line lines ih =>
    rw [appendRows] at h
    by_cases hempty : line = []
    · rw [hempty] at h
      rw [hempty]
      exact ih h
    · rw [isEmpty_eq_false_iff.mpr hempty] at h
      rw [filter_cons_of_pos (by simpa using hempty)]
      cases hread : readRow t.types (.field line) with
      | none =>
        obtain ⟨u, e, hu, -⟩ := appendRowFromCSV_of_none hread
        rw [hu] at h
        cases h
      | some row =>
        obtain ⟨u, hu, hrows, hform⟩ := appendRowFromCSV_of_some hread
        rw [hu] at h
        obtain ⟨cells, hcells, hall⟩ := ih h
        rw [types_of_form hform] at hall
        refine ⟨row :: cells, ?_, .cons hread hall⟩
        rw [hcells, hrows, append_assoc]
        rfl

end DataTable

end Lumiera.Lib.Stat

import Lumiera.Lib.Stat.CsvRow

/-! # Tables with CSV storage (`lib/stat/data.hpp`)

A data table has a vector of values for each column; a row is complete when there is a value for it in all the
columns. Rows are rendered as lines of CSV data, and are appended from such lines; in the file, the newest row
comes first. An exception leaves the table as it is at this point.

A column of truth values is treated as the functions for single values do; with `std::vector<bool>` behind it,
such a column does not compile, since its elements can not be accessed by reference. The file system is
represented by what is found at the path of the file. -/

namespace Lumiera.Lib.Stat

/-- `Column`: the header, and the values of all the rows. -/
structure Column where
  header : Text
  type : ValueType
  data : List type.Value

namespace Column

/-- `data.resize()` -/
def resize (col : Column) (siz : ℕ) : Column :=
  { col with data := col.data.take siz ++ List.replicate (siz - col.data.length) col.type.init }

/-- `get() = newVal` -/
def assign (col : Column) (newVal : col.type.Value) : Except Error Column :=
  if col.data.isEmpty then .error ⟨.state, "No rows in DataTable yet".toList⟩
  else .ok { col with data := col.data.dropLast ++ [newVal] }

end Column

/-- The path of a file. -/
structure FilePath where
  parent_path : Text
  filename : Text

def FilePath.text (path : FilePath) : Text :=
  if path.parent_path.isEmpty then path.filename else path.parent_path ++ '/' :: path.filename

/-- What is found at the path of a data file: whether there is the directory, and there may be a
file, which may be readable. -/
structure Storage where
  parentExists : Bool
  file : Option Text
  good : Bool

structure DataTable where
  filename_ : FilePath
  columns : List Column

namespace DataTable

/-! ## Access to the data -/

def columnCnt (t : DataTable) : ℕ := t.columns.length

/-- The smallest number of values in any column. The fold in the source starts from the largest
`size_t`, which is beyond the size of a vector. -/
def size (t : DataTable) : ℕ :=
  match t.columns with
  | [] => 0
  | col :: cols => cols.foldl (fun rowCnt col => min rowCnt col.data.length) col.data.length

def empty (t : DataTable) : Bool := t.size == 0

/-- The values in one row. -/
def row (t : DataTable) (rownum : ℕ) : List Cell :=
  t.columns.filterMap fun col => col.data[rownum]?.map (⟨col.type, ·⟩)

def formatCSVRow (t : DataTable) (rownum : ℕ) : Except Error Text :=
  if t.empty then .error ⟨.logic, "Attempt to access data from empty DataTable.".toList⟩
  else if t.size ≤ rownum then
    .error ⟨.logic, fmt "Attempt to access row #%d beyond range [0..%d].".toList
      [decimal rownum, decimal (t.size - 1)]⟩
  else .ok (csvLine (t.row rownum))

def generateHeaderSpec (t : DataTable) : Text := csvLine (t.columns.map fun col => ⟨.text, col.header⟩)

/-- The loop in `renderCSV()`, with a counter of type `uint`; there is no result when the rounds given do not
suffice. -/
def renderRows (t : DataTable) : ℕ → ℕ → Option (Except Error (List Text))
  | 0, _ => none
  | rounds + 1, i =>
    if i < t.size then
      match t.formatCSVRow i with
      | .error e => some (.error e)
      | .ok line => (t.renderRows rounds ((i + 1) % 2 ^ 32)).map (Except.map (line :: ·))
    else some (.ok [])

def renderCSV (t : DataTable) (rounds : ℕ) : Option (Except Error (List Text)) :=
  (t.renderRows rounds 0).map (Except.map (t.generateHeaderSpec :: ·))

/-- The loop in `saveData()`, from the newest row down to the limit. -/
def saveRows (t : DataTable) (lineLimit : ℕ) : ℕ → Except Error Text
  | 0 => .ok []
  | row + 1 =>
    if lineLimit < row + 1 then
      match t.formatCSVRow row with
      | .error e => .error e
      | .ok line => (t.saveRows lineLimit row).map (line ++ '\n' :: ·)
    else .ok []

/-- **The content of the file** written by `saveData()`. -/
def saveData (t : DataTable) (lineLimit : ℕ) : Except Error Text :=
  let header := t.generateHeaderSpec ++ ['\n']
  if t.empty then .ok header
  else
    let lineLimit := if lineLimit < t.size then t.size - lineLimit else 0
    (t.saveRows lineLimit t.size).map (header ++ ·)

/-! ## Appending rows -/

def newRow (t : DataTable) : DataTable := { t with columns := t.columns.map (·.resize (t.size + 1)) }

/-- The loop in `verifyHeaderSpec()` -/
def verifyHeaders (filename_ : FilePath) : List Column → CsvParser → Except Error Unit
  | [], _ => .ok ()
  | col :: cols, header =>
    match header.field with
    | .error e => .error e
    | .ok found =>
      if found ≠ col.header then
        .error (.invalid "Header mismatch in CSV file %s. Expecting column(%s) but found \"%s\""
          [filename_.text, col.header, found])
      else
        match header.next with
        | .error e => .error e
        | .ok header => verifyHeaders filename_ cols header

def verifyHeaderSpec (t : DataTable) (headerLine : Text) : Except Error Unit :=
  verifyHeaders t.filename_ t.columns (.ofLine headerLine)

/-- The loop in `appendRowFromCSV()`: a value is read for each of the columns in turn. -/
def fillColumns (columnCnt : ℕ) (line : Text) : List Column → CsvParser → List Column × Except Error CsvParser
  | [], csv => ([], .ok csv)
  | col :: cols, csv =>
    if csv.isValid then
      match csv.field with
      | .error e => (col :: cols, .error e)
      | .ok content =>
        match parseAs col.type content with
        | .error e => (col :: cols, .error e)
        | .ok val =>
          match col.assign val with
          | .error e => (col :: cols, .error e)
          | .ok col =>
            match csv.next with
            | .error e => (col :: cols, .error e)
            | .ok csv =>
              let (cols, result) := fillColumns columnCnt line cols csv
              (col :: cols, result)
    else if csv.isParseFail then (col :: cols, .error csv.failure)
    else (col :: cols, .error (.invalid "Insufficient data; only %d fields, %d expected. Line:%s"
      [decimal csv.field_, decimal columnCnt, line]))

/-- **Append one row** from a line. The table is left with the new row, when there is an exception. -/
def appendRowFromCSV (t : DataTable) (line : Text) : DataTable × Option Error :=
  let t := t.newRow
  let (cols, result) := fillColumns t.columnCnt line t.columns (.ofLine line)
  let t := { t with columns := cols }
  match result with
  | .error e => (t, some e)
  | .ok csv =>
    if csv.isValid then
      (t, some (.invalid "Excess data fields in CSV. Expect %d fields. Line:%s"
      [decimal t.columnCnt, line]))
    else (t, none)

/-- Append all the lines which are not empty, until there is an exception. -/
def appendRows (t : DataTable) : List Text → DataTable × Option Error
  | [] => (t, none)
  | line :: lines =>
    if line.isEmpty then t.appendRows lines
    else
      match t.appendRowFromCSV line with
      | (t, some e) => (t, some e)
      | (t, none) => t.appendRows lines

def appendFrom (t : DataTable) : List Text → DataTable × Option Error
  | [] => (t, none)
  | header :: lines =>
    match t.verifyHeaderSpec header with
    | .error e => (t, some e)
    | .ok () => t.appendRows lines

/-- The lines extracted with `std::getline`. -/
def rawLines : Text → List Text
  | [] => []
  | c :: s =>
    if c == '\n' then [] :: rawLines s
    else
      match rawLines s with
      | [] => [[c]]
      | line :: lines => (c :: line) :: lines

/-- **Load the data**; the rows in the file are in reverse order. -/
def loadData (t : DataTable) (storage : Storage) : DataTable × Option Error :=
  if !(t.filename_.parent_path.isEmpty || storage.parentExists) then
    (t, some (.invalid "DataFile(%s) placed into nonexistent directory %s"
      [t.filename_.filename, t.filename_.parent_path]))
  else
    match storage.file with
    | none => (t, none)
    | some content =>
      if !storage.good then
        (t, some ⟨.config, fmt "unable to read CSV data file %s".toList [t.filename_.text]⟩)
      else
        match rawLines content with
        | [] => (t, none)
        | header :: lines =>
          match t.verifyHeaderSpec header with
          | .error e => (t, some e)
          | .ok () => t.appendRows lines.reverse

end DataTable

end Lumiera.Lib.Stat

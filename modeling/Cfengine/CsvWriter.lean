import Cfengine.Defs

/-!
# Writing comma-separated values (`csv_writer.c`)

The writer behind it is the text that has been written to it.
-/

namespace Cfengine

/-- `CsvWriter` -/
structure CsvWriter where
  w : CString
  beginningOfLine : Bool

/-- `CsvWriterOpen` -/
def csvWriterOpen (w : CString) : CsvWriter := ⟨w, true⟩

/-- The loop of `WriteCsvEscapedString`. -/
def writeCsvEscapedString.loop (w : CString) : CString → CString
  | [] => w
  | c :: s => loop ((if c = '"' then w ++ ['"'] else w) ++ [c]) s

/-- `WriteCsvEscapedString` -/
def writeCsvEscapedString (w s : CString) : CString :=
  writeCsvEscapedString.loop (w ++ ['"']) s ++ ['"']

/-- `strpbrk` finds a character. -/
def strpbrk (s accept : CString) : Bool := s.any accept.contains

/-- `CsvWriterField` -/
def csvWriterField (csvw : CsvWriter) (str : CString) : CsvWriter :=
  let w := if csvw.beginningOfLine then csvw.w else csvw.w ++ [',']
  if strpbrk str ['"', ',', '\r', '\n'] then ⟨writeCsvEscapedString w str, false⟩
  else ⟨w ++ str, false⟩

/-- `CsvWriterNewRecord` -/
def csvWriterNewRecord (csvw : CsvWriter) : CsvWriter := ⟨csvw.w ++ ['\r', '\n'], true⟩

/-- `CsvWriterClose`: what has been written. -/
def csvWriterClose (csvw : CsvWriter) : CString :=
  if csvw.beginningOfLine then csvw.w else csvw.w ++ ['\r', '\n']

end Cfengine

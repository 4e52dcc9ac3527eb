import OperatorLint.Text.Span
import OperatorLint.Text.Template

/-!
# Diagnostics

A diagnostic is one finding: its text, the code and the severity of the message it was made from,
and where it stands, as far as that is known. A list of diagnostics is shown by file and then by
position; findings at one position keep the order in which they were made.
-/

namespace OperatorLint

/-- How serious a finding is. -/
inductive Severity where
  | warning
  | error
  | suggestion
  | message
deriving DecidableEq, Repr

/-- The word for a severity. -/
def Severity.name : Severity → String
  | warning => "warning"
  | error => "error"
  | suggestion => "suggestion"
  | message => "message"

/-- A kind of message, which many findings can share. -/
structure Message where
  /-- The number by which the message is known. -/
  code : Nat
  /-- How serious its findings are. -/
  severity : Severity
  /-- The text, with numbered gaps. -/
  template : String
deriving DecidableEq, Repr

/-- The text of a message with its gaps filled. -/
def Message.format (m : Message) (args : List String) : String := Template.expand m.template args

/-- One finding. -/
structure Diagnostic where
  /-- The file it was made in. -/
  file : Option String
  /-- The source text it is about. -/
  span : Option Span
  /-- What it says. -/
  text : String
  /-- The number of its message. -/
  code : Nat
  /-- How serious it is. -/
  severity : Severity
deriving DecidableEq, Repr

namespace Diagnostic

/-- A finding of a message with a text that is already complete, at no known place. -/
def ofText (m : Message) (text : String) : Diagnostic := ⟨none, none, text, m.code, m.severity⟩

/-- A finding of a message with its gaps filled, at no known place. -/
def ofArgs (m : Message) (args : List String) : Diagnostic := ofText m (m.format args)

/-- The same finding, about some source text. -/
def withSpan (d : Diagnostic) (span : Span) : Diagnostic := { d with span := some span }

/-- The same finding, in a file. -/
def withFile (d : Diagnostic) (file : String) : Diagnostic := { d with file := some file }

/-- The finding is an error. -/
def isError (d : Diagnostic) : Bool := d.severity = .error

/-- Where a finding is shown to stand: its file, with the offset when that is known too. -/
def place (d : Diagnostic) : String :=
  match d.file, d.span with
  | none, _ => ""
  | some file, none => file ++ ": "
  | some file, some span => file ++ "(" ++ toString span.start ++ "): "

/-- The line by which a finding is shown. -/
def line (d : Diagnostic) : String :=
  d.place ++ d.severity.name ++ " OC" ++ toString d.code ++ ": " ++ d.text

/-- The offset by which findings of one file are ordered, zero when it is not known. -/
def offset (d : Diagnostic) : Nat := d.span.elim 0 Span.start

/-- The order of files: findings without a file come first, the others by name. -/
def fileBefore : Option String → Option String → Bool
  | none, _ => true
  | some _, none => false
  | some a, some b => a ≤ b

/-- The first finding does not have to stand after the second. -/
def before (a b : Diagnostic) : Bool :=
  if a.file = b.file then a.offset ≤ b.offset else fileBefore a.file b.file

/-- The findings by file and position; at one position they keep their order. -/
def sort (ds : List Diagnostic) : List Diagnostic := ds.mergeSort before

/-- The number of errors in a list of findings. -/
def errorCount (ds : List Diagnostic) : Nat := ds.countP isError

/-- A list of findings holds an error. -/
def hasErrors (ds : List Diagnostic) : Bool := ds.any isError

/-- Sorting loses and adds nothing. -/
theorem sort_perm (ds : List Diagnostic) : (sort ds).Perm ds := List.mergeSort_perm ds before

/-- A list holds an error exactly when their number is not zero. -/
theorem hasErrors_iff (ds : List Diagnostic) : hasErrors ds = true ↔ 0 < errorCount ds := by
  simp [hasErrors, errorCount, List.countP_pos_iff]

end Diagnostic

end OperatorLint

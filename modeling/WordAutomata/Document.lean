import WordAutomata.Dfa.Description
import WordAutomata.Json.Printer
import WordAutomata.Json.Reader

/-!
# Documents

An automaton is stored as a JSON record with five fields. A document is such a record once its shape
is known to be right: lists of names, rows of names or nothing, and a name. Whether it describes an
automaton is a question of its own. Writing an automaton lists everything in increasing order.
-/
namespace WordAutomata

/-- The shape of a stored automaton. -/
structure Document where
  states : List String
  symbols : List String
  table : TransitionTable
  initial : String
  finals : List String
deriving DecidableEq

/-- What is wrong with the shape of a stored automaton. -/
inductive ShapeError where
  | notRecord (kind : String)
  | missingFields (names : List String)
  | unknownFields (names : List String)
  | tableNotRecord
  | rowNotRecord (state : String)
  | badTarget (state symbol : String)
  | initialNotName
  | notNames (field : String)
deriving DecidableEq

/-- Why a text does not store an automaton. -/
inductive DocumentError where
  | syntaxError (error : Json.SyntaxError)
  | shape (error : ShapeError)
  | defect (defect : Defect)
deriving DecidableEq

def ShapeError.message : ShapeError → String
  | .notRecord kind => "expected an object, got " ++ kind
  | .missingFields names => "missing fields: " ++ ", ".intercalate names
  | .unknownFields names => "unknown fields: " ++ ", ".intercalate names
  | .tableNotRecord => "delta must be an object"
  | .rowNotRecord q => "delta for state " ++ Text.quoted q ++ " must be an object"
  | .badTarget q a =>
    "delta for state " ++ Text.quoted q ++ " and symbol " ++ Text.quoted a ++
      " must be a string or null"
  | .initialNotName => "initialState must be a string"
  | .notNames field => field ++ " must be a list of strings"

def DocumentError.message : DocumentError → String
  | .syntaxError e => "invalid JSON: " ++ e.message
  | .shape e => e.message
  | .defect d => d.message

namespace Document

def fieldNames : List String := ["states", "alphabet", "delta", "initialState", "finalStates"]

/-- The entries of a row: every target is a name or nothing. -/
def readRow (q : String) : Fields String Datum → Except ShapeError (Fields String (Option String))
  | [] => .ok []
  | (a, .null) :: rest => (readRow q rest).map ((a, none) :: ·)
  | (a, .text r) :: rest => (readRow q rest).map ((a, some r) :: ·)
  | (a, _) :: _ => .error (.badTarget q a)

/-- The rows of a table, each of which is a record. -/
def readRows : Fields String Datum → Except ShapeError TransitionTable
  | [] => .ok []
  | (q, .record row) :: rest =>
    match readRow q row with
    | .error e => .error e
    | .ok row => (readRows rest).map ((q, row) :: ·)
  | (q, _) :: _ => .error (.rowNotRecord q)

def readNames? : Datum → Option (List String)
  | .list items => items.mapM Datum.asText?
  | _ => none

def readNames (fields : Fields String Datum) (field : String) : Except ShapeError (List String) :=
  match (fields.get? field).bind readNames? with
  | some names => .ok names
  | none => .error (.notNames field)

def readTable (fields : Fields String Datum) : Except ShapeError TransitionTable :=
  match fields.get? "delta" with
  | some (.record rows) => readRows rows
  | _ => .error .tableNotRecord

def readInitial (fields : Fields String Datum) : Except ShapeError String :=
  match (fields.get? "initialState").bind Datum.asText? with
  | some q => .ok q
  | none => .error .initialNotName

/-- The document that a datum is, or the first thing that is wrong with its shape. -/
def ofDatum : Datum → Except ShapeError Document
  | .record fields => do
    let missing := fieldNames.filter fun name => (Fields.get? fields name).isNone
    if missing ≠ [] then throw (.missingFields missing)
    let unknown := (Names.ofList (Fields.names fields)).filter fun name => !fieldNames.contains name
    if unknown.toList ≠ [] then throw (.unknownFields unknown.toList)
    let table ← readTable fields
    let initial ← readInitial fields
    let states ← readNames fields "states"
    let symbols ← readNames fields "alphabet"
    let finals ← readNames fields "finalStates"
    return { states, symbols, table, initial, finals }
  | d => .error (.notRecord d.kindName)

def targetDatum : Option String → Datum
  | none => .null
  | some q => .text q

def rowData (row : Fields String (Option String)) : Fields String Datum :=
  row.map fun entry => (entry.1, targetDatum entry.2)

def namesDatum (names : List String) : Datum := .list (names.map .text)

def fields (doc : Document) : Fields String Datum := [
  ("states", namesDatum doc.states),
  ("alphabet", namesDatum doc.symbols),
  ("delta", .record (doc.table.map fun row => (row.1, .record (rowData row.2)))),
  ("initialState", .text doc.initial),
  ("finalStates", namesDatum doc.finals)]

def toDatum (doc : Document) : Datum := .record doc.fields

def description (doc : Document) : Description where
  states := doc.states.map .text
  symbols := doc.symbols.map .text
  table := doc.table.map fun row =>
    (.text row.1, row.2.map fun entry => (.text entry.1, targetDatum entry.2))
  initial := .text doc.initial
  finals := doc.finals.map .text

/-- The document of an automaton, everything in increasing order. -/
def ofDfa (M : Dfa) : Document where
  states := M.states.toList
  symbols := M.alphabet.toList
  table := M.table
  initial := M.initial
  finals := M.finals.toList

end Document

/-- The automaton that a JSON text stores. -/
def Dfa.read (text : String) : Except DocumentError Dfa :=
  match Json.read text with
  | .error e => .error (.syntaxError e)
  | .ok d =>
    match Document.ofDatum d with
    | .error e => .error (.shape e)
    | .ok doc => doc.description.build.mapError .defect

/-- The JSON text that stores an automaton: one field after the other over several lines, and a line
feed at the end. -/
def Dfa.write (M : Dfa) : String :=
  Json.print .indented (Document.ofDfa M).toDatum ++ "\n"

end WordAutomata

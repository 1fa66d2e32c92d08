/-!
# TOML values and tables

A document is a table. While it is being read every table remembers how it came about, because that
decides what may still be added to it: a table under a header of its own can be opened once, one made
by dotted keys grows by dotted keys only, and an inline table never changes.
-/

namespace CaretContext.Toml

/-- How a table came about. -/
inductive Origin where
  /-- As a step on the way to another table. -/
  | implied
  | header
  | dotted
  | inline
deriving DecidableEq, Repr

inductive Value where
  | string (text : String)
  | boolean (value : Bool)
  /-- A number or a point in time. -/
  | scalar (text : String)
  | array (items : List Value)
  /-- The tables under a repeated header. -/
  | tables (items : List (List (String × Value)))
  | table (origin : Origin) (entries : List (String × Value))
deriving Repr

abbrev Entries := List (String × Value)

def Entries.get? (entries : Entries) (key : String) : Option Value := entries.lookup key

/-- Puts a value in the place of the one under the key, or behind all others. -/
def Entries.put (key : String) (value : Value) : Entries → Entries
  | [] => [(key, value)]
  | (k, v) :: rest => if k = key then (k, value) :: rest else (k, v) :: Entries.put key value rest

/-- Adds a value under a path of keys inside a table. Tables on the way are made as needed, and only
tables made by dotted keys are entered. No key is set twice. -/
def Entries.define : Entries → List String → Value → Option Entries
  | _, [], _ => none
  | entries, [key], value =>
    if (entries.get? key).isSome then none else some (entries ++ [(key, value)])
  | entries, key :: path, value =>
    match entries.get? key with
    | none => do
      let inner ← Entries.define [] path value
      return entries ++ [(key, .table .dotted inner)]
    | some (.table .dotted inner) => do
      let inner ← Entries.define inner path value
      return entries.put key (.table .dotted inner)
    | some _ => none

def updateLast {α : Type} (f : α → Option α) : List α → Option (List α)
  | [] => none
  | [a] => (f a).map ([·])
  | a :: rest => (updateLast f rest).map (a :: ·)

/-- Changes the table at the end of a path of headers. Tables on the way are made as needed, and of
repeated tables the last one is entered. -/
def Entries.within (f : Entries → Option Entries) : List String → Entries → Option Entries
  | [], entries => f entries
  | key :: path, entries =>
    match entries.get? key with
    | none => do
      let inner ← Entries.within f path []
      return entries ++ [(key, .table .implied inner)]
    | some (.table .inline _) => none
    | some (.table origin inner) => do
      let inner ← Entries.within f path inner
      return entries.put key (.table origin inner)
    | some (.tables items) => do
      let items ← updateLast (Entries.within f path) items
      return entries.put key (.tables items)
    | some _ => none

def Entries.openTable (key : String) (entries : Entries) : Option Entries :=
  match entries.get? key with
  | none => some (entries ++ [(key, .table .header [])])
  | some (.table .implied inner) => some (entries.put key (.table .header inner))
  | some _ => none

/-- Opens one more table with the key under a repeated header. -/
def Entries.openRepeated (key : String) (entries : Entries) : Option Entries :=
  match entries.get? key with
  | none => some (entries ++ [(key, .tables [[]])])
  | some (.tables items) => some (entries.put key (.tables (items ++ [[]])))
  | some _ => none

end CaretContext.Toml

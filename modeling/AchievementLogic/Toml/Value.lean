import AchievementLogic.Text.Fields

/-!
# TOML values and tables

A value keeps what a reader may ask for; of numbers that are not whole and of dates only that they
are there.  A table remembers how it came about, for that decides what may still be added to it.

A document grows by entries, each at a dotted key of the table under the last header, and by
headers.  A table that has a header, or that came from a dotted key, is not given a header again; a
dotted key does not reach into a table that has one.  Nothing is defined twice.
-/

namespace AchievementLogic.Toml

inductive TableKind
  /-- Under a header of its own; also the document itself. -/
  | headed
  /-- Only as the parent of a table with a header. -/
  | implied
  /-- By a dotted key. -/
  | dotted
  /-- Between braces. -/
  | inline
deriving DecidableEq, Repr

inductive Value
  | string (text : String)
  | integer (number : Int)
  | float
  | boolean (value : Bool)
  | date
  | array (items : List Value)
  | table (kind : TableKind) (entries : List (String × Value))
  /-- The tables under repeated headers in double brackets, the last one first. -/
  | tables (items : List (List (String × Value)))

namespace Value

def toInt? : Value → Option Int
  | integer number => some number
  | _ => none

def toWord? (value : Value) : Option UInt32 := value.toInt?.bind Width.word?

def toBool? : Value → Option Bool
  | boolean value => some value
  | _ => none

def toList? : Value → Option (List Value)
  | array items => some items
  | tables items => some (items.reverse.map (table .headed))
  | _ => none

/-- The values of the fields of a record, in the order of their names.  A record is written as a
table or as an array of its fields; what it holds besides means nothing, and so a date can be
read as a record without any fields. -/
def fields? (names : List String) : Value → Option (List (Option Value))
  | table _ entries => some (names.map fun name => entries.lookup name)
  | date => some (names.map fun _ => none)
  | value => value.toList?.map fun items => names.zipIdx.map fun (_, index) => items[index]?

end Value

/-! ## Adding to tables -/

abbrev Entries := List (String × Value)

namespace Entries

/-- Changes the value of a key, or gives it one; fails where `change` does. -/
def update? (key : String) (change : Option Value → Option Value) : Entries → Option Entries
  | [] => (change none).map fun value => [(key, value)]
  | (name, value) :: others =>
    if name = key then (change (some value)).map fun value => (name, value) :: others
    else (update? key change others).map ((name, value) :: ·)

/-- Changes the table at a path, with the kind it has.  Tables that are missing on the way are made:
by a dotted key if `dotted`, else implied by a header. -/
def updateAt? (dotted : Bool) (change : TableKind → Entries → Option Entries) :
    List String → TableKind → Entries → Option Entries
  | [], kind, entries => change kind entries
  | key :: path, _, entries =>
    entries.update? key fun
      | none =>
        let kind : TableKind := if dotted then .dotted else .implied
        (updateAt? dotted change path kind []).map (.table kind ·)
      | some (.table kind inner) =>
        if kind = .inline || (dotted && kind = .headed) then none
        else (updateAt? dotted change path kind inner).map (.table kind ·)
      | some (.tables (last :: others)) =>
        (updateAt? dotted change path .headed last).map fun last => .tables (last :: others)
      | some _ => none

def insert? (entries : Entries) (path : List String) (key : String) (value : Value) :
    Option Entries :=
  entries.updateAt? true (fun kind inner =>
    if kind = .dotted || path.isEmpty then
      inner.update? key fun
        | none => some value
        | some _ => none
    else none) path .headed

/-- The entries that a table has which only headers below it imply. -/
def implied? (entries : Entries) : List String → Option Entries
  | [] => none
  | [key] =>
    match entries.lookup key with
    | some (.table .implied inner) => some inner
    | _ => none
  | key :: path =>
    match entries.lookup key with
    | some (.table .inline _) => none
    | some (.table _ inner) => implied? inner path
    | some (.tables (last :: _)) => implied? last path
    | _ => none

/-- Puts a table at the path of its header, in place of one that was only implied. -/
def putTable? (entries : Entries) (path : List String) (key : String) (table : Entries) :
    Option Entries :=
  entries.updateAt? false (fun _ inner =>
    inner.update? key fun
      | none | some (.table .implied _) => some (.table .headed table)
      | some _ => none) path .headed

/-- Puts a further table at the path of a repeated header. -/
def pushTable? (entries : Entries) (path : List String) (key : String) (table : Entries) :
    Option Entries :=
  entries.updateAt? false (fun _ inner =>
    inner.update? key fun
      | none => some (.tables [table])
      | some (.tables others) => some (.tables (table :: others))
      | some _ => none) path .headed

def ofPairs? (pairs : List ((List String × String) × Value)) : Option Entries :=
  pairs.foldlM (fun entries (place, value) => entries.insert? place.1 place.2 value) []

end Entries

end AchievementLogic.Toml

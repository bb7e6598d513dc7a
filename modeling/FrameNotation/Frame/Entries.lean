import FrameNotation.Text.CodePoint

namespace FrameNotation

-- Named entries in the order of their first insertion.
abbrev Entries (α : Type) := List (Str × α)

namespace Entries

variable {α : Type}

def names (entries : Entries α) : List Str := entries.map Prod.fst

def get? (entries : Entries α) (name : Str) : Option α := entries.lookup name

def has (entries : Entries α) (name : Str) : Bool := (entries.get? name).isSome

-- A new name goes to the end. A known name keeps its place and takes the new entry.
def put : Entries α → Str → α → Entries α
  | [], name, entry => [(name, entry)]
  | (known, old) :: rest, name, entry =>
    if known = name then (known, entry) :: rest else (known, old) :: put rest name entry

def putAll (entries more : Entries α) : Entries α :=
  more.foldl (fun kept (name, entry) => put kept name entry) entries

-- Of entries with one name the first gives the place and the last the content.
def ofList (pairs : List (Str × α)) : Entries α := putAll [] pairs

def without (entries : Entries α) (names : List Str) : Entries α :=
  entries.filter fun (name, _) => !names.contains name

-- The entries in the order of their names by code point.
def sorted (entries : Entries α) : Entries α :=
  entries.mergeSort fun a b => !decide (b.1 < a.1)

end Entries

end FrameNotation

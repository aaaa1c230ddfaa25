import EntityQuery.Settings.Node

/-! # Tables under construction

A document fills its tables piece by piece: by headers, by dotted keys and by inline tables. Nothing
is said twice: a key gets one value, a table one header, and a table that has a header or stands
inline is not opened again by dotted keys. -/

namespace EntityQuery.Settings.Document

/-- What a key of a table stands for while the document is read. -/
inductive Item
  /-- A value; it is complete. -/
  | value (node : Node)
  /-- A table. It is `implicit` while it has no header of its own, and `dotted` if a dotted key
  made it. -/
  | table (implicit dotted : Bool) (members : List (String × Item))
  /-- A list of tables with headers of their own; the last one is still open. -/
  | tables (earlier : List (List (String × Item))) (last : List (String × Item))

/-- The members of a table under construction. -/
abbrev Items := List (String × Item)

/-- Gives the end of a dotted key a value. The table in which it ends must have been made by a
dotted key too, unless the key has only one part; `isOpen` says whether a value may be put here. -/
def assign (value : Node) (isOpen : Bool) : List String → Items → Option Items
  | [], _ => none
  | [name], items =>
    if isOpen && (items.lookup name).isNone then some (put name (.value value) items) else none
  | name :: next :: path, items =>
    match items.lookup name with
    | none =>
      (assign value true (next :: path) []).map fun inner => put name (.table true true inner) items
    | some (.table true dotted inner) =>
      (assign value dotted (next :: path) inner).map fun inner =>
        put name (.table true dotted inner) items
    | some (.tables earlier last) =>
      (assign value false (next :: path) last).map fun last => put name (.tables earlier last) items
    | some (.table false _ _) => none
    | some (.value _) => none

/-- Changes what stands at the end of the path of a header. Tables on the way are made as needed,
and of a list of tables the last one is meant. -/
def alter (change : Option Item → Option Item) : List String → Items → Option Items
  | [], _ => none
  | [name], items => (change (items.lookup name)).map fun item => put name item items
  | name :: next :: path, items =>
    match items.lookup name with
    | none =>
      (alter change (next :: path) []).map fun inner => put name (.table true false inner) items
    | some (.table implicit dotted inner) =>
      (alter change (next :: path) inner).map fun inner =>
        put name (.table implicit dotted inner) items
    | some (.tables earlier last) =>
      (alter change (next :: path) last).map fun last => put name (.tables earlier last) items
    | some (.value _) => none

/-- A dotted key and its value. -/
abbrev Assignment := List String × Node

/-- Makes assignments in a table, in order. -/
def assignAll (assignments : List Assignment) (items : Items) : Option Items :=
  assignments.foldlM (fun items (path, value) => assign value true path items) items

/-- Opens the table of a header and fills it. Only a table that came about on the way to another
header may be there already. -/
def fillTable (assignments : List Assignment) : Option Item → Option Item
  | none => (assignAll assignments []).map (.table false false)
  | some (.table true false items) => (assignAll assignments items).map (.table false false)
  | _ => none

/-- Adds a table to the list of tables of a header and fills it. -/
def addTable (assignments : List Assignment) : Option Item → Option Item
  | none => (assignAll assignments []).map (.tables [])
  | some (.tables earlier last) => (assignAll assignments []).map (.tables (earlier ++ [last]))
  | _ => none

mutual

/-- The tree of a complete item. -/
def Item.toNode : Item → Node
  | .value node => node
  | .table _ _ items => .table (itemsToMembers items)
  | .tables earlier last => .list (tablesToNodes earlier ++ [.table (itemsToMembers last)])

/-- The trees of complete members. -/
def itemsToMembers : Items → Members
  | [] => []
  | (name, item) :: rest => (name, item.toNode) :: itemsToMembers rest

/-- The trees of complete tables. -/
def tablesToNodes : List Items → List Node
  | [] => []
  | items :: rest => .table (itemsToMembers items) :: tablesToNodes rest

end

end EntityQuery.Settings.Document

import Dross.Type.Value

/-!
# The tree of tables

While a document is read its tables are kept apart from their key/value pairs.
A header opens a table and a pair goes below the table that is open, and both
report what they cannot define. Pointers into the tree are paths from its root.
-/

namespace Dross

inductive Errc where
  | invalidArgument
  | operationNotSupported
deriving DecidableEq, Repr

structure Error where
  code : Errc
  detail : String
deriving DecidableEq, Repr

/-- `parser::position` -/
structure Position where
  line : Nat
  column : Nat
deriving DecidableEq, Repr

def createError (message : String) (pos : Position) : Error :=
  ⟨.invalidArgument,
    "line " ++ toString pos.line ++ ", column " ++ toString pos.column ++ ": " ++ message⟩

/-- The parts of a dotted key or of a header, of which there is at least one. -/
structure KeyPath where
  first : Text
  rest : List Text
deriving DecidableEq, Repr

def KeyPath.keys (p : KeyPath) : List Text := p.first :: p.rest

inductive Segment where
  | key (key : Text)
  | element (index : Nat)
deriving DecidableEq, Repr

abbrev Path := List Segment

/-- `parser::table_node` -/
structure TableNode where
  pairs : Dictionary
  tables : List (Text × TableNode)
  named : Bool
  dotted : Bool
  array : Bool
  elements : List TableNode

namespace TableNode

open OrderedMap

/-- `std::make_unique<table_node>()` -/
def fresh : TableNode := ⟨[], [], false, false, false, []⟩

def setTable (table : TableNode) (key : Text) (child : TableNode) : TableNode :=
  { table with tables := set table.tables key child }

/-- `add_key(dictionary&, ...)` -/
def addDictionaryKey (d : Dictionary) (key : Text) (val : Value) (pos : Position) :
    Except Error Dictionary :=
  if contains d key then .error (createError "Key defined twice" pos)
  else .ok (set d key val)

/-- `add_key(table_node&, ...)` -/
def addKey (table : TableNode) (key : Text) (val : Value) (pos : Position) :
    TableNode × Except Error Unit :=
  if contains table.tables key then (table, .error (createError "Key defined twice" pos))
  else
    match addDictionaryKey table.pairs key val pos with
    | .error e => (table, .error e)
    | .ok pairs => ({ table with pairs := pairs }, .ok ())

/-- The loop of `add_pair`. What it changed stays changed where it fails. -/
def addPairParts (table : TableNode) (key : Text) (rest : List Text) (val : Value)
    (pos : Position) : TableNode × Except Error Unit :=
  match rest with
  | [] => table.addKey key val pos
  | next :: rest =>
    if contains table.pairs key then (table, .error (createError "Key defined twice" pos))
    else
      match find table.tables key with
      | none =>
        let added := addPairParts { fresh with dotted := true } next rest val pos
        (table.setTable key added.1, added.2)
      | some child =>
        if child.dotted then
          let added := addPairParts child next rest val pos
          (table.setTable key added.1, added.2)
        else (table, .error (createError "Key defined twice" pos))

def addPair (table : TableNode) (keyPath : KeyPath) (val : Value) (pos : Position) :
    TableNode × Except Error Unit :=
  table.addPairParts keyPath.first keyPath.rest val pos

/-- `elements.back()`. The header that makes an array gives it its first element. -/
def lastElement (table : TableNode) : TableNode := table.elements.getLast?.getD fresh

/-- What `open_table` does once its loop is at the table the header names. -/
def nameTable (table : TableNode) (array : Bool) (headerStart : Position) :
    TableNode × Except Error Path :=
  if array then
    if ! table.array then (table, .error (createError "Table defined twice" headerStart))
    else
      ({ table with elements := table.elements ++ [fresh] },
        .ok [.element table.elements.length])
  else if table.named || table.dotted || table.array then
    (table, .error (createError "Table defined twice" headerStart))
  else ({ table with named := true }, .ok [])

/-- The loop of `open_table`. -/
def openTableParts (table : TableNode) (key : Text) (rest : List Text) (array : Bool)
    (headerStart : Position) : TableNode × Except Error Path :=
  if contains table.pairs key then
    (table, .error (createError "Table header names a key that is not a table" headerStart))
  else
    let child := (find table.tables key).getD { fresh with array := array && rest.isEmpty }
    match rest with
    | [] =>
      let opened := child.nameTable array headerStart
      (table.setTable key opened.1, opened.2.map ([.key key] ++ ·))
    | next :: rest =>
      if child.array then
        let opened := openTableParts child.lastElement next rest array headerStart
        (table.setTable key { child with elements := child.elements.dropLast ++ [opened.1] },
          opened.2.map ([.key key, .element (child.elements.length - 1)] ++ ·))
      else
        let opened := openTableParts child next rest array headerStart
        (table.setTable key opened.1, opened.2.map ([.key key] ++ ·))

def openTable (root : TableNode) (keyPath : KeyPath) (array : Bool) (headerStart : Position) :
    TableNode × Except Error Path :=
  root.openTableParts keyPath.first keyPath.rest array headerStart

/-! ## Merging -/

mutual

/-- The value a table becomes in the pairs of its parent. -/
def toValue : TableNode → Value
  | ⟨pairs, tables, _, _, array, elements⟩ =>
    if array then .array (elementValues elements) else .dictionary (mergeInto pairs tables)

/-- The loop of `merge_tables`, over the tables of a node with these pairs. -/
def mergeInto (pairs : Dictionary) : List (Text × TableNode) → Dictionary
  | [] => pairs
  | (key, table) :: tables => mergeInto (set pairs key table.toValue) tables

/-- The pairs of each element, once its tables are merged into them. -/
def elementValues : List TableNode → List Value
  | [] => []
  | ⟨pairs, tables, _, _, _, _⟩ :: elements =>
    .dictionary (mergeInto pairs tables) :: elementValues elements

end

/-- `merge_tables`, as the pairs it leaves. -/
def mergeTables (node : TableNode) : Dictionary := mergeInto node.pairs node.tables

/-! ## Paths into the tree -/

def nodeAt : TableNode → Path → Option TableNode
  | node, [] => some node
  | node, .key k :: path => (find node.tables k).bind (fun child => child.nodeAt path)
  | node, .element i :: path => node.elements[i]?.bind (fun child => child.nodeAt path)

/-- Writes a node through a pointer to it. -/
def replaceAt : TableNode → Path → TableNode → TableNode
  | _, [], new => new
  | node, .key k :: path, new =>
    match find node.tables k with
    | none => node
    | some child => node.setTable k (child.replaceAt path new)
  | node, .element i :: path, new =>
    match node.elements[i]? with
    | none => node
    | some child => { node with elements := node.elements.set i (child.replaceAt path new) }

end TableNode

/-! ## Documents -/

inductive Statement where
  | pair (keyPath : KeyPath) (val : Value)
  | header (keyPath : KeyPath) (array : Bool)

/-- The tables read so far and the one that takes the next pair. -/
structure Document where
  root : TableNode
  current : Path

namespace Document

def start : Document := ⟨TableNode.fresh, []⟩

/-- One turn of the loop of `parse_document`, once its statement is read. -/
def define (d : Document) (s : Statement) (pos : Position) : Document × Except Error Unit :=
  match s with
  | .pair keyPath val =>
    let added := ((d.root.nodeAt d.current).getD TableNode.fresh).addPair keyPath val pos
    ({ d with root := d.root.replaceAt d.current added.1 }, added.2)
  | .header keyPath array =>
    match d.root.openTable keyPath array pos with
    | (root, .error e) => ({ d with root := root }, .error e)
    | (root, .ok opened) => (⟨root, opened⟩, .ok ())

/-- The statements one after the other, up to the first that fails. -/
def defineAll (d : Document) : List (Statement × Position) → Document × Except Error Unit
  | [] => (d, .ok ())
  | (s, pos) :: rest =>
    match d.define s pos with
    | (d, .error e) => (d, .error e)
    | (d, .ok ()) => d.defineAll rest

end Document

end Dross

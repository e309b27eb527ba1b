import Dross.Format.TableTree

/-!
# A table and what is around it

A table of a document stands under a key of its parent, or last in an array of tables
there. With all that is around it put into frames, what a header or a pair does to the
table is all it does to the document.
-/

namespace Dross

open OrderedMap

/-- The parent of a table, and the array it is the last element of if it is one. -/
structure TableFrame where
  parent : TableNode
  key : Text
  array : Option TableNode

namespace TableFrame

/-- The parent with a table in its place. -/
def plug (f : TableFrame) (node : TableNode) : TableNode :=
  match f.array with
  | none => f.parent.setTable f.key node
  | some array => f.parent.setTable f.key { array with elements := array.elements ++ [node] }

def path (f : TableFrame) : Path :=
  match f.array with
  | none => [.key f.key]
  | some array => [.key f.key, .element array.elements.length]

/-- A header goes through the frame. -/
structure Passable (f : TableFrame) : Prop where
  table : f.parent.array = false
  noPair : contains f.parent.pairs f.key = false
  array : ∀ array, f.array = some array → array.array = true

end TableFrame

/-- A table in frames, the outermost first. -/
def plug (frames : List TableFrame) (node : TableNode) : TableNode :=
  frames.foldr TableFrame.plug node

def framesPath (frames : List TableFrame) : Path := frames.flatMap TableFrame.path

def framesKeys (frames : List TableFrame) : List Text := frames.map TableFrame.key

/-- The path of a key under others. -/
def KeyPath.to (path : List Text) (key : Text) : KeyPath :=
  match path with
  | [] => ⟨key, []⟩
  | first :: rest => ⟨first, rest ++ [key]⟩

theorem KeyPath.to_keys (path : List Text) (key : Text) :
    path ++ [key] = (KeyPath.to path key).first :: (KeyPath.to path key).rest := by
  cases path <;> rfl

section Frames

variable {frames : List TableFrame} {f : TableFrame} {node : TableNode}

theorem plug_cons (f : TableFrame) (frames : List TableFrame) (node : TableNode) :
    plug (f :: frames) node = f.plug (plug frames node) := rfl

theorem framesPath_cons (f : TableFrame) (frames : List TableFrame) :
    framesPath (f :: frames) = f.path ++ framesPath frames := rfl

theorem plug_concat (frames : List TableFrame) (f : TableFrame) (node : TableNode) :
    plug (frames ++ [f]) node = plug frames (f.plug node) := by
  rw [plug, List.foldr_append]
  rfl

theorem framesPath_concat (frames : List TableFrame) (f : TableFrame) :
    framesPath (frames ++ [f]) = framesPath frames ++ f.path := by
  simp [framesPath]

theorem framesKeys_concat (frames : List TableFrame) (f : TableFrame) :
    framesKeys (frames ++ [f]) = framesKeys frames ++ [f.key] := by
  simp [framesKeys]

theorem setTable_setTable (node : TableNode) (key : Text) (a b : TableNode) :
    (node.setTable key a).setTable key b = node.setTable key b := by
  simp [TableNode.setTable, set_set]

theorem plug_array (passable : ∀ f ∈ frames, f.Passable) (table : node.array = false) :
    (plug frames node).array = false := by
  cases frames with
  | nil => exact table
  | cons f frames =>
    have first := (passable f List.mem_cons_self).table
    obtain ⟨parent, key, array⟩ := f
    cases array with
    | none => exact first
    | some array => exact first

theorem nodeAt_frame (f : TableFrame) (node : TableNode) (P : Path) :
    (f.plug node).nodeAt (f.path ++ P) = node.nodeAt P := by
  obtain ⟨parent, key, array⟩ := f
  cases array with
  | none => simp [TableFrame.plug, TableFrame.path, TableNode.nodeAt, TableNode.setTable]
  | some array => simp [TableFrame.plug, TableFrame.path, TableNode.nodeAt, TableNode.setTable]

theorem replaceAt_frame (f : TableFrame) (node new : TableNode) (P : Path) :
    (f.plug node).replaceAt (f.path ++ P) new = f.plug (node.replaceAt P new) := by
  obtain ⟨parent, key, array⟩ := f
  cases array with
  | none => simp [TableFrame.plug, TableFrame.path, TableNode.replaceAt, TableNode.setTable, set_set]
  | some array =>
    simp [TableFrame.plug, TableFrame.path, TableNode.replaceAt, TableNode.setTable, set_set]

theorem nodeAt_plug (frames : List TableFrame) (node : TableNode) :
    (plug frames node).nodeAt (framesPath frames) = some node := by
  induction frames with
  | nil => simp [plug, framesPath, TableNode.nodeAt]
  | cons f frames ih =>
    rw [plug_cons, framesPath_cons, nodeAt_frame, ih]

theorem replaceAt_plug (frames : List TableFrame) (node new : TableNode) :
    (plug frames node).replaceAt (framesPath frames) new = plug frames new := by
  induction frames with
  | nil => simp [plug, framesPath, TableNode.replaceAt]
  | cons f frames ih =>
    rw [plug_cons, framesPath_cons, replaceAt_frame, ih, plug_cons]

/-! ## Headers -/

/-- What a header comes to under a frame. -/
def TableFrame.opened (f : TableFrame) (r : TableNode × Except Error Path) : TableNode × Except Error Path :=
  (f.plug r.1, r.2.map (f.path ++ ·))

theorem openTable_frame {f : TableFrame} (passable : f.Passable) {node : TableNode}
    (table : node.array = false) (next : Text) (rest : List Text) (array : Bool) (pos : Position) :
    (f.plug node).openTableParts f.key (next :: rest) array pos =
      f.opened (node.openTableParts next rest array pos) := by
  obtain ⟨parent, key, inArray⟩ := f
  have noPair : contains parent.pairs key = false := passable.noPair
  cases inArray with
  | none =>
    conv_lhs => unfold TableNode.openTableParts
    simp [TableFrame.plug, TableFrame.opened, TableFrame.path, TableNode.setTable, noPair, table, set_set]
  | some inArray =>
    have isArray : inArray.array = true := passable.array inArray rfl
    conv_lhs => unfold TableNode.openTableParts
    simp [TableFrame.plug, TableFrame.opened, TableFrame.path, TableNode.setTable, noPair, isArray, set_set,
      TableNode.lastElement]

theorem openTable_plug {frames : List TableFrame} (passable : ∀ f ∈ frames, f.Passable)
    {node : TableNode}
    (table : node.array = false) (key : Text) (array : Bool) (pos : Position) :
    (plug frames node).openTable (KeyPath.to (framesKeys frames) key) array pos =
      (plug frames (node.openTableParts key [] array pos).1,
        (node.openTableParts key [] array pos).2.map (framesPath frames ++ ·)) := by
  induction frames with
  | nil =>
    have same (r : Except Error Path) : r.map (fun P => [] ++ P) = r := by
      cases r <;> rfl
    have none : framesPath [] = [] := rfl
    rw [none, same]
    rfl
  | cons f frames ih =>
    have inner : ∀ f ∈ frames, f.Passable := fun g mem => passable g (List.mem_cons_of_mem _ mem)
    have keys : framesKeys frames ++ [key] =
        (KeyPath.to (framesKeys frames) key).first :: (KeyPath.to (framesKeys frames) key).rest :=
      KeyPath.to_keys _ _
    have through := openTable_frame (passable f List.mem_cons_self) (plug_array inner table)
      (KeyPath.to (framesKeys frames) key).first (KeyPath.to (framesKeys frames) key).rest array pos
    have opened := ih inner
    rw [TableNode.openTable] at opened
    rw [opened, ← keys] at through
    refine through.trans ?_
    rw [TableFrame.opened, framesPath_cons, plug_cons]
    generalize (node.openTableParts key [] array pos).2 = r
    cases r with
    | error e => rfl
    | ok P => simp only [Except.map, List.append_assoc]

end Frames

end Dross

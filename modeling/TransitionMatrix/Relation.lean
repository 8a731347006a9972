import TransitionMatrix.Binary64.Text
import TransitionMatrix.VariableOrder

/-!
# Relations as paths of a decision diagram

A relation is the list of paths from the root of a multi-terminal decision diagram to its non-zero
terminals. A path is a cube of literals and the terminal it reaches; a variable that the cube does
not mention may have either value. Paths to a zero terminal are not part of a relation, and the
type says so.
-/

namespace TransitionMatrix

/-- A path of a decision diagram. -/
structure Path where
  /-- The variables that the path fixes. -/
  cube : List Literal
  value : Binary64
deriving DecidableEq, Repr

/-- The literals in brackets, an arrow and the value. -/
def Path.text (p : Path) : String :=
  "[" ++ " ".intercalate (p.cube.map Literal.text) ++ "] -> " ++ p.value.text

/-- The paths of a decision diagram to its non-zero terminals. -/
structure Relation where
  paths : List Path
  /-- No path reaches a zero. -/
  nonzero : ∀ p ∈ paths, p.value.isZero = false

namespace Relation

/-- The relation of the given paths, without those to a zero. -/
def ofPaths (paths : List Path) : Relation where
  paths := paths.filter fun p => !p.value.isZero
  nonzero := fun p hp => by simpa using (List.mem_filter.1 hp).2

/-- The relation with more paths after its own, those to a zero left out. -/
def extend (r : Relation) (paths : List Path) : Relation where
  paths := r.paths ++ (ofPaths paths).paths
  nonzero := fun p hp => (List.mem_append.1 hp).elim (r.nonzero p) ((ofPaths paths).nonzero p)

/-- The relation with one more path, unless that leads to a zero. -/
def add (r : Relation) (p : Path) : Relation := r.extend [p]

/-- A relation with one fully fixed path for each source, destination and value, the two states
being carried by the variables of `rows` and `cols`. -/
def ofTransitions (rows cols : VariableOrder) (transitions : List (Nat × Nat × Binary64)) :
    Relation :=
  ofPaths (transitions.map fun (src, dst, value) => ⟨rows.cube src ++ cols.cube dst, value⟩)

def length (r : Relation) : Nat := r.paths.length

def isEmpty (r : Relation) : Bool := r.paths.isEmpty

/-! ## First facts -/

@[simp] theorem paths_ofPaths (paths : List Path) :
    (ofPaths paths).paths = paths.filter fun p => !p.value.isZero := rfl

@[simp] theorem paths_extend (r : Relation) (paths : List Path) :
    (r.extend paths).paths = r.paths ++ paths.filter fun p => !p.value.isZero := rfl

end Relation

end TransitionMatrix

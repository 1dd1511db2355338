import ProgramQuery.Text.Numeral

/-! What a synonym can stand for, and finite sets of such things. -/

namespace ProgramQuery

open Text

/-- A statement number, a name, or nothing where a thing was looked for in vain. The number 3 and
the text `3` are different things. -/
inductive Entity where
  | missing
  | line (n : Int)
  | name (s : String)
  deriving DecidableEq, Repr

def Entity.text : Entity → String
  | .missing => "None"
  | .line n => showInt n
  | .name s => s

def Entity.byText (e : Entity) : Entity :=
  .name e.text

/-- The members of the first list that the second one holds, each once. -/
def common {α : Type} [BEq α] (xs ys : List α) : List α :=
  xs.eraseDups.filter ys.contains

/-- A finite set, given by its members in no particular order. -/
structure EntitySet where
  members : List Entity
  deriving Repr

namespace EntitySet

def empty : EntitySet := ⟨[]⟩

def ofList (xs : List Entity) : EntitySet := ⟨xs.eraseDups⟩

def contains (s : EntitySet) (e : Entity) : Bool :=
  s.members.contains e

def isEmpty (s : EntitySet) : Bool :=
  s.members.isEmpty

def inter (s t : EntitySet) : EntitySet :=
  ⟨s.members.filter t.contains⟩

def subset (s t : EntitySet) : Bool :=
  s.members.all t.contains

def same (s t : EntitySet) : Bool :=
  s.subset t && t.subset s

end EntitySet

end ProgramQuery

/-! The relations that a query may name. -/

namespace ProgramQuery

/-- The starred relations are written with an asterisk in a query. -/
inductive RelationName where
  | follows
  | followsStar
  | parent
  | parentStar
  | modifies
  | modifiesStar
  | uses
  | usesStar
  | calls
  | callsStar
  | next
  | nextStar
  deriving DecidableEq, Repr

namespace RelationName

def all : List RelationName :=
  [.follows, .followsStar, .parent, .parentStar, .modifies, .modifiesStar, .uses, .usesStar,
    .calls, .callsStar, .next, .nextStar]

def spelling : RelationName → String
  | .follows => "Follows"
  | .followsStar => "Follows*"
  | .parent => "Parent"
  | .parentStar => "Parent*"
  | .modifies => "Modifies"
  | .modifiesStar => "Modifies*"
  | .uses => "Uses"
  | .usesStar => "Uses*"
  | .calls => "Calls"
  | .callsStar => "Calls*"
  | .next => "Next"
  | .nextStar => "Next*"

/-- The title under which a relation is recorded; a star becomes a letter. -/
def title : RelationName → String
  | .follows => "FOLLOWS"
  | .followsStar => "FOLLOWST"
  | .parent => "PARENT"
  | .parentStar => "PARENTT"
  | .modifies => "MODIFIES"
  | .modifiesStar => "MODIFIEST"
  | .uses => "USES"
  | .usesStar => "USEST"
  | .calls => "CALLS"
  | .callsStar => "CALLST"
  | .next => "NEXT"
  | .nextStar => "NEXTT"

def ofTitle? (title : String) : Option RelationName :=
  all.find? (·.title == title)

end RelationName

end ProgramQuery

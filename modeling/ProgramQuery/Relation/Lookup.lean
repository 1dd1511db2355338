import ProgramQuery.Relation.Calls
import ProgramQuery.Relation.Effect
import ProgramQuery.Relation.Follows
import ProgramQuery.Relation.Name
import ProgramQuery.Relation.Next
import ProgramQuery.Relation.Parent

/-! How each relation is asked of a knowledge base. -/

namespace ProgramQuery

/-- The starred forms of Modifies and Uses can be named in a query but not asked. -/
def RelationName.modes? (kb : KnowledgeBase) : RelationName → Option Relation.Modes
  | .follows => some (Relation.Follows.modes kb)
  | .followsStar => some (Relation.FollowsStar.modes kb)
  | .parent => some (Relation.Parent.modes kb)
  | .parentStar => some (Relation.ParentStar.modes kb)
  | .modifies => some (Relation.effectModes kb kb.modifies)
  | .modifiesStar => none
  | .uses => some (Relation.effectModes kb kb.uses)
  | .usesStar => none
  | .calls => some (Relation.Calls.modes kb)
  | .callsStar => some (Relation.CallsStar.modes kb)
  | .next => some (Relation.Next.modes kb)
  | .nextStar => some (Relation.NextStar.modes kb)

end ProgramQuery

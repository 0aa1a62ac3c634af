import SstCompactor.Compaction.Policies
import Mathlib.Data.List.Permutation

set_option autoImplicit false

namespace SstCompactor
open FixedWidth

inductive Base where
  | found : ValueType → Bytes → Base
  | tombstone | nothing
  deriving DecidableEq, Repr

def baseOf (e : Entry) : Base :=
  if (valueType e.1).isTombstone then .tombstone else .found (valueType e.1) e.2

/-- The operands from the newest version down to the first that is none, and that one. -/
def resolve : List Entry → List Bytes × Base
  | [] => ([],.nothing)
  | e :: es =>
    if valueType e.1 = .merge then (e.2 :: (resolve es).1,(resolve es).2)
    else ([],baseOf e)

end SstCompactor

import SolTrace.Layout
import Std.Data.ExtTreeMap
/-!
Scopes: the variables that are bound at present, by the node of the scope that declares them.
-/
set_option autoImplicit false

namespace SolTrace

/-- Variables by the node of their declaration. -/
abbrev Bindings := Std.ExtTreeMap NodeId Assignment

abbrev Scopes := Std.ExtTreeMap NodeId Bindings

namespace Scopes

def bindings (scopes : Scopes) (scope : NodeId) : Bindings :=
  (scopes[scope]?).getD ∅

def bind (scopes : Scopes) (scope : NodeId) (assignment : Assignment) : Scopes :=
  scopes.insert scope ((scopes.bindings scope).insert assignment.var.id assignment)

/-- The scopes among the given ones that hold bindings. -/
def pick (scopes : Scopes) (ids : List NodeId) : List (NodeId × Bindings) :=
  ids.filterMap fun id => scopes[id]?.map fun bindings => (id, bindings)

def clear (scopes : Scopes) (ids : List NodeId) : Scopes :=
  ids.foldl (fun scopes id => scopes.erase id) scopes

def restore (scopes : Scopes) (saved : List (NodeId × Bindings)) : Scopes :=
  saved.foldl (fun scopes entry => scopes.insert entry.1 entry.2) scopes

/-- The variables bound in any of the given scopes, ordered by their declarations. Of bindings of
one variable the one in the first scope counts. -/
def collect (scopes : Scopes) (ids : List NodeId) : List Assignment :=
  let found : Bindings := ids.foldl (fun found id =>
    (scopes.bindings id).foldl (fun found var assignment => found.insertIfNew var assignment)
      found) ∅
  found.toList.map Prod.snd

end Scopes

end SolTrace

import Chronogram.Check.Component

/-! Recursive instantiation. A hierarchy of components is finite only if no component contains itself,
so cycles of instantiation are searched for, and their members taken out, until none is left. What is
left can be gone through in batches, parts before the components that they are parts of. -/

namespace Chronogram

/-- Components, each with the components that it instantiates. -/
abbrev Hierarchy := List (String × List String)

namespace Hierarchy

/-- All names, each in front of those it depends on unless they came earlier. -/
def nodes (h : Hierarchy) : List String := (h.flatMap fun (n, parts) => n :: parts).eraseDups

def users (h : Hierarchy) (name : String) : List String :=
  (h.filter fun (_, parts) => parts.contains name).map (·.1)

/-- Walks in depth from a component to its users. The result is either a cycle, from a component back
to itself, or all components seen so far. The path leads back to the start of the walk and is never
longer than the number of components, which bounds the depth. -/
def visit (h : Hierarchy) : Nat → (path seen : List String) → String →
    Except (List String) (List String)
  | 0, _, seen, _ => .ok seen
  | depth + 1, path, seen, name =>
    if seen.contains name then
      if path.contains name then
        .error (name :: (path.takeWhile (· != name)).reverse ++ [name])
      else .ok seen
    else
      (h.users name).foldlM (fun seen next => h.visit depth (name :: path) seen next) (name :: seen)

def cycle? (h : Hierarchy) : Option (List String) :=
  match h.nodes.foldlM (fun seen n => h.visit (h.nodes.length + 1) [] seen n) [] with
  | .error cycle => some cycle
  | .ok _ => none

def without (h : Hierarchy) (names : List String) : Hierarchy :=
  (h.filter fun (n, _) => !names.contains n).map fun (n, parts) =>
    (n, parts.filter (!names.contains ·))

/-- A way of finding a cycle, if there is one. -/
abbrev Search := Hierarchy → Option (List String)

/-- The cycles that are found when the members of each one are taken out before the next search. -/
def cycles (search : Search) (h : Hierarchy) : List (List String) := go h.length h
where
  go : Nat → Hierarchy → List (List String)
    | 0, _ => []
    | n + 1, h =>
      match search h with
      | none => []
      | some cycle => cycle :: go n (h.without cycle)

def ready (h : Hierarchy) : List String := (h.filter (·.2.isEmpty)).map (·.1)

/-- The batches in which a hierarchy is gone through: each one holds the components all of whose parts
came in earlier ones. -/
def batches (h : Hierarchy) : List (List String) := go h.length h
where
  go : Nat → Hierarchy → List (List String)
    | 0, _ => []
    | n + 1, h =>
      match h.ready with
      | [] => []
      | ready => ready :: go n (h.without ready)

end Hierarchy

def recursionDiagnostic (c : Component) (cycle : List String) : Diagnostic where
  kind := .recursiveInstantiation
  message := "'" ++ c.name ++ "' instantiates itself through " ++ Text.joined " -> " cycle
  location := c.signature.loc
  component := c.name
  fields := [("cycle", .texts cycle)]

end Chronogram

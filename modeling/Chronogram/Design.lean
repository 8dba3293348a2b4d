import Chronogram.Statement

/-! Designs: components with or without a body, together with signatures from other files. -/

namespace Chronogram

/-- A signature and, unless the component is known by its signature alone, a body. -/
structure Component where
  signature : Signature
  body : Option Body
  deriving DecidableEq

def Component.name (c : Component) : String := c.signature.name

structure Design where
  apiVersion : String
  name : String
  usePrimitives : Bool
  components : List Component
  imported : List Signature
  source : Option String

namespace Design

def component? (d : Design) (name : String) : Option Component :=
  d.components.find? (·.name == name)

def componentNames (d : Design) : List String := d.components.map (·.name)

end Design

end Chronogram

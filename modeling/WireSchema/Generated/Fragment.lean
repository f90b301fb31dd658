import WireSchema.Text.Lines

/-!
Fragments of generated text: how to transform one input expression. A template holds its input
at a marker, which the argument takes the place of.
-/

set_option autoImplicit false

namespace WireSchema.Generated

open WireSchema.Text

def inputMarker : String := "$input"

/-- A way to transform an input expression. All but the first may fail when the program runs. -/
inductive Fragment where
  | identity
  | defined (name : String)
  | imported (name : String)
  | inlined (closure : String)
  /-- An expression around the marker. -/
  | template (body : String)
deriving DecidableEq

namespace Fragment

def resolve (arg : String) : Fragment → String
  | .identity => arg
  | .defined name => name ++ "(" ++ arg ++ ")?"
  | .imported name => name ++ "(" ++ arg ++ ")?"
  | .inlined closure => "(" ++ closure ++ ")(" ++ arg ++ ")?"
  | .template body => substitute inputMarker arg body

def isIdentity : Fragment → Bool
  | .identity => true
  | _ => false

end Fragment

end WireSchema.Generated

import TwoLevel.Page.Figure

/-!
# Events of the page

What the page shows, in order. Columns and foldable sections are entered and left again.
-/

namespace TwoLevel.Page

inductive TextStyle where
  | title | caption | markdown | success | info | warning | error | code | text | write
deriving DecidableEq, Repr

inductive Event where
  | configure (title layout : String)
  | display (style : TextStyle) (text : String)
  | textInput (label : String)
  | button (label : String)
  | columns (count : Nat)
  | enterColumn (column : Nat)
  | exitColumn (column : Nat)
  | expander (label : String) (expanded : Bool)
  | enterExpander
  | exitExpander
  | log (message : String)
  | figure (f : Figure)
  | closeFigure
deriving DecidableEq, Repr

end TwoLevel.Page

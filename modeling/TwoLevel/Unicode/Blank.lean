import TwoLevel.Unicode.CodeRange

/-!
# Blank characters

The characters that separate words: the ASCII controls from tab to carriage return and from file
separator to unit separator, the space, next line, and the space, line and paragraph separators.
Zero-width characters are not blank.
-/

namespace TwoLevel.Unicode

def blanks : List CodeRange :=
  [⟨0x09, 0x0d⟩, ⟨0x1c, 0x20⟩, ⟨0x85, 0x85⟩, ⟨0xa0, 0xa0⟩, ⟨0x1680, 0x1680⟩, ⟨0x2000, 0x200a⟩,
    ⟨0x2028, 0x2029⟩, ⟨0x202f, 0x202f⟩, ⟨0x205f, 0x205f⟩, ⟨0x3000, 0x3000⟩]

def isBlank (c : Char) : Bool := inTable blanks c

theorem isBlank_space : isBlank ' ' = true := by decide

theorem not_isBlank_lparen : isBlank '(' = false := by decide

theorem not_isBlank_rparen : isBlank ')' = false := by decide

end TwoLevel.Unicode

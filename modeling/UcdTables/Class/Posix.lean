import UcdTables.Class.Rule

/-!
# The POSIX classes

The rules of the classes, in the order in which they are evaluated: `Graph` reads `Space`, and
`Print` reads both.
-/

namespace UcdTables

open ClassTerm

/-- The whole code space. -/
def CodeRange.codeSpace : CodeRange := ⟨0, lastCode⟩

/-- The rules of the classes in the order of their evaluation. -/
def posixRules : List ClassRule := [
  { name := "Alnum", union := [property "L", property "M", property "Nd"], minus := [] },
  { name := "Alpha", union := [property "L", property "M"], minus := [] },
  { name := "Any", union := [range .codeSpace], minus := [] },
  { name := "Ascii", union := [range ⟨0x0000, 0x007F⟩], minus := [] },
  { name := "Assigned", union := [range .codeSpace], minus := [property "Cn"] },
  { name := "Blank", union := [property "Zs", codes [0x0009]], minus := [] },
  { name := "Cntrl",
    union := [property "Cc", property "Cf", property "Cn", property "Co", property "Cs"],
    minus := [] },
  { name := "Digit", union := [property "Nd"], minus := [] },
  { name := "LC", union := [property "Lu", property "Ll", property "Lt"], minus := [] },
  { name := "Lower", union := [property "Ll"], minus := [] },
  { name := "Punct",
    union := [property "Pc", property "Pd", property "Pe", property "Pf", property "Pi",
      property "Po", property "Ps"],
    minus := [] },
  { name := "Space",
    union := [property "Zs", property "Zl", property "Zp", range ⟨0x0009, 0x000D⟩, codes [0x0085]],
    minus := [] },
  { name := "Upper", union := [property "Lu"], minus := [] },
  { name := "Xdigit",
    union := [range ⟨0x0030, 0x0039⟩, range ⟨0x0041, 0x0046⟩, range ⟨0x0061, 0x0066⟩],
    minus := [] },
  { name := "Word", union := [property "L", property "M", property "Nd", property "Pc"],
    minus := [] },
  -- what leaves a mark: neither blank nor control, neither unassigned nor a surrogate
  { name := "Graph", union := [range .codeSpace],
    minus := [posixClass "Space", property "Cc", property "Cn", property "Cs"] },
  { name := "Print", union := [posixClass "Graph", posixClass "Space"], minus := [] }]

/-- The map with all POSIX classes. -/
def PropertyMap.addPosixClasses (m : PropertyMap) : PropertyMap × Except BuildError Unit :=
  m.addClasses posixRules

end UcdTables

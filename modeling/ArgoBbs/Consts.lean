/-! # Lengths and bounds

The lengths of the fields of records (`consts.h`) and of the lines of text (`edit.h`), and how many
names are tried for a new article. -/

namespace ArgoBbs

def idLen : Nat := 12
def nameLen : Nat := 20
def strLen : Nat := 80
def titleLen : Nat := 56

/-- `WRAPMARGIN`, which `initscr` also makes the number of columns. -/
def wrapMargin : Nat := 255

def maxPostretry : Nat := 2000

end ArgoBbs

/-!
# Upper case of type names

Type names of a database are matched without regard to case, by comparing what `upper` makes of
them. All names in question are ASCII, so a character matters only if its full upper case consists
of ASCII letters: the small letters, and the ten characters of Unicode in the table
`upperBeyondAscii`.
-/

namespace FilterSql.Text

/-- The characters outside ASCII whose full upper case consists of ASCII letters. -/
def upperBeyondAscii : List (Char × List Char) :=
  [('ß', ['S', 'S']), ('ı', ['I']), ('ſ', ['S']),
   ('ﬀ', ['F', 'F']), ('ﬁ', ['F', 'I']), ('ﬂ', ['F', 'L']), ('ﬃ', ['F', 'F', 'I']),
   ('ﬄ', ['F', 'F', 'L']), ('ﬅ', ['S', 'T']), ('ﬆ', ['S', 'T'])]

/-- The upper case of `c`, where it is made of ASCII letters; else `c` itself. -/
def upperChar (c : Char) : List Char :=
  if c.isLower then [c.toUpper] else (upperBeyondAscii.lookup c).getD [c]

/-- The upper case of `s`. It is exact for every text whose upper case is ASCII, and all others
stay outside ASCII, so that comparing with an ASCII name is exact for all texts. -/
def upper (s : List Char) : List Char :=
  s.flatMap upperChar

end FilterSql.Text

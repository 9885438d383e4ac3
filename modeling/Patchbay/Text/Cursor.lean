/-!
# Reading a text

How far a text has been read, and places in it. A text is read character by character, but what has
been read is counted in bytes.
-/

namespace Patchbay

namespace Text

def byteCount (cs : List Char) : Nat := cs.foldl (fun n c => n + c.utf8Size) 0

/-- A line and a column, both counted from one. What a column counts is for its users to say. -/
structure Place where
  line : Nat
  column : Nat
deriving DecidableEq

/-- The text that is left to read, and the number of bytes before it. -/
structure Cursor where
  rest : List Char
  index : Nat

namespace Cursor

def start (text : String) : Cursor := ⟨text.toList, 0⟩

def drop (n : Nat) (c : Cursor) : Cursor :=
  ⟨c.rest.drop n, c.index + byteCount (c.rest.take n)⟩

/-- Pass one character. -/
def advance (c : Cursor) : Cursor :=
  match c.rest with
  | [] => c
  | x :: rest => ⟨rest, c.index + x.utf8Size⟩

def dropWhile (p : Char → Bool) (c : Cursor) : Cursor :=
  ⟨c.rest.dropWhile p, c.index + byteCount (c.rest.takeWhile p)⟩

end Cursor

end Text

end Patchbay

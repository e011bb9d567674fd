import Census.Text.Position
import Census.Text.Search

namespace Census

namespace Text

-- The characters of a text that begin within its first `n` bytes.
def takeBytes : Nat → List Char → List Char
  | _, [] => []
  | n, c :: rest => if n = 0 then [] else c :: takeBytes (n - c.utf8Size) rest

theorem takeBytes_utf8Size (cs : List Char) (n : Nat) :
    takeBytes (utf8Size (cs.take n)) cs = cs.take n := by
  induction cs generalizing n with
  | nil => simp [takeBytes]
  | cons c rest ih =>
      cases n with
      | zero => simp [takeBytes, utf8Size]
      | succ n =>
          have hpos := c.utf8Size_pos
          rw [List.take_succ_cons, utf8Size, takeBytes, if_neg (by omega),
            Nat.add_sub_cancel_left, ih]

end Text

theorem Position.advance_length_take (p : Position) (n : Nat) (cs : List Char) :
    p.advance (cs.take n).length (cs.take n) = p.advance n (cs.take n) := by
  induction cs generalizing p n with
  | nil => cases n <;> rfl
  | cons c rest ih =>
      cases n with
      | zero => rfl
      | succ n => exact ih _ n

-- A place in a source: the number of bytes in front of it, its position, and the text from
-- there on.
structure Cursor where
  offset : Nat
  position : Position
  rest : List Char
deriving Repr

namespace Cursor

def ofText (text : List Char) : Cursor := ⟨0, .first, text⟩

-- The text from here up to byte `stop` of the source.
def slice (cursor : Cursor) (stop : Nat) : List Char :=
  Text.takeBytes (stop - cursor.offset) cursor.rest

-- The cursor at byte `stop`. Its position is counted over the text on the way and nothing
-- behind it, so a carriage return in front of `stop` counts as a line break of its own.
def moveTo (cursor : Cursor) (stop : Nat) : Cursor :=
  let passed := cursor.slice stop
  { offset := stop
    position := cursor.position.advance passed.length passed
    rest := cursor.rest.drop passed.length }

-- The position of the last character on the way to byte `stop`.
def lastBefore? (cursor : Cursor) (stop : Nat) : Option Position :=
  let passed := cursor.slice stop
  if passed.isEmpty then none
  else some (cursor.position.advance (passed.length - 1) passed)

-- The next `n` characters, if byte `stop` is where they end.
theorem slice_eq (cursor : Cursor) {n stop : Nat}
    (h : stop = cursor.offset + Text.utf8Size (cursor.rest.take n)) :
    cursor.slice stop = cursor.rest.take n := by
  rw [slice, h, Nat.add_sub_cancel_left, Text.takeBytes_utf8Size]

theorem moveTo_eq (cursor : Cursor) {n stop : Nat}
    (h : stop = cursor.offset + Text.utf8Size (cursor.rest.take n)) :
    cursor.moveTo stop =
      ⟨stop, cursor.position.advance n (cursor.rest.take n), cursor.rest.drop n⟩ := by
  have hdrop : cursor.rest.drop (cursor.rest.take n).length = cursor.rest.drop n :=
    List.drop_eq_drop_iff.2 (by rw [List.length_take]; omega)
  rw [moveTo, slice_eq cursor h, Position.advance_length_take, hdrop]

end Cursor

end Census

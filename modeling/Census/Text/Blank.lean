namespace Census.Text

-- The characters with the Unicode property White_Space.
def isBlank (c : Char) : Bool :=
  let n := c.toNat
  (0x09 ≤ n && n ≤ 0x0d) || n = 0x20 || n = 0x85 || n = 0xa0 || n = 0x1680 ||
    (0x2000 ≤ n && n ≤ 0x200a) || n = 0x2028 || n = 0x2029 || n = 0x202f || n = 0x205f ||
    n = 0x3000

def trimStart (cs : List Char) : List Char := cs.dropWhile isBlank

def trimEnd (cs : List Char) : List Char := (cs.reverse.dropWhile isBlank).reverse

-- Takes blank characters off both ends.
def trim (s : String) : String := String.ofList (trimEnd (trimStart s.toList))

-- The first word of a text, or nothing if the text is blank.
def firstWord (cs : List Char) : List Char := (trimStart cs).takeWhile fun c => !isBlank c

-- Removes `lead` from the front as often as it stands there.
def dropRepeated (lead cs : List Char) : List Char :=
  if _h : lead.isPrefixOf cs ∧ lead ≠ [] then dropRepeated lead (cs.drop lead.length) else cs
termination_by cs.length
decreasing_by
  have len := (List.isPrefixOf_iff_prefix.1 _h.1).length_le
  have pos := List.length_pos_iff.2 _h.2
  simp only [List.length_drop]
  omega

-- Removes `tail` from the end as often as it stands there.
def dropRepeatedEnd (tail cs : List Char) : List Char :=
  (dropRepeated tail.reverse cs.reverse).reverse

-- The parts of a list between the places where `a` stands.
def splitAt {α : Type} [DecidableEq α] (a : α) : List α → List (List α)
  | [] => [[]]
  | b :: rest =>
      if b = a then [] :: splitAt a rest
      else
        match splitAt a rest with
        | [] => [[b]]
        | part :: parts => (b :: part) :: parts

def lowerCase (s : String) : String := String.ofList (s.toList.map Char.toLower)

end Census.Text

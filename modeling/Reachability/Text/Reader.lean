/-!
# Reading texts

A reader takes characters from the front of a text and has no result if they
do not have the expected form.
-/

namespace Reachability.Text

abbrev CharReader := StateT (List Char) Option

namespace CharReader

def peek : CharReader (Option Char) := fun chars => some (chars.head?, chars)

def next : CharReader Char
  | [] => none
  | char :: rest => some (char, rest)

def sees (mark : String) : CharReader Bool := fun chars =>
  some (mark.toList.isPrefixOf chars, chars)

def seesChar (test : Char → Bool) : CharReader Bool := fun chars =>
  some ((chars.head?.map test).getD false, chars)

def drop (count : Nat) : CharReader Unit := fun chars => some ((), chars.drop count)

def accept (mark : String) : CharReader Bool := do
  if ← sees mark then
    drop mark.length
    return true
  else return false

def expect (mark : String) : CharReader Unit := do
  if ← accept mark then return () else failure

def takeWhile (test : Char → Bool) : CharReader (List Char) := fun chars =>
  some (chars.span test)

def atEnd : CharReader Bool := fun chars => some (chars.isEmpty, chars)

private def repeatUntilNone (item : CharReader (Option α)) : Nat → CharReader (List α)
  | 0 => failure
  | fuel + 1 => do
      match ← item with
      | some first => return first :: (← repeatUntilNone item fuel)
      | none => return []

def many (item : CharReader (Option α)) : CharReader (List α) := fun chars =>
  repeatUntilNone item (chars.length + 1) chars

def readAll (reader : CharReader α) (text : String) : Option α := do
  let (value, rest) ← reader text.toList
  if rest.isEmpty then return value else none

end CharReader

end Reachability.Text

/-! # Splitting text at a character -/

namespace LogRules.Text

/-- The pieces between the occurrences of a character. There is one piece more than there are
occurrences. -/
def splitAll (separator : Char) : List Char → List (List Char)
  | [] => [[]]
  | c :: rest =>
    if c = separator then [] :: splitAll separator rest
    else match splitAll separator rest with
      | [] => [[c]]
      | piece :: more => (c :: piece) :: more

/-- What stands before and after the first occurrence of a character. -/
def splitFirst? (separator : Char) (cs : List Char) : Option (List Char × List Char) :=
  match cs.dropWhile (· != separator) with
  | [] => none
  | _ :: rest => some (cs.takeWhile (· != separator), rest)

end LogRules.Text

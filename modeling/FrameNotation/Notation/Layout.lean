import FrameNotation.Text.Blank

namespace FrameNotation.Layout

open Text

-- Where a scan of notation text stands.
inductive Mode
  | outside
  | inside
  | comment
deriving DecidableEq

-- The text after an opening quote holds the quote that closes it.
def closes : List CodePoint → Bool
  | char '"' :: _ => true
  | char '\\' :: _ :: rest => closes rest
  | _ :: rest => closes rest
  | [] => false

-- A quote opens a string only if the string is closed.
def afterQuote : Mode → List CodePoint → Mode
  | .outside, rest => if closes rest then .inside else .outside
  | _, _ => .outside

-- Leaves out comments, which start with two slashes and end before the next newline. Strings and
-- escaped characters are kept as they are.
def uncommented : Mode → List CodePoint → List CodePoint
  | _, [] => []
  | .comment, char '\n' :: rest => char '\n' :: uncommented .outside rest
  | .comment, _ :: rest => uncommented .comment rest
  | mode, char '\\' :: c :: rest => char '\\' :: c :: uncommented mode rest
  | mode, char '"' :: rest => char '"' :: uncommented (afterQuote mode rest) rest
  | .outside, char '/' :: char '/' :: rest => uncommented .comment rest
  | mode, c :: rest => c :: uncommented mode rest

def stripComments (cs : List CodePoint) : List CodePoint := uncommented .outside cs

def startsBlank : List CodePoint → Bool
  | c :: _ => isBlank c
  | [] => false

-- Writes one space for a run of blanks outside strings, at the last blank of the run.
def collapsed : Mode → List CodePoint → List CodePoint
  | _, [] => []
  | mode, char '\\' :: c :: rest => char '\\' :: c :: collapsed mode rest
  | mode, char '"' :: rest => char '"' :: collapsed (afterQuote mode rest) rest
  | .inside, c :: rest => c :: collapsed .inside rest
  | mode, c :: rest =>
    if !isBlank c then c :: collapsed mode rest
    else if startsBlank rest then collapsed mode rest
    else char ' ' :: collapsed mode rest

def collapseBlanks (cs : List CodePoint) : List CodePoint := trim (collapsed .outside cs)

-- Texts that differ only in layout have one canonical form.
def canonical (cs : List CodePoint) : List CodePoint := collapseBlanks (stripComments cs)

end FrameNotation.Layout

import FrameNotation.Proofs.Notation.Scan

namespace FrameNotation

open Text

-- Which characters make up a chunk: within a group all that mean nothing else, in a frame body no
-- blanks, and in an array no commas.
inductive Context
  | group
  | body
  | array
deriving DecidableEq

def Context.separates : Context → CodePoint → Bool
  | .group => fun _ => false
  | .body => isBlank
  | .array => (· == ',')

def Context.allows (context : Context) (c : CodePoint) : Bool :=
  Nesting.isPlain c && !context.separates c

-- What the grammars give a name.
inductive Nonterminal
  | frameBody
  | token
  | separator
  | arrayBody
  | item
  | group (b : Bracket)
  | quoted
  | escaped
  | chunk (context : Context)
deriving DecidableEq

-- Parsing expressions.
inductive Peg
  | empty
  | one (p : CodePoint → Bool)
  | rule (r : Nonterminal)
  | seq (first second : Peg)
  | choice (first second : Peg)
  | many (e : Peg)
  | eof

namespace Peg

def symbol (c : CodePoint) : Peg := .one (· == c)

def oneOrMore (e : Peg) : Peg := .seq e (.many e)

def optional (e : Peg) : Peg := .choice e .empty

-- A backslash and the character after it.
def escape : Peg := .seq (symbol '\\') (.one fun _ => true)

-- What groups, tokens and items are made of.
def element (context : Context) : Peg :=
  .choice (.rule (.group .round)) (.choice (.rule (.group .square)) (.choice (.rule .quoted)
    (.choice (.rule .escaped) (.rule (.chunk context)))))

end Peg

-- The grammars. The alternatives within a string start with different characters, so a string is
-- the same whether or not a match may go back on its choices.
def Nonterminal.expands : Nonterminal → Peg
  | .frameBody => .seq (.optional (.rule .separator))
      (.seq (.many (.seq (.rule .token) (.optional (.rule .separator)))) .eof)
  | .token => .oneOrMore (.element .body)
  | .separator => .oneOrMore (.one isBlank)
  | .arrayBody => .seq (.optional (.rule .item))
      (.seq (.many (.seq (.symbol ',') (.optional (.rule .item)))) .eof)
  | .item => .oneOrMore (.element .array)
  | .group b => .seq (.symbol b.opener) (.seq (.many (.element .group)) (.symbol b.closer))
  | .quoted => .seq (.symbol '"')
      (.seq (.many (.choice (.one fun c => c != '"' && c != '\\') .escape)) (.symbol '"'))
  | .escaped => .escape
  | .chunk context => .oneOrMore (.one context.allows)

-- What a rule matched, down to the characters.
inductive Tree
  | leaf (c : CodePoint)
  | node (r : Nonterminal) (trees : List Tree)

namespace Tree

mutual

def text : Tree → List CodePoint
  | .leaf c => [c]
  | .node _ trees => texts trees

def texts : List Tree → List CodePoint
  | [] => []
  | tree :: trees => text tree ++ texts trees

end

mutual

-- How many groups stand within each other.
def depth : Tree → Nat
  | .leaf _ => 0
  | .node (.group _) trees => depths trees + 1
  | .node _ trees => depths trees

def depths : List Tree → Nat
  | [] => 0
  | tree :: trees => max (depth tree) (depths trees)

end

mutual

-- The texts of a rule's outermost nodes.
def collect (r : Nonterminal) : Tree → List (List CodePoint)
  | .leaf _ => []
  | .node rule trees => if rule = r then [texts trees] else collects r trees

def collects (r : Nonterminal) : List Tree → List (List CodePoint)
  | [] => []
  | tree :: trees => collect r tree ++ collects r trees

end

mutual

-- The commas that stand in no item.
def commas : Tree → Nat
  | .leaf c => if c = ',' then 1 else 0
  | .node rule trees => if rule = .item then 0 else commasOf trees

def commasOf : List Tree → Nat
  | [] => 0
  | tree :: trees => commas tree + commasOf trees

end

variable {r : Nonterminal} {cs : List CodePoint} {trees more : List Tree}

@[simp] theorem texts_append : texts (trees ++ more) = texts trees ++ texts more := by
  induction trees with
  | nil => rfl
  | cons tree trees ih => simp [texts, ih]

@[simp] theorem depths_append : depths (trees ++ more) = max (depths trees) (depths more) := by
  induction trees with
  | nil => simp [depths]
  | cons tree trees ih => simp [depths, ih, Nat.max_assoc]

@[simp] theorem collects_append :
    collects r (trees ++ more) = collects r trees ++ collects r more := by
  induction trees with
  | nil => rfl
  | cons tree trees ih => simp [collects, ih]

@[simp] theorem commasOf_append : commasOf (trees ++ more) = commasOf trees + commasOf more := by
  induction trees with
  | nil => simp [commasOf]
  | cons tree trees ih => simp [commasOf, ih, Nat.add_assoc]

@[simp] theorem texts_leaves : texts (cs.map leaf) = cs := by
  induction cs with
  | nil => rfl
  | cons c cs ih => simp [texts, text, ih]

@[simp] theorem depths_leaves : depths (cs.map leaf) = 0 := by
  induction cs with
  | nil => rfl
  | cons c cs ih => simp [depths, depth, ih]

@[simp] theorem collects_leaves : collects r (cs.map leaf) = [] := by
  induction cs with
  | nil => rfl
  | cons c cs ih => simp [collects, collect, ih]

end Tree

namespace Peg

open FrameNotation.Tree

-- What an expression makes of a text: trees and what is left of the text, or a failure. The second
-- alternative of a choice is tried only after the first one failed, and a repetition ends only
-- where what it repeats fails.
inductive Runs : Peg → List CodePoint → Option (List Tree × List CodePoint) → Prop
  | empty {cs} : Runs .empty cs (some ([], cs))
  | one {p c cs} (hc : p c = true) : Runs (.one p) (c :: cs) (some ([.leaf c], cs))
  | oneFails {p c cs} (hc : p c = false) : Runs (.one p) (c :: cs) none
  | oneEnds {p} : Runs (.one p) [] none
  | rule {r cs trees rest} (h : Runs r.expands cs (some (trees, rest))) :
      Runs (.rule r) cs (some ([.node r trees], rest))
  | ruleFails {r cs} (h : Runs r.expands cs none) : Runs (.rule r) cs none
  | seq {e f cs trees mid more rest} (he : Runs e cs (some (trees, mid)))
      (hf : Runs f mid (some (more, rest))) : Runs (.seq e f) cs (some (trees ++ more, rest))
  | seqFails {e f cs} (he : Runs e cs none) : Runs (.seq e f) cs none
  | seqFailsLater {e f cs trees mid} (he : Runs e cs (some (trees, mid)))
      (hf : Runs f mid none) : Runs (.seq e f) cs none
  | first {e f cs found} (he : Runs e cs (some found)) : Runs (.choice e f) cs (some found)
  | second {e f cs found} (he : Runs e cs none) (hf : Runs f cs found) :
      Runs (.choice e f) cs found
  | manyEnds {e cs} (he : Runs e cs none) : Runs (.many e) cs (some ([], cs))
  | more {e cs trees mid more rest} (he : Runs e cs (some (trees, mid)))
      (hmore : Runs (.many e) mid (some (more, rest))) :
      Runs (.many e) cs (some (trees ++ more, rest))
  | eof : Runs .eof [] (some ([], []))
  | eofFails {c cs} : Runs .eof (c :: cs) none

variable {e f : Peg} {r : Nonterminal} {p : CodePoint → Bool} {c : CodePoint}
variable {cs rest : List CodePoint}
variable {trees : List Tree}

-- An expression makes one thing of a text.
theorem Runs.unique {found other : Option (List Tree × List CodePoint)} (h : Runs e cs found)
    (hother : Runs e cs other) : found = other := by
  induction h generalizing other with
  | empty => cases hother; rfl
  | one hc =>
      cases hother with
      | one => rfl
      | oneFails hc' => rw [hc] at hc'; cases hc'
  | oneFails hc =>
      cases hother with
      | one hc' => rw [hc] at hc'; cases hc'
      | oneFails => rfl
  | oneEnds => cases hother; rfl
  | rule _ ih =>
      cases hother with
      | rule h => cases ih h; rfl
      | ruleFails h => cases ih h
  | ruleFails _ ih =>
      cases hother with
      | rule h => cases ih h
      | ruleFails h => rfl
  | seq _ _ ihe ihf =>
      cases hother with
      | seq he hf => cases ihe he; cases ihf hf; rfl
      | seqFails he => cases ihe he
      | seqFailsLater he hf => cases ihe he; cases ihf hf
  | seqFails _ ihe =>
      cases hother with
      | seq he _ => cases ihe he
      | seqFails he => rfl
      | seqFailsLater he _ => rfl
  | seqFailsLater _ _ ihe ihf =>
      cases hother with
      | seq he hf => cases ihe he; cases ihf hf
      | seqFails he => rfl
      | seqFailsLater he hf => rfl
  | first _ ihe =>
      cases hother with
      | first he => exact ihe he
      | second he _ => cases ihe he
  | second _ _ ihe ihf =>
      cases hother with
      | first he => cases ihe he
      | second _ hf => exact ihf hf
  | manyEnds _ ihe =>
      cases hother with
      | manyEnds => rfl
      | more he _ => cases ihe he
  | more _ _ ihe ihmore =>
      cases hother with
      | manyEnds he => cases ihe he
      | more he hmore => cases ihe he; cases ihmore hmore; rfl
  | eof => cases hother; rfl
  | eofFails => cases hother; rfl

-- What it matched and what is left are the text.
theorem Runs.texts_append {found : Option (List Tree × List CodePoint)} (h : Runs e cs found)
    (hfound : found = some (trees, rest)) : cs = texts trees ++ rest := by
  induction h generalizing trees rest with
  | empty => cases hfound; rfl
  | one _ => cases hfound; rfl
  | oneFails | oneEnds | ruleFails | seqFails | seqFailsLater | eofFails => cases hfound
  | rule _ ih =>
      cases hfound
      rw [ih rfl]
      simp [texts, text]
  | seq _ _ ihe ihf | more _ _ ihe ihf =>
      cases hfound
      rw [ihe rfl, ihf rfl, Tree.texts_append, List.append_assoc]
  | first _ ih | second _ _ _ ih => exact ih hfound
  | manyEnds => cases hfound; rfl
  | eof => cases hfound; rfl

-- A run that takes anything has matched a text.
theorem Runs.texts_ne_nil (h : Runs e cs (some (trees, rest))) (hshort : rest.length < cs.length) :
    texts trees ≠ [] := by
  intro hnil
  rw [h.texts_append rfl, hnil] at hshort
  exact Nat.lt_irrefl _ hshort

theorem runs_symbol : Runs (.symbol c) (c :: cs) (some ([.leaf c], cs)) := .one (beq_self_eq_true c)

theorem runs_symbol_none (h : cs.head? ≠ some c) : Runs (.symbol c) cs none := by
  cases cs with
  | nil => exact .oneEnds
  | cons d cs =>
      refine .oneFails (beq_eq_false_iff_ne.mpr ?_)
      rintro rfl
      exact h rfl

-- A repeated character is taken as often as it is there.
theorem runs_many_one :
    Runs (.many (.one p)) cs (some ((cs.takeWhile p).map .leaf, cs.dropWhile p)) := by
  induction cs with
  | nil => exact .manyEnds .oneEnds
  | cons c cs ih =>
      cases hc : p c with
      | false => simpa [hc] using Runs.manyEnds (.oneFails hc)
      | true => simpa [hc] using Runs.more (.one hc) ih

theorem runs_oneOrMore_one (hc : p c = true) : Runs (.oneOrMore (.one p)) (c :: cs)
    (some ((c :: cs.takeWhile p).map .leaf, cs.dropWhile p)) := .seq (.one hc) runs_many_one

theorem runs_oneOrMore_one_none (h : ∀ c rest, cs = c :: rest → p c = false) :
    Runs (.oneOrMore (.one p)) cs none := by
  cases cs with
  | nil => exact .seqFails .oneEnds
  | cons c cs => exact .seqFails (.oneFails (h c cs rfl))

end Peg

end FrameNotation

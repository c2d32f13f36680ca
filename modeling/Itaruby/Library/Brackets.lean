import Mathlib.Data.List.Basic

/-!
Texts whose brackets match: every bracket is closed by its own closer.
-/

set_option autoImplicit false
set_option relaxedAutoImplicit false

namespace Brackets

def closerOf (c : Char) : Option Char :=
  if c = '(' then some ')' else if c = '[' then some ']' else if c = '{' then some '}' else none

def isCloser (c : Char) : Bool := c == ')' || c == ']' || c == '}'

/-- The text closes the brackets of `stack` and its own ones. A comma stands in a bracket. -/
def closes : List Char → List Char → Bool
  | stack, [] => stack.isEmpty
  | stack, c :: rest =>
    match closerOf c with
    | some closer => closes (closer :: stack) rest
    | none =>
      if isCloser c then
        match stack with
        | top :: stack => c == top && closes stack rest
        | [] => false
      else if c == ',' && stack.isEmpty then false
      else closes stack rest

/-- The items between commas that stand in no bracket. -/
def itemsFrom (stack : List Char) (item : List Char) : List Char → Option (List (List Char))
  | [] => if stack = [] then some [item.reverse] else none
  | c :: rest =>
    match closerOf c with
    | some closer => itemsFrom (closer :: stack) (c :: item) rest
    | none =>
      if isCloser c then
        match stack with
        | top :: stack => if c = top then itemsFrom stack (c :: item) rest else none
        | [] => none
      else if c = ',' ∧ stack = [] then (itemsFrom [] [] rest).map (item.reverse :: ·)
      else itemsFrom stack (c :: item) rest

def items (text : List Char) : Option (List (List Char)) := itemsFrom [] [] text

end Brackets

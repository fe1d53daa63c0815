/-!
# Outlines of values

An outline shows what a value is made of, in one line or in several. `Outline` keeps both renderings and builds them together:
a text, a list, or a record with named fields. On several lines every item and every field stands on its own line, indented by
four spaces and followed by a comma; a record that does not show all its fields ends with two dots.
-/

namespace ModuleLattice

/-- A value rendered in one line and in several. -/
structure Outline where
  line : String
  lines : List String

namespace Outline

/-- The outline of a value that is a text. -/
def text (s : String) : Outline := ⟨s, [s]⟩

/-- Lines with a text before the first and a text behind the last. -/
def surround (before after : String) : List String → List String
  | [] => [before ++ after]
  | [l] => [before ++ l ++ after]
  | l :: ls => (before ++ l) :: (ls.dropLast ++ [ls.getLastD "" ++ after])

/-- Lines moved to the right by one level. -/
def indent (ls : List String) : List String := ls.map ("    " ++ ·)

/-- The outline of a list. -/
def list (items : List Outline) : Outline where
  line := "[" ++ String.intercalate ", " (items.map line) ++ "]"
  lines :=
    if items.isEmpty then ["[]"]
    else ["["] ++ items.flatMap (fun item => indent (surround "" "," item.lines)) ++ ["]"]

/-- The outline of a record; `closed` tells that all its fields are shown. -/
def record (name : String) (fields : List (String × Outline)) (closed : Bool) : Outline where
  line :=
    let shown := fields.map fun field => field.1 ++ ": " ++ field.2.line
    let all := if closed then shown else shown ++ [".."]
    name ++ " \x7b " ++ String.intercalate ", " all ++ " \x7d"
  lines :=
    [name ++ " \x7b"] ++ fields.flatMap (fun field => indent (surround (field.1 ++ ": ") "," field.2.lines)) ++
      (if closed then [] else indent [".."]) ++ ["\x7d"]

/-- The rendering asked for: on several lines if `expanded`. -/
def render (o : Outline) (expanded : Bool) : String :=
  if expanded then String.intercalate "\n" o.lines else o.line

end Outline

end ModuleLattice

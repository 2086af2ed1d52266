import Longest.Text.Quoted

/-!
# Outlines of values

An outline is the structure of a value as a reader sees it: an atom, a name
wrapped around one content, or a named record of fields.  It can be written on
one line (`compact`) or with one field a line (`spread`), indented by four
blanks a level and with a comma behind every field.
-/

namespace Longest.Text

mutual

/-- The structure of a value as a reader sees it. -/
inductive Outline where
  /-- A value without parts. -/
  | atom (text : String)
  /-- A name around one unnamed content. -/
  | wrapped (name : String) (content : Outline)
  /-- A name with named fields. -/
  | record (name : String) (fields : Fields)

/-- The fields of a record, of which there is at least one. -/
inductive Fields where
  | last (name : String) (content : Outline)
  | more (name : String) (content : Outline) (rest : Fields)

end

mutual

/-- Writes an outline on one line behind what is written. -/
def Outline.compactOnto (written : String) : Outline → String
  | .atom text => written ++ text
  | .wrapped name content => content.compactOnto (written ++ name ++ "(") ++ ")"
  | .record name fields =>
    fields.compactOnto (written ++ name ++ " \x7b ") ++ " \x7d"

/--
Writes fields on one line behind what is written, with a comma between any two.
-/
def Fields.compactOnto (written : String) : Fields → String
  | .last name content => content.compactOnto (written ++ name ++ ": ")
  | .more name content rest =>
    rest.compactOnto (content.compactOnto (written ++ name ++ ": ") ++ ", ")

end

/-- The blanks in front of a line of the given level. -/
def indent (level : Nat) : String :=
  String.ofList (List.replicate (4 * level) ' ')

mutual

/--
Writes an outline behind what is written, with its parts on lines
of the next level.
-/
def Outline.spreadOnto (level : Nat) (written : String) : Outline → String
  | .atom text => written ++ text
  | .wrapped name content =>
    content.spreadOnto (level + 1)
        (written ++ name ++ "(\n" ++ indent (level + 1)) ++
      ",\n" ++ indent level ++ ")"
  | .record name fields =>
    fields.spreadOnto (level + 1) (written ++ name ++ " \x7b\n") ++
      indent level ++ "\x7d"

/-- Writes fields behind what is written, each on a line of the given level. -/
def Fields.spreadOnto (level : Nat) (written : String) : Fields → String
  | .last name content =>
    content.spreadOnto level (written ++ indent level ++ name ++ ": ") ++ ",\n"
  | .more name content rest =>
    rest.spreadOnto level
      (content.spreadOnto level (written ++ indent level ++ name ++ ": ") ++
        ",\n")

end

/-- The outline on one line. -/
def Outline.compact (outline : Outline) : String :=
  outline.compactOnto ""

/-- The outline with every part on a line of its own. -/
def Outline.spread (outline : Outline) : String :=
  outline.spreadOnto 0 ""

/-- A type whose values have an outline. -/
class Outlined (α : Type) where
  outline : α → Outline

export Outlined (outline)

instance : Outlined Nat where
  outline number := .atom (toString number)

instance : Outlined Int64 where
  outline number := .atom (toString number.toInt)

instance : Outlined String where
  outline text := .atom (Quoted.quote text)

end Longest.Text

/-!
# Documents

Values written out for a reader who debugs: nested groups of items between brackets. A document
has two written forms. The compact one is a single line; the tall one has a line per item,
indented by four spaces a level, each item followed by a comma.

## Main definitions

* `MeteredMap.Document` : words, words side by side, and groups.
* `MeteredMap.Document.compact`, `MeteredMap.Document.tall` : the two written forms.
-/

namespace MeteredMap

/-- How a group is enclosed. -/
structure Enclosure where
  /-- What stands before the items. -/
  opening : String
  /-- What stands after the items. -/
  closing : String
  /-- What separates the brackets from the items on a single line. -/
  padding : String
  /-- Whether the group ends in dots that stand for what is not shown. -/
  openEnded : Bool

/-- A value laid out for writing. -/
inductive Document where
  /-- A word without line breaks. -/
  | word (text : String)
  /-- Two documents side by side. -/
  | beside (first second : Document)
  /-- Items between brackets. -/
  | group (enclosure : Enclosure) (items : List Document)

/-- The forms in which a document can be written. -/
inductive Form where
  | compact
  | tall
  deriving DecidableEq

namespace Document

/-! ### Written forms -/

mutual

/-- The document on a single line. -/
def compact : Document → String
  | word text => text
  | beside first second => first.compact ++ second.compact
  | group enclosure items =>
    let shown := compactItems items ++ if enclosure.openEnded then [".."] else []
    enclosure.opening ++ enclosure.padding ++ ", ".intercalate shown ++ enclosure.padding
      ++ enclosure.closing

/-- Each of the documents on a single line. -/
def compactItems : List Document → List String
  | [] => []
  | item :: items => item.compact :: compactItems items

end

/-- The blanks before a line at a level of nesting. -/
def margin (level : Nat) : String :=
  String.ofList (List.replicate (4 * level) ' ')

mutual

/-- The document with a line per item, when its first line stands at a level of nesting. A group
without items stays on one line. -/
def tallAt (level : Nat) : Document → String
  | word text => text
  | beside first second => first.tallAt level ++ second.tallAt level
  | group enclosure [] =>
    if enclosure.openEnded then
      enclosure.opening ++ "\n" ++ margin (level + 1) ++ "..\n" ++ margin level
        ++ enclosure.closing
    else
      enclosure.opening ++ enclosure.closing
  | group enclosure (item :: items) =>
    enclosure.opening ++ "\n" ++ margin (level + 1) ++ item.tallAt (level + 1) ++ ",\n"
      ++ tallItems (level + 1) items
      ++ (if enclosure.openEnded then margin (level + 1) ++ "..\n" else "")
      ++ margin level ++ enclosure.closing

/-- The documents one below the other, each with its comma. -/
def tallItems (level : Nat) : List Document → String
  | [] => ""
  | item :: items => margin level ++ item.tallAt level ++ ",\n" ++ tallItems level items

end

/-- The document with a line per item. -/
def tall (document : Document) : String :=
  document.tallAt 0

/-- The document in one of its forms. -/
def render (document : Document) : Form → String
  | .compact => document.compact
  | .tall => document.tall

/-! ### Kinds of documents -/

/-- A number in decimal digits. -/
def number (n : Nat) : Document :=
  word (toString n)

/-- Items between square brackets. -/
def list (items : List Document) : Document :=
  group { opening := "[", closing := "]", padding := "", openEnded := false } items

/-- Keys with their values between curly brackets. -/
def map (pairs : List (Document × Document)) : Document :=
  group { opening := "\x7b", closing := "\x7d", padding := "", openEnded := false }
    (pairs.map fun (key, value) => beside key (beside (word ": ") value))

/-- Items between round brackets, behind a name. -/
def tuple (name : String) (items : List Document) : Document :=
  group { opening := name ++ "(", closing := ")", padding := "", openEnded := false } items

/-- Named fields between curly brackets, behind a name. -/
def record (name : String) (fields : List (String × Document)) (openEnded : Bool) : Document :=
  group { opening := name ++ " \x7b", closing := "\x7d", padding := " ", openEnded }
    (fields.map fun (field, value) => beside (word (field ++ ": ")) value)

/-- A value that may be absent. -/
def optional : Option Document → Document
  | none => word "None"
  | some value => tuple "Some" [value]

end Document

end MeteredMap

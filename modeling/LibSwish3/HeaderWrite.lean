import LibSwish3.Header
import LibSwish3.Numerals

/-!
# Writing the header

`swish_header_write` scans the tables of a config one after the other and puts each entry into an
element of its own.  What it hands to `xmlTextWriter` is a list of `HeaderPart`s here, and
`HeaderPart.pieces` are the nodes `xmlTextReader` delivers for it, as long as the two libraries
reproduce names, attributes and text.  The writer indents its output, so blank text may stand
between any two pieces.

An element without content is written as an empty tag and has no end tag.  The string lists of a
config are not written.

## Main definitions

* `HeaderElement`, `HeaderPart` — what is handed to the writer.
* `headerWrite` — `swish_header_write`.
* `HeaderPart.isXml`, `ReadsWritten` — what the two libraries reproduce.
* `Indents`, `WrittenFile` — the document that comes out.
-/

namespace LibSwish3

open Runs Tables

/-! ## What is handed to the writer -/

/-- An element that stands for an entry: with attributes and no content, or with a text. -/
inductive HeaderElement
  | attributes (name : XmlStr) (attrs : List (XmlStr × XmlStr))
  | content (name text : XmlStr)
  deriving DecidableEq, Repr

/-- What stands below the root. -/
inductive HeaderPart
  | comment (text : XmlStr)
  | element (written : HeaderElement)
  | part (name : XmlStr) (elements : List HeaderElement)
  deriving DecidableEq, Repr

/-- `xmlTextWriterStartElement` refuses the empty name and nothing else. -/
def writeOpenTag (tag : XmlStr) : Swish Unit :=
  if tag = [] then croak [lit "Error writing element ", tag] else .ok ()

def writeElementWithContent (tag content : XmlStr) : Swish HeaderElement :=
  if tag = [] then
    croak [lit "Error writing element ", tag, lit " with content ", content]
  else .ok (.content tag content)

/-- `xmlHashScan` with a function that writes one element for each entry. -/
def scanWrite {α : Type} (write : α → XmlStr → Swish HeaderElement) (hash : HashTable α) :
    Swish (List HeaderElement) :=
  hash.entries.mapM fun e => write e.2 e.1

def writeMetaname (m : MetaName) (name : XmlStr) : Swish HeaderElement := do
  writeOpenTag name
  match ← m.aliasFor.read with
  | some target =>
    pure (.attributes name [(lit "id", intToString m.id), (lit "alias_for", target)])
  | none =>
    pure (.attributes name [(lit "id", intToString m.id), (lit "bias", intToString m.bias)])

def writeMetanames (metanames : HashTable MetaName) : Swish (List HeaderElement) :=
  scanWrite writeMetaname metanames

def writeHashEntry (value key : XmlStr) : Swish HeaderElement := writeElementWithContent key value

def writeReverseHashEntry (value key : XmlStr) : Swish HeaderElement :=
  writeElementWithContent value key

/-- `max` and `sort_length` are unsigned, and printed with `%d` all the same. -/
def writeProperty (prop : Property) (name : XmlStr) : Swish HeaderElement := do
  writeOpenTag name
  match ← prop.aliasFor.read with
  | some target =>
    pure (.attributes name [(lit "id", intToString prop.id), (lit "alias_for", target)])
  | none =>
    pure (.attributes name [(lit "id", intToString prop.id),
      (lit "ignore_case", boolToString prop.ignoreCase),
      (lit "verbatim", boolToString prop.verbatim),
      (lit "type", intToString prop.type),
      (lit "max", intToString (toInt prop.max)),
      (lit "sort", boolToString prop.sort),
      (lit "sort_length", intToString (toInt prop.sortLength)),
      (lit "presort", boolToString prop.presort)])

def writeProperties (properties : HashTable Property) : Swish (List HeaderElement) :=
  scanWrite writeProperty properties

def writeParser (val key : XmlStr) : Swish HeaderElement := writeElementWithContent val key

def writeParsers (parsers : HashTable XmlStr) : Swish (List HeaderElement) :=
  scanWrite writeParser parsers

/-- `write_mime` writes an entry that is not one of the defaults. -/
def writesMime (ext type : XmlStr) : Bool :=
  decide (ext ∉ mimeDefaults ∨ mimeDefaults.lookup ext ≠ some type)

def writeMimes (mimes : HashTable XmlStr) : Swish (List HeaderElement) :=
  (mimes.entries.filter fun e => writesMime e.1 e.2).mapM fun e =>
    writeElementWithContent e.1 e.2

def writeIndex (index : HashTable XmlStr) : Swish (List HeaderElement) :=
  scanWrite writeHashEntry index

def writeTagAliases (tagAliases : HashTable XmlStr) : Swish (List HeaderElement) :=
  scanWrite writeReverseHashEntry tagAliases

def writeMisc (hash : HashTable XmlStr) : Swish (List HeaderElement) :=
  scanWrite writeHashEntry hash

namespace Swish

def versionKey : XmlStr := lit "swish_version"
def libVersionKey : XmlStr := lit "swish_lib_version"

end Swish

/-- One of the two versions, unless the config brings its own. -/
def writeVersion (config : Config) (key version : XmlStr) : List HeaderPart :=
  if key ∈ config.misc then [] else [.element (.content key version)]

/-- `swish_header_write`.  `libVersion` is what `swish_lib_version` returns, a constant that
`configure` makes up. -/
def headerWrite (libVersion : XmlStr) (config : Config) : Swish (List HeaderPart) := do
  let metanames ← writeMetanames config.metanames
  let properties ← writeProperties config.properties
  let parsers ← writeParsers config.parsers
  let mimes ← writeMimes config.mimes
  let index ← writeIndex config.index
  let tagAliases ← writeTagAliases config.tagAliases
  let misc ← writeMisc config.misc
  pure ([.comment (lit "written by libswish3 - DO NOT EDIT")] ++
    writeVersion config Swish.versionKey Swish.version ++
    writeVersion config Swish.libVersionKey libVersion ++
    [.part Swish.metaSection metanames, .part Swish.propSection properties,
      .part Swish.parsersSection parsers, .part Swish.mimeSection mimes,
      .part Swish.indexSection index, .part Swish.aliasSection tagAliases] ++
    misc.map .element)

/-! ## The document that comes out -/

/-- The nodes of a text: none for the empty text, and blank text is no text node. -/
def textNodes (text : XmlStr) : List Node :=
  if text = [] then []
  else if strAllWs text then
    [⟨.significantWhitespace, lit "#text", some (lit "#text"), some text, []⟩]
  else [textNode text]

def HeaderElement.nodes : HeaderElement → List Node
  | .attributes name attrs => [startNode name (attrs.map fun p => ⟨none, p.1, p.2⟩)]
  | .content name text => startNode name [] :: textNodes text ++ [endNode name]

/-- The nodes of a part; blank text can stand between two pieces, not inside of one. -/
def HeaderPart.pieces : HeaderPart → List (List Node)
  | .comment text => [[⟨.comment, lit "#comment", some (lit "#comment"), some text, []⟩]]
  | .element written => [written.nodes]
  | .part name [] => [[startNode name []]]
  | .part name (first :: rest) =>
    [startNode name []] :: (first :: rest).map HeaderElement.nodes ++ [[endNode name]]

/-- Blank text, as the writer puts it between two elements. -/
structure Node.IsIndent (node : Node) : Prop where
  type : node.type = .significantWhitespace
  localName : node.localName = some (lit "#text")
  blank : strAllWs node.text = true

/-- The pieces one after the other, with blank text in front of them and between them. -/
inductive Indents : List (List Node) → List Node → Prop
  | nil : Indents [] []
  | blank {pieces : List (List Node)} {nodes : List Node} {node : Node} (hnode : node.IsIndent)
      (h : Indents pieces nodes) : Indents pieces (node :: nodes)
  | piece {pieces : List (List Node)} {nodes : List Node} (piece : List Node)
      (h : Indents pieces nodes) : Indents (piece :: pieces) (piece ++ nodes)

/-- The reader delivers what was written. -/
structure WrittenFile (parts : List HeaderPart) (reader : Reader) : Prop where
  complete : reader.complete = true
  nodes : ∃ body, reader.nodes = startNode Swish.headerRoot [] :: body ∧
    Indents (parts.flatMap HeaderPart.pieces ++ [[endNode Swish.headerRoot]]) body

/-! ## What can be written in XML -/

/-- `Char` of XML. -/
def isXmlChar (c : Nat) : Bool :=
  c == 9 || c == 10 || c == 13 || (32 ≤ c && c ≤ 0xD7FF) || (0xE000 ≤ c && c ≤ 0xFFFD) ||
    (0x10000 ≤ c && c ≤ 0x10FFFF)

/-- `NameStartChar` of XML, without the colon. -/
def isNameStartChar (c : Nat) : Bool :=
  (65 ≤ c && c ≤ 90) || c == 95 || (97 ≤ c && c ≤ 122) || (0xC0 ≤ c && c ≤ 0xD6) ||
    (0xD8 ≤ c && c ≤ 0xF6) || (0xF8 ≤ c && c ≤ 0x2FF) || (0x370 ≤ c && c ≤ 0x37D) ||
    (0x37F ≤ c && c ≤ 0x1FFF) || (0x200C ≤ c && c ≤ 0x200D) || (0x2070 ≤ c && c ≤ 0x218F) ||
    (0x2C00 ≤ c && c ≤ 0x2FEF) || (0x3001 ≤ c && c ≤ 0xD7FF) || (0xF900 ≤ c && c ≤ 0xFDCF) ||
    (0xFDF0 ≤ c && c ≤ 0xFFFD) || (0x10000 ≤ c && c ≤ 0xEFFFF)

/-- `NameChar` of XML, without the colon. -/
def isNameChar (c : Nat) : Bool :=
  isNameStartChar c || c == 45 || c == 46 || (48 ≤ c && c ≤ 57) || c == 0xB7 ||
    (0x300 ≤ c && c ≤ 0x36F) || (0x203F ≤ c && c ≤ 0x2040)

/-- A name that an element or attribute can have, no longer than `XML_MAX_NAME_LENGTH`. -/
def isXmlName (name : XmlStr) : Bool :=
  match mbstowcs name with
  | some (c :: cs) => isNameStartChar c && cs.all isNameChar && name.length ≤ 50000
  | _ => false

/-- A text no longer than `XML_MAX_TEXT_LENGTH`. -/
def isXmlText (text : XmlStr) : Bool :=
  (mbstowcs text).any (·.all isXmlChar) && text.length ≤ 10000000

/-- No two hyphens in a row, and none at the end. -/
def isCommentText : XmlStr → Bool
  | [] => true
  | 45 :: [] | 45 :: 45 :: _ => false
  | _ :: s => isCommentText s

def HeaderElement.isXml : HeaderElement → Bool
  | .attributes name attrs => isXmlName name && attrs.all fun p => isXmlName p.1 && isXmlText p.2
  | .content name text => isXmlName name && isXmlText text

def HeaderPart.isXml : HeaderPart → Bool
  | .comment text => isXmlText text && isCommentText text
  | .element written => written.isXml
  | .part name elements => isXmlName name && elements.all HeaderElement.isXml

/-- What `xmlTextWriter` writes, `xmlTextReader` reads: `reader` is what it delivers.  The writer
checks no name and no text, so that what is no XML may be written and not be read. -/
def ReadsWritten (reader : List HeaderPart → Reader) : Prop :=
  ∀ parts, parts.all HeaderPart.isXml = true → WrittenFile parts (reader parts)

/-! ## A document without indentation -/

theorem textNodes_not_blank (text : XmlStr) :
    ∀ node ∈ textNodes text, node.type = .text → strAllWs node.text = false := by
  intro node hnode htype
  rw [textNodes] at hnode
  split_ifs at hnode with hempty hblank
  · cases hnode
  · rw [List.mem_singleton.mp hnode] at htype
    cases htype
  · rw [List.mem_singleton.mp hnode]
    exact Bool.eq_false_iff.mpr hblank

theorem HeaderElement.text_not_blank (written : HeaderElement) :
    ∀ node ∈ written.nodes, node.type = .text → strAllWs node.text = false := by
  intro node hnode htype
  cases written with
  | attributes name attrs =>
      rw [List.mem_singleton.mp hnode] at htype
      cases htype
  | content name text =>
      rcases List.mem_cons.mp hnode with rfl | hnode
      · cases htype
      rcases List.mem_append.mp hnode with hnode | hnode
      · exact textNodes_not_blank text node hnode htype
      · rw [List.mem_singleton.mp hnode] at htype
        cases htype

theorem HeaderPart.text_not_blank (part : HeaderPart) :
    ∀ piece ∈ part.pieces, ∀ node ∈ piece, node.type = .text → strAllWs node.text = false := by
  intro piece hpiece node hnode htype
  cases part with
  | comment text =>
      rw [List.mem_singleton.mp hpiece, List.mem_singleton] at hnode
      rw [hnode] at htype
      cases htype
  | element written =>
      rw [List.mem_singleton.mp hpiece] at hnode
      exact written.text_not_blank node hnode htype
  | part name elements =>
      cases elements with
      | nil =>
          rw [List.mem_singleton.mp hpiece, List.mem_singleton] at hnode
          rw [hnode] at htype
          cases htype
      | cons first rest =>
          simp only [HeaderPart.pieces, List.cons_append, List.mem_cons, List.mem_append,
            List.mem_map, List.not_mem_nil, or_false] at hpiece
          rcases hpiece with rfl | ⟨written, -, rfl⟩ | rfl
          · rw [List.mem_singleton.mp hnode] at htype
            cases htype
          · exact written.text_not_blank node hnode htype
          · rw [List.mem_singleton.mp hnode] at htype
            cases htype

/-- The nodes of the document, written without indentation. -/
def writtenNodes (parts : List HeaderPart) : List Node :=
  startNode Swish.headerRoot [] ::
    (parts.flatMap HeaderPart.pieces ++ [[endNode Swish.headerRoot]]).flatten

def writtenReader (parts : List HeaderPart) : Reader where
  nodes := writtenNodes parts
  complete := true
  text_not_blank := by
    intro node hnode htype
    rcases List.mem_cons.mp hnode with rfl | hnode
    · cases htype
    obtain ⟨piece, hpiece, hnode⟩ := List.mem_flatten.mp hnode
    rcases List.mem_append.mp hpiece with hpiece | hpiece
    · obtain ⟨part, -, hpiece⟩ := List.mem_flatMap.mp hpiece
      exact part.text_not_blank piece hpiece node hnode htype
    · rw [List.mem_singleton.mp hpiece, List.mem_singleton] at hnode
      rw [hnode] at htype
      cases htype

theorem indents_flatten (pieces : List (List Node)) : Indents pieces pieces.flatten := by
  induction pieces with
  | nil => exact .nil
  | cons piece pieces ih => exact .piece piece ih

theorem writtenFile_writtenReader (parts : List HeaderPart) :
    WrittenFile parts (writtenReader parts) :=
  ⟨rfl, _, rfl, indents_flatten _⟩

end LibSwish3

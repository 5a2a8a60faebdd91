import Reparse.Diff
import Reparse.Language

/-!
# Round trips

A trial parses a source, prints the tree, parses the text again in the encoding
of the source and compares the two trees.  A stage that fails stands for all
stages after it.

A trial that succeeds is equivalent.  One that fails may be exempt: the source
was no program, or the failure is a gap of a representation, namely a literal
without a spelling or a text of the first tree that its own encoding lacks.
Everything else is a mismatch, a defect of the printer or the parser.
-/

namespace Reparse

inductive StageError where
  /-- The source did not parse. -/
  | parsing (e : SyntaxError)
  /-- The tree has no text, or the text no bytes. -/
  | printing (e : PrintError)
  /-- The printed text did not parse. -/
  | reparsing (e : SyntaxError)
  deriving DecidableEq

def StageError.message : StageError → String
  | parsing e => s!"original source did not parse: {e.toString}"
  | printing e => e.message
  | reparsing e => s!"generated source did not parse: {e.toString}"

inductive Exemption where
  | invalidSource
  | encodingGap
  deriving DecidableEq

def Exemption.message : Exemption → String
  | invalidSource => "original syntax error"
  | encodingGap => "generated encoding incompatibility"

inductive Verdict where
  | equivalent
  | exempt (exemption : Exemption)
  | mismatch
  deriving DecidableEq

/-- The stages of a round trip, with the source if there is one. -/
structure Trial where
  identification : String
  source : Option Source
  parsed : Except SyntaxError Tree
  printed : Except StageError String
  reparsed : Except StageError Tree

namespace Trial

/-- The bytes of a printed text in the encoding of the source, UTF-8 without a
source. -/
def encodeLike (source : Option Source) (text : String) :
    Except PrintError Source :=
  let like := source.getD (.ofText [])
  (like.reencode text.toList).mapError
    (PrintError.unrepresentable like.encoding)

/-- The trial of a tree that was read from a source or given. -/
def complete (parser : Parser) (printer : Printer) (identification : String)
    (source : Option Source) (parsed : Except SyntaxError Tree) : Trial :=
  let printed :=
    match parsed with
    | .error e => .error (.parsing e)
    | .ok tree => (printer.print tree).mapError .printing
  let reparsed :=
    match printed with
    | .error e => .error e
    | .ok text =>
      match encodeLike source text with
      | .error e => .error (.printing e)
      | .ok encoded =>
          (parser.parse encoded identification).mapError .reparsing
  ⟨identification, source, parsed, printed, reparsed⟩

def ofSource (parser : Parser) (printer : Printer) (identification : String)
    (source : Source) : Trial :=
  complete parser printer identification (some source)
    (parser.parse source identification)

/-- The trial of a tree; the source gives the encoding and appears in the
report. -/
def ofTree (parser : Parser) (printer : Printer) (identification : String)
    (source : Option Source) (tree : Tree) : Trial :=
  complete parser printer identification source (.ok tree)

/-! ## Verdicts -/

/-- Both trees are there and the same. -/
def success (t : Trial) : Bool :=
  match t.parsed, t.reparsed with
  | .ok a, .ok b => a.same b
  | _, _ => false

/-- Whether the parsed tree holds a text that the encoding of its source
lacks. -/
def exceedsEncoding (t : Trial) : Bool :=
  match t.parsed, t.source with
  | .ok tree, some source =>
      tree.texts.any fun text => !source.encoding.encodes text.toList
  | _, _ => false

/-- The error of printing or of encoding the printed text. -/
def printError? (t : Trial) : Option PrintError :=
  match t.printed, t.reparsed with
  | .error (.printing e), _ => some e
  | _, .error (.printing e) => some e
  | _, _ => none

/-- Whether printing failed for a gap of the representation.  A text that the
printer itself introduced is no such gap. -/
def hasEncodingGap (t : Trial) : Bool :=
  match t.printError? with
  | some (.invalidEscape _ _) => true
  | some (.encoding _ _) => t.exceedsEncoding
  | _ => false

def exemption? (t : Trial) : Option Exemption :=
  match t.parsed with
  | .error _ => some .invalidSource
  | .ok _ => if t.hasEncodingGap then some .encodingGap else none

def verdict (t : Trial) : Verdict :=
  match t.exemption? with
  | some e => .exempt e
  | none => if t.success then .equivalent else .mismatch

/-! ## Reports -/

def heading (title body : String) : String :=
  s!"{title}:\n{body}"

/-- The text of a stage, or why there is none. -/
def showText : Except StageError String → String
  | .ok text => text
  | .error e => e.message

/-- The tree of a stage, or why there is none. -/
def showTree {ε : Type} (message : ε → String) : Except ε Tree → String
  | .ok tree => tree.render
  | .error e => message e

/-- The difference of the two trees, where both are there. -/
def difference? (t : Trial) : Option String :=
  match t.parsed, t.reparsed with
  | .ok a, .ok b => some (treeDiff a b)
  | _, _ => none

/-- What a reader needs to see of a trial that did not succeed. -/
def report? (t : Trial) : Option String :=
  if t.success then none
  else
    let sourceText :=
      (t.source.map fun s => String.ofList s.text).getD "(not available)"
    let sections :=
      [t.identification,
        heading "Original-Source" sourceText,
        heading "Generated-Source" (showText t.printed),
        heading "Original-Node" (showTree SyntaxError.toString t.parsed),
        heading "Generated-Node" (showTree StageError.message t.reparsed)] ++
      (t.difference?.map (heading "Node-Diff")).toList
    some (String.intercalate "\n" sections)

end Trial

structure Defect where
  identification : String
  /-- The SHA-256 of the source, when there is one. -/
  digest : Option String
  report : String
  deriving DecidableEq

def Trial.defect? (t : Trial) : Option Defect :=
  match t.verdict with
  | .mismatch =>
      some ⟨t.identification, t.source.map Source.digest, t.report?.getD ""⟩
  | _ => none

/-! ## Stability -/

/-- Why printing does not settle after one reparse. -/
inductive Unstable where
  | firstPrint (e : PrintError)
  | firstParse (e : SyntaxError)
  | secondPrint (e : PrintError)
  | secondParse (e : SyntaxError)
  | different (first second : Tree)

def Unstable.message : Unstable → String
  | firstPrint e => s!"first generation: {e.message}"
  | firstParse e => s!"first reparse: {e.toString}"
  | secondPrint e => s!"second generation: {e.message}"
  | secondParse e => s!"second reparse: {e.toString}"
  | different a b => s!"generation is not stable:\n{treeDiff a b}"

/-- The text to which printing settles, when the tree that the first text
parses to is printed by `second`. -/
def settle (parser : Parser) (first second : Printer) (tree : Tree) :
    Except Unstable String := do
  let text ← (first.print tree).mapError .firstPrint
  let a ← (parser.parse (.ofText text.toList) "idempotence:first").mapError
      .firstParse
  let text ← (second.print a).mapError .secondPrint
  let b ← (parser.parse (.ofText text.toList) "idempotence:second").mapError
      .secondParse
  if a.same b then return text else throw (.different a b)

/-- The text to which printing settles: printed, parsed, printed and parsed
again, the two trees are the same. -/
def stableText (parser : Parser) (printer : Printer) (tree : Tree) :
    Except Unstable String :=
  settle parser printer printer tree

end Reparse

import JsonStream.Binary64.Shortest
import JsonStream.Decimal.Layout
import JsonStream.Session
import JsonStream.Text.Term
import JsonStream.Tree.View

/-!
# Dumps

Trees and sessions as terms, for people who look for faults. A dump shows what a tree shows of itself, and
the stage of a value that has not ended.
-/

namespace JsonStream.Text

/-! ## Payloads -/

/-- Numbers from 10¹⁶ on and below 10⁻⁴ have an exponent, and all others have a fraction. -/
def dumpLayout : Decimal.Layout :=
  { positional := some (-4, 16), pointZero := true, plusSign := false }

def numberTerm (x : Binary64) : Term :=
  .atom (String.ofList ((x.shortest .up).render dumpLayout))

def quotedTerm (text : Bytes) : Term :=
  .atom (quoted text)

def stageTerm : Stage → Term
  | .start => .atom "Start"
  | .keyword w => .apply "Keyword" (.atom w.name)
  | .number => .atom "Number"
  | .string => .atom "String"
  | .escape => .atom "Escape"
  | .element => .atom "ArrayValue"
  | .elementEnd => .atom "ArrayValueParsed"
  | .name => .atom "ObjectKey"
  | .nameEnd => .atom "ObjectKeyParsed"
  | .member => .atom "ObjectValue"
  | .memberEnd => .atom "ObjectValueParsed"

/-! ## Nodes -/

def nodeTerm (name : Option Bytes) (kind : Option Kind) (payload : List (String × Term))
    (stage : Option Stage) : Term :=
  .record "Node" <|
    ("kind", .ofOption (kind.map fun k => .atom k.name))
    :: (name.map fun n => ("key", quotedTerm n)).toList
    ++ payload
    ++ (stage.map fun s => ("state", stageTerm s)).toList

mutual

def valueTerm (name : Option Bytes) : Value → Term
  | .number x => nodeTerm name (some .number) [("number", numberTerm x)] none
  | .string text => nodeTerm name (some .string) [("text", .ofOption (some (quotedTerm text)))] none
  | .array items =>
    nodeTerm name (some (.container .array)) [("children", .list (itemTerms items))] none
  | .object members =>
    nodeTerm name (some (.container .object)) [("children", .list (memberTerms members))] none
  | .bool b => nodeTerm name (some (.keyword (.bool b))) [] none
  | .null => nodeTerm name (some (.keyword .null)) [] none

def itemTerms : List Value → List Term
  | [] => []
  | v :: rest => valueTerm none v :: itemTerms rest

def memberTerms : List (Bytes × Value) → List Term
  | [] => []
  | (name, v) :: rest => valueTerm (some name) v :: memberTerms rest

end

def payloadFields : Outline → List (String × Term)
  | .blank => []
  | .keyword _ => []
  | .number x => [("number", numberTerm x)]
  | .string text => [("text", .ofOption (text.map quotedTerm))]
  | .array items => [("children", .list (itemTerms items))]
  | .object members => [("children", .list (memberTerms members))]

def treeTerm (t : Tree) : Term :=
  nodeTerm none t.kind? (payloadFields t.outline) t.stage?

/-! ## Sessions -/

def optionsTerm (o : Options) : Term :=
  .record "DecoderOptions"
    [ ("max_depth", .ofNat o.maxDepth)
    , ("max_token_len", .ofOption (o.maxTokenLength.map .ofNat))
    , ("lenient_whitespace", .ofBool o.lenientWhitespace) ]

def positionTerm (p : Position) : Term :=
  .record "Position"
    [("offset", .ofNat p.offset), ("line", .ofNat p.line), ("column", .ofNat p.column)]

def sessionTerm (s : Session) : Term :=
  .record "Decoder"
    [ ("options", optionsTerm s.options)
    , ("root", .ofOption (s.tree.map treeTerm))
    , ("position", positionTerm s.position) ]

end JsonStream.Text

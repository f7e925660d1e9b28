import JsonStream.Kind
import JsonStream.Text.Quoted

/-!
# Events

What happens to a tree while it is decoded, in the order of the document. Each event belongs to the byte
that brings it about: an opening or closing bracket, or the quote that ends a string.
-/

namespace JsonStream

/-- A change worth telling while a value is decoded. A container opens inside `depth` others, and a string, be it
a value or a name, ends with so many bytes after decoding. -/
inductive Event
  | opened (container : Container) (depth : Nat)
  | closed (container : Container) (children : Nat)
  | string (length : Nat)
  | member (name : Bytes)
  deriving DecidableEq, Repr

def Event.message : Event → String
  | opened c depth => "open Some(" ++ c.name ++ ") at depth " ++ toString depth
  | closed c children => "close Some(" ++ c.name ++ ") with " ++ toString children ++ " children"
  | string length => "string of " ++ toString length ++ " bytes"
  | member name => "member Some(" ++ Text.quoted name ++ ")"

end JsonStream

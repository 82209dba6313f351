import RegionPooling.Json.Token

/-!
# Documents as far as they can be read

A text that breaks off or goes wrong is still a document up to that place. `Document.read`
always gives a tree; a `fault` leaf in it marks where reading stopped, and everything before
that leaf, in the order of the text, is as it stands in the text. A consumer that walks the
tree in order therefore meets a wrong value first if it comes first in the text, and the
fault first otherwise.

The reader is a pushdown machine. Its stack holds the arrays and objects that are open, and
each step takes one token.
-/

namespace RegionPooling

/--
A tree with possible faults. A number without a value is too large; a string or a key
without a value holds half of a surrogate pair. Keys may repeat.
-/
inductive Document where
  | null
  | bool (value : Bool)
  | number (value : Option Number)
  | string (value : Option String)
  | array (items : List Document)
  | object (members : List (Option String × Document))
  | fault (reason : Fault)

namespace Document

/-- An open array or object: what it holds so far, last first, and the key that waits. -/
inductive Frame where
  | array (done : List Document)
  | object (done : List (Option String × Document)) (key : Option String)

/-- What comes next. -/
inductive Phase where
  | value
  | itemOrEnd
  | key
  | keyOrEnd
  | colon
  /-- The value that was just completed waits for its place. -/
  | after (value : Document)

/-- Closes all open frames around the innermost document. -/
def close : List Frame → Document → Document
  | [], d => d
  | .array done :: outer, d => close outer (.array (d :: done).reverse)
  | .object done key :: outer, d => close outer (.object ((key, d) :: done).reverse)

/-- The document that ends at a fault. -/
def broken (stack : List Frame) (reason : Fault) : Document := close stack (.fault reason)

/-- The value that one token forms by itself. -/
def ofToken? : Token → Option Document
  | .null => some .null
  | .bool b => some (.bool b)
  | .number n => some (.number n)
  | .string s => some (.string s)
  | _ => none

/-- The fault of a token that is out of place. -/
def faultOf : Token → Fault
  | .fault reason => reason
  | _ => .unexpected

/-- What the machine does with a token. -/
inductive Move where
  | goOn (phase : Phase) (stack : List Frame)
  | stop (document : Document)

/-- Gives up at a token that is out of place. -/
def refuse (stack : List Frame) (token : Token) : Move := .stop (broken stack (faultOf token))

/-- A token where a value has to begin. -/
def beginValue (stack : List Frame) : Token → Move
  | .openBracket => .goOn .itemOrEnd (.array [] :: stack)
  | .openBrace => .goOn .keyOrEnd (.object [] none :: stack)
  | token =>
    match ofToken? token with
    | some d => .goOn (.after d) stack
    | none => refuse stack token

/-- A token where a key of the innermost object has to stand. -/
def takeKey : List Frame → Token → Move
  | .object done _ :: outer, .string key => .goOn .colon (.object done key :: outer)
  | stack, token => refuse stack token

/-- One step of the machine. -/
def step : Phase → List Frame → Token → Move
  | .value, stack, token => beginValue stack token
  | .itemOrEnd, stack, .closeBracket => .goOn (.after (.array [])) (stack.drop 1)
  | .itemOrEnd, stack, token => beginValue stack token
  | .keyOrEnd, stack, .closeBrace => .goOn (.after (.object [])) (stack.drop 1)
  | .keyOrEnd, stack, token => takeKey stack token
  | .key, stack, token => takeKey stack token
  | .colon, stack, .colon => .goOn .value stack
  | .colon, stack, token => refuse stack token
  | .after d, .array done :: outer, .comma => .goOn .value (.array (d :: done) :: outer)
  | .after d, .array done :: outer, .closeBracket =>
    .goOn (.after (.array (d :: done).reverse)) outer
  | .after d, .array done :: outer, token => refuse (.array (d :: done) :: outer) token
  | .after d, .object done key :: outer, .comma =>
    .goOn .key (.object ((key, d) :: done) none :: outer)
  | .after d, .object done key :: outer, .closeBrace =>
    .goOn (.after (.object ((key, d) :: done).reverse)) outer
  | .after d, .object done key :: outer, token =>
    refuse (.object ((key, d) :: done) none :: outer) token
  | .after d, [], _ => .stop d

/-- Reads one value and gives back the tokens after it. -/
def run : Phase → List Frame → List Token → Document × List Token
  | .after d, [], tokens => (d, tokens)
  | .after d, .array done :: outer, [] => (broken (.array (d :: done) :: outer) .endOfText, [])
  | .after d, .object done key :: outer, [] =>
    (broken (.object ((key, d) :: done) none :: outer) .endOfText, [])
  | _, stack, [] => (broken stack .endOfText, [])
  | phase, stack, token :: rest =>
    match step phase stack token with
    | .goOn phase stack => run phase stack rest
    -- Nothing is read past a fault.
    | .stop d => (d, [])

/-- The document of a text and the tokens that follow it. -/
def read (text : String) : Document × List Token := run .value [] (Token.scan text.toList)

end Document

end RegionPooling

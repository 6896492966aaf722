import Mathlib.Data.List.DropRight
import Archives.Common.Call
import Archives.Common.Lines
/-!
# FTL — the HTTP request parser of the API server

`apps/apiserver/src/http`: a parser that is fed the bytes of a
connection chunk by chunk. Lines are handled when they are complete; what
is left over waits for the next chunk. The model is for ASCII input, on
which a byte and a character are the same and `str::from_utf8` succeeds.
-/

namespace Archives.Ftl.Http

/-- ASCII text. -/
abbrev Text := List Char

def crlf : Text := ['\r', '\n']

/-- `parser::Error`. -/
inductive Error
  | tooLongRequest | invalidStartLine | unsupportedHttpVersion | unsupportedMethod
  | invalidHeader | emptyHeaderKey | unsupportedTransferEncoding | tooManyHeaders | pathTooLong
  | headerNameTooLong | headerValueTooLong | invalidHeaderName
  deriving DecidableEq, Repr

/-- How the parser panics. -/
inductive Panic
  /-- A slice that starts after its end. -/
  | outOfRange
  /-- `unreachable!()`. -/
  | unreachable
  deriving DecidableEq, Repr

def maxHeadersSize : Nat := 16 * 1024

def maxBodySize : Nat := 256 * 1024

def maxPathLength : Nat := 8192

def maxHeaderNameLength : Nat := 256

def maxHeaderValueLength : Nat := 8192

def maxHeaderCount : Nat := 100

/-! ## Strings -/

variable (s : Text)

/-- `str::split_inclusive("\r\n")`: the lines with their terminators, and
an unterminated one at the end. -/
def splitInclusive : List Text :=
  (Lines.cut '\r' '\n' s).1 ++
    if (Lines.cut '\r' '\n' s).2 = [] then [] else [(Lines.cut '\r' '\n' s).2]

def isAsciiWhitespace (c : Char) : Bool :=
  c == ' ' || c == '\t' || c == '\n' || c == '\r' || c == '\x0c'

/-- `char::is_whitespace`, which knows the vertical tab, too. -/
def isWhitespace (c : Char) : Bool := isAsciiWhitespace c || c == '\x0b'

def trimAsciiEnd : Text := s.rdropWhile isAsciiWhitespace

def trim : Text := (s.dropWhile isWhitespace).rdropWhile isWhitespace

def splitOnce (sep : Char) (s : Text) : Option (Text × Text) :=
  if sep ∈ s then some (s.takeWhile (· ≠ sep), (s.dropWhile (· ≠ sep)).drop 1) else none

def split (sep : Char) (s : Text) : List Text :=
  s.foldr (fun c parts =>
    if c = sep then [] :: parts
    else match parts with
      | [] => [[c]]
      | part :: parts => (c :: part) :: parts) [[]]

/-- The number in a string of digits. -/
def digits : Option Nat :=
  if s.all Char.isDigit then
    let n := s.foldl (fun n c => 10 * n + (c.toNat - '0'.toNat)) 0
    if n < 0x10000000000000000 then some n else none
  else none

/-- `str::parse::<usize>`: a plus sign may come first. -/
def parseUsize : Text → Option Nat
  | [] => none
  | ['+'] => none
  | '+' :: ds => digits ds
  | ds => digits ds

def contains (pattern s : Text) : Bool := s.tails.any fun t => pattern.isPrefixOf t

/-! ## Requests -/

inductive Method
  | get | head | post | put | patch | delete | options | trace | connect
  deriving DecidableEq, Repr

def Method.fromBytes : Option Method :=
  if s = "GET".toList then some .get
  else if s = "HEAD".toList then some .head
  else if s = "POST".toList then some .post
  else if s = "PUT".toList then some .put
  else if s = "PATCH".toList then some .patch
  else if s = "DELETE".toList then some .delete
  else if s = "OPTIONS".toList then some .options
  else if s = "TRACE".toList then some .trace
  else if s = "CONNECT".toList then some .connect
  else none

/-- `Query`, the parameters in order. -/
abbrev Query := List (Text × Text)

/-- `Query::from_str`: what has no `=` is left out. -/
def Query.fromStr : Query :=
  if s = [] then [] else (split '&' s).filterMap (splitOnce '=')

def splitPathAndQuery : Text × Query :=
  match splitOnce '?' s with
  | some (path, query) => (path, Query.fromStr query)
  | none => (s, [])

/-- `Headers`: the values of each name, names in lower case. -/
abbrev Headers := List (Text × List Text)

namespace Headers

def parseName : Option Text :=
  if s ≠ [] ∧ s.all (fun c => c.isAlphanum || c == '-' || c == '_') then
    some (s.map Char.toLower)
  else none

/-- `HeaderValue::try_from`. -/
def parseValue : Option Text :=
  if s ≠ [] ∧ '\r' ∉ s ∧ '\n' ∉ s then some s else none

/-- The entry of a name, changed or made. -/
def push (name value : Text) : Headers → Headers
  | [] => [(name, [value])]
  | (n, vs) :: rest =>
    if n = name then (n, vs ++ [value]) :: rest else (n, vs) :: push name value rest

/-- `Headers::append`, with its result ignored as the parser does: what
is not valid is dropped. -/
def append (headers : Headers) (name value : Text) : Headers :=
  match parseName name, parseValue value with
  | some name, some value => headers.push name value
  | _, _ => headers

/-- `Headers::get` for a name that is valid and in lower case. -/
def get (headers : Headers) (name : Text) : Option Text :=
  (headers.lookup name).bind List.head?

end Headers

/-- What comes before the body of a request. -/
structure Head where
  method : Method
  path : Text
  query : Query
  headers : Headers
  deriving DecidableEq

structure Request where
  head : Head
  body : Text
  deriving DecidableEq

/-! ## The parser -/

inductive State
  | startLine
  | headers (head : Head)
  | body (head : Head) (contentLength : Nat)
  deriving DecidableEq

structure RequestParser where
  headersBuf : Text
  bodyBuf : Text
  state : State
  deriving DecidableEq

def RequestParser.new : RequestParser where
  headersBuf := []
  bodyBuf := []
  state := .startLine

def reset (_ : RequestParser) : RequestParser := .new

abbrev Parse := Call Panic RequestParser Error

def parseStartLine (line : Text) : Except Error Head :=
  -- `splitn(3, ' ')` with three parts
  match splitOnce ' ' (trimAsciiEnd line) with
  | none => .error .invalidStartLine
  | some (method, rest) =>
    match splitOnce ' ' rest with
    | none => .error .invalidStartLine
    | some (pathAndQuery, version) =>
      if version ≠ "HTTP/1.1".toList then .error .unsupportedHttpVersion
      else if maxPathLength < pathAndQuery.length then .error .pathTooLong
      else
        match Method.fromBytes method with
        | none => .error .unsupportedMethod
        | some method =>
          let (path, query) := splitPathAndQuery pathAndQuery
          .ok { method := method, path := path, query := query, headers := [] }

def isAsciiGraphic (c : Char) : Bool := '!' ≤ c && c ≤ '~'

def parseHeader (headers : Headers) (line : Text) : Except Error Headers :=
  if maxHeaderCount ≤ headers.length then .error .tooManyHeaders
  else
    -- `splitn(2, ':')` with two parts
    match splitOnce ':' (trimAsciiEnd line) with
    | none => .error .invalidHeader
    | some (key, value) =>
      let key := trim key
      let value := trim value
      if key = [] then .error .emptyHeaderKey
      else if maxHeaderNameLength < key.length then .error .headerNameTooLong
      else if maxHeaderValueLength < value.length then .error .headerValueTooLong
      else if ¬ key.all (fun c => isAsciiGraphic c && c ≠ ':') then .error .invalidHeaderName
      else .ok (headers.append key value)

/-- The value of the `content-length` header, 0 if there is none to
read. -/
def contentLength (headers : Headers) : Nat :=
  ((headers.get "content-length".toList).bind parseUsize).getD 0

/-- The `transfer-encoding` header asks for chunks. -/
def isChunked (headers : Headers) : Bool :=
  match headers.get "transfer-encoding".toList with
  | some encoding => contains "chunked".toList (encoding.map Char.toLower)
  | none => false

/-- What `parse_chunk` does at the empty line. The body is what follows
in the chunk; where it starts there is computed from the number of bytes
of lines handled, which counts what earlier chunks left over, too. -/
def endHeaders (chunk : Text) (consumedLen : Nat) (head : Head) : Parse (Option Request) := do
  .update fun p => { p with headersBuf := [], state := .startLine }
  if isChunked head.headers then .fail .unsupportedTransferEncoding
  else if maxBodySize < contentLength head.headers then .fail .tooLongRequest
  else if contentLength head.headers = 0 then do
    .update reset
    pure (some { head := head, body := [] })
  else if chunk.length < consumedLen then .stop .outOfRange
  else do
    .update fun p => { p with
      bodyBuf := p.bodyBuf ++ (chunk.drop consumedLen).take (contentLength head.headers) }
    let p ← .state
    if p.bodyBuf.length = contentLength head.headers then do
      .update reset
      pure (some { head := head, body := p.bodyBuf })
    else do
      .update fun p => { p with state := .body head (contentLength head.headers) }
      pure none

/-- The loop of `parse_chunk` over the lines. -/
def parseLines (chunk headersBuf : Text) : List Text → Nat → Parse (Option Request)
  | [], consumedLen => do
    .update fun p => { p with headersBuf := headersBuf.drop consumedLen }
    pure none
  | line :: lines, consumedLen =>
    if ¬ crlf <:+ line then do
      -- the line is still not terminated
      .update fun p => { p with headersBuf := headersBuf.drop consumedLen }
      pure none
    else do
      let consumedLen := consumedLen + line.length
      let p ← .state
      match p.state with
      | .startLine => do
        let head ← .lift (parseStartLine line)
        .update fun p => { p with state := .headers head }
        parseLines chunk headersBuf lines consumedLen
      | .headers head =>
        if line = crlf then endHeaders chunk consumedLen head
        else do
          let headers ← .lift (parseHeader head.headers line)
          .update fun p => { p with state := .headers { head with headers := headers } }
          parseLines chunk headersBuf lines consumedLen
      | .body _ _ => .stop .unreachable

/-- `parse_chunk` while the body is read. -/
def parseBody (chunk : Text) (head : Head) (contentLength : Nat) : Parse (Option Request) := do
  let p ← .state
  let bytesToTake := min chunk.length (contentLength - p.bodyBuf.length)
  if maxBodySize < p.bodyBuf.length + bytesToTake then .fail .tooLongRequest
  else do
    .update fun p => { p with bodyBuf := p.bodyBuf ++ chunk.take bytesToTake }
    let p ← .state
    if p.bodyBuf.length = contentLength then do
      .update reset
      pure (some { head := head, body := p.bodyBuf })
    else pure none

def parseChunk (chunk : Text) : Parse (Option Request) := do
  let p ← .state
  match p.state with
  | .body head contentLength => parseBody chunk head contentLength
  | _ =>
    if maxHeadersSize < p.headersBuf.length + chunk.length then .fail .tooLongRequest
    else do
      let headersBuf := p.headersBuf ++ chunk
      .update fun p => { p with headersBuf := [] }
      parseLines chunk headersBuf (splitInclusive headersBuf) 0

/-! ## Feeding chunks -/

/-- What a parser answers to chunks fed one by one; it may panic. -/
def feed : RequestParser → List Text → Except Panic (List (Except Error (Option Request)))
  | _, [] => .ok []
  | p, chunk :: chunks =>
    match (parseChunk chunk).run p with
    | .error x => .error x
    | .ok (r, p) => (feed p chunks).map (r :: ·)

/-- The header section of an input: the shortest part of it, from the
start, that ends with an empty line. -/
structure IsHeaderSection (input header : Text) : Prop where
  initial : header <+: input
  blank : crlf ++ crlf <:+ header
  shortest : ∀ s, s <+: input → crlf ++ crlf <:+ s → header.length ≤ s.length

/-- The answers the chunks of one request should get. -/
def answers (n : Nat) (request : Request) : List (Except Error (Option Request)) :=
  List.replicate (n - 1) (.ok none) ++ [.ok (some request)]

/-- **The chunk with the end of the header section starts a line**: it
is the first, or those before it end with a line terminator. -/
def StartsLine (chunks : List Text) (header : Text) : Prop :=
  ∀ before chunk after, chunks = before ++ chunk :: after →
    before.flatten.length < header.length →
    header.length ≤ before.flatten.length + chunk.length →
    before.flatten = [] ∨ crlf <:+ before.flatten

end Archives.Ftl.Http

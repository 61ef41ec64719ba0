import Typeahead.Address.Host
import Typeahead.Address.Path

namespace Typeahead

open Text

namespace Address

/-- Who is asked for a document: a host, with what a client says to be let in. -/
structure Authority where
  user : String := ""
  password : String := ""
  host : Host
  /-- The number of the service at the host, unless it is the usual one of the scheme. -/
  service : Option Nat := none
  deriving DecidableEq, Repr

end Address

/-- The address of a document, in the form that all its spellings have in common. -/
structure Address where
  scheme : String
  /-- Where the document is served; a file on this machine has none. -/
  authority : Option Address.Authority := none
  path : String
  query : Option String := none
  fragment : Option String := none
  deriving DecidableEq, Repr

namespace Address

/-- The usual service number of the schemes that are served by hosts with domain names. -/
def usualService? (scheme : String) : Option Nat :=
  if scheme = "http" ∨ scheme = "ws" then some 80
  else if scheme = "https" ∨ scheme = "wss" then some 443
  else if scheme = "ftp" then some 21
  else none

/-- In addresses with domain names a backslash is another slash. -/
def isSlash (c : Char) : Bool := c == '/' || c == '\\'

/-- Blanks and controls around an address do not count, nor do line ends and tabs within it. -/
def clean (text : List Char) : List Char :=
  let isOuter (c : Char) : Bool := c.toNat ≤ 0x20
  ((text.dropWhile isOuter).reverse.dropWhile isOuter).reverse.filter fun c =>
    c != '\t' && c != '\n' && c != '\r'

/-- The scheme in small letters, and what follows its colon. -/
def readScheme? (text : List Char) : Option (String × List Char) := do
  let (name, _, rest) ← breakFirst (· == ':') text
  let isKnown (c : Char) : Bool := c.isAlphanum || c == '+' || c == '-' || c == '.'
  if name.head?.any Char.isAlpha && name.all isKnown then
    some (String.ofList (name.map Char.toLower), rest)
  else none

/-- The name and the password of a user before the last `@`, and what follows it. -/
def readUser (text : List Char) : String × String × List Char :=
  let escaped (cs : List Char) : String := String.ofList (escape userReserved cs)
  match breakLast (· == '@') text with
  | none => ("", "", text)
  | some (user, _, rest) =>
    match breakFirst (· == ':') user with
    | some (name, _, password) => (escaped name, escaped password, rest)
    | none => (escaped user, "", rest)

/-- The host, and what follows it from the colon of a service number on; colons in brackets belong to the
host. -/
def breakHost (isBracketed : Bool) : List Char → List Char × List Char
  | [] => ([], [])
  | c :: cs =>
    if c == ':' && !isBracketed then ([], c :: cs)
    else
      let (host, rest) := breakHost (c == '[' || (isBracketed && c != ']')) cs
      (c :: host, rest)

/-- The service number, unless it is the usual one, and what follows its digits; only a backslash may. -/
def readService? (usual : Option Nat) (text : List Char) : Option (Option Nat × List Char) := do
  let digits := text.takeWhile Char.isDigit
  let rest := text.dropWhile Char.isDigit
  let value ← numberValue? 10 digits
  if 0xffff < value || rest.head?.any (· != '\\') then none
  else if digits.isEmpty ∨ some value = usual then some (none, rest)
  else some (some value, rest)

/-- The part of an address between its two slashes and its path, which may begin in it after a service
number. A host without a name stands neither with a user nor with such a number, and a lone `@` needs a
host when more follows it. -/
def Authority.read? (scheme : String) (isFollowed : Bool) (text : List Char) :
    Option (Authority × List Char) := do
  let usual := usualService? scheme
  let (user, password, rest) := readUser text
  let (name, rest) := breakHost false rest
  if name.isEmpty && (usual.isSome || user != "" || password != "" || rest != [] ||
      (isFollowed && text == ['@'])) then none
  else
    let host ← if usual.isSome then Host.ofDomain? name else Host.ofName? name
    let (service, rest) ← if rest.isEmpty then some (none, []) else readService? usual (rest.drop 1)
    return ({ user, password, host, service }, rest)

/-- The authority and the path of a scheme that is served by hosts with domain names. -/
def readServed? (scheme : String) (text : List Char) : Option (Authority × List Char) := do
  let text := text.dropWhile isSlash
  let (authority, _) ← Authority.read? scheme false (text.takeWhile (!isSlash ·))
  return (authority, pathText (readPath false true ((text.dropWhile (!isSlash ·)).drop 1)))

/-- The host and the path of a file. A drive letter is never a host, and a file on a drive has none. -/
def readFile? (text : List Char) : Option (Option Host × List Segment) :=
  let slashes := (text.takeWhile isSlash).length
  if slashes < 2 then some (none, readPath true true (text.drop slashes))
  else
    let text := text.drop 2
    let name := text.takeWhile (!isSlash ·)
    let rest := text.dropWhile (!isSlash ·)
    if name.isEmpty ∨ Segment.isDrive name then some (none, readPath true true text)
    else
      (Host.ofDomain? name).map fun host =>
        if host = .name "localhost" then (none, readPath true true rest)
        else
          let segments := readPath true true (rest.drop 1)
          (if hasDrive segments then none else some host, segments)

/-- The authority and the path of any other scheme. Without a slash in front the path is a plain text. -/
def readOther? (scheme : String) (isFollowed : Bool) : List Char → Option (Option Authority × List Char)
  | '/' :: '/' :: text => do
    let rest := text.dropWhile (· != '/')
    let (authority, first) ← Authority.read? scheme (isFollowed || !rest.isEmpty) (text.takeWhile (· != '/'))
    let path :=
      match first ++ rest with
      | [] => []
      | '/' :: path => pathText (readPath false false path)
      | path => pathText (readPath false false path)
    return (some authority, path)
  | '/' :: path => some (none, pathText (readPath false false path))
  | text => some (none, escape [] text)

/-- A file's path has one slash at its start. -/
def filePathText (segments : List Segment) : List Char := '/' :: (pathText segments).dropWhile (· == '/')

def readFragment? : List Char → Option String
  | '#' :: text => some (String.ofList (escape fragmentReserved text))
  | _ => none

/-- The query and the fragment. -/
def readTail (reserved : List Char) : List Char → Option String × Option String
  | '?' :: text =>
    (some (String.ofList (escape reserved (text.takeWhile (· != '#')))),
      readFragment? (text.dropWhile (· != '#')))
  | text => (none, readFragment? text)

def parse? (text : String) : Option Address := do
  let (scheme, rest) ← readScheme? (clean text.toList)
  let isTail (c : Char) : Bool := c == '?' || c == '#'
  let body := rest.takeWhile (!isTail ·)
  let tail := rest.dropWhile (!isTail ·)
  if scheme = "file" then
    let (host, segments) ← readFile? body
    let (query, fragment) := readTail ('\'' :: queryReserved) tail
    return {
      scheme, query, fragment
      authority := host.map fun host => { host }
      path := String.ofList (filePathText segments) }
  else if (usualService? scheme).isSome then
    let (authority, path) ← readServed? scheme body
    let (query, fragment) := readTail ('\'' :: queryReserved) tail
    return { scheme, authority := some authority, path := String.ofList path, query, fragment }
  else
    let (authority, path) ← readOther? scheme (!tail.isEmpty) body
    let (query, fragment) := readTail queryReserved tail
    return { scheme, authority, path := String.ofList path, query, fragment }

end Address

end Typeahead

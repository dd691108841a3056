import ProofScript.Text.Quoted
import ProofScript.Uri.Address

/-!
# File URIs

Editors name documents by URIs. A URI of the scheme `file` names a path; the path of a drive has a
slash in front in the URI. Escapes stand for bytes, so paths are byte sequences here.
-/

namespace ProofScript.Uri

/-- Why a text is not a URI. -/
inductive Cause where
  | controlCharacter
  | empty
  | missingScheme
  | relative
  | badEscape (text : List UInt8)
  | badHostCharacter (text : List UInt8)
  | badHostNumber (text : List UInt8)
  | badAddress (text : List UInt8)
  | badUserInfo
  | missingBracket
deriving DecidableEq, Repr, Inhabited

/-- The wording of a cause. -/
def Cause.text : Cause → String
  | controlCharacter => "net/url: invalid control character in URL"
  | empty => "empty url"
  | missingScheme => "missing protocol scheme"
  | relative => "invalid URI for request"
  | badEscape text => "invalid URL escape " ++ Text.quote (Text.ofBytes text)
  | badHostCharacter text =>
    "invalid character " ++ Text.quote (Text.ofBytes text) ++ " in host name"
  | badHostNumber text => "invalid port " ++ Text.quote (Text.ofBytes text) ++ " after host"
  | badAddress text =>
    "invalid host: ParseAddr(" ++ Text.quote (Text.ofBytes text) ++ "): unable to parse IP"
  | badUserInfo => "net/url: invalid userinfo"
  | missingBracket => "missing ']' in host"

/-- Why a URI names no path. -/
inductive Fault where
  | malformed (uri : String) (cause : Cause)
  | scheme (name : String)
deriving DecidableEq, Repr, Inhabited

/-- The wording of a fault. -/
def Fault.message : Fault → String
  | malformed uri cause => "parse " ++ Text.quote uri ++ ": " ++ cause.text
  | scheme name => "only file URIs are supported, got " ++ name

/-- Is the byte one of some ASCII characters? -/
def isOneOf (chars : String) (b : UInt8) : Bool := chars.toList.any fun c => byte c == b

/-- An ASCII letter or digit. -/
def isAlphanumeric (b : UInt8) : Bool := b < 0x80 && (Char.ofNat b.toNat).isAlphanum

/-- The bytes that a text with escapes stands for. -/
def unescape : List UInt8 → Except Cause (List UInt8)
  | [] => .ok []
  | b :: rest =>
    if b = byte '%' then
      match rest with
      | h :: l :: tail =>
        match hexValue? h, hexValue? l with
        | some h, some l => (unescape tail).map fun bs => (h * 16 + l) :: bs
        | _, _ => .error (.badEscape (b :: rest.take 2))
      | _ => .error (.badEscape (b :: rest))
    else (unescape rest).map (b :: ·)

/-- A character that is allowed in a host name as it is. -/
def isHostCharacter (b : UInt8) : Bool :=
  isAlphanumeric b || isOneOf "!$&'()*+,;=:[]<>\"-_.~" b

/-- Is the byte allowed in a host name as it is? -/
def isHostByte (b : UInt8) : Bool := 0x80 ≤ b || isHostCharacter b

/-- Checks a host name. Escapes stand for bytes outside ASCII, or for the percent sign. -/
def checkHost : List UInt8 → Except Cause Unit
  | [] => .ok ()
  | b :: rest =>
    if b = byte '%' then
      match rest with
      | h :: l :: tail =>
        match hexValue? h, hexValue? l with
        | some high, some _ =>
          if high < 8 && !(h == byte '2' && l == byte '5') then .error (.badEscape [b, h, l])
          else checkHost tail
        | _, _ => .error (.badEscape (b :: rest.take 2))
      | _ => .error (.badEscape (b :: rest))
    else if isHostByte b then checkHost rest
    else .error (.badHostCharacter [b])

/-- The part of a sequence after the last place of a byte, if it has that byte. -/
def afterLast? (b : UInt8) (bs : List UInt8) : Option (List UInt8) :=
  if b ∈ bs then some (bs.reverse.takeWhile (· ≠ b)).reverse else none

/-- Checks the zone of an address. Escapes stand for what may be written as it is, for the percent
sign or for the blank. -/
def checkZone : List UInt8 → Except Cause Unit
  | [] => .ok ()
  | b :: rest =>
    if b = byte '%' then
      match rest with
      | h :: l :: tail =>
        match hexValue? h, hexValue? l with
        | some high, some low =>
          let value := high * 16 + low
          if value == byte '%' || value == byte ' ' || isHostCharacter value then checkZone tail
          else .error (.badEscape [b, h, l])
        | _, _ => .error (.badEscape (b :: rest.take 2))
      | _ => .error (.badEscape (b :: rest))
    else if isHostByte b then checkZone rest
    else .error (.badHostCharacter [b])

/-- Checks an address in brackets, perhaps with a zone behind an escaped percent sign. -/
def checkAddress (text : List UInt8) : Except Cause Unit := do
  match cut? [byte '%', byte '2', byte '5'] text with
  | none => if !isAddress text then throw (.badAddress text)
  | some (address, zone) =>
    checkZone zone
    if zone.isEmpty || !isAddress address then throw (.badAddress text)

/-- Is the text empty or a colon and digits? -/
def isHostNumber : List UInt8 → Bool
  | [] => true
  | b :: rest => b == byte ':' && rest.all isDigit

/-- Checks a host, perhaps with a number behind a colon. Only an address starts with a bracket, and
nothing else has an opening one. -/
def checkNumberedHost (host : List UInt8) : Except Cause Unit := do
  if byte '[' ∈ host then
    match afterLast? (byte ']') host with
    | none => throw .missingBracket
    | some number =>
      if !isHostNumber number then throw (.badHostNumber number)
      if host.head? ≠ some (byte '[') ∨ byte '[' ∈ host.drop 1 then throw (.badAddress host)
      checkAddress ((host.take (host.length - number.length - 1)).drop 1)
  else
    match afterLast? (byte ':') host with
    | none => pure ()
    | some digits =>
      if !isHostNumber (byte ':' :: digits) then throw (.badHostNumber (byte ':' :: digits))
    checkHost host

/-- Checks the part between the two slashes and the path: a host, perhaps with a user. -/
def checkAuthority (authority : List UInt8) : Except Cause Unit := do
  match afterLast? (byte '@') authority with
  | none => checkNumberedHost authority
  | some host =>
    checkNumberedHost host
    let user := authority.take (authority.length - host.length - 1)
    if !user.all fun b => isAlphanumeric b || isOneOf "-._:~!$&'()*+,;=%@" b then
      throw .badUserInfo
    discard (unescape user)

/-- The scheme at the front of a URI, and the text after its colon. Without a scheme the text stays
whole. -/
def splitScheme (bs : List UInt8) : Except Cause (List UInt8 × List UInt8) :=
  let name := bs.takeWhile fun b => isAlphanumeric b || isOneOf "+-." b
  match bs.drop name.length with
  | b :: rest =>
    if b ≠ byte ':' then .ok ([], bs)
    else match name with
      | [] => .error .missingScheme
      | first :: _ =>
        if isAlphanumeric first && !isDigit first then .ok (name, rest)
        else .ok ([], bs)
  | [] => .ok ([], bs)

/-- The scheme of a URI in small letters, and its path. -/
def split (uri : String) : Except Cause (String × List UInt8) := do
  let bs := Text.bytes uri
  if bs.any fun b => b < 0x20 || b == 0x7F then throw .controlCharacter
  if bs.isEmpty then throw .empty
  if uri = "*" then return ("", bs)
  let (scheme, rest) ← splitScheme bs
  let name := (Text.ofBytes scheme).toLower
  let rest := rest.takeWhile (· ≠ byte '?')
  if rest.head? ≠ some (byte '/') then
    if scheme.isEmpty then throw .relative else return (name, [])
  let body := rest.drop 2
  if !scheme.isEmpty && rest.take 2 == [byte '/', byte '/'] then
    let authority := body.takeWhile (· ≠ byte '/')
    checkAuthority authority
    return (name, ← unescape (body.drop authority.length))
  else return (name, ← unescape rest)

/-- A letter of the first 256 characters. -/
def isLetter (b : UInt8) : Bool :=
  (b < 0x80 && (Char.ofNat b.toNat).isAlpha) || b == 0xAA || b == 0xB5 || b == 0xBA
    || (0xC0 ≤ b && b != 0xD7 && b != 0xF7)

/-- Does a path start with a drive, as in `C:/x`? -/
def startsWithDrive : List UInt8 → Bool
  | letter :: colon :: _ :: _ :: _ => isLetter letter && colon == byte ':'
  | _ => false

/-- Does the path of a URI start with a slash and a drive? -/
def startsWithSlashDrive : List UInt8 → Bool
  | slash :: letter :: colon :: _ :: _ =>
    slash == byte '/' && isLetter letter && colon == byte ':'
  | _ => false

/-- The path that a URI names. -/
def toPath (uri : String) : Except Fault (List UInt8) :=
  match split uri with
  | .error cause => .error (.malformed uri cause)
  | .ok (scheme, path) =>
    if scheme ≠ "file" then .error (.scheme scheme)
    else .ok (if startsWithSlashDrive path then path.drop 1 else path)

/-- The escaped form of a byte of a path. -/
def escapeByte (b : UInt8) : List Char :=
  if isAlphanumeric b || isOneOf "-_.~$&+,/:;=@" b then [Char.ofNat b.toNat]
  else '%' :: (Text.hex 2 b.toNat).map Char.toUpper

/-- The URI of a path. -/
def ofPath (path : String) : String :=
  let bs := Text.bytes path
  let bs := if startsWithDrive bs then byte '/' :: bs else bs
  let body := if path = "*" then ['*'] else bs.flatMap escapeByte
  "file:" ++ String.ofList ((if bs.isEmpty then [] else ['/', '/']) ++ body)

end ProofScript.Uri

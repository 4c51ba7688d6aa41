import BasisRust.Library.Cuts
import BasisRust.Library.IpLiteral
import BasisRust.Storage.Legacy

/-!
# Validation of shared content

What a player shares carries its data in a text, and the server looks at the text before it relays
it: links, folders of links and settings.

The general category of a character comes from a crate and is a parameter, as is the parser of
floating point numbers.  The texts are lists of characters.  The escapes of a field are ASCII, so
decoding them in the bytes is decoding them in the characters, and what comes out is UTF-8 again.
-/

namespace BasisRust.Server.ContentShare

open Library
open Storage (GeneralCategory)

/-- `ContentShareType`. -/
inductive ContentShareType where
  | avatar
  | prop
  | world
  | server
  | dollyTrack
  | link
  | text
  | folder
  | setting
  deriving DecidableEq

/-- `char::is_control`. -/
def isControl (c : Char) : Bool :=
  let n := c.toNat
  decide (n ≤ 0x1f) || (decide (0x7f ≤ n) && decide (n ≤ 0x9f))

def isAsciiAlphabetic (c : Char) : Bool :=
  (decide ('a' ≤ c) && decide (c ≤ 'z')) || (decide ('A' ≤ c) && decide (c ≤ 'Z'))

def isAsciiAlphanumeric (c : Char) : Bool := isAsciiAlphabetic c || isAsciiDigit c

/-- `str::eq_ignore_ascii_case`. -/
def eqIgnoreAsciiCase (s t : Text) : Bool := s.map Char.toLower = t.map Char.toLower

def plainText (category : Char → GeneralCategory) (value : Text) : Bool :=
  !value.any fun c => isControl c || category c = .format

/-! ### Addresses -/

def http : Text := ['h', 't', 't', 'p']
def https : Text := ['h', 't', 't', 'p', 's']
def schemeSeparator : Text := [':', '/', '/']

/-- What ends the authority of an address. -/
def endsAuthority (c : Char) : Bool := c = '/' || c = '?' || c = '#'

def refusedInAddress (category : Char → GeneralCategory) (c : Char) : Bool :=
  isWhitespace c || isControl c || c = '\\' || c = '"' || c = '<' || c = '>' || category c = .format

/-- `strip_prefix(':').unwrap_or(rest)`. -/
def withoutColon : Text → Text
  | ':' :: rest => rest
  | rest => rest

/-- The host and the port of an authority. -/
def hostAndPort (authority : Text) : Option (Text × Text) :=
  match authority with
  | '[' :: ipv6 =>
    match cutOnce [']'] ipv6 with
    | none => none
    | some (host, rest) =>
      if host.contains '%' || (parseIpv6 host).isNone then none else some (host, withoutColon rest)
  | _ => some ((cutOnce [':'] authority).getD (authority, []))

def validPort (port : Text) : Bool :=
  port.isEmpty || ((parseU16 port).isSome && !decide (port = ['0']))

/-- The label behind the last dot, a dot at the end apart. -/
def lastLabel (host : Text) : Text := ((host.rdropWhile fun c => c = '.').splitOn '.').getLastD []

def isNameChar (c : Char) : Bool := isAsciiAlphanumeric c || c = '.' || c = '-' || c = '_'

def validHost (host : Text) : Bool :=
  if host.isEmpty || decide (254 < byteLength host) then false
  else if (parseIpv4 host).isSome || (parseIpv6 host).isSome then true
  else if host.head? = some '.' || (cutOnce ['.', '.'] host).isSome ||
    !host.all isNameChar then false
  else
    let last := lastLabel host
    !(last.isEmpty || last.all isAsciiDigit ||
      (['0', 'x'].isPrefixOf last && (last.drop 2).all isAsciiHexDigit))

def maxAddress (strictLink : Bool) : ℕ := if strictLink then 4096 else 16384

def validHttpAddress (category : Char → GeneralCategory) (url : Text) (strictLink : Bool) : Bool :=
  if url.isEmpty || decide (maxAddress strictLink < byteLength url) then false
  else if url.any (refusedInAddress category) then false
  else
    match cutOnce schemeSeparator url with
    | none => false
    | some (scheme, withoutScheme) =>
      if !eqIgnoreAsciiCase scheme http && !eqIgnoreAsciiCase scheme https then false
      else
        let authority := withoutScheme.takeWhile fun c => !endsAuthority c
        if authority.isEmpty || authority.contains '@' then false
        else
          match hostAndPort authority with
          | none => false
          | some (host, port) => if !validPort port then false else validHost host

/-! ### Fields -/

/-- The character that an escape stands for. -/
def unescaped : Char → Char → Option Char
  | '2', '5' => some '%'
  | '0', c =>
    if c = '9' then some '\t'
    else if c.toUpper = 'A' then some '\n'
    else if c.toUpper = 'D' then some '\r'
    else none
  | _, _ => none

def unescapeField : Text → Text
  | '%' :: a :: b :: rest =>
    match unescaped a b with
    | some decoded => decoded :: unescapeField rest
    | none => '%' :: unescapeField (a :: b :: rest)
  | c :: rest => c :: unescapeField rest
  | [] => []

/-- `trim_end_matches('\r')`. -/
def withoutReturns (line : Text) : Text := line.rdropWhile fun c => c = carriageReturn

def fieldsOf (line : Text) : List Text := (withoutReturns line).splitOn '\t'

/-! ### Folders -/

def folderHeader : Text := ['b', 'a', 's', 'i', 's', '-', 'f', 'o', 'l', 'd', 'e', 'r', ':', '1']

def maxFolderItems : ℕ := 128

def validFolderId (id : Text) : Bool :=
  !id.isEmpty && decide (byteLength id ≤ 64) && id.all fun c =>
    isAsciiAlphanumeric c || c = '-' || c = '_'

def folderKind : Text → Option ContentShareType
  | ['0'] => some .avatar
  | ['1'] => some .prop
  | ['2'] => some .world
  | _ => none

/-- One line of a folder. -/
def folderItem (category : Char → GeneralCategory) (line : Text) : Option ContentShareType :=
  match fieldsOf line with
  | kind :: url :: password :: _ =>
    match folderKind kind with
    | none => none
    | some kind =>
      if (unescapeField password).isEmpty ||
        !validHttpAddress category (unescapeField url) false then none
      else some kind
  | _ => none

def folderItems (category : Char → GeneralCategory) :
    List ContentShareType → List Text → Option (List ContentShareType)
  | items, [] => if items.isEmpty then none else some items
  | items, line :: lines =>
    if (withoutReturns line).isEmpty then folderItems category items lines
    else if maxFolderItems ≤ items.length then none
    else
      match folderItem category line with
      | none => none
      | some kind => folderItems category (items ++ [kind]) lines

def validFolder (category : Char → GeneralCategory) (payload : Text) :
    Option (List ContentShareType) :=
  match lines payload with
  | header :: folder :: items =>
    if withoutReturns header ≠ folderHeader then none
    else if !validFolderId (unescapeField ((fieldsOf folder).headD [])) then none
    else folderItems category [] items
  | _ => none

/-! ### Settings -/

def settingHeader : Text :=
    ['b', 'a', 's', 'i', 's', '-', 's', 'e', 't', 't', 'i', 'n', 'g', ':', '1']

def validMenu (menu : Text) : Bool :=
  !menu.isEmpty && decide (byteLength menu ≤ 32) && menu.all fun c =>
    (decide ('a' ≤ c) && decide (c ≤ 'z')) || isAsciiDigit c || c = '.' || c = '_' || c = '-'

def validCaption (category : Char → GeneralCategory) (value : Text) : Bool :=
  !isBlank value && decide (byteLength value ≤ 128) && plainText category value

def isNumberChar (c : Char) : Bool :=
  isAsciiDigit c || c = '+' || c = '-' || c = '.' || c = 'e' || c = 'E'

/-- The value of a setting; `isFinite` says whether a text is a floating point number that is
finite. -/
def validSettingValue (category : Char → GeneralCategory) (isFinite : Text → Bool)
    (kind value : Text) :
    Bool :=
  if kind = ['b', 'o', 'o', 'l'] then
    decide (value = ['t', 'r', 'u', 'e']) || decide (value = ['f', 'a', 'l', 's', 'e'])
  else if kind = ['t', 'e', 'x', 't'] then plainText category value
  else if kind = ['n', 'u', 'm', 'b', 'e', 'r'] then
    !value.isEmpty && decide (byteLength value ≤ 64) && value.all isNumberChar && isFinite value
  else false

def validSetting (category : Char → GeneralCategory) (isFinite : Text → Bool)
    (payload : Text) : Bool :=
  match lines payload with
  | header :: place :: _ :: rest =>
    if withoutReturns header ≠ settingHeader then false
    else
      match fieldsOf place with
      | menu :: first :: second :: _ =>
        if !validMenu (unescapeField menu) then false
        else if !validCaption category (unescapeField first) ||
          !validCaption category (unescapeField second)
        then false
        else
          match rest with
          | [] => true
          | line :: _ =>
            if line.isEmpty then true
            else
              match fieldsOf line with
              | kind :: value :: _ =>
                if 256 < byteLength (unescapeField value) then false
                else validSettingValue category isFinite (unescapeField kind) (unescapeField value)
              | _ => false
      | _ => false
  | _ => false

/-! ### All kinds -/

/-- The kinds of content inside the shared content, if it may be relayed. -/
def validate (category : Char → GeneralCategory) (isFinite : Text → Bool) (kind : ContentShareType)
    (url : Text) : Option (List ContentShareType) :=
  match kind with
  | .avatar | .prop | .world | .server => some []
  | .dollyTrack => if byteLength url ≤ 16384 then some [] else none
  | .link => if validHttpAddress category url true then some [] else none
  | .text => if byteLength url ≤ 4096 ∧ isBlank url = false then some [] else none
  | .folder => if byteLength url ≤ 16384 then validFolder category url else none
  | .setting => if byteLength url ≤ 4096 ∧ validSetting category isFinite url then some [] else none

end BasisRust.Server.ContentShare

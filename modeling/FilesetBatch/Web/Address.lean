/-!
# Addresses

A call names what it is for by an address: a path, or a path behind a scheme and the name of
a host. Behind the path there may be a query part and a fragment, which the service does not
look at. `Address.path?` gives the path of an address that is well formed.
-/

namespace FilesetBatch

namespace Address

/-! ## Hosts -/

/-- What has been met of a host from its front: colons, and a percent sign, since the end of
the last bracket or the last at sign, and the two brackets. -/
structure HostScan where
  colons : Nat
  percent : Bool
  opened : Bool
  closed : Bool

/-- Nothing has been met. -/
def HostScan.start : HostScan :=
  ⟨0, false, false, false⟩

/-- The characters that may stand in a host at any place. -/
def isHostChar (c : Char) : Bool :=
  c.isAlphanum || "!$&'()*+,-.;=_~".toList.contains c

/-- Go on by a character. A numeric address stands in one pair of brackets and has up to eight
colons; what stands before an at sign names a user. -/
def HostScan.step (scan : HostScan) (c : Char) : Option HostScan :=
  if c = ':' then
    if scan.colons < 8 then some { scan with colons := scan.colons + 1 } else none
  else if c = '[' then
    if scan.percent || scan.opened then none else some { scan with opened := true }
  else if c = ']' then
    if !scan.opened || scan.closed then none else some ⟨0, false, scan.opened, true⟩
  else if c = '@' then some ⟨0, false, scan.opened, scan.closed⟩
  else if c = '%' then some { scan with percent := true }
  else if isHostChar c then some scan
  else none

/-- Brackets come in a pair, what follows the name of the host has at most one colon, and a
percent sign is only for users and numeric addresses. -/
def HostScan.isComplete (scan : HostScan) : Bool :=
  scan.opened == scan.closed && scan.colons ≤ 1 && !scan.percent

/-- Whether a text names a host, perhaps with a user before it. -/
def isHost (text : List Char) : Bool :=
  (text.foldlM HostScan.step HostScan.start).any HostScan.isComplete &&
    text.getLast? ≠ some '@'

/-! ## Paths -/

/-- The characters that may stand in a query part. -/
def isQueryChar (c : Char) : Bool :=
  '!' ≤ c && c ≠ '"' && c ≠ '#' && c ≠ '<' && c ≠ '>'

/-- The characters that may stand in a path. -/
def isPathChar (c : Char) : Bool :=
  c = '"' || (isQueryChar c && c ≠ '?' && c ≠ '\x60')

/-- The path at the front of a text, if what follows it is well formed too. -/
def pathAtFront? (text : List Char) : Option String :=
  let text := text.takeWhile (· ≠ '#')
  let path := text.takeWhile (· ≠ '?')
  let query := (text.drop path.length).drop 1
  if path.all isPathChar && query.all isQueryChar then some (String.ofList path) else none

/-! ## Addresses -/

/-- The characters of schemes. -/
def isSchemeChar (c : Char) : Bool :=
  c.isAlphanum || "+-.~".toList.contains c

/-- What follows the scheme of a text, if it has one. -/
def afterScheme? (text : List Char) : Option (List Char) :=
  match text.dropWhile isSchemeChar with
  | ':' :: '/' :: '/' :: rest => some rest
  | _ => none

/-- The longest name of a scheme. -/
def schemeLimit : Nat := 64

/-- The path behind a host, which is a slash unless it is written. -/
def pathAfterHost? (text : List Char) : Option String :=
  let host := text.takeWhile fun c => c ≠ '/' && c ≠ '?' && c ≠ '#'
  if host.isEmpty || !isHost host then none
  else
    (pathAtFront? (text.drop host.length)).map fun path => if path.isEmpty then "/" else path

/-- The most bytes of an address. -/
def lengthLimit : Nat := 65534

/-- The path of an address, if the address is well formed. One that is only the name of a host
has an empty path. -/
def path? (address : String) : Option String :=
  if lengthLimit < address.utf8ByteSize then none
  else
    match address.toList with
    | [] => none
    | ['*'] => some "*"
    | '/' :: rest => pathAtFront? ('/' :: rest)
    | text =>
      match afterScheme? text with
      | some rest =>
        if schemeLimit < (text.takeWhile isSchemeChar).length then none else pathAfterHost? rest
      | none => if isHost text then some "" else none

end Address

end FilesetBatch

/-!
# Media types

A media type is a type and a subtype with a slash between them, followed by parameters. The
service takes JSON, which is `application/json`, and every other type of application data
that is written in JSON, which ends its subtype with `+json` (`MediaType.isJson`). Upper and
lower case count alike, and what the parameters say does not count, but they must be well
formed.
-/

namespace FilesetBatch

namespace MediaType

/-- The characters of types, subtypes and parameter names. -/
def isTokenChar (c : Char) : Bool :=
  c.isAlphanum || "!#$%&'*+-.^_\x60|~".toList.contains c

/-- The characters in quotes. -/
def isQuotedChar (c : Char) : Bool :=
  ' ' ≤ c && c ≠ '\x7f'

mutual

/-- Whether a text is a list of parameters, each of them a name and a value. -/
def areParameters : List Char → Bool
  | [] => true
  | c :: rest =>
    if c = ' ' then areParameters rest
    else isTokenChar c && isNameThenValue rest

/-- Whether a text goes on with a name, a value, and other parameters. -/
def isNameThenValue : List Char → Bool
  | [] => false
  | '=' :: '"' :: c :: rest => isQuotedChar c && isQuotedThenMore rest
  | '=' :: '"' :: [] => false
  | '=' :: [] => true
  | '=' :: c :: rest => isTokenChar c && isValueThenMore rest
  | c :: rest => isTokenChar c && isNameThenValue rest

/-- Whether a text goes on with a value and other parameters. -/
def isValueThenMore : List Char → Bool
  | [] => true
  | ';' :: rest => areParameters rest
  | c :: rest => isTokenChar c && isValueThenMore rest

/-- Whether a text goes on with a value up to a quote and other parameters. -/
def isQuotedThenMore : List Char → Bool
  | [] => false
  | '"' :: rest => isBlankThenMore rest
  | c :: rest => isQuotedChar c && isQuotedThenMore rest

/-- Whether a text goes on with blanks and other parameters. -/
def isBlankThenMore : List Char → Bool
  | [] => true
  | ';' :: rest => areParameters rest
  | c :: rest => c = ' ' && isBlankThenMore rest

end

/-- A subtype that stands for data in JSON: `json` itself is one, and so is what ends with it
behind the last plus or has it before that plus. A plus at the front divides nothing. -/
def isJsonSubtype (subtype : List Char) : Bool :=
  let behind := (subtype.reverse.takeWhile (· ≠ '+')).reverse
  let before := subtype.take (subtype.length - behind.length - 1)
  if before.isEmpty then subtype = "json".toList
  else before = "json".toList || behind = "json".toList

/-- Whether a type and a subtype, in lower case, with parameters behind them, are JSON. -/
def isJsonText (text : List Char) : Bool :=
  let type := text.takeWhile (· ≠ '/')
  let behind := (text.drop type.length).drop 1
  let subtype := behind.takeWhile (· ≠ ';')
  type = "application".toList && subtype.all isTokenChar && isJsonSubtype subtype &&
    areParameters ((behind.drop subtype.length).drop 1)

/-- Whether a content type says that the content is JSON. -/
def isJson (contentType : String) : Bool :=
  contentType.toList.all (fun c => (' ' ≤ c && c < '\x7f') || c = '\t') &&
    isJsonText (contentType.toList.map Char.toLower)

end MediaType

end FilesetBatch

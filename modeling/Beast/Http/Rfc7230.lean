import Beast.Core.CiCharTraits

/-! The character classes of HTTP, and the lists that a field value is read as. -/

namespace Beast.Http

/-- The double quote around a quoted string. -/
def dquote : UInt8 := 0x22

/-- The backslash that quotes the octet behind it. -/
def backslash : UInt8 := 0x5C

/-- A decimal digit. -/
def isDigit (c : UInt8) : Bool :=
  octet '0' ≤ c && c ≤ octet '9'

/-- A letter of ASCII. -/
def isAlpha (c : UInt8) : Bool :=
  (octet 'A' ≤ c && c ≤ octet 'Z') || (octet 'a' ≤ c && c ≤ octet 'z')

/-- Any octet but a control character, and the horizontal tab. -/
def isText (c : UInt8) : Bool :=
  c == 9 || (32 ≤ c && c != 127)

/-- An octet of a token. -/
def isTchar (c : UInt8) : Bool :=
  isDigit c || isAlpha c || (octets "!#$%&'*+-.^_`|~").contains c

/-- An octet that stands for itself in a quoted string. -/
def isQdchar (c : UInt8) : Bool :=
  isText c && c != dquote && c != backslash

/-- An octet that a backslash may quote. -/
def isQpchar (c : UInt8) : Bool :=
  isText c

/-- A space or a tab. -/
def isOws (c : UInt8) : Bool :=
  c == octet ' ' || c == 9

/-- Moves past spaces and tabs. -/
def skipOws (it : Octets) : Octets :=
  it.dropWhile isOws

/-- Moves past the octets of a token. -/
def skipToken (it : Octets) : Octets :=
  it.dropWhile isTchar

/-- A string without the spaces and tabs at its ends. -/
def trim (s : Octets) : Octets :=
  ((skipOws s).reverse.dropWhile isOws).reverse

/-- The rest of a quoted string with its closing quote, and what follows. -/
def quotedRest : Octets → Option (Octets × Octets)
  | [] => none
  | c :: it =>
    if c == dquote then some ([c], it)
    else if isQdchar c then (quotedRest it).map fun (s, it) => (c :: s, it)
    else if c != backslash then none
    else match it with
      | [] => none
      | q :: it =>
        if isQpchar q then (quotedRest it).map fun (s, it) => (c :: q :: s, it)
        else none

/-- A parameter: its name, and its value or nothing. -/
abbrev Param := Octets × Octets

/--
Reads one parameter, with a quoted value still in its quotes.

A failure leaves the position where the parameter would have started, behind the white space.
-/
def ParamIter.increment (it : Octets) : Octets × Option Param :=
  let first := skipOws it
  let err := (first, none)
  match first with
  | [] => err
  | c :: it =>
    if c != octet ';' then err
    else
      let p0 := skipOws it
      let name := p0.takeWhile isTchar
      if name.isEmpty then err
      else
        let it := skipOws (skipToken p0)
        match it with
        | [] => ([], some (name, []))
        | c :: rest =>
          if c == octet ';' then (it, some (name, []))
          else if c != octet '=' then err
          else
            let it := skipOws rest
            match it with
            -- An equals sign at the very end counts as a parameter without a value.
            | [] => ([], some (name, []))
            | c :: rest =>
              if c == dquote then
                match quotedRest rest with
                | none => err
                | some (s, it) => (it, some (name, c :: s))
              else
                let value := it.takeWhile isTchar
                if value.isEmpty then err
                else (skipToken it, some (name, value))

/-- Takes the backslashes out of the inside of a quoted string. -/
def unescape : Octets → Octets
  | [] => []
  | c :: it =>
    if c == backslash then
      match it with
      | [] => []
      | q :: it => q :: unescape it
    else c :: unescape it

/-- The text that a quoted string stands for. -/
def unquote (s : Octets) : Octets :=
  unescape (s.drop 1).dropLast

/-- The parameters read one after another, with a bound on their number. -/
def paramsFrom : Nat → Octets → List Param
  | 0, _ => []
  | fuel + 1, it =>
    match ParamIter.increment it with
    | (_, none) => []
    | (it, some (name, value)) =>
      (name, if value.head? == some dquote then unquote value else value) :: paramsFrom fuel it

/-- The parameters of a text, up to the first that is malformed. -/
def paramList (s : Octets) : List Param :=
  paramsFrom s.length s

/-- Moves past well-formed parameters, and past the white space behind them. -/
def skipParams : Nat → Octets → Octets
  | 0, it => it
  | fuel + 1, it =>
    match ParamIter.increment it with
    | (it, none) => it
    | (it, some _) => skipParams fuel it

/--
Moves past white space and commas to the token that opens the next element.

There is none at the end, at any other octet, and where the comma that must come first is missing.
-/
def nextToken (needComma : Bool) : Octets → Option Octets
  | [] => none
  | c :: it =>
    if isOws c then nextToken needComma it
    else if isTchar c then
      if needComma then none else some (c :: it)
    else if c != octet ',' then none
    else nextToken false it

/-- The extensions read one after another, each with its parameters. -/
def extsFrom : Nat → Bool → Octets → List (Octets × List Param)
  | 0, _, _ => []
  | fuel + 1, needComma, it =>
    match nextToken needComma it with
    | none => []
    | some p0 =>
      let it := skipToken p0
      let rest := skipParams (it.length + 1) it
      -- The parameters are read once to find their end, and again from that slice alone.
      (p0.takeWhile isTchar, paramList (it.take (it.length - rest.length))) ::
        extsFrom fuel true rest

/-- The extensions of a field value, up to the first fault. -/
def extList (s : Octets) : List (Octets × List Param) :=
  extsFrom s.length false s

/-- The tokens read one after another. -/
def tokensFrom : Nat → Bool → Octets → List Octets
  | 0, _, _ => []
  | fuel + 1, needComma, it =>
    match nextToken needComma it with
    | none => []
    | some p0 => p0.takeWhile isTchar :: tokensFrom fuel true (skipToken p0)

/-- The tokens of a field value, up to the first fault. -/
def tokenList (s : Octets) : List Octets :=
  tokensFrom s.length false s

/-- Whether a token is among those of a field value, in any case of letters. -/
def tokenExists (s token : Octets) : Bool :=
  (tokenList s).any (ciEqual token)

end Beast.Http

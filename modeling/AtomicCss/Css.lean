import AtomicCss.Text

/-!
# Style sheet text

A text is cut into tokens (`Css.tokens`), and a value into the components between its blanks
(`Css.components`). Nothing is ever refused, and the pieces are pieces of the text as it stands.
-/

namespace AtomicCss.Css

/-! ## Character classes of style sheets

The classes of characters that decide where a token begins and ends. Text is taken as it is: line
ends are not unified, and the NUL character counts as a letter of names.
-/

/-- Line feed, carriage return and form feed. -/
def isNewline (c : Char) : Bool := c = '\n' ∨ c = '\r' ∨ c = '\x0c'

/-- The newlines, the space and the tab. -/
def isBlank (c : Char) : Bool := c = ' ' ∨ c = '\t' ∨ isNewline c

def isHex (c : Char) : Bool := (Text.hexDigit? c).isSome

/-- A character that begins a name: a letter, the low line, NUL, and all that is not ASCII. -/
def isNameStart (c : Char) : Bool := c.isAlpha ∨ c = '_' ∨ c = '\x00' ∨ 128 ≤ c.toNat

/-- A character inside a name: one that begins names, a digit or a hyphen. -/
def isNameChar (c : Char) : Bool := isNameStart c ∨ c.isDigit ∨ c = '-'

/-- A control character that makes an unquoted address invalid. -/
def isAddressControl (c : Char) : Bool :=
  let n := c.toNat
  (1 ≤ n ∧ n ≤ 8) ∨ n = 11 ∨ (14 ≤ n ∧ n ≤ 31) ∨ n = 127

/-- Whether the text begins with a character of a class. -/
def startsWith (p : Char → Bool) : List Char → Bool
  | [] => false
  | c :: _ => p c

/-- Whether a backslash before this text begins an escape: it does not at the end of a line. -/
def escapable (rest : List Char) : Bool := !startsWith isNewline rest

/-- Whether a name begins here, possibly with a hyphen or an escape. -/
def startsName : List Char → Bool
  | '-' :: c :: rest => isNameStart c || c == '-' || (c == '\\' && escapable rest)
  | '\\' :: rest => escapable rest
  | c :: _ => isNameStart c
  | [] => false

/-- Whether the text behind a sign or at a digit continues as a number. -/
def startsNumber : List Char → Bool
  | '.' :: rest => startsWith Char.isDigit rest
  | rest => startsWith Char.isDigit rest

/-! ## Where tokens end

One function for each kind of token that is not a single character: it gets the text behind the
token's beginning and returns the text behind the token's end. Nothing is ever refused: what is not
closed runs to the end of the text.
-/

/-- The text behind a comment, given the text behind its opening. -/
def afterComment : List Char → List Char
  | [] => []
  | '*' :: '/' :: rest => rest
  | _ :: rest => afterComment rest

/-! ### Escapes -/

/-- How far an escape has got. -/
inductive Escape
  /-- No escape is open. -/
  | none
  /-- A backslash has been read. -/
  | opened
  /-- Hexadecimal digits have been read, and this many more may follow. -/
  | hex (more : Nat)
  /-- A carriage return has ended the escape, and a line feed would belong to it. -/
  | carriage
deriving DecidableEq

/-- What becomes of an escape if a character belongs to it: up to six hexadecimal digits and one
blank behind them, or any one character; a carriage return and a line feed count as one blank. -/
def Escape.next? : Escape → Char → Option Escape
  | .none, _ => Option.none
  | .opened, c => if isHex c then some (.hex 5) else if c = '\r' then some .carriage else some .none
  | .hex more, c =>
    if isHex c ∧ 0 < more then some (.hex (more - 1))
    else if c = '\r' then some .carriage
    else if isBlank c then some .none
    else Option.none
  | .carriage, c => if c = '\n' then some .none else Option.none

/-! ### Names and numbers -/

def afterName (e : Escape) : List Char → List Char
  | [] => []
  | c :: rest =>
    match e.next? c with
    | some e' => afterName e' rest
    | Option.none =>
      if isNameChar c then afterName .none rest
      else if c = '\\' ∧ escapable rest then afterName .opened rest
      else c :: rest

def afterDigits (text : List Char) : List Char := text.dropWhile Char.isDigit

/-- The text behind the decimals of a number, if there are any. -/
def afterDecimals : List Char → List Char
  | '.' :: rest => if startsWith Char.isDigit rest then afterDigits rest else '.' :: rest
  | text => text

/-- The text behind the exponent of a number, if there is one. -/
def afterExponent : List Char → List Char
  | e :: rest =>
    if e = 'e' ∨ e = 'E' then
      match rest with
      | sign :: digits =>
        if sign.isDigit then afterDigits rest
        else if (sign = '+' ∨ sign = '-') ∧ startsWith Char.isDigit digits then afterDigits digits
        else e :: rest
      | [] => e :: rest
    else e :: rest
  | [] => []

/-- The text behind the unit of a number: a percent sign or a name, if there is one. -/
def afterUnit : List Char → List Char
  | '%' :: rest => rest
  | text => if startsName text then afterName .none text else text

/-- The text behind a number with its unit, given the text behind its sign. -/
def afterNumber (text : List Char) : List Char :=
  afterUnit (afterExponent (afterDecimals (afterDigits text)))

/-! ### Strings and addresses -/

/-- The text behind a string in the given quotes. A line end that is not escaped ends the string and
does not belong to it. -/
def afterString (quote : Char) (e : Escape) : List Char → List Char
  | [] => []
  | c :: rest =>
    match e.next? c with
    | some e' => afterString quote e' rest
    | Option.none =>
      if c = quote then rest
      else if isNewline c then c :: rest
      else if c = '\\' then afterString quote .opened rest
      else afterString quote .none rest

/-- The text behind an invalid address: it ends at the first closing bracket that is not escaped. -/
def afterBadAddress : List Char → List Char
  | [] => []
  | [_] => []
  | c :: d :: rest =>
    if c = ')' then d :: rest
    else if c = '\\' ∧ (d = ')' ∨ d = '\\') then afterBadAddress rest
    else afterBadAddress (d :: rest)

/-- The text behind an address, given the text behind the blanks that end it. -/
def afterAddressBlanks : List Char → List Char
  | [] => []
  | c :: rest =>
    if isBlank c then afterAddressBlanks rest
    else if c = ')' then rest
    else afterBadAddress rest

/-- The text behind an address without quotes. -/
def afterAddress (e : Escape) : List Char → List Char
  | [] => []
  | c :: rest =>
    match e.next? c with
    | some e' => afterAddress e' rest
    | Option.none =>
      if isBlank c then afterAddressBlanks rest
      else if c = ')' then rest
      else if isAddressControl c ∨ c = '"' ∨ c = '\'' ∨ c = '(' then afterBadAddress rest
      else if c = '\\' then
        if escapable rest then afterAddress .opened rest else afterBadAddress rest
      else afterAddress .none rest

/-! ### The name of an address -/

def hexValue (c : Char) : Nat := (Text.hexDigit? c).getD 0

/-- The characters that a name with escapes stands for; `code` is the value of the hexadecimal
digits read so far. -/
def unescape (e : Escape) (code : Nat) : List Char → List Char
  | [] =>
    match e with
    | .hex _ => [Char.ofNat code]
    | _ => []
  | c :: rest =>
    match e, e.next? c with
    | .opened, some (.hex more) => unescape (.hex more) (hexValue c) rest
    | .opened, some e' => c :: unescape e' 0 rest
    | .hex _, some (.hex more) => unescape (.hex more) (code * 16 + hexValue c) rest
    | .hex _, some e' => Char.ofNat code :: unescape e' 0 rest
    | _, some e' => unescape e' 0 rest
    | .hex _, Option.none =>
      Char.ofNat code ::
        if c = '\\' then unescape .opened 0 rest else c :: unescape .none 0 rest
    | _, Option.none => if c = '\\' then unescape .opened 0 rest else c :: unescape .none 0 rest

/-- Whether a name means `url`, whatever its case and escapes. -/
def isAddressName (name : List Char) : Bool :=
  (unescape .none 0 name).map Char.toLower == ['u', 'r', 'l']

/-! ## Tokens of style sheets

A text is cut into tokens whose texts, put together, are the text again. A token is told apart only
as far as cutting a value into components needs: blanks, comments, brackets, and all else.
-/

/-- The three pairs of brackets. -/
inductive Bracket
  | round
  | square
  | curly
deriving DecidableEq

/-- What a token is. An opening token may have a function's name before its bracket. -/
inductive TokenKind
  | blank
  | comment
  | opening (bracket : Bracket)
  | closing (bracket : Bracket)
  | other
deriving DecidableEq

/-- A token: what it is and the text it is made of. -/
structure Token where
  kind : TokenKind
  text : List Char
deriving DecidableEq

/-- The kind of a token that begins with a name, and the text behind it. A name before a round
bracket opens a block, but `url` before an address without quotes makes one token with it. -/
def afterNameToken (text : List Char) : TokenKind × List Char :=
  let rest := afterName .none text
  match rest with
  | '(' :: arguments =>
    if isAddressName (text.take (text.length - rest.length)) then
      match arguments.dropWhile isBlank with
      | [] => (.other, [])
      | c :: address =>
        if c = '"' ∨ c = '\'' then (.opening .round, arguments)
        else (.other, afterAddress .none (c :: address))
    else (.opening .round, arguments)
  | _ => (.other, rest)

/-- The kind of the token that begins with `c`, and the text behind it. -/
def afterToken (c : Char) (rest : List Char) : TokenKind × List Char :=
  if isBlank c then (.blank, rest.dropWhile isBlank)
  else if c = '"' ∨ c = '\'' then (.other, afterString c .none rest)
  else if c = '#' then
    if startsName rest ∨ startsWith isNameChar rest then (.other, afterName .none rest)
    else (.other, rest)
  else if c = '(' then (.opening .round, rest)
  else if c = '[' then (.opening .square, rest)
  else if c = '{' then (.opening .curly, rest)
  else if c = ')' then (.closing .round, rest)
  else if c = ']' then (.closing .square, rest)
  else if c = '}' then (.closing .curly, rest)
  else if c = '+' then
    if startsNumber rest then (.other, afterNumber rest) else (.other, rest)
  else if c = '-' then
    if startsNumber rest then (.other, afterNumber rest)
    else if ['-', '>'].isPrefixOf rest then (.other, rest.drop 2)
    else if startsName (c :: rest) then afterNameToken (c :: rest)
    else (.other, rest)
  else if c = '.' then
    if startsWith Char.isDigit rest then (.other, afterNumber (c :: rest)) else (.other, rest)
  else if c = '/' then
    match rest with
    | '*' :: body => (.comment, afterComment body)
    | _ => (.other, rest)
  else if c = '<' then
    if ['!', '-', '-'].isPrefixOf rest then (.other, rest.drop 3) else (.other, rest)
  else if c = '@' then
    if startsName rest then (.other, afterName .none rest) else (.other, rest)
  else if c.isDigit then (.other, afterNumber (c :: rest))
  else if startsName (c :: rest) then afterNameToken (c :: rest)
  else (.other, rest)

/-- The tokens of a text, as many as `limit` allows. -/
def tokensUpTo : (limit : Nat) → List Char → List Token
  | 0, _ => []
  | _, [] => []
  | limit + 1, c :: rest =>
    let (kind, behind) := afterToken c rest
    ⟨kind, (c :: rest).take (rest.length + 1 - behind.length)⟩ :: tokensUpTo limit behind

/-- The tokens of a text; there are at most as many as it has characters. -/
def tokens (text : List Char) : List Token := tokensUpTo text.length text

/-! ## Components of a value

A value is cut into components at the blanks outside strings, addresses, comments and brackets. A
component is a piece of the text as it stands: comments inside it and before its first token belong
to it, comments between its last token and the blank behind it do not. A text without components
gives one empty piece.
-/

/-- A value cut so far. -/
structure Cutting where
  /-- The finished components, the last one first. -/
  done : List (List Char)
  /-- The component that is being read. -/
  current : Option (List Char)
  /-- The comments behind the last other token. -/
  pending : List Char
  /-- The brackets that are open, the innermost first. -/
  brackets : List Bracket

namespace Cutting

/-- Nothing is cut yet. -/
def start : Cutting := ⟨[], none, [], []⟩

/-- Adds a token's text, and the comments before it, to the component. -/
def add (s : Cutting) (text : List Char) (brackets : List Bracket) : Cutting :=
  ⟨s.done, some (s.current.getD [] ++ s.pending ++ text), [], brackets⟩

/-- The brackets open behind a token: a closing bracket closes the innermost one or nothing. -/
def bracketsAfter : TokenKind → List Bracket → List Bracket
  | .opening b, brackets => b :: brackets
  | .closing b, inner :: outer => if b = inner then outer else inner :: outer
  | _, brackets => brackets

/-- Reads one token. -/
def step (s : Cutting) (t : Token) : Cutting :=
  if s.brackets.isEmpty then
    match t.kind with
    | .blank => ⟨s.current.toList ++ s.done, none, [], []⟩
    | .comment => { s with pending := s.pending ++ t.text }
    | kind => s.add t.text (bracketsAfter kind [])
  else s.add t.text (bracketsAfter t.kind s.brackets)

/-- The components, first to last; the last one runs to the end of the text. -/
def finish (s : Cutting) : List (List Char) :=
  ((s.current.map (· ++ s.pending)).toList ++ s.done).reverse

end Cutting

/-- The components of a value, or one empty piece. -/
def components (value : String) : List String :=
  match ((tokens value.toList).foldl Cutting.step Cutting.start).finish with
  | [] => [""]
  | parts => parts.map String.ofList

end AtomicCss.Css

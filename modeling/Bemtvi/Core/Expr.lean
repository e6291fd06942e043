/-
Module: Bemtvi.Core.Expr
Purpose: The evaluator of `:echo` and of the `%{…}` items of a status line: the tokens of a text,
  and the recursive descent that works out the value while it reads them.  And what is evaluated:
  the trees that tokens spell, with the nesting that is allowed, and their meaning.
Trusted boundary: human-reviewed model of bemtvi-core/src/editor/expr.rs; a text is its characters,
  the tokens that are left stand for the position in them, and floats are a parameter
Main exports: Value, arith, compare, tokenize, nested, evalEcho, evalExpr, Tree, Tree.meaning,
  spells, Writes
-/
import Bemtvi.Lib.Parsing
import Bemtvi.Core.ExLine

namespace Bemtvi.Core.Expr

open Parsing Utf8

/-- What the standard library does with floats, and how it quotes a text. -/
structure Std (F : Type) where
  ofInt : Int64 → F
  add : F → F → F
  sub : F → F → F
  mul : F → F → F
  div : F → F → F
  rem : F → F → F
  partialCmp : F → F → Option Ordering
  isZero : F → Bool
  /-- No fractional part, and finite. -/
  isWhole : F → Bool
  oneDecimal : F → Text
  shortest : F → Text
  /-- An optional sign, digits, a point and digits. -/
  parse : Text → F
  debug : Text → String

/-- `OptVal`. -/
inductive OptVal where
  | int (n : Int64)
  | str (s : Text)
deriving DecidableEq, Repr

inductive Value (F : Type) where
  | int (n : Int64)
  | float (f : F)
  | str (s : Text)
deriving DecidableEq, Repr

/-! ### Numbers -/

/-- The value of digits in a base of at most sixteen. -/
def digitsValue (base : Nat) (digits : Text) : Nat :=
  digits.foldl (fun n c =>
    base * n + (if c.isDigit then c.toNat - 48 else if c.isUpper then c.toNat - 55
      else c.toNat - 87)) 0

/-- `parse::<i64>().unwrap_or(0)`, on an optional minus and digits. -/
def parseInt (negative : Bool) (base : Nat) (digits : Text) : Int64 :=
  let n : Int := if negative then -(digitsValue base digits : Int) else digitsValue base digits
  if Int64.minValue.toInt ≤ n ∧ n ≤ Int64.maxValue.toInt then Int64.ofInt n else 0

/-- `is_ascii_hexdigit`. -/
def isHexDigit (c : Char) : Bool :=
  c.isDigit || ('a' ≤ c && c ≤ 'f') || ('A' ≤ c && c ≤ 'F')

section Std

variable {F : Type} (std : Std F)

/-- `fmt_float`. -/
def fmtFloat (f : F) : Text := if std.isWhole f then std.oneDecimal f else std.shortest f

/-- `Value::display`. -/
def Value.display : Value F → Text
  | .int n => (toString n.toInt).toList
  | .float f => fmtFloat std f
  | .str s => s

/-- The number at the head of a text: its digits, and a fractional part where one follows. -/
def number (sign text : Text) : Value F × Text :=
  let digits := text.takeWhile Char.isDigit
  let rest := text.dropWhile Char.isDigit
  match rest with
  | '.' :: d :: more =>
      if d.isDigit then
        (.float (std.parse (sign ++ digits ++ '.' :: (d :: more).takeWhile Char.isDigit)),
          (d :: more).dropWhile Char.isDigit)
      else (.int (parseInt (sign = ['-']) 10 digits), rest)
  | _ => (.int (parseInt (sign = ['-']) 10 digits), rest)

/-- `parse_leading_number`. -/
def parseLeadingNumber (s : Text) : Value F :=
  let (sign, text) : Text × Text :=
    match trimStart s with
    | '-' :: text => (['-'], text)
    | '+' :: text => (['+'], text)
    | text => ([], text)
  if text.head?.any Char.isDigit then (number std sign text).1 else .int 0

/-- `Value::as_number`. -/
def Value.asNumber : Value F → Value F
  | .str s => parseLeadingNumber std s
  | v => v

/-- `to_f64`. -/
def toF64 (v : Value F) : F :=
  match v.asNumber std with
  | .int n => std.ofInt n
  | .float f => f
  | .str _ => std.ofInt 0

/-- `truthy`. -/
def truthy (v : Value F) : Bool :=
  match v.asNumber std with
  | .int n => n != 0
  | .float f => !std.isZero f
  | .str _ => false

inductive Comparison where
  | eq
  | ne
  | lt
  | le
  | gt
  | ge
deriving DecidableEq, Repr

/-- `compare`. -/
def compare (a b : Value F) (op : Comparison) : Bool :=
  let ord : Ordering :=
    match a, b with
    | .str x, .str y => if x < y then .lt else if x = y then .eq else .gt
    | _, _ => (std.partialCmp (toF64 std a) (toF64 std b)).getD .eq
  match op with
  | .eq => ord == .eq
  | .ne => ord != .eq
  | .lt => ord == .lt
  | .le => ord != .gt
  | .gt => ord == .gt
  | .ge => ord != .lt

inductive Arithmetic where
  | add
  | sub
  | mul
  | div
  | rem
deriving DecidableEq, Repr

/-- `arith`; two integers wrap, and divide toward zero. -/
def arith (a b : Value F) (op : Arithmetic) : Except String (Value F) :=
  match a.asNumber std, b.asNumber std with
  | .int x, .int y =>
      match op with
      | .add => .ok (.int (x + y))
      | .sub => .ok (.int (x - y))
      | .mul => .ok (.int (x * y))
      | .div => if y = 0 then .error "E1154: Divide by zero" else .ok (.int (x / y))
      | .rem => if y = 0 then .error "E1154: Divide by zero" else .ok (.int (x % y))
  | a, b =>
      let x := toF64 std a
      let y := toF64 std b
      match op with
      | .add => .ok (.float (std.add x y))
      | .sub => .ok (.float (std.sub x y))
      | .mul => .ok (.float (std.mul x y))
      | .div => .ok (.float (std.div x y))
      | .rem => .ok (.float (std.rem x y))

end Std

/-! ### Tokens -/

inductive Tok (F : Type) where
  | int (n : Int64)
  | float (f : F)
  | str (s : Text)
  /-- A variable or a function, which cannot be evaluated. -/
  | ident (name : Text)
  | option (name : Text)
  | concat
  | plus
  | minus
  | star
  | slash
  | percent
  | lParen
  | rParen
  | eq
  | ne
  | lt
  | le
  | gt
  | ge
  | bang
  | andAnd
  | orOr
  | question
  | colon
deriving DecidableEq, Repr

/-- What a backslash and a character stand for between double quotes. -/
def unescape (c : Char) : Char :=
  if c = 'n' then '\n'
  else if c = 't' then '\t'
  else if c = 'r' then '\r'
  else if c = '0' then '\x00'
  else if c = 'e' then '\x1b'
  else c

/-- `lex_double_string`, behind the opening quote. -/
def lexDoubleString : Text → Except String (Text × Text)
  | [] => .error "E114: Missing double quote"
  | c :: rest =>
      if c = '"' then .ok ([], rest)
      else if c = '\\' then
        match rest with
        | [] => .error "E114: Missing double quote"
        | d :: rest => (lexDoubleString rest).map fun (out, rest) => (unescape d :: out, rest)
      else (lexDoubleString rest).map fun (out, rest) => (c :: out, rest)

/-- `lex_single_string`, behind the opening quote. -/
def lexSingleString : Text → Except String (Text × Text)
  | [] => .error "E115: Missing single quote"
  | c :: rest =>
      if c = '\'' then
        match rest with
        | [] => .ok ([], [])
        | d :: rest =>
            if d = '\'' then (lexSingleString rest).map fun (out, rest) => ('\'' :: out, rest)
            else .ok ([], d :: rest)
      else (lexSingleString rest).map fun (out, rest) => (c :: out, rest)

def isNameChar (c : Char) : Bool := c.isAlpha || c == '_'

/-- `lex_option`, behind the `&`. -/
def lexOption (text : Text) : Except String (Text × Text) :=
  let text :=
    match text with
    | c :: ':' :: rest => if c = 'l' ∨ c = 'g' then rest else c :: ':' :: rest
    | text => text
  let name := text.takeWhile isNameChar
  if name = [] then .error "E15: Invalid expression: '&' with no option name"
  else .ok (name, text.dropWhile isNameChar)

/-- A word's characters. -/
def isIdentChar (c : Char) : Bool := c.isAlphanum || c == '_' || c == ':'

/-- A character that is a token on its own. -/
def symbol? (F : Type) (c : Char) : Option (Tok F) :=
  if c = '(' then some .lParen
  else if c = ')' then some .rParen
  else if c = '+' then some .plus
  else if c = '-' then some .minus
  else if c = '*' then some .star
  else if c = '/' then some .slash
  else if c = '%' then some .percent
  else if c = '?' then some .question
  else if c = ':' then some .colon
  else none

section Std

variable {F : Type} (std : Std F)

/-- A value as a token. -/
def Value.tok : Value F → Tok F
  | .int n => .int n
  | .float f => .float f
  | .str s => .str s

/-- `lex_number`. -/
def lexNumber (text : Text) : Tok F × Text :=
  match text with
  | '0' :: x :: rest =>
      if x = 'x' ∨ x = 'X' then
        (.int (parseInt false 16 (rest.takeWhile isHexDigit)), rest.dropWhile isHexDigit)
      else ((number std [] text).1.tok, (number std [] text).2)
  | text => ((number std [] text).1.tok, (number std [] text).2)

/-- A token with its second character, or the one without it. -/
def paired (second : Char) (both : Tok F) (alone : Except String (Tok F)) (rest : Text) :
    Except String (Option (Tok F) × Text) :=
  if rest.head? = some second then .ok (some both, rest.drop 1)
  else alone.map fun t => (some t, rest)

/-- A turn of `tokenize`: the token at the head of a text, if it is one, and the text behind it. -/
def lexToken (c : Char) (rest : Text) : Except String (Option (Tok F) × Text) :=
  if c = ' ' ∨ c = '\t' then .ok (none, rest)
  else if let some t := symbol? F c then .ok (some t, rest)
  else if c = '=' then
    paired '=' .eq (.error "E15: Invalid expression: '=' (use '==')") rest
  else if c = '!' then paired '=' .ne (.ok .bang) rest
  else if c = '<' then paired '=' .le (.ok .lt) rest
  else if c = '>' then paired '=' .ge (.ok .gt) rest
  else if c = '|' then
    paired '|' .orOr (.error "E15: Invalid expression: '|' (use '||')") rest
  else if c = '&' then
    if rest.head? = some '&' then .ok (some .andAnd, rest.drop 1)
    else (lexOption rest).map fun (name, rest) => (some (.option name), rest)
  else if c = '.' then paired '.' .concat (.ok .concat) rest
  else if c = '"' then (lexDoubleString rest).map fun (s, rest) => (some (.str s), rest)
  else if c = '\'' then (lexSingleString rest).map fun (s, rest) => (some (.str s), rest)
  else if c.isDigit then .ok ((some (lexNumber std (c :: rest)).1), (lexNumber std (c :: rest)).2)
  else if isNameChar c then
    .ok (some (.ident ((c :: rest).takeWhile isIdentChar)), (c :: rest).dropWhile isIdentChar)
  else .error ("E15: Invalid expression: unexpected '" ++ c.toString ++ "'")

/-- The loop of `tokenize`; each turn takes at least a character. -/
def tokenizeFrom : Nat → Text → Except String (List (Tok F))
  | 0, _ => .ok []
  | _ + 1, [] => .ok []
  | fuel + 1, c :: rest =>
      match lexToken std c rest with
      | .error e => .error e
      | .ok (t, rest) => (tokenizeFrom fuel rest).map (t.toList ++ ·)

/-- `tokenize`. -/
def tokenize (src : Text) : Except String (List (Tok F)) := tokenizeFrom std src.length src

end Std

/-! ### Evaluation -/

/-- The operators between two operands. -/
inductive Infix where
  | logicOr
  | logicAnd
  | comparison (op : Comparison)
  | concat
  | arith (op : Arithmetic)
deriving DecidableEq, Repr

section Parser

variable {F : Type} (std : Std F) (opts : Option (Text → Option OptVal))

abbrev Outcome (F : Type) : Type := Except String (Value F)

/-- `MAX_EXPR_DEPTH`. -/
def maxExprDepth : Nat := 200

def ofBool (b : Bool) : Value F := .int (if b then 1 else 0)

/-- What the loops of the levels do with two operands. -/
def Infix.apply (op : Infix) (left right : Value F) : Outcome F :=
  match op with
  | .logicOr => .ok (ofBool (truthy std left || truthy std right))
  | .logicAnd => .ok (ofBool (truthy std left && truthy std right))
  | .comparison op => .ok (ofBool (compare std left right op))
  | .concat => .ok (.str (left.display std ++ right.display std))
  | .arith op => Expr.arith std left right op

/-- The name of a symbol's token; `primary` takes the others before it names one. -/
def Tok.name : Tok F → String
  | .concat => "Concat"
  | .plus => "Plus"
  | .minus => "Minus"
  | .star => "Star"
  | .slash => "Slash"
  | .percent => "Percent"
  | .lParen => "LParen"
  | .rParen => "RParen"
  | .eq => "Eq"
  | .ne => "Ne"
  | .lt => "Lt"
  | .le => "Le"
  | .gt => "Gt"
  | .ge => "Ge"
  | .bang => "Bang"
  | .andAnd => "AndAnd"
  | .orOr => "OrOr"
  | .question => "Question"
  | .colon => "Colon"
  | .int _ | .float _ | .str _ | .ident _ | .option _ => ""

/-- An `&option`, where options are at hand. -/
def resolveOption (name : Text) : Outcome F :=
  match opts with
  | some resolve =>
      match resolve name with
      | some (.int n) => .ok (.int n)
      | some (.str s) => .ok (.str s)
      | none => .error ("E518: Unknown option: " ++ String.ofList name)
  | none =>
      .error ("E15: Invalid expression: &" ++ String.ofList name ++
        " (option references are not available here)")

def undefinedVariable (name : Text) : Outcome F :=
  .error ("E121: Undefined variable: " ++ String.ofList name)

/-- `Parser::primary`. -/
def primary (ternary : Parser (Tok F) String (Value F)) : Parser (Tok F) String (Value F)
  | .int n :: rest => .ok (.int n, rest)
  | .float f :: rest => .ok (.float f, rest)
  | .str s :: rest => .ok (.str s, rest)
  | .lParen :: rest =>
      match ternary rest with
      | .error e => .error e
      | .ok (v, .rParen :: rest) => .ok (v, rest)
      | .ok _ => .error "E110: Missing ')'"
  | .option name :: rest => leaving (resolveOption opts name) rest
  | .ident name :: rest => leaving (undefinedVariable name) rest
  | t :: _ => .error ("E15: Invalid expression: unexpected " ++ t.name)
  | [] => .error "E15: Invalid expression: unexpected end"

section Levels

-- `unary` and `ternary`, at the next depth.
variable (unary ternary : Parser (Tok F) String (Value F))

/-- `Parser::unary_step`. -/
def unaryStep : Parser (Tok F) String (Value F)
  | .minus :: rest =>
      match unary rest with
      | .error e => .error e
      | .ok (v, rest) => leaving (arith std (.int 0) v .sub) rest
  | .plus :: rest => unary rest
  | .bang :: rest =>
      match unary rest with
      | .error e => .error e
      | .ok (v, rest) => .ok (ofBool !truthy std v, rest)
  | ts => primary opts ternary ts

def multiplicativeOp : Tok F → Option Infix
  | .star => some (.arith .mul)
  | .slash => some (.arith .div)
  | .percent => some (.arith .rem)
  | _ => none

/-- `Parser::multiplicative`. -/
def multiplicative : Parser (Tok F) String (Value F) :=
  chain unary multiplicativeOp (Infix.apply std)

def additiveOp : Tok F → Option Infix
  | .plus => some (.arith .add)
  | .minus => some (.arith .sub)
  | _ => none

/-- `Parser::additive`. -/
def additive : Parser (Tok F) String (Value F) :=
  chain (multiplicative std unary) additiveOp (Infix.apply std)

def concatOp : Tok F → Option Infix
  | .concat => some .concat
  | _ => none

/-- `Parser::concat`. -/
def concat : Parser (Tok F) String (Value F) :=
  chain (additive std unary) concatOp (Infix.apply std)

def comparisonOp : Tok F → Option Infix
  | .eq => some (.comparison .eq)
  | .ne => some (.comparison .ne)
  | .lt => some (.comparison .lt)
  | .le => some (.comparison .le)
  | .gt => some (.comparison .gt)
  | .ge => some (.comparison .ge)
  | _ => none

/-- `Parser::comparison`. -/
def comparison : Parser (Tok F) String (Value F) :=
  atMostOne (concat std unary) comparisonOp (Infix.apply std)

def logicAndOp : Tok F → Option Infix
  | .andAnd => some .logicAnd
  | _ => none

/-- `Parser::logic_and`. -/
def logicAnd : Parser (Tok F) String (Value F) :=
  chain (comparison std unary) logicAndOp (Infix.apply std)

def logicOrOp : Tok F → Option Infix
  | .orOr => some .logicOr
  | _ => none

/-- `Parser::logic_or`. -/
def logicOr : Parser (Tok F) String (Value F) :=
  chain (logicAnd std unary) logicOrOp (Infix.apply std)

/-- `Parser::ternary_step`: both branches are worked out, whichever is taken. -/
def ternaryStep : Parser (Tok F) String (Value F) := fun ts =>
  match logicOr std unary ts with
  | .error e => .error e
  | .ok (cond, .question :: rest) =>
      match ternary rest with
      | .error e => .error e
      | .ok (thenBranch, .colon :: rest) =>
          match ternary rest with
          | .error e => .error e
          | .ok (elseBranch, rest) =>
              .ok (if truthy std cond then thenBranch else elseBranch, rest)
      | .ok _ => .error "E109: Missing ':' after '?'"
  | .ok (cond, rest) => .ok (cond, rest)

end Levels

/-- The two steps that are taken under the depth bound. -/
inductive Rule where
  | ternary
  | unary
deriving DecidableEq, Repr

/-- `Parser::nested`, with the depth that is left. -/
def nested : Nat → Rule → Parser (Tok F) String (Value F)
  | 0, _ => fun _ => .error "E1169: Expression too recursive"
  | depth + 1, .ternary => ternaryStep std (nested depth .unary) (nested depth .ternary)
  | depth + 1, .unary => unaryStep std opts (nested depth .unary) (nested depth .ternary)

/-- `Parser::ternary`, where a whole expression begins. -/
def expression : Parser (Tok F) String (Value F) := nested std opts maxExprDepth .ternary

/-- The loop of `Parser::eval_all`. -/
def evalParts : Nat → List (Tok F) → Except String (List Text)
  | 0, _ => .ok []
  | _ + 1, [] => .ok []
  | fuel + 1, t :: ts =>
      match expression std opts (t :: ts) with
      | .error e => .error e
      | .ok (v, rest) => (evalParts fuel rest).map (v.display std :: ·)

/-- `Parser::eval_all`. -/
def evalAll (toks : List (Tok F)) : Except String Text :=
  (evalParts std opts toks.length toks).map fun parts => [' '].intercalate parts

/-- `eval_echo`. -/
def evalEcho (input : Text) : Except String Text :=
  if trim input = [] then .ok []
  else
    match tokenize std (trim input) with
    | .error e => .error e
    | .ok toks => evalAll std none toks

/-- `eval_expr`. -/
def evalExpr (resolve : Text → Option OptVal) (input : Text) : Except String Text :=
  if trim input = [] then .ok []
  else
    match tokenize std (trim input) with
    | .error e => .error e
    | .ok toks =>
        match expression std (some resolve) toks with
        | .error e => .error e
        | .ok (v, []) => .ok (v.display std)
        | .ok _ =>
            .error ("E15: Invalid expression: trailing tokens after a complete expression in " ++
              std.debug (trim input))

end Parser

/-! ### What is evaluated -/

inductive Tree (F : Type) where
  | int (n : Int64)
  | float (f : F)
  | str (s : Text)
  | option (name : Text)
  | ident (name : Text)
  | negative (e : Tree F)
  | positive (e : Tree F)
  | not (e : Tree F)
  | binary (op : Infix) (left right : Tree F)
  | cond (test thenBranch elseBranch : Tree F)

section Meaning

variable {F : Type} (std : Std F) (opts : Option (Text → Option OptVal))

/-- A tree's value, or the first error from the left. -/
@[grind =]
def Tree.meaning : Tree F → Outcome F
  | .int n => .ok (.int n)
  | .float f => .ok (.float f)
  | .str s => .ok (.str s)
  | .option name => resolveOption opts name
  | .ident name => undefinedVariable name
  | .negative e =>
      match e.meaning with
      | .error e => .error e
      | .ok v => arith std (.int 0) v .sub
  | .positive e => e.meaning
  | .not e =>
      match e.meaning with
      | .error e => .error e
      | .ok v => .ok (ofBool !truthy std v)
  | .binary op left right =>
      match left.meaning with
      | .error e => .error e
      | .ok left =>
          match right.meaning with
          | .error e => .error e
          | .ok right => op.apply std left right
  | .cond test thenBranch elseBranch =>
      match test.meaning with
      | .error e => .error e
      | .ok test =>
          match thenBranch.meaning with
          | .error e => .error e
          | .ok thenBranch =>
              match elseBranch.meaning with
              | .error e => .error e
              | .ok elseBranch => .ok (if truthy std test then thenBranch else elseBranch)

/-- Literals, names and what stands between parentheses. -/
inductive Primary (ternary : Grammar (Tok F) (Tree F)) : Grammar (Tok F) (Tree F) where
  | int (n : Int64) : Primary ternary [.int n] (.int n)
  | float (f : F) : Primary ternary [.float f] (.float f)
  | str (s : Text) : Primary ternary [.str s] (.str s)
  | option (name : Text) : Primary ternary [.option name] (.option name)
  | ident (name : Text) : Primary ternary [.ident name] (.ident name)
  | group {ts e} : ternary ts e → Primary ternary (.lParen :: (ts ++ [.rParen])) e

inductive Unary (unary ternary : Grammar (Tok F) (Tree F)) : Grammar (Tok F) (Tree F) where
  | negative {ts e} : unary ts e → Unary unary ternary (.minus :: ts) (.negative e)
  | positive {ts e} : unary ts e → Unary unary ternary (.plus :: ts) (.positive e)
  | not {ts e} : unary ts e → Unary unary ternary (.bang :: ts) (.not e)
  | primary {ts e} : Primary ternary ts e → Unary unary ternary ts e

/-- The levels of the operators between two operands, from the tightest to the loosest. -/
def Levels (unary : Grammar (Tok F) (Tree F)) : Grammar (Tok F) (Tree F) :=
  let multiplicative := Chained unary multiplicativeOp .binary
  let additive := Chained multiplicative additiveOp .binary
  let concat := Chained additive concatOp .binary
  let comparison := AtMostOne concat comparisonOp .binary
  let logicAnd := Chained comparison logicAndOp .binary
  Chained logicAnd logicOrOp .binary

inductive Ternary (unary ternary : Grammar (Tok F) (Tree F)) : Grammar (Tok F) (Tree F) where
  | plain {ts e} : Levels unary ts e → Ternary unary ternary ts e
  | cond {cs c ts t es e} : Levels unary cs c → ternary ts t → ternary es e →
      Ternary unary ternary (cs ++ .question :: (ts ++ .colon :: es)) (.cond c t e)

/-- The tokens that spell a tree, nested no deeper than a depth. -/
def spells : Nat → Rule → Grammar (Tok F) (Tree F)
  | 0, _ => fun _ _ => False
  | depth + 1, .ternary => Ternary (spells depth .unary) (spells depth .ternary)
  | depth + 1, .unary => Unary (spells depth .unary) (spells depth .ternary)

/-- The tokens that spell a whole expression. -/
def Spells : Grammar (Tok F) (Tree F) := spells maxExprDepth .ternary

/-- The arguments of an `:echo`, each with its tokens. -/
abbrev Arguments (F : Type) : Type := List (List (Tok F) × Tree F)

def Arguments.tokens (args : Arguments F) : List (Tok F) := (args.map Prod.fst).flatten

/-- What is shown of each argument, or the first error. -/
def Arguments.shown (args : Arguments F) : Except String (List Text) :=
  args.mapM fun arg => (arg.2.meaning std none).map (Value.display std)

/-! ### What is written -/

def doubleQuote (c : Char) : Text := if c = '\'' then [c, c] else [c]

/-- How a character stands between double quotes: as itself, by its letter behind a backslash, or
behind a backslash that only keeps it. -/
inductive Piece : Text → Char → Prop where
  | plain {c} : c ≠ '"' → c ≠ '\\' → Piece [c] c
  | newline : Piece ['\\', 'n'] '\n'
  | tab : Piece ['\\', 't'] '\t'
  | carriage : Piece ['\\', 'r'] '\r'
  | null : Piece ['\\', '0'] '\x00'
  | escape : Piece ['\\', 'e'] '\x1b'
  | kept {c} : c ∉ ['n', 't', 'r', '0', 'e'] → Piece ['\\', c] c

/-- How a token is written. -/
inductive Writes : Text → Tok F → Prop where
  | symbol {c t} : symbol? F c = some t → Writes [c] t
  | eq : Writes ['=', '='] .eq
  | ne : Writes ['!', '='] .ne
  | lt : Writes ['<'] .lt
  | le : Writes ['<', '='] .le
  | gt : Writes ['>'] .gt
  | ge : Writes ['>', '='] .ge
  | bang : Writes ['!'] .bang
  | andAnd : Writes ['&', '&'] .andAnd
  | orOr : Writes ['|', '|'] .orOr
  | dot : Writes ['.'] .concat
  | dots : Writes ['.', '.'] .concat
  | single (s : Text) : Writes ('\'' :: (s.flatMap doubleQuote ++ ['\''])) (.str s)
  | double {pieces s} : List.Forall₂ Piece pieces s →
      Writes ('"' :: (pieces.flatten ++ ['"'])) (.str s)
  | decimal {digits} : digits ≠ [] → (∀ c ∈ digits, c.isDigit = true) →
      Writes digits (.int (parseInt false 10 digits))
  | hex {x digits} : x = 'x' ∨ x = 'X' → (∀ c ∈ digits, isHexDigit c = true) →
      Writes ('0' :: x :: digits) (.int (parseInt false 16 digits))
  | float {digits d places} : digits ≠ [] → (∀ c ∈ digits, c.isDigit = true) →
      d.isDigit = true → (∀ c ∈ places, c.isDigit = true) →
      Writes (digits ++ '.' :: d :: places) (.float (std.parse (digits ++ '.' :: d :: places)))
  | option {name} : name ≠ [] → (∀ c ∈ name, isNameChar c = true) →
      Writes ('&' :: name) (.option name)
  | scopedOption {scope name} : scope = 'l' ∨ scope = 'g' → name ≠ [] →
      (∀ c ∈ name, isNameChar c = true) → Writes ('&' :: scope :: ':' :: name) (.option name)
  | ident {c name} : isNameChar c = true → (∀ d ∈ name, isIdentChar d = true) →
      Writes (c :: name) (.ident (c :: name))

/-- The texts of tokens with a blank between them. -/
def written (texts : List Text) : Text := [' '].intercalate texts

end Meaning

end Bemtvi.Core.Expr

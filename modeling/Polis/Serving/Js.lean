import Polis.Common.JsonGrammar
import Polis.Serving.JsObject
import Polis.Delphi.WireNumbers

/-!
# JSON.parse and JSON.stringify of the API

A recursive parser over the rest of the text, and the text of a value. The bytes that the parser looks at
are all ASCII, so that it is one over characters. A finite number has one zero.

Reference: `queue-rs/polis-api/src/js.rs`.
-/

namespace Polis.Js

open JsonText Binary64

/-- A number as `f64` has it. -/
inductive F64
  | finite (x : Double)
  | infinity (neg : Bool)
  | nan

/-- `Js` -/
abbrev Value := Json F64

/-! ## Numbers -/

/-- The nearest number, with the infinities where there is none. -/
def F64.ofNumber (n : Number) : F64 :=
  match Double.round n.value with
  | some x => .finite x
  | none => .infinity n.neg

/-- `str::parse::<f64>`, of a text that is spelled like a JSON number -/
def parse_f64 (text : List Char) : Option F64 := (readNumber text).map .ofNumber

/-- `ryu_js::Buffer::format`: the shortest digits, as `Number::toString` lays them out -/
def format (x : Double) : List Char :=
  if x.value = 0 then ['0']
  else (if x.value < 0 then ['-'] else []) ++ Wire.textOf x.digits.1 x.digits.2

/-! ## Parsing -/

def MAX_DEPTH : ℕ := 512

/-- Why a text is refused, with what was left of it. -/
inductive Fault
  | trailing (rest : List Char)
  | expected (b : Char) (rest : List Char)
  | literal (rest : List Char)
  | tooDeep
  /-- Neither a comma nor the closing bracket. -/
  | commaOr (close : Char) (rest : List Char)
  | unexpected (rest : List Char)
  | number (start : List Char)
  /-- What `parse::<f64>` refuses. -/
  | float (text : List Char)
  | truncatedUnicode
  /-- What `from_str_radix` refuses. -/
  | radix (digits : List Char)
  | control (rest : List Char)
  | truncatedEscape
  | loneSurrogate
  | escape
  | unterminated

/-- The rest of the text after what was parsed. -/
abbrev Parser (α : Type) := List Char → Except Fault (α × List Char)

def ws (s : List Char) : List Char := s.dropWhile isBlank

def expect (b : Char) (s : List Char) : Except Fault (List Char) :=
  match s with
  | c :: r => if c = b then .ok r else .error (.expected b s)
  | [] => .error (.expected b s)

def literal (word : List Char) (value : Value) : Parser Value := fun s =>
  if word <+: s then .ok (value, s.drop word.length) else .error (.literal s)

/-- Past the whole part of a number. -/
def integerEnd : List Char → Option (List Char)
  | [] => none
  | c :: r =>
    if c = '0' then some r
    else if c.isDigit then some (r.dropWhile Char.isDigit)
    else none

/-- Past a point and its digits, if there is a point. -/
def fractionEnd : List Char → Option (List Char)
  | [] => some []
  | c :: r =>
    if c = '.' then if r.takeWhile Char.isDigit = [] then none else some (r.dropWhile Char.isDigit)
    else some (c :: r)

/-- Past an exponent, if there is one. -/
def exponentEnd : List Char → Option (List Char)
  | [] => some []
  | c :: r =>
    if c = 'e' ∨ c = 'E' then
      let digits := if r.head? = some '+' ∨ r.head? = some '-' then r.tail else r
      if digits.takeWhile Char.isDigit = [] then none else some (digits.dropWhile Char.isDigit)
    else some (c :: r)

def number : Parser Value := fun start =>
  let unsigned := if start.head? = some '-' then start.tail else start
  match (integerEnd unsigned).bind fun s => (fractionEnd s).bind exponentEnd with
  | none => .error (.number start)
  | some rest =>
    let text := start.take (start.length - rest.length)
    match parse_f64 text with
    | none => .error (.float text)
    | some x => .ok (.number x, rest)

/-- `u32::from_str_radix` of four characters, which may begin with a plus sign -/
def from_str_radix (digits : List Char) : Option ℕ :=
  match digits with
  | '+' :: r => JsonGrammar.hexNumber r
  | _ => JsonGrammar.hexNumber digits

def hex4 : Parser ℕ := fun s =>
  if (s.map Char.utf8Size).sum < 4 then .error .truncatedUnicode
  else match from_str_radix (s.take 4) with
    | none => .error (.radix (s.take 4))
    | some value => .ok (value, s.drop 4)

/-- `char::from_u32` -/
def from_u32 (code : ℕ) : Option Char := if code.isValidChar then some (Char.ofNat code) else none

/-- The code that follows `\u`, with the surrogate that follows a high one. -/
def codePoint : Parser ℕ := fun s => do
  let (first, s) ← hex4 s
  if isHigh first = true ∧ s.take 2 = ['\\', 'u'] then
    let (second, after) ← hex4 (s.drop 2)
    if isLow second then
      return (0x10000 + (first - 0xD800) * 0x400 + (second - 0xDC00), after)
    return (first, s)
  return (first, s)

/-- The character that follows a backslash. -/
def escaped : Parser Char
  | [] => .error .truncatedEscape
  | 'u' :: s => do
    let (code, s) ← codePoint s
    match from_u32 code with
    | none => .error .loneSurrogate
    | some ch => .ok (ch, s)
  | c :: s => match unescape c with
      | none => .error .escape
      | some ch => .ok (ch, s)

/-- The characters up to the closing quote; the number bounds how many there are. -/
def stringBody : ℕ → Parser (List Char)
  | 0, _ => .error .unterminated
  | _ + 1, [] => .error .unterminated
  | n + 1, c :: s =>
    if c = '"' then .ok ([], s)
    else if c = '\\' then do
      let (ch, s) ← escaped s
      let (out, s) ← stringBody n s
      return (ch :: out, s)
    else if c.toNat < 0x20 then .error (.control (c :: s))
    else do
      let (out, s) ← stringBody n s
      return (c :: out, s)

def string : Parser String := fun s => do
  let s ← expect '"' s
  let (out, s) ← stringBody (s.length + 1) s
  return (String.ofList out, s)

/-- The loop over the parts of an array or an object; the number bounds how many there are. -/
def parts {α β : Type} (part : Parser α) (push : β → α → β) (close : Char) : ℕ → β → Parser β
  | 0, _, s => .error (.commaOr close s)
  | n + 1, out, s => do
    let (x, s) ← part (ws s)
    match ws s with
    | [] => .error (.commaOr close [])
    | c :: r =>
      if c = ',' then parts part push close n (push out x) r
      else if c = close then .ok (push out x, r)
      else .error (.commaOr close (c :: r))

/-- A member of an object. -/
def member (value : Parser Value) : Parser (String × Value) := fun s => do
  let (key, s) ← string s
  let s ← expect ':' (ws s)
  let (v, s) ← value (ws s)
  return ((key, v), s)

/-- A value; the number is that of the levels that there may be. -/
def value : ℕ → Parser Value
  | 0, _ => .error .tooDeep
  | _ + 1, [] => .error (.unexpected [])
  | depth + 1, c :: s =>
    if c = '\x7b' then match ws s with
      | '\x7d' :: s => .ok (.object [], s)
      | s => do
        let (obj, s) ← parts (member (value depth)) (fun (o : Obj Value) p => o.set p.1 p.2) '\x7d'
          (s.length + 1) [] s
        return (.object obj, s)
    else if c = '[' then match ws s with
      | ']' :: s => .ok (.array [], s)
      | s => do
        let (arr, s) ← parts (value depth) (fun a v => a ++ [v]) ']' (s.length + 1) [] s
        return (.array arr, s)
    else if c = '"' then do
      let (t, s) ← string (c :: s)
      return (.string t, s)
    else if c = 't' then literal ['t', 'r', 'u', 'e'] (.bool true) (c :: s)
    else if c = 'f' then literal ['f', 'a', 'l', 's', 'e'] (.bool false) (c :: s)
    else if c = 'n' then literal ['n', 'u', 'l', 'l'] .null (c :: s)
    else if c = '-' ∨ c.isDigit then number (c :: s)
    else .error (.unexpected (c :: s))

def parse (text : String) : Except Fault Value := do
  let (v, s) ← value (MAX_DEPTH + 1) (ws text.toList)
  match ws s with
  | [] => return v
  | s => .error (.trailing s)

/-! ## Writing -/

def write_number : F64 → List Char
  | .finite n => format n
  | _ => ['n', 'u', 'l', 'l']

def stringify (value : Value) : String := String.ofList (Json.text write_number value)

end Polis.Js

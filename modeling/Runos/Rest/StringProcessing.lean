import Runos.Lib.Numeral
import Runos.Lib.Stream

/-!
# Texts and numbers of the REST requests (`RestStringProcessing.hh`, `RestStringProcessing.cc`)

A `std::string` is the list of its bytes, each the character of that number. The variable that
`string_cast` reads a number into is not initialized, and an extraction that finds only blanks
leaves it as it is: what it holds then is a parameter. Of a JSON value, as `json11` gives it, a
string, an array and an object are looked into; an object is the list of its members.
-/

namespace Rest

/-- What is thrown, by its type. -/
inductive Exn
  /-- `std::string` -/
  | string (text : List Char)
  /-- `const char *` -/
  | literal (text : List Char)
  /-- `std::overflow_error` -/
  | overflowError (what : List Char)
  /-- `std::out_of_range`, by `at` -/
  | outOfRange
  /-- what a constructor of another library throws -/
  | foreign
  deriving DecidableEq, Repr

/-- The unsigned types a text is cast to. -/
inductive Uint
  | uint8 | uint16 | uint32 | uint64
  deriving DecidableEq, Repr

def Uint.bits : Uint → Nat
  | uint8 => 8
  | uint16 => 16
  | uint32 => 32
  | uint64 => 64

/-! ## Numbers -/

/-- `val[0] == '0' && val[1] == 'x'` -/
def isHex : List Char → Bool
  | '0' :: 'x' :: _ => true
  | _ => false

/-- The `0x` that may stand before hexadecimal digits. -/
def skipBase : List Char → List Char
  | '0' :: 'x' :: text => text
  | '0' :: 'X' :: text => text
  | text => text

/-- The sign of a number. -/
def skipSign : List Char → Bool × List Char
  | '-' :: text => (true, text)
  | '+' :: text => (false, text)
  | text => (false, text)

/-- `ss >> no_overflow`: what the variable holds then. Without a digit that is zero, and with too
many of them the greatest number; the state of the stream is not looked at. -/
def extract (hex : Bool) (noOverflow : UInt64) (val : List Char) : Nat :=
  let text := val.dropWhile Stream.isSpace
  if text = [] then noOverflow.toNat
  else
    let (negative, text) := skipSign text
    let n := if hex then Numeral.value 16 ((skipBase text).takeWhile Char.isHexDigit)
      else Numeral.value 10 (text.takeWhile Char.isDigit)
    if 2 ^ 64 ≤ n then 2 ^ 64 - 1
    else if negative then (2 ^ 64 - n) % 2 ^ 64
    else n

def overflow : Exn := .overflowError "Overflow. Check maximal supported values.".toList

/-- `string_cast<T>` -/
def stringCast (T : Uint) (noOverflow : UInt64) (val : List Char) : Except Exn Nat :=
  let noOverflow := extract (isHex val) noOverflow val
  let ans := noOverflow % 2 ^ T.bits
  if ans ≠ noOverflow then .error overflow
  else .ok ans

/-! ## JSON -/

inductive Json
  /-- nothing, a truth value or a number -/
  | other
  | string (val : List Char)
  | array (items : List Json)
  | object (members : List (String × Json))

abbrev Object := List (String × Json)

namespace Json

def stringValue : Json → List Char
  | string val => val
  | _ => []

def arrayItems : Json → List Json
  | array items => items
  | _ => []

def objectItems : Json → Object
  | object members => members
  | _ => []

end Json

/-- `find` of an object. -/
def Object.find (req : Object) (field : String) : Option Json := req.lookup field

/-- `at` of an object. -/
def Object.at (req : Object) (field : String) : Except Exn Json :=
  match req.find field with
  | some value => .ok value
  | none => .error .outOfRange

/-- `json_cast<T>` -/
def jsonCast (T : Uint) (noOverflow : UInt64) (value : Json) : Except Exn Nat :=
  stringCast T noOverflow value.stringValue

/-! ## Requests -/

/-- What the handling of a request meets: the JSON parser, with its error texts; the variables that
are not initialized, by the time of the cast and its field; the tables of the controller; and the
switches, each time they are looked up. -/
structure Env where
  parseJson : List Char → Except (List Char) Json
  noOverflow : Nat → String → UInt64
  handlerTable : UInt8
  getSwitch : Nat → Nat → Bool

/-- `chooseValue<uint64_t>` -/
def chooseValue (env : Env) (filter : Object) (field : String) (alternative : Nat) :
    Except Exn Nat :=
  match filter.find field with
  | some value => jsonCast .uint64 (env.noOverflow 1 field) value
  | none => .ok alternative

/-- `parse` -/
def parse (env : Env) (body : List Char) : Except Exn Object :=
  match env.parseJson body with
  | .ok value => .ok value.objectItems
  | .error forErr => .error (.string ("Can't parse input request : ".toList ++ forErr))

def incorrect : List Char := "Incorrect request.".toList

/-- What the mode `full` asks for, and the mode `lite` does not. -/
def checkMode (env : Env) (req : Object) (full : Bool) : Except Exn Unit :=
  if full then do
    let tableId ← jsonCast .uint8 (env.noOverflow 0 "table_id") (← req.at "table_id")
    if env.handlerTable.toNat ≤ tableId then
      -- the number of the table is written as a character
      throw (.string (incorrect ++ " RestFlowMod can work only with tables in range of 0..".toList ++
        Char.ofNat env.handlerTable.toNat ::
        ". Look at RestFlowMod class definition for more details.".toList))
    else
      let _ ← req.at "match"
      let _ ← req.at "actions"
      return ()
  else .ok ()

/-- What `validateRequest` tries. -/
def checkRequest (env : Env) (req : Object) (full : Bool) : Except Exn Unit := do
  let dpid ← jsonCast .uint64 (env.noOverflow 0 "dpid") (← req.at "dpid")
  checkMode env req full
  if env.getSwitch 0 dpid then return ()
  else throw (.string (incorrect ++ " Switch hasn't been found".toList))

/-- `validateRequest` -/
def validateRequest (env : Env) (req : Object) (full : Bool) : Except Exn Unit :=
  match checkRequest env req full with
  | .ok () => .ok ()
  | .error (.string text) => .error (.string text)
  | .error (.overflowError what) => .error (.literal what)
  | .error _ => .error (.string incorrect)

end Rest

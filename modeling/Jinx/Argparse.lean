import Jinx.Http.HTTPBuilder
import Jinx.Lib.Cell
import Jinx.Lib.Numeral
import Jinx.Record

/-! `argparse`: the options of a command line, put into the records of a category.

    `F` is `float` and `stof` is `std::stof`. What is written to `std::cerr` and to `error_stream` is not
    modelled, nor is the category after an exception. -/

namespace Jinx.Argparse
open Jinx Jinx.Http Jinx.Record

/-- What a record of the arguments holds. -/
inductive RecordKind where
  | size | int | float | string | bool | stringList
  deriving DecidableEq, Repr

/-- `RecordSecret<O>` or `RecordImmediate<O>`. -/
structure RecordType where
  secret : Bool
  kind : RecordKind
  deriving DecidableEq, Repr

inductive RecordValue (F : Type) where
  | size (n : UInt64)
  | int (n : Int32)
  | float (x : F)
  | string (s : List Byte)
  | bool (b : Bool)
  | stringList (l : List (List Byte))
  deriving DecidableEq, Repr

abbrev Category (F : Type) := RecordCategory RecordType (RecordValue F)

abbrev Entry (F : Type) := RecordAbstract RecordType (RecordValue F)

/-- `ArgumentType`. No constructor of `Argument` leaves `TypeInvalid`. -/
inductive ArgumentType where
  | size | float | bool | integer | string | stringList
  deriving DecidableEq, Repr

/-- `Argument`. `_string_list_min` and `_string_list_max` are never read. -/
structure Argument (F : Type) where
  name : List Byte
  desc : List Byte
  type : ArgumentType
  secret : Bool
  sizeDefault : UInt64
  sizeMin : UInt64
  sizeMax : UInt64
  intDefault : Int32
  intMin : Int32
  intMax : Int32
  floatDefault : F
  floatMin : F
  floatMax : F
  stringDefault : List Byte
  stringMin : UInt64
  stringMax : UInt64
  boolDefault : Bool
  stringListDefault : List (List Byte)

/-- The `std::invalid_argument` or `std::out_of_range` of a conversion. -/
inductive ConversionError where
  | invalidArgument | outOfRange
  deriving DecidableEq, Repr

/-- What `parse_argv` throws: `std::out_of_range` where a value or a length is out of range, a
    `ConversionError`, else `std::invalid_argument`. -/
inductive Thrown (F : Type) where
  | record (e : InvalidArgument)
  | conversion (function : String) (e : ConversionError)
  | valueOutOfRange (name : List Byte) (val min max : RecordValue F)
  | sizeOutOfRange (what : String) (name str : List Byte) (min max : UInt64)
  | invalidOption (string : List Byte)
  | unknownOption

/-- The text; `put` is what `operator<<` writes. -/
def Thrown.what {F : Type} (put : RecordValue F → List Byte) : Thrown F → List Byte
  | record e => ascii e.what.1 ++ e.what.2.1 ++ ascii e.what.2.2
  | conversion function _ => ascii function
  | valueOutOfRange name val min max =>
    ascii "the value of " ++ name ++ ascii " is " ++ put val ++ ascii ". min is " ++ put min ++
      ascii ". max is " ++ put max
  | sizeOutOfRange what name str min max =>
    ascii "the size of " ++ ascii what ++ ascii " " ++ name ++ ascii "='" ++ str ++
      ascii "' out of range. (" ++ decimal min.toNat ++ ascii " <= size <= " ++ decimal max.toNat ++
      ascii ")"
  | invalidOption string => ascii "invalid option: " ++ string
  | unknownOption => ascii "unknown option"

/-! ### Conversions -/

/-- `isspace`, in the "C" locale. -/
def isSpace (c : Byte) : Bool := c == 32 || (9 ≤ c && c ≤ 13)

/-- `std::stoul(value)`: blanks are skipped, what stands behind the digits is ignored, and a '-' negates
    what was read as an `unsigned long`. -/
def stoul (value : List Byte) : Except ConversionError UInt64 :=
  let (negative, text) := Numeral.sign (value.dropWhile isSpace)
  let digits := text.takeWhile Numeral.isDigit
  if digits = [] then .error .invalidArgument
  else if UInt64.size ≤ Numeral.value digits then .error .outOfRange
  else
    let n := UInt64.ofNat (Numeral.value digits)
    .ok (if negative then -n else n)

/-- The texts that stand for `true`. -/
def isTrue (value : List Byte) : Bool :=
  value = ascii "true" || value = ascii "True" || value = ascii "TRUE" ||
  value = ascii "yes" || value = ascii "Yes" || value = ascii "YES" ||
  value = ascii "ok" || value = ascii "positive"

/-! ### The records of an argument -/

variable {F α : Type}

/-- What the templates take from the type `O` of the values of a record: its kind, the `get_default`
    that is overloaded for it, and how a record of it holds a value. The type id of a record is looked at
    before `load`. -/
structure RecordOf (F α : Type) where
  kind : RecordKind
  getDefault : Argument F → α
  store : α → RecordValue F
  load : RecordValue F → α

def sizeT : RecordOf F UInt64 where
  kind := .size
  getDefault := Argument.sizeDefault
  store := .size
  load | .size n => n | _ => 0

def int : RecordOf F Int32 where
  kind := .int
  getDefault := Argument.intDefault
  store := .int
  load | .int n => n | _ => 0

def float [Zero F] : RecordOf F F where
  kind := .float
  getDefault := Argument.floatDefault
  store := .float
  load | .float x => x | _ => 0

def string : RecordOf F (List Byte) where
  kind := .string
  getDefault := Argument.stringDefault
  store := .string
  load | .string s => s | _ => []

def bool : RecordOf F Bool where
  kind := .bool
  getDefault := Argument.boolDefault
  store := .bool
  load | .bool b => b | _ => false

/-- `std::vector<std::string>`. -/
def stringList : RecordOf F (List (List Byte)) where
  kind := .stringList
  getDefault := Argument.stringListDefault
  store := .stringList
  load | .stringList l => l | _ => []

namespace Argument

/-- The members that a constructor does not name are zero. -/
def init [Zero F] (name desc : List Byte) (type : ArgumentType) (secret : Bool) : Argument F where
  name := name
  desc := desc
  type := type
  secret := secret
  sizeDefault := 0
  sizeMin := 0
  sizeMax := 0
  intDefault := 0
  intMin := 0
  intMax := 0
  floatDefault := 0
  floatMin := 0
  floatMax := 0
  stringDefault := []
  stringMin := 0
  stringMax := 0
  boolDefault := false
  stringListDefault := []

section
variable [Zero F] (name : List Byte)

def ofSize (default min max : UInt64) (desc : List Byte) (secret : Bool) : Argument F :=
  { (init name desc .size secret : Argument F) with
    sizeDefault := default, sizeMin := min, sizeMax := max }

def ofFloat (default min max : F) (desc : List Byte) (secret : Bool) : Argument F :=
  { (init name desc .float secret : Argument F) with
    floatDefault := default, floatMin := min, floatMax := max }

def ofInt (default min max : Int32) (desc : List Byte) (secret : Bool) : Argument F :=
  { (init name desc .integer secret : Argument F) with
    intDefault := default, intMin := min, intMax := max }

def ofString (default : List Byte) (min max : UInt64) (desc : List Byte) (secret : Bool) :
    Argument F :=
  { (init name desc .string secret : Argument F) with
    stringDefault := default, stringMin := min, stringMax := max }

def ofBool (default : Bool) (desc : List Byte) (secret : Bool) : Argument F :=
  { (init name desc .bool secret : Argument F) with boolDefault := default }

def ofStringList (default : List (List Byte)) (min max : UInt64) (desc : List Byte)
    (secret : Bool) : Argument F :=
  { (init name desc .stringList secret : Argument F) with
    stringListDefault := default, stringMin := min, stringMax := max }

end

variable (a : Argument F) (O : RecordOf F α)

/-- `RecordSecret<O>` for a secret argument, else `RecordImmediate<O>`. -/
def recordType : RecordType := ⟨a.secret, O.kind⟩

/-- `category.create<R>(_name, _desc, get_default(..))`. -/
def create (c : Category F) : Except (Thrown F) (Category F × Entry F) :=
  (c.create a.name a.desc (a.recordType O) (O.store (O.getDefault a))).mapError .record

/-- `_commit`; `write` is what the `commit` of the record type does with the value that is there. -/
def commit (write : α → α) (c : Category F) : Except (Thrown F) (Category F) := do
  let (c, record) ← a.create O c
  return c.emplace (hashString a.name) { record with value := O.store (write (O.load record.value)) }

/-- `_get`. -/
def get (c : Category F) : Except (Thrown F) (Category F × α) := do
  let (c, record) ← a.create O c
  return (c, O.load record.value)

/-- `_check_range`. -/
def checkRange [LT α] [DecidableLT α] (min max val : α) : Except (Thrown F) Unit :=
  if val < min ∨ max < val then
    .error (.valueOutOfRange a.name (O.store val) (O.store min) (O.store max))
  else .ok ()

/-- The check of a length; `what` is "string" or "list". -/
def checkSize (what : String) (str : List Byte) : Except (Thrown F) Unit :=
  if str.length < a.stringMin.toNat ∨ a.stringMax.toNat < str.length then
    .error (.sizeOutOfRange what a.name str a.stringMin a.stringMax)
  else .ok ()

variable [Zero F]

def apply (stof : List Byte → Except ConversionError F) (value : List Byte) (c : Category F) :
    Except (Thrown F) (Category F) :=
  match a.type with
  | .size => do
    let n ← (stoul value).mapError (.conversion "stoul")
    a.commit sizeT (fun _ => n) c
  | .integer => do
    let n ← (stoul value).mapError (.conversion "stoul")
    a.commit int (fun _ => n.toUInt32.toInt32) c
  | .float => do
    let x ← (stof value).mapError (.conversion "stof")
    a.commit float (fun _ => x) c
  | .string => a.commit string (fun _ => value) c
  | .bool => a.commit bool (fun _ => isTrue value) c
  | .stringList => a.commit stringList (· ++ [value]) c

/-- A list is read as a string here. -/
def validate [LT F] [DecidableLT F] (c : Category F) : Except (Thrown F) (Category F) :=
  match a.type with
  | .size => do
    let (c, size) ← a.get sizeT c
    a.checkRange sizeT a.sizeMin a.sizeMax size
    return c
  | .integer => do
    let (c, size) ← a.get int c
    a.checkRange int a.intMin a.intMax size
    return c
  | .float => do
    let (c, size) ← a.get float c
    a.checkRange float a.floatMin a.floatMax size
    return c
  | .string => do
    let (c, str) ← a.get string c
    a.checkSize "string" str
    return c
  | .bool => do
    let (c, _) ← a.get bool c
    return c
  | .stringList => do
    let (c, str) ← a.get string c
    a.checkSize "list" str
    return c

end Argument

/-! ### The command line -/

/-- `[a-zA-Z0-9-]`. -/
def isKeyChar (c : Byte) : Bool :=
  (97 ≤ c && c ≤ 122) || (65 ≤ c && c ≤ 90) || Numeral.isDigit c || c == 45

/-- "--", a key, '=' and any text. -/
def splitOption : List Byte → Option (List Byte × List Byte)
  | 45 :: 45 :: s =>
    match s.dropWhile isKeyChar with
    | 61 :: text => if s.takeWhile isKeyChar = [] then none else some (s.takeWhile isKeyChar, text)
    | _ => none
  | _ => none

/-- `.+` matches the text: '.' is no line terminator. -/
def isValue (text : List Byte) : Bool := text ≠ [] && text.all fun c => c != 10 && c != 13

/-- `regex_match` with "--([a-zA-Z0-9-]+)=(.+)": the two groups. -/
def regexMatch (string : List Byte) : Option (List Byte × List Byte) :=
  (splitOption string).filter fun m => isValue m.2

/-- `args.emplace(arg.get_name(), &arg)`: the first argument of a name stays. -/
def emplace (args : List (Argument F)) (arg : Argument F) : List (Argument F) :=
  if args.any fun a => a.name = arg.name then args else args ++ [arg]

/-- The `unordered_map` of the arguments by their names. -/
def argsOf (arguments : List (Argument F)) : List (Argument F) := arguments.foldl emplace []

/-- The order in which the `unordered_map` is gone through; it is not specified. -/
structure Iteration (arguments : List (Argument F)) where
  order : List (Argument F)
  perm : order.Perm (argsOf arguments)

variable [Zero F]

/-- One turn of the loop over `argv`. -/
def parseOption (stof : List Byte → Except ConversionError F) (args : List (Argument F))
    (c : Category F) (string : List Byte) : Except (Thrown F) (Category F) :=
  match regexMatch string with
  | none => .error (.invalidOption string)
  | some (key, value) =>
    match args.find? fun a => a.name = key with
    | none => .error .unknownOption
    | some arg => arg.apply stof value c

/-- `parse_argv`; the first string of `argv` is the name of the program. -/
def parseArgv [LT F] [DecidableLT F] (stof : List Byte → Except ConversionError F)
    (argv : List (List Byte)) (c : Category F) (arguments : List (Argument F))
    (args : Iteration arguments) : Except (Thrown F) (Category F) := do
  let c ← (argv.drop 1).foldlM (parseOption stof (argsOf arguments)) c
  args.order.foldlM (fun c arg => arg.validate c) c

end Jinx.Argparse

import OmniKV.Query.Parser

/-!
# The legacy key-value grammar

`parse_query` reads the words of a text between whitespace. What follows the parts of a SELECT that
it knows is ignored, and an INSERT takes the second word for a key, whatever it is.
-/

namespace OmniKV.KvQuery

open Sql Parse

inductive Operator
  | eq
  | gte
  | lte
deriving DecidableEq

structure Condition where
  op : Operator
  value : Bytes
deriving DecidableEq

inductive Action
  | selectAll
  | selectCount
  | delete
  | insert (key value : Bytes)
  | update (key value : Bytes)
deriving DecidableEq

structure Query where
  action : Action
  conditions : List Condition
  limit : Option ℕ
  orderDesc : Bool
deriving DecidableEq

def parseOperator (word : Bytes) : Except String Operator :=
  if isToken word "=" then .ok .eq
  else if isToken word ">=" then .ok .gte
  else if isToken word "<=" then .ok .lte
  else
    let word := Bytes.text word
    .error s!"Unsupported operator {word}"

section

variable [TextFunctions]

/-- The conditions of a WHERE clause. Those of a SELECT end at `LIMIT` or `ORDER`. -/
def parseConditions (select : Bool) : List Bytes → Except String (List Condition × List Bytes)
  | [] => .ok ([], [])
  | word :: rest =>
    if isWord word "AND" then parseConditions select rest
    else if select && (isWord word "LIMIT" || isWord word "ORDER") then .ok ([], word :: rest)
    else if TextFunctions.lower word ≠ .ofString "key" then .error "Can only filter on 'key'"
    else
      match rest with
      | operator :: value :: rest => do
          let op ← parseOperator operator
          let (conditions, rest) ← parseConditions select rest
          return (⟨op, value⟩ :: conditions, rest)
      | _ => .error "Incomplete condition"

/-- `ORDER BY` with a direction, if `ORDER` is next. -/
def parseOrder (words : List Bytes) : Except String (Bool × List Bytes) :=
  if nextWord words "ORDER" then (expectWord "BY" "Expected BY after ORDER" words.tail).map
    parseDirection
  else .ok (false, words)

/-- `LIMIT` with a number, if it is next. -/
def parseLimit (words : List Bytes) : Except String (Option ℕ × List Bytes) :=
  if nextWord words "LIMIT" then do
    let (number, rest) ← expect "Expected number after LIMIT" words.tail
    match parseUsize number with
    | some n => return (some n, rest)
    | none =>
      let number := Bytes.text number
      throw s!"Invalid LIMIT value: {number}"
  else .ok (none, words)

def parseTarget (target : Bytes) : Except String Action :=
  if isToken target "*" then .ok .selectAll
  else if isWord target "COUNT" then .ok .selectCount
  else .error "Expected * or COUNT after SELECT"

/-- `WHERE` with conditions, if it is next. -/
def parseWhere (words : List Bytes) : Except String (List Condition × List Bytes) :=
  if nextWord words "WHERE" then parseConditions true words.tail else .ok ([], words)

def parseSelectForm (words : List Bytes) : Except String (Query × List Bytes) := do
  let (target, words) ← expect "Expected * or COUNT after SELECT" words.tail
  let action ← parseTarget target
  let (conditions, words) ← parseWhere words
  let (orderDesc, words) ← parseOrder words
  let (limit, words) ← parseLimit words
  return (⟨action, conditions, limit, orderDesc⟩, words)

def parseSelect (words : List Bytes) : Except String Query := (parseSelectForm words).map Prod.fst

def parseDelete (words : List Bytes) : Except String Query := do
  let words ← expectWord "WHERE" "DELETE requires a WHERE clause" words.tail
  let (conditions, _) ← parseConditions false words
  if conditions.isEmpty then .error "DELETE WHERE requires at least one condition"
  else .ok ⟨.delete, conditions, none, false⟩

omit [TextFunctions] in
def parseInsert : List Bytes → Except String Query
  | _ :: key :: value :: rest => .ok ⟨.insert key (join (value :: rest)), [], none, false⟩
  | _ => .error "INSERT requires <key> <value>"

def parseUpdate (words : List Bytes) : Except String Query :=
  if words.length < 8 then .error "UPDATE requires SET value = <val> WHERE key = <key>"
  else if !(nextWord (words.drop 1) "SET" && nextWord (words.drop 2) "VALUE" &&
  nextToken (words.drop 3) "=") then
    .error "Expected SET value ="
  else
    let value := (words.drop 4).takeWhile (!isWord · "WHERE")
    let rest := (words.drop 4).dropWhile (!isWord · "WHERE")
    if value.isEmpty then .error "Missing value in UPDATE"
    else
      match rest with
      | [] => .error "UPDATE requires WHERE clause"
      | _ :: column :: equals :: key :: _ =>
        if isWord column "KEY" && isToken equals "=" then .ok ⟨.update key (join value), [], none,
          false⟩
        else .error "UPDATE WHERE must be exactly: WHERE key = <key>"
      | _ => .error "UPDATE WHERE must be exactly: WHERE key = <key>"

/-- `parse_query` -/
def parseQuery (text : Bytes) : Except String Query :=
  match words text with
  | [] => .error "Empty query"
  | word :: rest =>
    if isWord word "SELECT" then parseSelect (word :: rest)
    else if isWord word "DELETE" then parseDelete (word :: rest)
    else if isWord word "INSERT" then parseInsert (word :: rest)
    else if isWord word "UPDATE" then parseUpdate (word :: rest)
    else
      let word := Bytes.text word
      .error s!"Unsupported command: {word}"

end

/-- The range of keys that conditions ask for, each condition on top of those before it. -/
def buildScanRange (conditions : List Condition) : Bytes × Bytes :=
  conditions.foldl (fun range condition =>
    match condition.op with
    | .eq => (condition.value, condition.value ++ [126])
    | .gte => (condition.value, range.2)
    | .lte => (range.1, condition.value ++ [126])) ([], [127])

end OmniKV.KvQuery

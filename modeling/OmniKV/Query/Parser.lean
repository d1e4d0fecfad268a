import OmniKV.Query.Text

/-!
# The SQL grammar

The source keeps an index into the tokens; here each function takes the tokens from the index on and
returns those that it has not read. The recursion is bounded by the number of tokens, and for
statements within statements by the number of bytes other than spaces.
-/

namespace OmniKV.Parse

open Sql Except

inductive SetOpType
  | union
  | intersect
  | except
deriving DecidableEq

structure ColumnDecl extends SqlColumnDef where
  nullable : Bool
  default : Option Bytes

inductive WindowFuncType
  | rowNumber
  | rank
  | denseRank
deriving DecidableEq

inductive AggFunc
  | count
  | sum
  | avg
  | min
  | max
deriving DecidableEq

inductive SelectColumn
  | star
  | named (name : Bytes)
  | qualified (table column : Bytes)
  | aggregate (func : AggFunc) (arg : Bytes)
  | windowFunc (func : WindowFuncType) (orderBy : Bytes) (desc : Bool)
deriving DecidableEq

inductive JoinType
  | inner
  | left
  | right
deriving DecidableEq

inductive FromClause
  | table (name : Bytes)
  | join (left right : Bytes) (joinType : JoinType) (onLeft onRight : Bytes)
deriving DecidableEq

structure OrderByItem where
  column : Bytes
  desc : Bool
deriving DecidableEq

inductive SqlStatement
  | createTable (name : Bytes) (columns : List ColumnDecl) (ifNotExists : Bool)
  | dropTable (name : Bytes) (ifExists : Bool)
  | insert (table : Bytes) (columns : List Bytes) (values : List (List SqlValue))
  | select (columns : List SelectColumn) (source : FromClause)
    (whereClause : Option (WhereExpr SqlStatement))
      (groupBy : List Bytes) (having : Option (WhereExpr SqlStatement)) (orderBy : List OrderByItem)
      (limit offset : Option ℕ)
  | update (table : Bytes) (assignments : List (Bytes × SqlValue))
    (whereClause : Option (WhereExpr SqlStatement))
  | delete (table : Bytes) (whereClause : Option (WhereExpr SqlStatement))
  | showTables
  | explain (inner : SqlStatement)
  | explainAnalyze (inner : SqlStatement)
  | setOp (op : SetOpType) (left right : SqlStatement) (all : Bool)

section

variable {m : Type → Type} [Monad m] (resolve : ℕ → Bool → m SqlValue)

/-- A value with its placeholder resolved, as a written value or as one of a predicate. -/
def bindValue (predicate : Bool) : SqlValue → m SqlValue
  | .placeholder n => resolve n predicate
  | other => pure other

mutual

/-- Resolve the placeholders of a statement, in the order in which they stand in it. -/
def bindWalk : SqlStatement → m SqlStatement
  | .insert table columns values => do
      let values ← values.mapM fun row => row.mapM (bindValue resolve false)
      return .insert table columns values
  | .select columns source whereClause groupBy having orderBy limit offset => do
      let whereClause ← bindExpr whereClause
      let having ← bindExpr having
      return .select columns source whereClause groupBy having orderBy limit offset
  | .update table assignments whereClause => do
      let assignments ← assignments.mapM fun assignment => do
        return (assignment.1, ← bindValue resolve false assignment.2)
      let whereClause ← bindExpr whereClause
      return .update table assignments whereClause
  | .delete table whereClause => do
      let whereClause ← bindExpr whereClause
      return .delete table whereClause
  | .setOp op left right all => do
      let left ← bindWalk left
      let right ← bindWalk right
      return .setOp op left right all
  | .explain inner => do
      let inner ← bindWalk inner
      return .explain inner
  | .explainAnalyze inner => do
      let inner ← bindWalk inner
      return .explainAnalyze inner
  | other => pure other

def bindExpr : Option (WhereExpr SqlStatement) → m (Option (WhereExpr SqlStatement))
  | none => pure none
  | some expr => do
      let expr ← bindWhere expr
      return some expr

def bindWhere : WhereExpr SqlStatement → m (WhereExpr SqlStatement)
  | .comparison column op value => do
      let value ← bindValue resolve true value
      return .comparison column op value
  | .and left right => do
      let left ← bindWhere left
      let right ← bindWhere right
      return .and left right
  | .or left right => do
      let left ← bindWhere left
      let right ← bindWhere right
      return .or left right
  | .not inner => do
      let inner ← bindWhere inner
      return .not inner
  | .inList column values => do
      let values ← values.mapM (bindValue resolve true)
      return .inList column values
  | .inSubquery column inner => do
      let inner ← bindWalk inner
      return .inSubquery column inner
  | other => pure other

end

end

def Unbound (resolve : ℕ → Bool → Except String SqlValue) : Prop :=
  ∀ n predicate value, resolve n predicate ≠ .ok value

section

variable {resolve : ℕ → Bool → Except String SqlValue}

theorem yields_bindValue (unbound : Unbound resolve) (predicate : Bool) (value : SqlValue) :
    Yields (bindValue resolve predicate value) value := by
  cases value with
  | placeholder n => exact fun bound done => absurd done (unbound n predicate bound)
  | _ => exact .pure _

mutual

theorem yields_bindWalk (unbound : Unbound resolve) :
    (stmt : SqlStatement) → Yields (bindWalk resolve stmt) stmt
  | .createTable .. | .dropTable .. | .showTables => .pure _
  | .insert _ _ values => .bind (.mapM (.mapM (yields_bindValue unbound false)) values) (.pure _)
  | .select _ _ whereClause _ having _ _ _ =>
    .bind (yields_bindExpr unbound whereClause) (.bind (yields_bindExpr unbound having) (.pure _))
  | .update _ assignments whereClause =>
    .bind (.mapM (fun assignment => .bind (yields_bindValue unbound false assignment.2) (.pure _))
      assignments) (.bind (yields_bindExpr unbound whereClause) (.pure _))
  | .delete _ whereClause => .bind (yields_bindExpr unbound whereClause) (.pure _)
  | .explain inner | .explainAnalyze inner => .bind (yields_bindWalk unbound inner) (.pure _)
  | .setOp _ left right _ =>
    .bind (yields_bindWalk unbound left) (.bind (yields_bindWalk unbound right) (.pure _))

theorem yields_bindExpr (unbound : Unbound resolve) : (clause : Option (WhereExpr SqlStatement)) →
    Yields (bindExpr resolve clause) clause
  | none => .pure _
  | some expr => .bind (yields_bindWhere unbound expr) (.pure _)

theorem yields_bindWhere (unbound : Unbound resolve) : (expr : WhereExpr SqlStatement) →
    Yields (bindWhere resolve expr) expr
  | .isNull .. | .isNotNull .. => .pure _
  | .comparison _ _ value => .bind (yields_bindValue unbound true value) (.pure _)
  | .and left right | .or left right =>
    .bind (yields_bindWhere unbound left) (.bind (yields_bindWhere unbound right) (.pure _))
  | .not inner => .bind (yields_bindWhere unbound inner) (.pure _)
  | .inList _ values => .bind (.mapM (yields_bindValue unbound true) values) (.pure _)
  | .inSubquery _ inner => .bind (yields_bindWalk unbound inner) (.pure _)

end

end

section

variable [TextFunctions] (token : Bytes)

/-- Whether a token is a keyword, in any case of its letters. -/
def isWord (word : String) : Bool := TextFunctions.upper token = Bytes.ofString word

omit [TextFunctions] in
def isToken (text : String) : Bool := token = Bytes.ofString text

variable (tokens : List Bytes)

/-- Whether the next token is a keyword. -/
def nextWord (word : String) : Bool := tokens.head?.any (isWord · word)

omit [TextFunctions] in
def nextToken (text : String) : Bool := tokens.head?.any (isToken · text)

def skipWord (word : String) (tokens : List Bytes) : List Bytes :=
  if nextWord tokens word then tokens.tail else tokens

omit [TextFunctions] in
def skipToken (text : String) (tokens : List Bytes) : List Bytes :=
  if nextToken tokens text then tokens.tail else tokens

def expectWord (word error : String) (tokens : List Bytes) : Except String (List Bytes) :=
  if nextWord tokens word then .ok tokens.tail else .error error

section

omit [TextFunctions]

def expectToken (text error : String) (tokens : List Bytes) : Except String (List Bytes) :=
  if nextToken tokens text then .ok tokens.tail else .error error

def expect (error : String) : List Bytes → Except String (Bytes × List Bytes)
  | [] => .error error
  | token :: rest => .ok (token, rest)

/-- `parse::<usize>` -/
def parseUsize (text : Bytes) : Option ℕ :=
  if text.head? = some 45 then none else (parseInt 65 text).map Int.toNat

/-- `text.replace("''", "'")` -/
def unescape : Bytes → Bytes
  | 39 :: 39 :: rest => 39 :: unescape rest
  | b :: rest => b :: unescape rest
  | [] => []

/-- The number of a placeholder `$n`. -/
def placeholderOf : Bytes → Option ℕ
  | 36 :: digits => (parseUsize digits).filter (1 ≤ ·)
  | _ => none

end

def parseValue : SqlValue :=
  match placeholderOf token with
  | some n => .placeholder n
  | none =>
    if token.head? = some 39 && token.getLast? = some 39 then .text (unescape token.tail.dropLast)
    else if isWord token "NULL" then .null
    else if isWord token "TRUE" then .boolean true
    else if isWord token "FALSE" then .boolean false
    else
      match parseI64 token, parseI128 token with
      | some n, _ => .integer n
      | none, some n => if intText n = token then .text token else floatOrText token
      | none, none => floatOrText token
where
  floatOrText (token : Bytes) : SqlValue :=
    match TextFunctions.parseF64 token with
    | some f => .float f
    | none => .text token

def parseColumnOptions (column : ColumnDecl) : List Bytes → ColumnDecl × List Bytes
  | [] => (column, [])
  | token :: rest =>
    if isToken token "," || isToken token ")" then (column, token :: rest)
    else if isWord token "PRIMARY" then
      let column := { column with primaryKey := true, nullable := false }
      match rest with
      | [] => (column, [])
      | next :: more =>
        if isWord next "KEY" then parseColumnOptions column more
        else parseColumnOptions column (next :: more)
    else if isWord token "NOT" then
      let column := { column with nullable := false }
      match rest with
      | [] => (column, [])
      | next :: more =>
        if isWord next "NULL" then parseColumnOptions column more
        else parseColumnOptions column (next :: more)
    else if isWord token "DEFAULT" then
      match rest with
      | [] => ({ column with default := none }, [])
      | value :: more => parseColumnOptions { column with default := some value } more
    else parseColumnOptions column rest

/-- The columns of a table, up to the closing parenthesis. -/
def parseColumnDefs : ℕ → List Bytes → Except String (List ColumnDecl)
  | 0, _ => .ok []
  | _ + 1, [] => .ok []
  | n + 1, token :: rest =>
    if isToken token ")" then .ok []
    else if isToken token "," then parseColumnDefs n rest
    else do
      let (colType, rest) ← expect "Missing column type" rest
      let (column, rest) := parseColumnOptions ⟨⟨token, colType, false⟩, true, none⟩ rest
      let columns ← parseColumnDefs n rest
      return column :: columns

def parseCreateTable : Except String SqlStatement := do
  let tokens ← expectWord "TABLE" "Expected TABLE after CREATE" tokens.tail
  let ifNotExists := nextWord tokens "IF" && nextWord tokens.tail "NOT" &&
    nextWord tokens.tail.tail "EXISTS"
  let tokens := if ifNotExists then tokens.drop 3 else tokens
  let (name, tokens) ← expect "Missing table name" tokens
  let tokens ← expectToken "(" "Expected ( after table name" tokens
  let columns ← parseColumnDefs (tokens.length + 1) tokens
  return .createTable name columns ifNotExists

def parseDropTable : Except String SqlStatement := do
  let tokens ← expectWord "TABLE" "Expected TABLE after DROP" tokens.tail
  let ifExists := nextWord tokens "IF" && nextWord tokens.tail "EXISTS"
  let tokens := if ifExists then tokens.drop 2 else tokens
  let (name, _) ← expect "Missing table name" tokens
  return .dropTable name ifExists

omit [TextFunctions] in
/-- The tokens up to a closing parenthesis without the commas, and those after it. -/
def parenthesized : List Bytes × List Bytes :=
  ((tokens.takeWhile (!isToken · ")")).filter (!isToken · ","),
    (tokens.dropWhile (!isToken · ")")).tail)

/-- The rows of values, the first of them in part if one is given. -/
def parseRows : Option (List SqlValue) → List Bytes → List (List SqlValue)
  | none, [] => []
  | none, token :: rest =>
    if isToken token "(" then parseRows (some []) rest
    else if isToken token "," then parseRows none rest
    else []
  | some row, [] => [row]
  | some row, token :: rest =>
    if isToken token ")" then row :: parseRows none rest
    else if isToken token "," then parseRows (some row) rest
    else parseRows (some (row ++ [parseValue token])) rest

def parseInsertSql : Except String SqlStatement := do
  let tokens ← expectWord "INTO" "Expected INTO after INSERT" tokens.tail
  let (table, tokens) ← expect "Missing table name" tokens
  let (columns, tokens) := if nextToken tokens "(" then parenthesized tokens.tail else ([], tokens)
  let tokens ← expectWord "VALUES" "Expected VALUES" tokens
  return .insert table columns (parseRows none tokens)

omit [TextFunctions] in
/-- The tokens up to the parenthesis that closes so many open ones, and those from it on. -/
def splitClosing : ℕ → List Bytes → List Bytes × List Bytes
  | _, [] => ([], [])
  | depth, token :: rest =>
    let depth := if isToken token "(" then depth + 1 else depth
    if isToken token ")" && depth ≤ 1 then ([], token :: rest)
    else
      let (inner, after) := splitClosing (if isToken token ")" then depth - 1 else depth) rest
      (token :: inner, after)

def aggregateNames : List String := ["COUNT", "SUM", "AVG", "MIN", "MAX"]

/-- The left side of a condition: a name, or an aggregate as `func(arg)`. -/
def parseOperand (rest : List Bytes) : Bytes × List Bytes :=
  if aggregateNames.any (isWord token ·) && nextToken rest "(" then
    let rest := rest.tail
    let (arg, rest) :=
      match rest with
      | [] => (Bytes.ofString "*", [])
      | arg :: more => if isToken arg ")" then (Bytes.ofString "*", arg :: more) else (arg, more)
    (TextFunctions.lower token ++ 40 :: arg ++ [41], skipToken ")" rest)
  else (token, rest)

omit [TextFunctions] in
def parseCmpOp : Except String CmpOp :=
  if isToken token "=" then .ok .eq
  else if isToken token "!=" || isToken token "<>" then .ok .ne
  else if isToken token ">" then .ok .gt
  else if isToken token "<" then .ok .lt
  else if isToken token ">=" then .ok .gte
  else if isToken token "<=" then .ok .lte
  else if isToken token "LIKE" || isToken token "like" then .ok .like
  else
    let other := Bytes.text token
    .error s!"Unknown operator: {other}"

/-- What follows the left side of a condition. -/
def parseCondition (parse : Bytes → Except String SqlStatement) (column : Bytes)
    (tokens : List Bytes) : Except String (WhereExpr SqlStatement × List Bytes) :=
  if nextWord tokens "IS" then
    let tokens := tokens.tail
    if nextWord tokens "NOT" then .ok (.isNotNull column, tokens.drop 2)
    else .ok (.isNull column, tokens.tail)
  else if nextWord tokens "IN" then
    let tokens := skipToken "(" tokens.tail
    if nextWord tokens "SELECT" then do
      let (inner, after) := splitClosing 1 tokens
      let statement ← parse (join inner)
      return (.inSubquery column statement, skipToken ")" after)
    else
      let (values, after) := parenthesized tokens
      .ok (.inList column (values.map parseValue), after)
  else do
    let (operator, tokens) ← expect "Missing operator" tokens
    let op ← parseCmpOp operator
    let (value, tokens) ← expect "Missing value" tokens
    return (.comparison column op (parseValue value), tokens)

mutual

def parseWhereExpr (parse : Bytes → Except String SqlStatement) :
    ℕ → List Bytes → Except String (WhereExpr SqlStatement × List Bytes)
  | 0, _ => .error "Unexpected end in WHERE"
  | n + 1, tokens => do
      let (left, tokens) ← parseWhereAnd parse n tokens
      parseWhereOrs parse n left tokens

def parseWhereOrs (parse : Bytes → Except String SqlStatement) :
    ℕ → WhereExpr SqlStatement → List Bytes → Except String (WhereExpr SqlStatement × List Bytes)
  | 0, left, tokens => .ok (left, tokens)
  | n + 1, left, tokens =>
    if nextWord tokens "OR" then do
      let (right, tokens) ← parseWhereAnd parse n tokens.tail
      parseWhereOrs parse n (.or left right) tokens
    else .ok (left, tokens)

def parseWhereAnd (parse : Bytes → Except String SqlStatement) :
    ℕ → List Bytes → Except String (WhereExpr SqlStatement × List Bytes)
  | 0, _ => .error "Unexpected end in WHERE"
  | n + 1, tokens => do
      let (left, tokens) ← parseWhereAtom parse n tokens
      parseWhereAnds parse n left tokens

def parseWhereAnds (parse : Bytes → Except String SqlStatement) :
    ℕ → WhereExpr SqlStatement → List Bytes → Except String (WhereExpr SqlStatement × List Bytes)
  | 0, left, tokens => .ok (left, tokens)
  | n + 1, left, tokens =>
    if nextWord tokens "AND" then do
      let (right, tokens) ← parseWhereAtom parse n tokens.tail
      parseWhereAnds parse n (.and left right) tokens
    else .ok (left, tokens)

def parseWhereAtom (parse : Bytes → Except String SqlStatement) :
    ℕ → List Bytes → Except String (WhereExpr SqlStatement × List Bytes)
  | 0, _ => .error "Unexpected end in WHERE"
  | _ + 1, [] => .error "Unexpected end in WHERE"
  | n + 1, token :: rest =>
    if isWord token "NOT" then do
      let (inner, rest) ← parseWhereAtom parse n rest
      return (.not inner, rest)
    else if isToken token "(" then do
      let (inner, rest) ← parseWhereExpr parse n rest
      return (inner, skipToken ")" rest)
    else
      let (column, rest) := parseOperand token rest
      parseCondition parse column rest

end

/-- A predicate that a keyword introduces, if the keyword is next. -/
def parseClause (parse : Bytes → Except String SqlStatement) (word : String) (tokens : List Bytes) :
    Except String (Option (WhereExpr SqlStatement) × List Bytes) :=
  if nextWord tokens word then do
    let (expr, tokens) ← parseWhereExpr parse (3 * tokens.length) tokens.tail
    return (some expr, tokens)
  else .ok (none, tokens)

def windowFuncOf : Option WindowFuncType :=
  if isWord token "ROW_NUMBER" then some .rowNumber
  else if isWord token "RANK" then some .rank
  else if isWord token "DENSE_RANK" then some .denseRank
  else none

def aggFuncOf : Option AggFunc :=
  if isWord token "COUNT" then some .count
  else if isWord token "SUM" then some .sum
  else if isWord token "AVG" then some .avg
  else if isWord token "MIN" then some .min
  else if isWord token "MAX" then some .max
  else none

/-- `DESC`, `ASC` or nothing. -/
def parseDirection : Bool × List Bytes :=
  if nextWord tokens "DESC" then (true, tokens.tail) else (false, skipWord "ASC" tokens)

/-- The rest of a window function, `() OVER (ORDER BY column)` with anything left out. -/
def parseWindow (func : WindowFuncType) (tokens : List Bytes) : SelectColumn × List Bytes :=
  let tokens := skipToken ")" (skipToken "(" tokens)
  let tokens := skipToken "(" (skipWord "OVER" tokens)
  let tokens := skipWord "BY" (skipWord "ORDER" tokens)
  let (desc, rest) := parseDirection tokens.tail
  (.windowFunc func (tokens.head?.getD []) desc, skipToken ")" rest)

omit [TextFunctions] in
/-- The argument of an aggregate, with the parentheses or without. -/
def parseAggregate (func : AggFunc) (tokens : List Bytes) : SelectColumn × List Bytes :=
  let tokens := skipToken "(" tokens
  (.aggregate func (tokens.head?.getD (.ofString "*")), skipToken ")" tokens.tail)

omit [TextFunctions] in
/-- A name, or the first two parts of a name with dots. -/
def parseColumnName : SelectColumn :=
  match splitDot token with
  | none => .named token
  | some (table, rest) => .qualified table (((splitDot rest).map Prod.fst).getD rest)

def parseSelectColumn (rest : List Bytes) : SelectColumn × List Bytes :=
  if isToken token "*" then (.star, rest)
  else
    match windowFuncOf token, aggFuncOf token with
    | some func, _ => parseWindow func rest
    | none, some func => parseAggregate func rest
    | none, none => (parseColumnName token, rest)

/-- The columns of a query, up to `FROM`. -/
def parseSelectColumns : ℕ → List Bytes → List SelectColumn × List Bytes
  | 0, tokens => ([], tokens)
  | _ + 1, [] => ([], [])
  | n + 1, token :: rest =>
    if isWord token "FROM" then ([], token :: rest)
    else if isToken token "," then parseSelectColumns n rest
    else
      let (column, rest) := parseSelectColumn token rest
      let (columns, rest) := parseSelectColumns n rest
      (column :: columns, rest)

omit [TextFunctions] in
def lastPart (name : Bytes) : Bytes := (name.reverse.takeWhile (· ≠ 46)).reverse

def parseJoinType : JoinType × List Bytes :=
  if nextWord tokens "LEFT" then (.left, tokens.tail)
  else if nextWord tokens "RIGHT" then (.right, tokens.tail)
  else (.inner, skipWord "INNER" tokens)

/-- The second table of a query, if a join follows. -/
def parseJoin (left : Bytes) (tokens : List Bytes) : Except String (FromClause × List Bytes) :=
  if ["JOIN", "INNER", "LEFT", "RIGHT"].any (nextWord tokens ·) then do
    let (joinType, tokens) := parseJoinType tokens
    let (right, tokens) ← expect "Missing right table" (skipWord "JOIN" tokens)
    let tokens ← expectWord "ON" "Expected ON after JOIN table" tokens
    let (onLeft, tokens) ← expect "Missing join condition" tokens
    -- The token after the left side is taken for the equals sign.
    let (onRight, tokens) ← expect "Missing join right col" tokens.tail
    return (.join left right joinType (lastPart onLeft) (lastPart onRight), tokens)
  else .ok (.table left, tokens)

def parseFrom : Except String (FromClause × List Bytes) := do
  let tokens ← expectWord "FROM" "Expected FROM" tokens
  let (left, tokens) ← expect "Missing table name" tokens
  parseJoin left tokens

def parseGroupBy : List Bytes × List Bytes :=
  if nextWord tokens "GROUP" then
    let tokens := skipWord "BY" tokens.tail
    let inside (token : Bytes) := !(isWord token "ORDER" || isWord token "LIMIT" ||
      isWord token "HAVING")
    ((tokens.takeWhile inside).filter (!isToken · ","), tokens.dropWhile inside)
  else ([], tokens)

def parseOrderItems : ℕ → List Bytes → List OrderByItem × List Bytes
  | 0, tokens => ([], tokens)
  | _ + 1, [] => ([], [])
  | n + 1, token :: rest =>
    if isWord token "LIMIT" then ([], token :: rest)
    else if isToken token "," then parseOrderItems n rest
    else
      let (desc, rest) := parseDirection rest
      let (items, rest) := parseOrderItems n rest
      (⟨token, desc⟩ :: items, rest)

def parseOrderBy : List OrderByItem × List Bytes :=
  if nextWord tokens "ORDER" then parseOrderItems tokens.length (skipWord "BY" tokens.tail) else
    ([], tokens)

/-- The number after a keyword, if the keyword is next. -/
def parseCount (word missing invalid : String) (tokens : List Bytes) :
    Except String (Option ℕ × List Bytes) :=
  if nextWord tokens word then do
    let (token, tokens) ← expect missing tokens.tail
    match parseUsize token with
    | some n => return (some n, tokens)
    | none => throw invalid
  else .ok (none, tokens)

def parseSelectSql (parse : Bytes → Except String SqlStatement) (tokens : List Bytes) :
    Except String SqlStatement := do
  let (columns, tokens) := parseSelectColumns tokens.length tokens.tail
  let (source, tokens) ← parseFrom tokens
  let (whereClause, tokens) ← parseClause parse "WHERE" tokens
  let (groupBy, tokens) := parseGroupBy tokens
  let (having, tokens) ← parseClause parse "HAVING" tokens
  let (orderBy, tokens) := parseOrderBy tokens
  let (limit, tokens) ← parseCount "LIMIT" "Missing LIMIT value" "Invalid LIMIT" tokens
  let (offset, _) ← parseCount "OFFSET" "Missing OFFSET value" "Invalid OFFSET" tokens
  return .select columns source whereClause groupBy having orderBy limit offset

/-- The assignments, up to `WHERE`. The token after a column is taken for the equals sign. -/
def parseAssignments : ℕ → List Bytes → Except String (List (Bytes × SqlValue) × List Bytes)
  | 0, tokens => .ok ([], tokens)
  | _ + 1, [] => .ok ([], [])
  | n + 1, token :: rest =>
    if isWord token "WHERE" then .ok ([], token :: rest)
    else if isToken token "," then parseAssignments n rest
    else do
      let (value, rest) ← expect "Missing value" rest.tail
      let (assignments, rest) ← parseAssignments n rest
      return ((token, parseValue value) :: assignments, rest)

def parseUpdateSql (parse : Bytes → Except String SqlStatement) (tokens : List Bytes) :
    Except String SqlStatement := do
  let (table, tokens) ← expect "Missing table name" tokens.tail
  let tokens ← expectWord "SET" "Expected SET after table name" tokens
  let (assignments, tokens) ← parseAssignments (tokens.length + 1) tokens
  let (whereClause, _) ← parseClause parse "WHERE" tokens
  return .update table assignments whereClause

def parseDeleteSql (parse : Bytes → Except String SqlStatement) (tokens : List Bytes) :
    Except String SqlStatement := do
  let tokens ← expectWord "FROM" "Expected FROM after DELETE" tokens.tail
  let (table, tokens) ← expect "Missing table name" tokens
  let (whereClause, _) ← parseClause parse "WHERE" tokens
  return .delete table whereClause

def setOpOf : Option SetOpType :=
  if isWord token "UNION" then some .union
  else if isWord token "INTERSECT" then some .intersect
  else if isWord token "EXCEPT" then some .except
  else none

omit [TextFunctions] in
/-- The number of open parentheses after a token. -/
def depthAfter (depth : ℤ) (token : Bytes) : ℤ :=
  if isToken token "(" then depth + 1 else if isToken token ")" then depth - 1 else depth

/-- The tokens before the first set operation outside parentheses, the operation, and the tokens
after it. -/
def splitSetOp : ℤ → List Bytes → Option (List Bytes × SetOpType × List Bytes)
  | _, [] => none
  | depth, token :: rest =>
    match if depthAfter depth token = 0 then setOpOf token else none with
    | some op => some ([], op, rest)
    | none => (splitSetOp (depthAfter depth token) rest).map fun (before, op, after) =>
      (token :: before, op, after)

def parseTokens (parse : Bytes → Except String SqlStatement) :
    List Bytes → Except String SqlStatement
  | [] => .error "Empty query"
  | token :: rest =>
    let tokens := token :: rest
    if isWord token "CREATE" then parseCreateTable tokens
    else if isWord token "DROP" then parseDropTable tokens
    else if isWord token "INSERT" then parseInsertSql tokens
    else if isWord token "SELECT" then
      match splitSetOp 0 tokens with
      | some (left, op, right) => do
          let all := nextWord right "ALL"
          let left ← parse (join left)
          let right ← parse (join (if all then right.tail else right))
          return .setOp op left right all
      | none => parseSelectSql parse tokens
    else if isWord token "UPDATE" then parseUpdateSql parse tokens
    else if isWord token "DELETE" then parseDeleteSql parse tokens
    else if isWord token "SHOW" then .ok .showTables
    else if isWord token "EXPLAIN" then
      if nextWord rest "ANALYZE" then (parse (join rest.tail)).map .explainAnalyze
      else (parse (join rest)).map .explain
    else
      let token := Bytes.text token
      .error s!"Unsupported: {token}"

def weight (text : Bytes) : ℕ := text.countP (· ≠ 32)

def parseSqlWithin : ℕ → Bytes → Except String SqlStatement
  | 0, _ => .error "Empty query"
  | n + 1, text => parseTokens (parseSqlWithin n) (tokenize (strip text))

/-- Parse a statement. Each statement within another has fewer bytes other than spaces. -/
def parseSql (text : Bytes) : Except String SqlStatement :=
  parseTokens (parseSqlWithin (weight (tokenize (strip text)).flatten)) (tokenize (strip text))

omit [TextFunctions] in
/-- The texts of the doubles that are no numbers. -/
def isInfinite (text : Bytes) : Bool :=
  isToken text "NaN" || isToken text "inf" || isToken text "-inf"

/-- A bound value in a predicate: a number if it is written as one. -/
def coerceParam (value : Bytes) : SqlValue :=
  match (parseI128 value).filter (intText · = value),
    (TextFunctions.parseF64 value).filter (fun f => !isInfinite f && f = value) with
  | some n, _ => if -2 ^ 63 ≤ n && n < 2 ^ 63 then .integer n else .text value
  | none, some f => .float f
  | none, none => .text value

def bindStatementParams (stmt : SqlStatement) (params : List (Option Bytes)) :
    Except String SqlStatement :=
  bindWalk (fun n predicate =>
    match params[n - 1]? with
    | some (some value) => .ok (if predicate then coerceParam value else .text value)
    | some none => .ok .null
    | none => .error s!"no value specified for parameter ${n}") stmt

def maxPlaceholder (stmt : SqlStatement) : ℕ :=
  (StateT.run (m := Id) (bindWalk (fun n _ => do modify (max · n); return .null) stmt) 0).2

def countStatementParams (sql : Bytes) : ℕ :=
  match parseSql (strip sql) with
  | .ok stmt => maxPlaceholder stmt
  | .error _ => 0

theorem bindStatementParams_nil {stmt bound : SqlStatement}
    (done : bindStatementParams stmt [] = .ok bound) : bound = stmt := by
  refine yields_bindWalk (fun n predicate value => ?_) stmt done
  exact nofun

end

end OmniKV.Parse

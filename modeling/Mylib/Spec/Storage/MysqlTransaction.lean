import Mylib.Spec.Base.StringUtil

/-!
# `Mylib.Spec.Storage.MysqlTransaction`: a batch of statements in one transaction

`SQLExecs` of `public/storage/mysql_storage_impl.cc` over the client calls it makes. What a
statement does to the database is a parameter, and every call may be answered with an error.

The server is the one of the MySQL manual: with autocommit off the statements go to a
transaction, `COMMIT` makes them permanent, and so does turning autocommit on again. An error
undoes its own statement, or, as a deadlock does, the whole transaction. The result sets that
`FreeRes` frees are left out, and no other client writes meanwhile. The calls are definitions, and
what the manual leaves open is given with them: the effect of a statement and every
answer. -/

set_option autoImplicit false

namespace Mylib.Spec.Storage

open Mylib.Spec.Base (Str)

/-! ### The server -/

/-- The answer to a query. -/
inductive Answer where
  | ok
  | failed
  | rolledBack
  deriving DecidableEq

/-- A session: the database as it is committed, the database as the open transaction sees it,
and the autocommit mode. -/
structure Session (D : Type) where
  committed : D
  pending : Option D
  autocommit : Bool

/-- The answers to the client calls of one batch: the `PING`, the two changes of the mode, the
query number `i` and the commit. -/
structure Answers where
  ping : Bool
  off : Bool
  query : Nat → Answer
  commit : Bool
  on : Bool

section

variable {D : Type}

namespace Session

/-- The database as the session sees it. -/
def view (s : Session D) : D := s.pending.getD s.committed

/-- What `Connections` opens. -/
def opened (db : D) : Session D := ⟨db, none, true⟩

end Session

/-- `mysql_commit`. -/
def mysqlCommit (answered : Bool) (s : Session D) : Session D :=
  if !answered then s else { s with committed := s.view, pending := none }

/-- `mysql_autocommit`. Turning the mode on commits what is open; turning it off does not. -/
def mysqlAutocommit (mode answered : Bool) (s : Session D) : Session D :=
  if !answered then s
  else if mode && !s.autocommit then ⟨s.view, none, true⟩
  else { s with autocommit := mode }

/-- `mysql_query`. -/
def mysqlQuery (effect : Str → D → D) (answer : Answer) (sql : Str) (s : Session D) :
    Session D :=
  match answer with
  | .ok =>
    if s.autocommit && s.pending.isNone then { s with committed := effect sql s.view }
    else { s with pending := some (effect sql s.view) }
  | .failed => s
  | .rolledBack => { s with pending := none }

/-! ### `MysqlStorageEngineImpl::SQLExecs` -/

/-- What `c_str()` gives a C function of a string. -/
def sqlText (sql : Str) : Str := sql.takeWhile (· ≠ 0)

/-- The `while` loop. A query that fails is logged, and the next one is sent. -/
def sqlExecsLoop (effect : Str → D → D) (query : Nat → Answer) :
    List Str → Session D → Session D
  | [], s => s
  | sql :: sqls, s =>
    sqlExecsLoop effect (fun i => query (i + 1)) sqls (mysqlQuery effect (query 0) (sqlText sql) s)

/-- `SQLExecs`: what it returns, and the session behind it. -/
def sqlExecs (effect : Str → D → D) (answers : Answers) (sqls : List Str) (s : Session D) :
    Bool × Session D :=
  if !answers.ping then (false, s)
  else
    let s := mysqlAutocommit false answers.off s
    let s := sqlExecsLoop effect answers.query sqls s
    let s := mysqlCommit answers.commit s
    let s := mysqlAutocommit true answers.on s
    (true, s)

end

end Mylib.Spec.Storage

import Mylib.Spec.Storage.MysqlTransaction

/-!
# `Mylib.Proofs.Storage.TransactionCommits`: when a batch is all or nothing

`SQLExecs` logs a statement that fails, goes on, commits the others and returns `true`. There
is no rollback in it, and it does not look at the answer to the commit either.

* `sqlExecsLoop_view`, `pending_sqlExecs_iff`: a batch without errors is committed as a whole
  if any of the calls that commit is answered.
* `allOrNothing_iff`: the batch is all or nothing exactly when no statement fails and what it
  did is committed, or the connection was lost before the first one.
-/

set_option autoImplicit false

namespace Mylib.Proofs.Storage

open Mylib.Spec.Base (Str)
open Mylib.Spec.Base.StringUtil (text)
open Mylib.Spec.Storage

section

variable {D : Type} (effect : Str → D → D)

/-! ### The calls that commit -/

/-- A commit changes nothing that the session sees. -/
theorem view_mysqlCommit (answered : Bool) (s : Session D) :
    (mysqlCommit answered s).view = s.view := by
  cases answered <;> rfl

/-- Switching the mode changes nothing that the session sees. -/
theorem view_mysqlAutocommit (mode answered : Bool) (s : Session D) :
    (mysqlAutocommit mode answered s).view = s.view := by
  unfold mysqlAutocommit
  split
  · rfl
  split <;> rfl

/-- Without pending changes the session sees what is committed. -/
theorem view_of_not_pending {s : Session D} (h : s.pending = none) : s.view = s.committed := by
  rw [Session.view, h, Option.getD_none]

/-- A commit does not change the mode. -/
theorem autocommit_mysqlCommit (answered : Bool) (s : Session D) :
    (mysqlCommit answered s).autocommit = s.autocommit := by
  cases answered <;> rfl

/-- The change of the mode closes the open transaction only where the mode was off. -/
theorem pending_turnOn (on : Bool) (s : Session D) :
    (mysqlAutocommit true on s).pending = none ↔
      s.pending = none ∨ (on = true ∧ s.autocommit = false) := by
  cases on with
  | false => simp [mysqlAutocommit]
  | true =>
    unfold mysqlAutocommit
    cases hmode : s.autocommit <;> simp

/-- Nothing is pending behind a commit that went through, or if nothing was. -/
theorem pending_mysqlCommit (commit : Bool) (s : Session D) :
    (mysqlCommit commit s).pending = none ↔ s.pending = none ∨ commit = true := by
  cases commit <;> simp [mysqlCommit]

/-! ### The loop -/

/-- No statement of the batch fails. -/
def NoneFails (query : Nat → Answer) (sqls : List Str) : Prop :=
  ∀ i < sqls.length, query i = .ok

/-- What the statements together do. -/
def batch (sqls : List Str) (db : D) : D := sqls.foldl (fun db sql => effect (sqlText sql) db) db

variable {effect}

/-- No statement fails if the first does not and none of the others. -/
theorem noneFails_cons {query : Nat → Answer} {sql : Str} {sqls : List Str} :
    NoneFails query (sql :: sqls) ↔
      query 0 = .ok ∧ NoneFails (fun i => query (i + 1)) sqls := by
  constructor
  · intro h
    exact ⟨h 0 (Nat.succ_pos _), fun i hi => h (i + 1) (Nat.succ_lt_succ hi)⟩
  · rintro ⟨hfirst, hrest⟩ i hi
    cases i with
    | zero => exact hfirst
    | succ i => exact hrest i (Nat.lt_of_succ_lt_succ hi)

/-- A query that succeeds is committed at once, or it goes to the transaction. -/
theorem mysqlQuery_ok (sql : Str) (s : Session D) :
    mysqlQuery effect .ok sql s = { s with committed := effect sql s.view } ∧
        s.autocommit = true ∧ s.pending = none ∨
      mysqlQuery effect .ok sql s = { s with pending := some (effect sql s.view) } ∧
        ¬(s.autocommit = true ∧ s.pending = none) := by
  unfold mysqlQuery
  by_cases h : s.autocommit = true ∧ s.pending = none
  · exact .inl ⟨if_pos (by simpa using h), h⟩
  · exact .inr ⟨if_neg (by simpa using h), h⟩

/-- A statement that goes through has its effect. -/
theorem view_mysqlQuery_ok (sql : Str) (s : Session D) :
    (mysqlQuery effect .ok sql s).view = effect sql s.view := by
  rcases mysqlQuery_ok sql s with ⟨hquery, -, hnone⟩ | ⟨hquery, -⟩
  · rw [hquery]
    show s.pending.getD _ = _
    rw [hnone, Option.getD_none]
  · rw [hquery]
    rfl

/-- Statements that all go through have their effects in order. By induction on them. -/
theorem sqlExecsLoop_view {query : Nat → Answer} {sqls : List Str}
    (h : NoneFails query sqls) (s : Session D) :
    (sqlExecsLoop effect query sqls s).view = batch effect sqls s.view := by
  induction sqls generalizing query s with
  | nil => rfl
  | cons sql sqls ih =>
    obtain ⟨hfirst, hrest⟩ := noneFails_cons.mp h
    rw [sqlExecsLoop, ih hrest, hfirst, view_mysqlQuery_ok]
    rfl

/-- A statement does not change the mode. -/
theorem autocommit_mysqlQuery_ok (sql : Str) (s : Session D) :
    (mysqlQuery effect .ok sql s).autocommit = s.autocommit := by
  rcases mysqlQuery_ok sql s with ⟨hquery, -⟩ | ⟨hquery, -⟩ <;> rw [hquery]

/-- With the mode off, the transaction is open behind the first statement. -/
theorem pending_mysqlQuery_ok (sql : Str) (s : Session D) :
    (mysqlQuery effect .ok sql s).pending = none ↔ s.autocommit = true ∧ s.pending = none := by
  rcases mysqlQuery_ok sql s with ⟨hquery, hopen⟩ | ⟨hquery, hopen⟩
  · rw [hquery]
    exact iff_of_true hopen.2 hopen
  · rw [hquery]
    exact iff_of_false (Option.some_ne_none _) hopen

/-- A row of statements does not change the mode. -/
theorem autocommit_sqlExecsLoop {query : Nat → Answer} {sqls : List Str}
    (h : NoneFails query sqls) (s : Session D) :
    (sqlExecsLoop effect query sqls s).autocommit = s.autocommit := by
  induction sqls generalizing query s with
  | nil => rfl
  | cons sql sqls ih =>
    obtain ⟨hfirst, hrest⟩ := noneFails_cons.mp h
    rw [sqlExecsLoop, ih hrest, hfirst, autocommit_mysqlQuery_ok]

/-- Behind the loop no transaction is open if none was before and either nothing was sent or
the mode is on. -/
theorem pending_sqlExecsLoop {query : Nat → Answer} {sqls : List Str}
    (h : NoneFails query sqls) (s : Session D) :
    (sqlExecsLoop effect query sqls s).pending = none ↔
      s.pending = none ∧ (sqls = [] ∨ s.autocommit = true) := by
  induction sqls generalizing query s with
  | nil => simp [sqlExecsLoop]
  | cons sql sqls ih =>
    obtain ⟨hfirst, hrest⟩ := noneFails_cons.mp h
    rw [sqlExecsLoop, ih hrest, hfirst, pending_mysqlQuery_ok, autocommit_mysqlQuery_ok]
    simp only [List.cons_ne_nil, false_or]
    tauto

/-! ### The batch -/

/-- One of the calls that commit is answered, or there is nothing to commit: no statement at
all, or a mode that was never off. -/
def Commits (answers : Answers) (sqls : List Str) : Prop :=
  sqls = [] ∨ answers.off = false ∨ answers.commit = true ∨ answers.on = true

/-- With the connection lost nothing is done. -/
theorem sqlExecs_lost {answers : Answers} (h : answers.ping = false) (sqls : List Str)
    (s : Session D) : sqlExecs effect answers sqls s = (false, s) := by
  rw [sqlExecs, h]
  rfl

/-- Whatever the answers to the other calls are, the batch is reported done. -/
theorem sqlExecs_returns {answers : Answers} (h : answers.ping = true) (sqls : List Str)
    (s : Session D) : (sqlExecs effect answers sqls s).1 = true := by
  rw [sqlExecs, h]
  rfl

/-- A batch of which no statement fails is seen as a whole behind the call. -/
theorem view_sqlExecs {answers : Answers} (hping : answers.ping = true) {sqls : List Str}
    (h : NoneFails answers.query sqls) (db : D) :
    (sqlExecs effect answers sqls (.opened db)).2.view = batch effect sqls db := by
  rw [sqlExecs, hping]
  show (mysqlAutocommit true answers.on _).view = _
  rw [view_mysqlAutocommit, view_mysqlCommit, sqlExecsLoop_view h, view_mysqlAutocommit]
  rfl

/-- What is pending behind a batch, by the answers to the commit and to the modes. -/
theorem pending_sqlExecs_iff {answers : Answers} (hping : answers.ping = true)
    {sqls : List Str} (h : NoneFails answers.query sqls) (db : D) :
    (sqlExecs effect answers sqls (.opened db)).2.pending = none ↔ Commits answers sqls := by
  rw [sqlExecs, hping]
  show (mysqlAutocommit true answers.on _).pending = none ↔ _
  rw [pending_turnOn, pending_mysqlCommit, pending_sqlExecsLoop h, autocommit_mysqlCommit,
    autocommit_sqlExecsLoop h]
  unfold Commits
  -- A session that was just opened leaves the mode to the answer of the first change.
  cases hoff : answers.off
  · simp [mysqlAutocommit, Session.opened]
  · simp [mysqlAutocommit, Session.opened, or_assoc]

variable (effect)

/-- `SQLExecs` on an open session is all or nothing. -/
structure AllOrNothing (answers : Answers) (sqls : List Str) (db : D) : Prop where
  /-- `true` is returned only if every statement succeeded and the batch is committed. -/
  done : (sqlExecs effect answers sqls (.opened db)).1 = true →
    NoneFails answers.query sqls ∧
      (sqlExecs effect answers sqls (.opened db)).2.pending = none ∧
      (sqlExecs effect answers sqls (.opened db)).2.committed = batch effect sqls db
  /-- If a statement fails, nothing is committed. -/
  undone : ¬NoneFails answers.query sqls →
    (sqlExecs effect answers sqls (.opened db)).2.committed = db

/-- A batch is all or nothing exactly when the connection was lost before it, or no statement
fails and one of the calls that commit is answered. -/
theorem allOrNothing_iff (answers : Answers) (sqls : List Str) (db : D) :
    AllOrNothing effect answers sqls db ↔
      answers.ping = false ∨ NoneFails answers.query sqls ∧ Commits answers sqls := by
  cases hping : answers.ping with
  | false =>
    refine iff_of_true ⟨fun hdone => ?_, fun _ => ?_⟩ (.inl rfl)
    · rw [sqlExecs_lost hping] at hdone
      exact absurd hdone Bool.false_ne_true
    · rw [sqlExecs_lost hping]
      rfl
  | true =>
    constructor
    · intro h
      obtain ⟨hnone, hclosed, -⟩ := h.done (sqlExecs_returns hping sqls _)
      exact .inr ⟨hnone, (pending_sqlExecs_iff hping hnone db).mp hclosed⟩
    · rintro (hlost | ⟨hnone, hcommits⟩)
      · exact absurd hlost Bool.noConfusion
      have hclosed : (sqlExecs effect answers sqls (.opened db)).2.pending = none :=
        (pending_sqlExecs_iff hping hnone db).mpr hcommits
      refine ⟨fun _ => ⟨hnone, hclosed, ?_⟩, fun hfails => absurd hnone hfails⟩
      rw [← view_of_not_pending hclosed, view_sqlExecs hping hnone]

/-- The second of two statements fails: the first is committed, and `true` is returned. -/
theorem not_allOrNothing_second :
    ¬AllOrNothing (fun sql log => log ++ [sql])
      ⟨true, true, fun i => if i = 1 then .failed else .ok, true, true⟩
      [text ['a'], text ['b']] [] := by
  intro h
  have hnone := (h.done rfl).1 1 (by decide)
  exact absurd hnone (by decide)

end

end Mylib.Proofs.Storage

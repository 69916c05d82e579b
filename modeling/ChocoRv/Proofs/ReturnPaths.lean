import ChocoRv.Analysis.Declarations

/-!
# Paths and returns

A path through statements takes one branch of every conditional and goes through the body of a loop
any number of times; a `return` ends it. `alwaysReturns_iff` says that the check for returns is
exact for these paths: loops never need to be looked into, because a path may leave them out.
-/

namespace ChocoRv

namespace Stmt

/-- Statements without statements in them that do not return. -/
def isStep : Stmt → Bool
  | expr .. | assign .. => true
  | ite .. | loop .. | each .. | ret .. => false

def isReturn : Stmt → Bool
  | ret .. => true
  | expr .. | assign .. | ite .. | loop .. | each .. => false

/-- A path through statements, given by the expressions, assignments and returns it executes. -/
inductive Path : List Stmt → List Stmt → Prop
  | done : Path [] []
  | step {s : Stmt} {ss path : List Stmt} (hs : s.isStep = true) (h : Path ss path) :
      Path (s :: ss) (s :: path)
  | ret (loc : Loc) (value? : Option Expr) (ss : List Stmt) :
      Path (.ret loc value? :: ss) [.ret loc value?]
  | yes {loc : Loc} {test : Expr} {yes no ss path : List Stmt} (h : Path (yes ++ ss) path) :
      Path (.ite loc test yes no :: ss) path
  | no {loc : Loc} {test : Expr} {yes no ss path : List Stmt} (h : Path (no ++ ss) path) :
      Path (.ite loc test yes no :: ss) path
  | leaveLoop {loc : Loc} {test : Expr} {body ss path : List Stmt} (h : Path ss path) :
      Path (.loop loc test body :: ss) path
  | loop {loc : Loc} {test : Expr} {body ss path : List Stmt}
      (h : Path (body ++ .loop loc test body :: ss) path) :
      Path (.loop loc test body :: ss) path
  | leaveEach {loc : Loc} {var : Ident} {iterable : Expr} {body ss path : List Stmt}
      (h : Path ss path) : Path (.each loc var iterable body :: ss) path
  | each {loc : Loc} {var : Ident} {iterable : Expr} {body ss path : List Stmt}
      (h : Path (body ++ .each loc var iterable body :: ss) path) :
      Path (.each loc var iterable body :: ss) path

theorem alwaysReturns_append (ss ss' : List Stmt) :
    alwaysReturns (ss ++ ss') = (alwaysReturns ss || alwaysReturns ss') := by
  induction ss with
  | nil => rfl
  | cons s ss ih => rw [List.cons_append, alwaysReturns, alwaysReturns, ih, Bool.or_assoc]

/-- Statements that always return do so on every path. -/
theorem Path.returns {ss path : List Stmt} (h : Path ss path) (hss : alwaysReturns ss = true) :
    ∃ s ∈ path, s.isReturn = true := by
  induction h with
  | done => cases hss
  | @step s ss path hs h ih =>
    have hnot : s.returns = false := by cases s <;> first | rfl | cases hs
    rw [alwaysReturns, hnot, Bool.false_or] at hss
    obtain ⟨t, ht, hret⟩ := ih hss
    exact ⟨t, List.mem_cons_of_mem s ht, hret⟩
  | ret loc value? ss => exact ⟨_, List.mem_cons_self, rfl⟩
  | yes h ih =>
    refine ih ?_
    rw [alwaysReturns, Stmt.returns, Bool.or_eq_true, Bool.and_eq_true] at hss
    rw [alwaysReturns_append, Bool.or_eq_true]
    exact hss.imp And.left id
  | no h ih =>
    refine ih ?_
    rw [alwaysReturns, Stmt.returns, Bool.or_eq_true, Bool.and_eq_true] at hss
    rw [alwaysReturns_append, Bool.or_eq_true]
    exact hss.imp And.right id
  | leaveLoop h ih | leaveEach h ih => exact ih hss
  | loop h ih | each h ih =>
    refine ih ?_
    rw [alwaysReturns_append, hss, Bool.or_true]

/-- A path may execute `ahead` and go on behind the statements `ss`. -/
def Falls (ss ahead : List Stmt) : Prop :=
  (∀ s ∈ ahead, s.isReturn = false) ∧
    ∀ rest path, Path rest path → Path (ss ++ rest) (ahead ++ path)

theorem Falls.nil : Falls [] [] := ⟨by simp, fun _ _ h => h⟩

theorem Falls.append {ss ss' ahead ahead' : List Stmt} (h : Falls ss ahead)
    (h' : Falls ss' ahead') : Falls (ss ++ ss') (ahead ++ ahead') := by
  refine ⟨List.forall_mem_append.2 ⟨h.1, h'.1⟩, fun rest path hpath => ?_⟩
  rw [List.append_assoc, List.append_assoc]
  exact h.2 _ _ (h'.2 _ _ hpath)

mutual

/-- Around a statement that does not always return there is a path. -/
theorem falls_of_returns : ∀ s : Stmt, s.returns = false → ∃ ahead, Falls [s] ahead
  | .expr loc e, _ => ⟨[.expr loc e], by simp [isReturn], fun _ _ h => .step rfl h⟩
  | .assign loc targets value, _ =>
    ⟨[.assign loc targets value], by simp [isReturn], fun _ _ h => .step rfl h⟩
  | .loop loc test body, _ => ⟨[], by simp, fun _ _ h => .leaveLoop h⟩
  | .each loc var iterable body, _ => ⟨[], by simp, fun _ _ h => .leaveEach h⟩
  | .ret loc value?, h => by cases h
  | .ite loc test yes no, h => by
    rw [Stmt.returns, Bool.and_eq_false_iff] at h
    rcases h with h | h
    · obtain ⟨ahead, hahead, hpath⟩ := falls_of_alwaysReturns yes h
      exact ⟨ahead, hahead, fun rest path hrest => .yes (hpath rest path hrest)⟩
    · obtain ⟨ahead, hahead, hpath⟩ := falls_of_alwaysReturns no h
      exact ⟨ahead, hahead, fun rest path hrest => .no (hpath rest path hrest)⟩

theorem falls_of_alwaysReturns : ∀ ss : List Stmt, alwaysReturns ss = false →
    ∃ ahead, Falls ss ahead
  | [], _ => ⟨[], .nil⟩
  | s :: ss, h => by
    rw [alwaysReturns, Bool.or_eq_false_iff] at h
    obtain ⟨ahead, hs⟩ := falls_of_returns s h.1
    obtain ⟨ahead', hss⟩ := falls_of_alwaysReturns ss h.2
    exact ⟨ahead ++ ahead', hs.append hss⟩

end

/-- The check for returns is exact: statements always return if every path through them does. -/
theorem alwaysReturns_iff {ss : List Stmt} :
    alwaysReturns ss = true ↔ ∀ path, Path ss path → ∃ s ∈ path, s.isReturn = true := by
  constructor
  · exact fun hss path hpath => hpath.returns hss
  · intro h
    refine Bool.of_not_eq_false fun hnot => ?_
    obtain ⟨ahead, hahead, hfalls⟩ := falls_of_alwaysReturns ss hnot
    have hpath := hfalls [] [] .done
    rw [List.append_nil, List.append_nil] at hpath
    obtain ⟨s, hs, hret⟩ := h ahead hpath
    exact Bool.false_ne_true ((hahead s hs).symm.trans hret)

mutual

/-- A path goes on through a statement, or it ends there. -/
theorem exists_path_cons : ∀ (s : Stmt) {rest path : List Stmt}, Path rest path →
    ∃ path', Path (s :: rest) path'
  | .expr loc e, _, _, h => ⟨_, .step rfl h⟩
  | .assign loc targets value, _, _, h => ⟨_, .step rfl h⟩
  | .loop loc test body, _, _, h => ⟨_, .leaveLoop h⟩
  | .each loc var iterable body, _, _, h => ⟨_, .leaveEach h⟩
  | .ret loc value?, _, _, _ => ⟨_, .ret loc value? _⟩
  | .ite loc test yes no, _, _, h => by
    obtain ⟨path, hpath⟩ := exists_path_append yes h
    exact ⟨path, .yes hpath⟩

theorem exists_path_append : ∀ (ss : List Stmt) {rest path : List Stmt}, Path rest path →
    ∃ path', Path (ss ++ rest) path'
  | [], _, path, h => ⟨path, h⟩
  | s :: ss, _, _, h => by
    obtain ⟨path, hpath⟩ := exists_path_append ss h
    exact exists_path_cons s hpath

end

/-- There is a path through all statements, so that a property of all paths says something of each
list. -/
theorem exists_path (ss : List Stmt) : ∃ path, Path ss path := by
  obtain ⟨path, hpath⟩ := exists_path_append ss .done
  rw [List.append_nil] at hpath
  exact ⟨path, hpath⟩

end Stmt

end ChocoRv

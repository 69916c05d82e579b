import ChocoRv.Proofs.Constants
import ChocoRv.Proofs.Contexts

/-!
# The routines of a listing

The listing of a program holds the code of its top-level statements and of its functions. Each of
these routines has an entry that sets up its frame, a body and an exit. In a body the code of every
statement, nested ones included, has its place behind the code that is ahead of it.
-/

namespace ChocoRv

open Asm Codegen Emit

namespace Emit

variable {α β γ : Type} {s s' : EmitState} {code : List Item}

theorem bind_ok {x : Emit α} {f : α → Emit β} {b : β} : (x >>= f) s = .ok (b, code, s') ↔
    ∃ a code₁ s₁ code₂, x s = .ok (a, code₁, s₁) ∧ f a s₁ = .ok (b, code₂, s') ∧
      code = code₁ ++ code₂ := by
  constructor
  · intro h
    rw [bind_apply] at h
    split at h
    · cases h
    · rename_i a code₁ s₁ hx
      split at h
      · cases h
      · rename_i b' code₂ s₂ hf
        cases h
        exact ⟨a, code₁, s₁, code₂, hx, hf, rfl⟩
  · rintro ⟨a, code₁, s₁, code₂, hx, hf, rfl⟩
    rw [bind_apply, hx]
    simp only [hf]

theorem items_ok {own : List Item} {u : Unit} : items own s = .ok (u, code, s') ↔
    own = code ∧ s = s' := by
  simp [items]

theorem items_nil : items [] = pure () := rfl

theorem items_cons (i j : Item) (code : List Item) :
    items (i :: j :: code) = items [i] >>= fun _ => items (j :: code) := rfl

theorem need_some (a : α) (e : CodegenFault) : need (some a) e = pure a := rfl

/-- In the run of a loop each round emits a part of the code. -/
theorem forM_part {f : γ → Emit Unit} [∀ x, Keeps (f x)] {x : γ} : ∀ {xs : List γ} {s : EmitState}
    {code : List Item}, xs.forM f s = .ok ((), code, s') → x ∈ xs →
      ∃ before s₁ own s₂ after, f x s₁ = .ok ((), own, s₂) ∧ code = before ++ own ++ after ∧
        s₂.pool.Within s'.pool
  | [], _, _, _, hx => absurd hx List.not_mem_nil
  | y :: ys, s, code, h, hx => by
    obtain ⟨_, own, s₁, more, hy, hys, rfl⟩ := bind_ok.1 (h : (f y >>= fun _ => ys.forM f) s = _)
    rcases List.mem_cons.1 hx with rfl | hx
    · exact ⟨[], s, own, s₁, more, hy, rfl, Keeps.within hys⟩
    · obtain ⟨before, s₂, own', s₃, after, hown, rfl, hpool⟩ := forM_part hys hx
      exact ⟨own ++ before, s₂, own', s₃, after, hown, by simp, hpool⟩

end Emit

/-! ### Routines -/

/-- The code of a body in its parts. -/
structure Routine where
  /-- The label and the setup of the frame. -/
  entry : List Item
  context : Context
  /-- Code ahead of the statements. -/
  inits : Emit Unit
  stmts : List Stmt
  /-- Items behind the statements. -/
  close : List Item
  exit : List Item

namespace Routine

def body (r : Routine) : Emit Unit := do
  r.inits
  Stmt.genAll r.context 0 r.stmts
  items r.close

def emit (r : Routine) : Emit Unit := do
  items r.entry
  r.body
  items r.exit

/-- The top-level statements. -/
def main (globals : Scope) (layouts : List ClassLayout) (p : Program) : Routine :=
  let size : Int := p.mainFrame.size
  { entry :=
      [.globalLabel (txt "main"), .instr (.jal (txt "heap.init")) (txt "initialize heap"),
       .instr (.opImm .addi .sp .sp (-size)) (txt "reserve top-level frame"),
       .instr (.store .sw .zero .sp (size - 4)) (txt "no return address"),
       .instr (.store .sw .zero .sp (size - 8)) (txt "no control link"),
       .instr (.opImm .addi .fp .sp size) (txt "new fp is at old sp")]
    context := ⟨globals, layouts, p.mainFrame, [], .noneType, []⟩
    inits := pure ()
    stmts := p.body
    close := []
    exit := [.instr (.li .a0 10) (txt "code for exit"), .instr .ecall (txt "exit")] }

/-- A function or method. -/
def ofSite (globals : Scope) (layouts : List ClassLayout) (site : FrameSite) : Routine :=
  let frame := site.frame
  let size : Int := frame.size
  let context : Context :=
    ⟨globals, layouts, frame, site.outer, site.defn.ty.ret, frame.label ++ txt "$epilogue"⟩
  { entry :=
      [.remark (txt "function " ++ frame.name ++ txt ", depth " ++ decimal frame.depth),
       .globalLabel frame.label,
       .instr (.opImm .addi .sp .sp (-size)) (txt "reserve frame"),
       .instr (.store .sw .ra .sp (size - 4)) (txt "save return address"),
       .instr (.store .sw .fp .sp (size - 8)) (txt "save control link"),
       .instr (.opImm .addi .fp .sp size) (txt "new fp is at old sp")]
    context
    inits := do
      let scope ← need (globals.descend? frame.path) .untyped
      initLocals context scope.entries site.defn.decls
    stmts := site.defn.body
    close :=
      [.instr (.move .mv .a0 .zero) (txt "implicit return None"),
       .label context.epilogue (txt "epilogue")]
    exit :=
      [.instr (.load .lw .ra .fp (-4)) (txt "restore return address"),
       .instr (.move .mv .sp .fp) (txt "pop frame"),
       .instr (.load .lw .fp .sp (-8)) (txt "restore control link"),
       .instr (.jr .ra) (txt "return to caller")] }

end Routine

/-- The routines of a program in the order of their code. -/
def Program.routines (globals : Scope) (layouts : List ClassLayout) (p : Program) : List Routine :=
  .main globals layouts p :: p.frames.map (.ofSite globals layouts)

variable {globals : Scope} {layouts : List ClassLayout} {p : Program}

theorem emitMain_eq : emitMain ⟨globals, layouts, p.mainFrame, [], .noneType, []⟩ p.body =
    (Routine.main globals layouts p).emit := by
  simp only [emitMain, Routine.emit, Routine.body, Routine.main, addi, sw, jal, li, instr,
    items_cons, items_nil, bind_assoc, pure_bind]

theorem Program.Nested.emitFunction_eq {s : FrameSite} {outer : Values} {env : Env}
    (h : p.Nested globals s outer env) (hp : p.Accepted globals) :
    emitFunction globals layouts s = (Routine.ofSite globals layouts s).emit := by
  simp only [emitFunction, h.enter hp layouts, h.descend? hp.declared, Routine.emit, Routine.body,
    Routine.ofSite, addi, sw, lw, mv, instr, need_some, items_cons, bind_assoc, pure_bind]

theorem Routine.emit_ok {r : Routine} {s s' : EmitState} {code : List Item}
    (h : r.emit s = .ok ((), code, s')) :
    ∃ body, r.body s = .ok ((), body, s') ∧ code = r.entry ++ body ++ r.exit := by
  obtain ⟨_, _, _, _, hentry, hrest, rfl⟩ := bind_ok.1 h
  obtain ⟨_, body, _, _, hbody, hexit, rfl⟩ := bind_ok.1 hrest
  obtain ⟨rfl, rfl⟩ := items_ok.1 hentry
  obtain ⟨rfl, rfl⟩ := items_ok.1 hexit
  exact ⟨body, hbody, by simp⟩

theorem Routine.emit_of_body {r : Routine} {s s' : EmitState} {body : List Item}
    (h : r.body s = .ok ((), body, s')) : r.emit s = .ok ((), r.entry ++ body ++ r.exit, s') := by
  refine bind_ok.2 ⟨(), r.entry, s, body ++ r.exit, rfl, ?_, List.append_assoc ..⟩
  exact bind_ok.2 ⟨(), body, s', r.exit, h, rfl, rfl⟩

/-- Every routine has its place in the code that is emitted, and its constants stay. -/
theorem Program.Accepted.emit_routine (hp : p.Accepted globals) {items : List Item}
    {s' : EmitState} (h : emitProgram globals layouts p {} = .ok ((), items, s')) {r : Routine}
    (hr : r ∈ p.routines globals layouts) :
    ∃ before body after s₁ s₂, r.body s₁ = .ok ((), body, s₂) ∧
      items = before ++ r.entry ++ body ++ r.exit ++ after ∧ s₂.pool.Within s'.pool := by
  obtain ⟨_, head, s₁, _, -, hunits, rfl⟩ := bind_ok.1 h
  obtain ⟨_, main, s₂, _, hmain, hrest, rfl⟩ := bind_ok.1 hunits
  have hpool : s₂.pool.Within s'.pool := Keeps.within hrest
  obtain ⟨_, funcs, s₃, tail, hfuncs, hdata, rfl⟩ := bind_ok.1 hrest
  rcases List.mem_cons.1 hr with rfl | hr
  · rw [emitMain_eq] at hmain
    obtain ⟨body, hbody, rfl⟩ := Routine.emit_ok hmain
    exact ⟨head, body, funcs ++ tail, _, _, hbody, by simp, hpool⟩
  · obtain ⟨site, hsite, rfl⟩ := List.mem_map.1 hr
    obtain ⟨before, s₄, own, s₅, after, hown, rfl, hkept⟩ := forM_part hfuncs hsite
    obtain ⟨outer, env, hn⟩ := (Program.mem_frames_iff globals).1 hsite
    rw [hn.emitFunction_eq hp] at hown
    obtain ⟨body, hbody, rfl⟩ := Routine.emit_ok hown
    exact ⟨head ++ main ++ before, body, after ++ tail, _, _, hbody, by simp,
      hkept.trans (Keeps.within hdata)⟩

/-- Every routine has its place in the listing. -/
theorem Program.Accepted.items_routine (hp : p.Accepted globals)
    (hlayouts : p.layouts globals = .ok layouts) {items : List Item}
    (h : p.items globals = .ok items) {r : Routine} (hr : r ∈ p.routines globals layouts) :
    ∃ before body after s s', r.body s = .ok ((), body, s') ∧
      items = before ++ r.entry ++ body ++ r.exit ++ after := by
  obtain ⟨s', hprogram⟩ : ∃ s', emitProgram globals layouts p {} = .ok ((), items, s') := by
    rw [Program.items, hlayouts] at h
    change (emitProgram globals layouts p {} >>= fun r => pure r.2.1) = .ok items at h
    cases hcode : emitProgram globals layouts p {} with
    | error e =>
      rw [hcode] at h
      cases h
    | ok r =>
      rw [hcode] at h
      cases h
      exact ⟨_, rfl⟩
  obtain ⟨before, body, after, s₁, s₂, hbody, hitems, -⟩ := hp.emit_routine hprogram hr
  exact ⟨before, body, after, s₁, s₂, hbody, hitems⟩

/-- The statements of a routine are those of a body of the program, in its context. -/
theorem Program.routine_isFor {r : Routine} (hr : r ∈ p.routines globals layouts) :
    ∃ b ∈ p.bodies, r.stmts = b.stmts ∧ r.context.IsFor globals layouts b := by
  rcases List.mem_cons.1 hr with rfl | hr
  · exact ⟨_, List.mem_cons_self .., rfl, rfl, rfl, rfl⟩
  · obtain ⟨site, hsite, rfl⟩ := List.mem_map.1 hr
    exact ⟨_, List.mem_cons_of_mem _ (List.mem_map.2 ⟨site, hsite, rfl⟩), rfl, rfl, rfl, rfl⟩

/-! ### Places of statements -/

/-- A block of a statement, with the computation ahead of it, which gives the labels in use, and
the number of `for` statements before it. -/
inductive Stmt.Opens (c : Context) (k : Nat) : Stmt → Emit (Label × Label) → Nat → List Stmt → Prop
  | only (loc : Loc) (test : Expr) (yes : List Stmt) :
      Opens c k (.ite loc test yes []) (do
        test.gen c
        let done ← fresh "if_end"
        beqz .a0 done
        pure (done, done)) k yes
  | yes (loc : Loc) (test : Expr) (yes no : List Stmt) (hno : no.isEmpty = false) :
      Opens c k (.ite loc test yes no) (do
        test.gen c
        let done ← fresh "if_end"
        let otherwise ← fresh "if_else"
        beqz .a0 otherwise
        pure (done, otherwise)) k yes
  | no (loc : Loc) (test : Expr) (yes no : List Stmt) (hno : no.isEmpty = false) :
      Opens c k (.ite loc test yes no) (do
        test.gen c
        let done ← fresh "if_end"
        let otherwise ← fresh "if_else"
        beqz .a0 otherwise
        Stmt.genAll c k yes
        j done
        label otherwise
        pure (done, otherwise)) (k + Stmt.forCounts yes) no
  | loop (loc : Loc) (test : Expr) (body : List Stmt) :
      Opens c k (.loop loc test body) (do
        let again ← fresh "while_check"
        let exit ← fresh "while_exit"
        label again
        test.gen c
        beqz .a0 exit
        pure (again, exit)) k body
  | each (loc : Loc) (id : Ident) (iterable : Expr) (body : List Stmt) {seq index : Int}
      (hslots : c.frame.forSlots? k = some (seq, index)) :
      Opens c k (.each loc id iterable body) (do
        let again ← fresh "for_check"
        let exit ← fresh "for_exit"
        iterable.gen c
        beqz .a0 errorNone
        sw .a0 .fp seq "for sequence"
        sw .zero .fp index "for index"
        label again
        lw .t0 .fp seq
        lw .t1 .fp index
        lw .t2 .t0 valueOffset "length"
        branch .bge .t1 .t2 exit
        nextElement iterable.type?
        lw .t1 .fp index
        addi .t1 .t1 1
        sw .t1 .fp index
        box (elementOf iterable.type?) id.mark.type?
        storeVariable c id.name
        pure (again, exit)) (k + 1) body

/-- The code of a statement in a block, nested statements included, with the code ahead of it. -/
inductive Stmt.Within (c : Context) :
    Nat → List Stmt → EmitState → List Item → Stmt → List Item → Prop
  | head {k : Nat} {t : Stmt} {ss : List Stmt} {s s' : EmitState} {own : List Item}
      (h : t.gen c k s = .ok ((), own, s')) : Within c k (t :: ss) s [] t own
  | tail {k : Nat} {t u : Stmt} {ss : List Stmt} {s s' : EmitState} {code ahead own : List Item}
      (h : t.gen c k s = .ok ((), code, s'))
      (hu : Within c (k + t.forCount) ss s' ahead u own) :
      Within c k (t :: ss) s (code ++ ahead) u own
  | inner {k k' : Nat} {t u : Stmt} {ss block : List Stmt} {x : Emit (Label × Label)}
      {s s' : EmitState} {labels : Label × Label} {code ahead own : List Item}
      (h : t.Opens c k x k' block) (hx : x s = .ok (labels, code, s'))
      (hu : Within c k' block s' ahead u own) : Within c k (t :: ss) s (code ++ ahead) u own

/-- The code of a block comes right behind what is ahead of it. -/
theorem Stmt.Opens.gen_eq {c : Context} {k k' : Nat} {t : Stmt} {block : List Stmt}
    {x : Emit (Label × Label)} (h : t.Opens c k x k' block) :
    ∃ y : Label × Label → Emit Unit, t.gen c k = (do
      let labels ← x
      Stmt.genAll c k' block
      y labels) := by
  cases h with
  | only loc test =>
    refine ⟨fun labels => label labels.1, ?_⟩
    simp only [Stmt.gen, conditional, List.isEmpty_nil, if_true, bind_assoc, pure_bind]
  | yes loc test _ no hno =>
    refine ⟨fun labels => do
      j labels.1
      label labels.2
      Stmt.genAll c (k + Stmt.forCounts block) no
      label labels.1, ?_⟩
    simp only [Stmt.gen, conditional, hno, Bool.false_eq_true, if_false, bind_assoc, pure_bind]
  | no loc test yes _ hno =>
    refine ⟨fun labels => label labels.1, ?_⟩
    simp only [Stmt.gen, conditional, hno, Bool.false_eq_true, if_false, bind_assoc, pure_bind]
  | loop loc test body =>
    refine ⟨fun labels => do
      j labels.1
      label labels.2, ?_⟩
    simp only [Stmt.gen, whileLoop, bind_assoc, pure_bind]
  | each loc id iterable body hslots =>
    refine ⟨fun labels => do
      j labels.1
      label labels.2, ?_⟩
    simp only [Stmt.gen, hslots, need_some, forLoop, bind_assoc, pure_bind]

end ChocoRv

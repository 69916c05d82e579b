import ChocoRv.Proofs.CleanDeclarations
import ChocoRv.Proofs.ControlFlow
import ChocoRv.Proofs.ReturnPaths

/-!
# Implicit returns

The code of a function returns `None` if control comes to the end of its body. Where the declared
type of its result is special, `None` is no value of it, and declarations without a report keep
control from coming there: every path through the body returns (`Path.returns`), and the code of a
body that always returns is sealed (`Stmt.genAll_sealed`).
-/

namespace ChocoRv

open Asm Codegen Emit

/-! ### Where code jumps to -/

/-- The code jumps to its own labels and to those in `out`. -/
def Asm.JumpsTo (out : List Label) (code : List Item) : Prop :=
  ∀ l ∈ jumps code, l ∈ out ∨ l ∈ defined code

theorem Asm.Moves.jumpsTo {out : List Label} {code : List Item} {d : Int}
    (h : Asm.Moves (fun l _ => l ∈ out ∨ l ∈ defined code) 0 code d) : JumpsTo out code := by
  have hlevels : Levels (fun l _ => l ∈ out ∨ l ∈ defined code) 0 code := by
    intro x hx
    obtain ⟨n, i, hn, hi, -⟩ := mem_levels hx
    exact .inr (List.mem_filterMap.2 ⟨i, List.mem_of_getElem? hn, hi⟩)
  intro l hl
  obtain ⟨item, hitem, hjump⟩ := List.mem_filterMap.1 hl
  obtain ⟨n, hn⟩ := List.mem_iff_getElem?.1 hitem
  have htidy := (h.tidy hlevels).get hn
  cases item with
  | instr i c => exact htidy.jump l hjump
  | _ => cases hjump

theorem Asm.JumpsTo.cons {out : List Label} {code : List Item} (h : JumpsTo out code) (l : Label) :
    JumpsTo (l :: out) code :=
  fun l' hl' => (h l' hl').imp (List.mem_cons_of_mem l) id

theorem Expr.gen_jumpsTo {c : Context} {e : Expr} {s s' : EmitState} {code : List Item}
    (h : e.gen c s = .ok ((), code, s')) : JumpsTo errorLabels code :=
  (e.gen_steady (fun _ hl _ _ => .inl hl) c 0 (Int.le_refl 0) _ _ _ _ h).jumpsTo

theorem Stmt.gen_jumpsTo {c : Context} {k : Nat} {t : Stmt} {s s' : EmitState} {code : List Item}
    (h : t.gen c k s = .ok ((), code, s')) : JumpsTo (c.epilogue :: errorLabels) code :=
  (Stmt.gen_moves (fun _ hl _ _ => .inl (List.mem_cons_of_mem _ hl)) (.inl List.mem_cons_self)
    k t _ _ _ _ h).jumpsTo

theorem Stmt.genAll_jumpsTo {c : Context} {k : Nat} {ss : List Stmt} {s s' : EmitState}
    {code : List Item} (h : Stmt.genAll c k ss s = .ok ((), code, s')) :
    JumpsTo (c.epilogue :: errorLabels) code :=
  (Stmt.genAll_moves (fun _ hl _ _ => .inl (List.mem_cons_of_mem _ hl)) (.inl List.mem_cons_self)
    k ss _ _ _ _ h).jumpsTo

/-- Labels outside a body do not end with a digit. -/
theorem out_notMem {l out : Label} {code : List Item} {s s' : EmitState}
    (hout : out.getLast?.all Byte.isDigit = false) (hcode : Numbered s code s')
    (hl : l ∈ out :: errorLabels) : l ∉ defined code := by
  have herrors : ∀ l ∈ errorLabels, l.getLast?.all Byte.isDigit = false := by decide
  rcases List.mem_cons.1 hl with rfl | hl
  · exact hcode.notMem hout
  · exact hcode.notMem (herrors l hl)

/-- Code of a body does not jump into what is emitted behind or ahead of it. -/
theorem jumps_apart {out : Label} {own before behind : List Item} {s s' : EmitState}
    (hout : out.getLast?.all Byte.isDigit = false)
    (hcode : Numbered s (before ++ own ++ behind) s') (hown : JumpsTo (out :: errorLabels) own) :
    ∀ l ∈ jumps own, l ∉ defined before ∧ l ∉ defined behind := by
  have hnd := hcode.nodup
  rw [defined_append, defined_append, List.nodup_append, List.nodup_append] at hnd
  obtain ⟨⟨-, -, hbefore⟩, -, hbehind⟩ := hnd
  intro l hl
  rcases hown l hl with hl | hl
  · have hnot := out_notMem hout hcode hl
    rw [defined_append, defined_append, List.mem_append, List.mem_append] at hnot
    exact ⟨fun h => hnot (.inl (.inl h)), fun h => hnot (.inr h)⟩
  · exact ⟨fun h => hbefore l h l hl rfl,
      fun h => hbehind l (List.mem_append_right _ hl) l h rfl⟩

theorem jumps_apart_behind {out : Label} {own behind : List Item} {s s' : EmitState}
    (hout : out.getLast?.all Byte.isDigit = false) (hcode : Numbered s (own ++ behind) s')
    (hown : JumpsTo (out :: errorLabels) own) : ∀ l ∈ jumps own, l ∉ defined behind := by
  have happart : ∀ l ∈ jumps own, l ∉ defined [] ∧ l ∉ defined behind :=
    jumps_apart hout hcode hown
  exact fun l hl => (happart l hl).2

/-! ### Statements that always return -/

/-- The code of a conditional in its parts. -/
theorem conditional_ok {test yes no : Emit Unit} {s s' : EmitState} {code : List Item}
    (h : conditional test yes (some no) s = .ok ((), code, s')) :
    ∃ tested s₁ yesCode s₂ s₃ noCode otherwise done, test s = .ok ((), tested, s₁) ∧
      yes s₂ = .ok ((), yesCode, s₃) ∧ no s₃ = .ok ((), noCode, s') ∧
      code = tested ++ branchCode yesCode noCode otherwise done [] [] [] [] := by
  unfold conditional at h
  obtain ⟨_, tested, s₁, _, htest, hend, rfl⟩ := bind_ok.1 h
  obtain ⟨done, _, s₂, _, ⟨⟩, helse, rfl⟩ := bind_ok.1 hend
  obtain ⟨otherwise, _, s₃, _, ⟨⟩, hbranch, rfl⟩ := bind_ok.1 helse
  obtain ⟨_, _, _, _, ⟨⟩, hblocks, rfl⟩ := bind_ok.1 hbranch
  obtain ⟨_, yesCode, s₄, _, hyes, hleave, rfl⟩ := bind_ok.1 hblocks
  obtain ⟨_, _, _, _, ⟨⟩, hlabel, rfl⟩ := bind_ok.1 hleave
  obtain ⟨_, _, _, _, ⟨⟩, hblock, rfl⟩ := bind_ok.1 hlabel
  obtain ⟨_, noCode, s₅, _, hno, ⟨⟩, rfl⟩ := bind_ok.1 hblock
  exact ⟨tested, s₁, yesCode, _, s₄, noCode, _, _, htest, hyes, hno, rfl⟩

section Sealed

variable {c : Context} (hout : c.epilogue.getLast?.all Byte.isDigit = false)

include hout

/-- Conditional code with sealed branches is sealed. -/
theorem branchCode_sealed {tested yes no : List Item} {l₁ l₂ : Label} {s s' : EmitState}
    (hcode : Numbered s (tested ++ branchCode yes no l₁ l₂ [] [] [] []) s')
    (htested : JumpsTo (c.epilogue :: errorLabels) tested)
    (hjyes : JumpsTo (c.epilogue :: errorLabels) yes) (hyes : Sealed yes)
    (hjno : JumpsTo (c.epilogue :: errorLabels) no) (hno : Sealed no) :
    Sealed (tested ++ branchCode yes no l₁ l₂ [] [] [] []) := by
  have hnd : (l₁ :: (defined yes ++ defined no) ++ [l₂]).Nodup := by
    have hnd := hcode.nodup
    rw [defined_append] at hnd
    refine (List.Perm.nodup_iff ?_).1 hnd.of_append_right
    simp [branchCode]
  -- each part of the code with what is ahead of it and behind it
  have hcode₁ : Numbered s ((tested ++ [.instr (.branchZero .beqz .a0 l₁) []]) ++ yes ++
      (.instr (.j l₂) [] :: .label l₁ [] :: (no ++ [.label l₂ []]))) s' := by
    simpa [branchCode] using hcode
  have hcode₂ : Numbered s ((tested ++ .instr (.branchZero .beqz .a0 l₁) [] :: (yes ++
      [.instr (.j l₂) [], .label l₁ []])) ++ no ++ [.label l₂ []]) s' := by
    simpa [branchCode] using hcode
  have htested' := jumps_apart_behind hout hcode htested
  have hyes' := jumps_apart hout hcode₁ hjyes
  have hno' := jumps_apart hout hcode₂ hjno
  simp only [defined_append, defined_instr, defined_label, defined_nil, List.mem_append,
    List.mem_cons, not_or, List.nodup_append, List.nodup_cons] at hnd hyes' hno'
  obtain ⟨⟨⟨hyes₁, hno₁⟩, -⟩, -, hlast⟩ := hnd
  refine Sealed.append_right ?_ htested'
  refine hyes.branches hno ⟨hlast l₁ (.inl rfl) l₂ (.inl rfl), hyes₁, hno₁, ?_, ?_⟩
  · intro l hl
    obtain ⟨-, h₁, hno₂, h₂, -⟩ := hyes' l hl
    exact ⟨h₁, h₂, hno₂⟩
  · intro l hl
    obtain ⟨⟨-, hyes₂, h₁, -⟩, h₂, -⟩ := hno' l hl
    exact ⟨h₁, h₂, hyes₂⟩

mutual

theorem Stmt.gen_sealed : ∀ {k : Nat} {t : Stmt} {s s' : EmitState} {code : List Item},
    t.returns = true → t.gen c k s = .ok ((), code, s') → Sealed code
  | k, .ret loc none, s, s', code, _, h => by
    rw [Stmt.gen] at h
    obtain ⟨_, _, _, _, _, ⟨⟩, rfl⟩ := bind_ok.1 h
    exact sealed_of_jump _ _ _
  | k, .ret loc (some e), s, s', code, _, h => by
    rw [Stmt.gen] at h
    obtain ⟨_, _, _, _, _, ⟨⟩, rfl⟩ := bind_ok.1 h
    exact sealed_of_jump _ _ _
  | k, .ite loc test yes no, s, s', code, hreturns, h => by
    rw [Stmt.returns, Bool.and_eq_true] at hreturns
    have hne : no.isEmpty = false := by
      cases no with
      | nil => cases hreturns.2
      | cons t no => rfl
    have hcode := Stmt.gen_numbers c k (.ite loc test yes no) _ _ _ _ h
    rw [Stmt.gen, hne] at h
    obtain ⟨tested, s₁, yesCode, s₂, s₃, noCode, otherwise, done, h₁, h₂, h₃, rfl⟩ :=
      conditional_ok h
    exact branchCode_sealed hout hcode ((Expr.gen_jumpsTo h₁).cons _) (Stmt.genAll_jumpsTo h₂)
      (Stmt.genAll_sealed hreturns.1 h₂) (Stmt.genAll_jumpsTo h₃)
      (Stmt.genAll_sealed hreturns.2 h₃)
  | k, .expr .., _, _, _, hreturns, _ | k, .assign .., _, _, _, hreturns, _
  | k, .loop .., _, _, _, hreturns, _ | k, .each .., _, _, _, hreturns, _ => by cases hreturns

/-- The code of statements that always return is sealed. -/
theorem Stmt.genAll_sealed : ∀ {k : Nat} {ss : List Stmt} {s s' : EmitState} {code : List Item},
    Stmt.alwaysReturns ss = true → Stmt.genAll c k ss s = .ok ((), code, s') → Sealed code
  | k, [], _, _, _, hreturns, _ => by cases hreturns
  | k, t :: ss, s, s', code, hreturns, h => by
    have hcode := Stmt.genAll_numbers c k (t :: ss) _ _ _ _ h
    rw [Stmt.genAll] at h
    obtain ⟨_, own, s₁, more, h₁, h₂, heq⟩ := bind_ok.1 h
    have happart := jumps_apart_behind hout (heq ▸ hcode) (Stmt.gen_jumpsTo h₁)
    rw [Stmt.alwaysReturns, Bool.or_eq_true] at hreturns
    rw [heq]
    rcases hreturns with hreturns | hreturns
    · exact (Stmt.gen_sealed hreturns h₁).append_left happart
    · exact (Stmt.genAll_sealed hreturns h₂).append_right happart

end

end Sealed

/-! ### Functions of a program -/

namespace Declarations

open Reporting

theorem members_returning {globals : Bindings Entry} {cls : Name} {inherited : Env} :
    ∀ {ms : List Member} {scope scope' : Scope},
      Yields (members globals cls inherited scope ms) scope' →
        ∀ f, .method f ∈ ms → f.Returning
  | [], _, _, _, _, hf => absurd hf List.not_mem_nil
  | m :: ms, scope, scope', h, f, hf => by
    simp only [members, yields_bind] at h
    obtain ⟨scope₁, hm, h⟩ := h
    rcases List.mem_cons.1 hf with rfl | hf
    · unfold member at hm
      dsimp only at hm
      split at hm
      · simp at hm
      split at hm
      · simp at hm
      simp only [yields_bind] at hm
      obtain ⟨⟨ty, inner⟩, hfunc, -⟩ := hm
      exact func_returning hfunc
    · exact members_returning h f hf

theorem classBodies_returning : ∀ {cs : List ClassDef} {globals globals' : Scope},
    Yields (classBodies globals cs) globals' → ∀ c ∈ cs, ∀ f, .method f ∈ c.members → f.Returning
  | [], _, _, _, c, hc => absurd hc List.not_mem_nil
  | d :: cs, globals, globals', h, c, hc => by
    simp only [classBodies, yields_bind] at h
    obtain ⟨scope, hscope, h⟩ := h
    rcases List.mem_cons.1 hc with rfl | hc
    · exact members_returning hscope
    · exact classBodies_returning h c hc

theorem globalFuncs_returning : ∀ {fs : List FuncDef} {globals globals' : Scope},
    Yields (globalFuncs globals fs) globals' → ∀ f ∈ fs, f.Returning
  | [], _, _, _, f, hf => absurd hf List.not_mem_nil
  | g :: fs, globals, globals', h, f, hf => by
    simp only [globalFuncs, yields_bind] at h
    obtain ⟨⟨ty, inner⟩, hfunc, b, hb, h⟩ := h
    obtain ⟨rfl, -⟩ := isNew_yields hb
    rcases List.mem_cons.1 hf with rfl | hf
    · exact func_returning hfunc
    · exact globalFuncs_returning h f hf

end Declarations

variable {globals : Scope} {p : Program}

/-- Without a report, a function of a special type always returns, and so do those in it. -/
theorem Program.returning (h : p.declare = ⟨globals, []⟩) {site : FrameSite}
    (hsite : site ∈ p.frames) : site.defn.Returning := by
  obtain ⟨-, -, _, _, _, -, -, hbodies, hfuncs⟩ := Program.declare_yields h
  obtain ⟨outer, env, hn⟩ := (Program.mem_frames_iff globals).1 hsite
  induction hn with
  | func hf =>
    exact Declarations.globalFuncs_returning hfuncs _ (List.mem_filterMap.2 ⟨_, hf, rfl⟩)
  | method hc hf =>
    exact Declarations.classBodies_returning hbodies _ (List.mem_filterMap.2 ⟨_, hc, rfl⟩) _ hf
  | inner hs hg ih =>
    cases ih ((Program.mem_frames_iff globals).2 ⟨_, _, hs⟩) with
    | mk _ inner => exact inner _ hg

theorem Program.alwaysReturns (h : p.declare = ⟨globals, []⟩) {site : FrameSite}
    (hsite : site ∈ p.frames) (hret : site.defn.ty.ret.isSpecial = true) :
    Stmt.alwaysReturns site.defn.body = true := by
  cases Program.returning h hsite with
  | mk here _ => exact here hret

/-- The item that returns `None` where control comes to the end of a body. -/
def implicitReturn : Item := .instr (.move .mv .a0 .zero) (txt "implicit return None")

/-- Where the code of a function leaves its frame. -/
def Frame.epilogue (f : Frame) : Label := f.label ++ txt "$epilogue"

theorem Frame.epilogue_notDigit (f : Frame) : f.epilogue.getLast?.all Byte.isDigit = false := by
  rw [epilogue, List.getLast?_append_of_ne_nil _ (by decide)]
  decide

theorem Frame.epilogue_notError (f : Frame) : f.epilogue ∉ errorLabels := by
  have herrors : ∀ l ∈ errorLabels, ¬ txt "$epilogue" <:+ l := by decide
  exact fun h => herrors _ h (List.suffix_append _ _)

theorem enter_epilogue {layouts : List ClassLayout} {site : FrameSite} {c : Context} {scope : Scope}
    (h : enter globals layouts site = some (c, scope)) : c.epilogue = site.frame.epilogue := by
  unfold enter at h
  obtain ⟨around, -, h⟩ := Option.bind_eq_some_iff.1 h
  obtain ⟨entry, -, h⟩ := Option.bind_eq_some_iff.1 h
  obtain ⟨ty, -, h⟩ := Option.bind_eq_some_iff.1 h
  obtain ⟨inner, -, h⟩ := Option.bind_eq_some_iff.1 h
  cases h
  rfl

theorem initLocals_jumpsTo {c : Context} {table : Bindings Entry} {ds : List LocalDecl}
    {s s' : EmitState} {code : List Item} (h : initLocals c table ds s = .ok ((), code, s')) :
    JumpsTo errorLabels code :=
  (initLocals_steady c table ds 0 (Int.le_refl 0) _ _ _ _ h).jumpsTo

/-- The code of a function in its parts. -/
theorem emitFunction_ok {layouts : List ClassLayout} {site : FrameSite} {s s' : EmitState}
    {code : List Item} (h : emitFunction globals layouts site s = .ok ((), code, s')) :
    ∃ c scope inits s₁ stmts, enter globals layouts site = some (c, scope) ∧
      initLocals c scope.entries site.defn.decls s = .ok ((), inits, s₁) ∧
      Stmt.genAll c 0 site.defn.body s₁ = .ok ((), stmts, s') ∧
      code = (Routine.ofSite globals layouts site).entry ++ (inits ++ (stmts ++ implicitReturn ::
        .label site.frame.epilogue (txt "epilogue") ::
          (Routine.ofSite globals layouts site).exit)) := by
  unfold emitFunction at h
  obtain ⟨⟨c, scope⟩, _, _, _, hneed, hentry, rfl⟩ := bind_ok.1 h
  cases henter : enter globals layouts site with
  | none =>
    rw [henter] at hneed
    cases hneed
  | some r =>
    rw [henter] at hneed
    cases hneed
    obtain ⟨_, _, _, _, ⟨⟩, h₁, rfl⟩ := bind_ok.1 hentry
    obtain ⟨_, _, _, _, ⟨⟩, h₂, rfl⟩ := bind_ok.1 h₁
    obtain ⟨_, _, _, _, ⟨⟩, h₃, rfl⟩ := bind_ok.1 h₂
    obtain ⟨_, _, _, _, ⟨⟩, h₄, rfl⟩ := bind_ok.1 h₃
    obtain ⟨_, _, _, _, ⟨⟩, hinner, rfl⟩ := bind_ok.1 h₄
    obtain ⟨_, inits, s₁, _, hinits, hbody, rfl⟩ := bind_ok.1 hinner
    obtain ⟨_, stmts, s₂, _, hstmts, hexit, rfl⟩ := bind_ok.1 hbody
    obtain ⟨_, _, _, _, ⟨⟩, h₅, rfl⟩ := bind_ok.1 hexit
    obtain ⟨_, _, _, _, ⟨⟩, h₆, rfl⟩ := bind_ok.1 h₅
    obtain ⟨_, _, _, _, ⟨⟩, h₇, rfl⟩ := bind_ok.1 h₆
    obtain ⟨_, _, _, _, ⟨⟩, h₈, rfl⟩ := bind_ok.1 h₇
    obtain ⟨_, _, _, _, ⟨⟩, ⟨⟩, rfl⟩ := bind_ok.1 h₈
    refine ⟨c, scope, inits, s₁, stmts, rfl, hinits, hstmts, ?_⟩
    rw [← enter_epilogue henter]
    rfl

/-- The code of a function that always returns never comes to its implicit return. -/
theorem emitFunction_sealed {layouts : List ClassLayout} {site : FrameSite} {s s' : EmitState}
    {code : List Item} (hreturns : Stmt.alwaysReturns site.defn.body = true)
    (h : emitFunction globals layouts site s = .ok ((), code, s')) :
    let finish := implicitReturn :: .label site.frame.epilogue (txt "epilogue") ::
      (Routine.ofSite globals layouts site).exit
    (∃ ahead, code = ahead ++ finish) ∧ ¬ Reached code finish := by
  obtain ⟨c, scope, inits, s₁, stmts, henter, hinits, hstmts, rfl⟩ := emitFunction_ok h
  have hepilogue := enter_epilogue henter
  have hout : c.epilogue.getLast?.all Byte.isDigit = false :=
    hepilogue ▸ site.frame.epilogue_notDigit
  have hnumbered := initLocals_numbers c scope.entries site.defn.decls _ _ _ _ hinits
  have hboth := hnumbered.append (Stmt.genAll_numbers c 0 site.defn.body _ _ _ _ hstmts)
  have hjumps := initLocals_jumpsTo hinits
  have hclosed := Stmt.genAll_sealed hout hreturns hstmts
  rw [← List.append_assoc]
  refine ⟨⟨(Routine.ofSite globals layouts site).entry ++ inits ++ stmts, by simp⟩,
    hclosed.not_reached rfl (fun l hl => ?_) rfl⟩
  have hl : l ∈ jumps inits := by
    rw [jumps_append] at hl
    exact hl
  have hne : l ≠ site.frame.epilogue := by
    rintro rfl
    rcases hjumps _ hl with hl | hl
    · exact site.frame.epilogue_notError hl
    · exact hnumbered.notMem site.frame.epilogue_notDigit hl
  have hstmts := jumps_apart_behind hout hboth (hjumps.cons _) l hl
  rw [defined_append, List.mem_append, not_or]
  exact ⟨hstmts, fun h => hne (List.mem_singleton.1 h)⟩

/-- The check for returns is exact for the paths through statements. So in a program that is
declared without a report, with types or without, a function of type `int`, `str` or `bool` returns
on every path through its body, and control never comes to the implicit return in its code. -/
theorem return_check_exact :
    (∀ ss, Stmt.alwaysReturns ss = true ↔
      ∀ path, Stmt.Path ss path → ∃ s ∈ path, s.isReturn = true) ∧
    ∀ (p : Program) (globals : Scope), p.declare = ⟨globals, []⟩ → ∀ site ∈ p.frames,
      site.defn.ty.ret ∈ [.int, .str, .bool] →
      (∀ path, Stmt.Path site.defn.body path → ∃ s ∈ path, s.isReturn = true) ∧
      ∀ layouts s s' code, emitFunction globals layouts site s = .ok ((), code, s') →
        ∃ ahead behind, code = ahead ++
            implicitReturn :: .label site.frame.epilogue (txt "epilogue") :: behind ∧
          ¬ Reached code
            (implicitReturn :: .label site.frame.epilogue (txt "epilogue") :: behind) := by
  have hspecial : ∀ t ∈ [Ty.int, .str, .bool], t.isSpecial = true := by decide
  refine ⟨fun ss => Stmt.alwaysReturns_iff, fun p globals hdeclare site hsite hret => ?_⟩
  have hreturns := Program.alwaysReturns hdeclare hsite (hspecial _ hret)
  refine ⟨Stmt.alwaysReturns_iff.1 hreturns, fun layouts s s' code hcode => ?_⟩
  obtain ⟨⟨ahead, hahead⟩, hreached⟩ := emitFunction_sealed hreturns hcode
  exact ⟨ahead, _, hahead, hreached⟩

/-- A function that returns in both branches behind a loop. -/
def signOf : Bytes :=
  txt "def sign(x:int)->int:\n  while x > 1:\n    x = x // 2\n  if x > 0:\n    return 1\n" ++
    txt "  elif x < 0:\n    return -1\n  else:\n    return 0\n"

theorem signOf_returns : ∃ globals p, Accepts signOf globals p ∧ ∃ site ∈ p.frames,
    site.defn.ty.ret = .int ∧
    (∀ path, Stmt.Path site.defn.body path → ∃ s ∈ path, s.isReturn = true) ∧
    ∃ layouts code s' ahead behind, emitFunction globals layouts site {} = .ok ((), code, s') ∧
      code = ahead ++ implicitReturn :: .label site.frame.epilogue (txt "epilogue") :: behind ∧
      ¬ Reached code (implicitReturn :: .label site.frame.epilogue (txt "epilogue") :: behind) := by
  have hrun : (accepted? signOf).any (fun r => r.2.frames.any fun site =>
      site.defn.ty.ret = .int && (emitFunction r.1 [] site {}).toOption.isSome) = true := by
    decide +kernel
  obtain ⟨⟨globals, p⟩, hr, hsites⟩ := (Option.any_eq_true _ _).1 hrun
  obtain ⟨site, hsite, htest⟩ := List.any_eq_true.1 hsites
  obtain ⟨hret, hcode⟩ := Bool.and_eq_true_iff.1 htest
  have hret : site.defn.ty.ret = .int := of_decide_eq_true hret
  have haccepts := accepts_of_accepted? hr
  obtain ⟨hpaths, hclosed⟩ := return_check_exact.2 p globals haccepts.analyzed.2.1 site hsite
    (hret ▸ List.mem_cons_self)
  cases hemit : emitFunction globals [] site {} with
  | error e =>
    rw [hemit] at hcode
    cases hcode
  | ok r =>
    obtain ⟨⟨⟩, code, s'⟩ := r
    obtain ⟨ahead, behind, hplace, hunreached⟩ := hclosed [] {} s' code hemit
    exact ⟨globals, p, haccepts, site, hsite, hret, hpaths, [], code, s', ahead, behind, hemit,
      hplace, hunreached⟩

end ChocoRv
